import Handicap.Engine.Render
import Handicap.Library.Guard

-- The strict renderers and the others agree.
namespace Engine

variable {ctx : TemplateContext} {ps : List Piece} {out : List Char} {sink : Option (List String)}
variable {r : Rendering} {input s x : String} {unbound names : List String}

theorem rendered_eq {lenient : Bool} :
    rendered input ctx lenient sink = renderPieces ctx lenient (pieces 0 input.toList) ⟨[], sink⟩ := by
  simp only [rendered, renderInner_eq, Option.get_some]

theorem resolve_ok {name : String} {value : Option String}
    (h : Rendering.resolve ⟨out, sink⟩ false name value = .ok r) :
    r.sink = sink ∧
      ∀ sink', Rendering.resolve ⟨out, sink'⟩ true name value = .ok ⟨r.out, sink'⟩ := by
  cases value <;> cases h
  exact ⟨rfl, fun _ => rfl⟩

theorem resolve_unknown {name : String} {value : Option String}
    (h : Rendering.resolve ⟨out, sink⟩ false name value = .error (.unknownVar x)) :
    x ∈ if value.isSome then [] else [name] := by
  cases value <;> cases h
  exact List.mem_singleton_self _

theorem resolve_collecting (name : String) (value : Option String) (out names) :
    ∃ out', Rendering.resolve ⟨out, some names⟩ true name value =
      .ok ⟨out', some (names ++ if value.isSome then [] else [name])⟩ := by
  cases value
  case none       => exact ⟨out, rfl⟩
  case some value => exact ⟨out ++ value.toList, by simp [Rendering.resolve, Rendering.push]⟩

-- The name that has no value.
def Piece.missing (ctx : TemplateContext) : Piece → List String
  | flow name           => if (ctx.vars.lookup name).isSome then [] else [name]
  | system name default => if (ctx.system name default).isSome then [] else [name]
  | _                   => []

-- A piece that is rendered strictly is rendered to the same text by the others, which collect
-- nothing for it.
theorem Piece.render_ok {p : Piece} (h : p.render ctx false ⟨out, sink⟩ = .ok r) :
    r.sink = sink ∧ ∀ sink', p.render ctx true ⟨out, sink'⟩ = .ok ⟨r.out, sink'⟩ := by
  cases p
  case literal =>
    cases h
    exact ⟨rfl, fun _ => rfl⟩
  case flow     => exact resolve_ok h
  case system   => exact resolve_ok h
  case unclosed => cases h

theorem Piece.render_unknown {p : Piece}
    (h : p.render ctx false ⟨out, sink⟩ = .error (.unknownVar x)) : x ∈ p.missing ctx := by
  cases p
  case literal           => cases h
  case flow name         => exact resolve_unknown h
  case system name value => exact resolve_unknown h
  case unclosed          => cases h

theorem Piece.render_collecting (p : Piece) (ctx out names) :
    ∃ out', p.render ctx true ⟨out, some names⟩ = .ok ⟨out', some (names ++ p.missing ctx)⟩ := by
  cases p
  case literal c           => exact ⟨out ++ [c], by simp [Piece.render, Rendering.push, missing]⟩
  case flow name           => exact resolve_collecting name _ out names
  case system name default => exact resolve_collecting name _ out names
  case unclosed _ rest     => exact ⟨out ++ rest, by simp [Piece.render, Rendering.push, missing]⟩

theorem renderPieces_ok (h : renderPieces ctx false ps ⟨out, sink⟩ = .ok r) (sink') :
    renderPieces ctx true ps ⟨out, sink'⟩ = .ok ⟨r.out, sink'⟩ := by
  induction ps generalizing out sink
  case nil =>
    cases h
    rfl
  case cons p ps ih =>
    rw [renderPieces, List.foldlM_cons] at h ⊢
    cases hp : p.render ctx false ⟨out, sink⟩
    case error e =>
      rw [hp] at h
      cases h
    case ok r' =>
      rw [hp] at h
      rw [(Piece.render_ok hp).2 sink']
      exact ih h

theorem renderPieces_collecting (ctx ps out names) :
    ∃ out', renderPieces ctx true ps ⟨out, some names⟩ =
      .ok ⟨out', some (names ++ ps.flatMap (Piece.missing ctx))⟩ := by
  induction ps generalizing out names
  case nil => exact ⟨out, by simp [renderPieces, pure, Except.pure]⟩
  case cons p ps ih =>
    obtain ⟨out₁, h₁⟩ := p.render_collecting ctx out names
    obtain ⟨out₂, h₂⟩ := ih out₁ (names ++ p.missing ctx)
    refine ⟨out₂, ?_⟩
    rw [renderPieces, List.foldlM_cons, h₁, List.flatMap_cons, ← List.append_assoc]
    exact h₂

-- A strict renderer fails at the first name that has no value.
theorem renderPieces_unknown
    (h : renderPieces ctx false ps ⟨out, sink⟩ = .error (.unknownVar x)) :
    x ∈ ps.flatMap (Piece.missing ctx) := by
  induction ps generalizing out sink
  case nil => cases h
  case cons p ps ih =>
    rw [renderPieces, List.foldlM_cons] at h
    rw [List.flatMap_cons]
    cases hp : p.render ctx false ⟨out, sink⟩
    case error e =>
      rw [hp] at h
      cases h
      exact List.mem_append_left _ (Piece.render_unknown hp)
    case ok r' =>
      rw [hp] at h
      exact List.mem_append_right _ (ih h)

theorem render_eq : render input ctx =
    (renderPieces ctx false (pieces 0 input.toList) ⟨[], none⟩).map fun r => .ofList r.out := by
  rw [render, rendered_eq]

theorem renderCollecting_eq
    (h : renderPieces ctx true (pieces 0 input.toList) ⟨[], some unbound⟩ = .ok ⟨out, some names⟩) :
    renderCollecting input ctx unbound = (.ofList out, names) := by
  simp only [renderCollecting, rendered_eq, h, Option.getD_some]

-- What strict rendering has a result for, it has read from the same pieces.
theorem renderPieces_of_render (h : render input ctx = .ok s) :
    ∃ r : Rendering, renderPieces ctx false (pieces 0 input.toList) ⟨[], none⟩ = .ok r ∧
      .ofList r.out = s := by
  rw [render_eq] at h
  cases hp : renderPieces ctx false (pieces 0 input.toList) ⟨[], none⟩
  case error e =>
    rw [hp] at h
    cases h
  case ok r =>
    rw [hp] at h
    exact ⟨r, rfl, Except.ok.inj h⟩

theorem renderPieces_of_unknown (h : render input ctx = .error (.unknownVar x)) :
    renderPieces ctx false (pieces 0 input.toList) ⟨[], none⟩ = .error (.unknownVar x) := by
  rw [render_eq] at h
  cases hp : renderPieces ctx false (pieces 0 input.toList) ⟨[], none⟩
  case error e =>
    rw [hp] at h
    cases h
    rfl
  case ok r =>
    rw [hp] at h
    cases h

theorem renderLenient_of_ok (h : render input ctx = .ok s) : renderLenient input ctx = s := by
  have ⟨r, hp, hs⟩ := renderPieces_of_render h
  rw [renderLenient, rendered_eq, renderPieces_ok hp none]
  exact hs

theorem renderCollecting_of_ok (h : render input ctx = .ok s) :
    renderCollecting input ctx unbound = (s, unbound) := by
  have ⟨r, hp, hs⟩ := renderPieces_of_render h
  rw [renderCollecting_eq (renderPieces_ok hp (some unbound)), hs]

-- The names without a value in a template.
def missingNames (ctx : TemplateContext) (input : String) : List String :=
  (pieces 0 input.toList).flatMap (Piece.missing ctx)

theorem renderCollecting_snd :
    (renderCollecting input ctx unbound).2 = unbound ++ missingNames ctx input := by
  have ⟨_, h⟩ := renderPieces_collecting ctx (pieces 0 input.toList) [] unbound
  rw [renderCollecting_eq h, missingNames]

theorem mem_missingNames (h : render input ctx = .error (.unknownVar x)) :
    x ∈ missingNames ctx input :=
  renderPieces_unknown (renderPieces_of_unknown h)

-- A strict renderer and one that collects the names without a value.
structure Agree {α : Type} (strict : Except EngineError α)
    (collecting : List String → α × List String) : Prop where
  ok      : ∀ {a}, strict = .ok a → ∀ unbound, collecting unbound = (a, unbound)
  grows   : ∀ unbound, unbound <+: (collecting unbound).2
  unknown : ∀ {x}, strict = .error (.unknownVar x) → ∀ unbound, x ∈ (collecting unbound).2

namespace Agree

variable {α β γ : Type} {s₁ : Except EngineError α} {s₂ : Except EngineError β}
variable {c₁ : List String → α × List String} {c₂ : List String → β × List String}

theorem render : Agree (Engine.render input ctx) (renderCollecting input ctx) where
  ok h _      := renderCollecting_of_ok h
  grows _     := renderCollecting_snd ▸ List.prefix_append ..
  unknown h _ := renderCollecting_snd ▸ List.mem_append_right _ (mem_missingNames h)

theorem pure (a : α) : Agree (.ok a) fun unbound => (a, unbound) where
  ok h _      := by cases h; rfl
  grows _     := List.prefix_rfl
  unknown h _ := by cases h

theorem map (f : α → β) (h : Agree s₁ c₁) :
    Agree (do return f (← s₁)) fun unbound => (f (c₁ unbound).1, (c₁ unbound).2) where
  ok hb unbound := by
    have ⟨a, ha, hf⟩ := Guard.bind_eq_ok.mp hb
    cases hf
    rw [h.ok ha]
  grows unbound := h.grows unbound
  unknown he unbound := by
    cases Guard.bind_eq_error.mp he
    case inl he => exact h.unknown he unbound
    case inr he =>
      have ⟨_, _, hf⟩ := he
      cases hf

-- The second one adds to what the first one has collected.
theorem seq (f : α → β → γ) (h₁ : Agree s₁ c₁) (h₂ : Agree s₂ c₂) :
    Agree (do let a ← s₁; return f a (← s₂)) fun unbound =>
      (f (c₁ unbound).1 (c₂ (c₁ unbound).2).1, (c₂ (c₁ unbound).2).2) where
  ok hb unbound := by
    have ⟨a, ha, hb⟩ := Guard.bind_eq_ok.mp hb
    have ⟨b, hb', hf⟩ := Guard.bind_eq_ok.mp hb
    cases hf
    rw [h₁.ok ha, h₂.ok hb']
  grows unbound := (h₁.grows unbound).trans (h₂.grows _)
  unknown he unbound := by
    cases Guard.bind_eq_error.mp he
    case inl he => exact (h₂.grows _).subset (h₁.unknown he unbound)
    case inr he =>
      have ⟨a, _, he⟩ := he
      cases Guard.bind_eq_error.mp he
      case inl he => exact h₂.unknown he _
      case inr he =>
        have ⟨_, _, hf⟩ := he
        cases hf

-- A coercion whose error is not that of a name without a value.
theorem coerce {strict : Except EngineError String} {c : List String → String × List String}
    (h : Agree strict c) (coerce : String → Option Json) {fail : String → EngineError}
    (hf : ∀ r x, fail r ≠ .unknownVar x) :
    Agree (strict >>= fun r => (coerce r).elim (.error (fail r)) .ok) fun unbound =>
      ((coerce (c unbound).1).getD (.string (c unbound).1), (c unbound).2) where
  ok hv unbound := by
    have ⟨r, hr, hv⟩ := Guard.bind_eq_ok.mp hv
    rw [h.ok hr]
    cases hj : coerce r <;> rw [hj] at hv <;> cases hv
    rfl
  grows unbound := h.grows unbound
  unknown he unbound := by
    cases Guard.bind_eq_error.mp he
    case inl he => exact h.unknown he unbound
    case inr he =>
      have ⟨r, _, hv⟩ := he
      cases hj : coerce r <;> rw [hj] at hv
      case none   => exact absurd (Except.error.inj hv) (hf r _)
      case some v => cases hv

variable {fromStr : String → Option Json}

-- Both renderers of JSON bodies read a leaf in the same way.
theorem leaf : Agree (renderLeaf fromStr ctx s) (renderLeafCollecting fromStr ctx s) := by
  unfold renderLeaf renderLeafCollecting
  cases parseCastLeaf s
  case none => exact render.map Json.string
  case some leaf =>
    obtain ⟨bare, cast⟩ := leaf
    cases cast
    case str  => exact render.map Json.string
    case num  => exact render.coerce (coerceNum fromStr) (by simp)
    case bool => exact render.coerce coerceBool (by simp)
    case json => exact render.coerce (coerceJson fromStr) (by simp)

mutual

theorem value (v : Json) :
    Agree (renderJsonValue fromStr ctx v) (renderJsonCollecting fromStr ctx v) := by
  cases v
  case null       => exact pure Json.null
  case bool b     => exact pure (Json.bool b)
  case number n   => exact pure (Json.number n)
  case string s   => exact leaf
  case array l    => exact (items l).map Json.array
  case object map => exact (entries map).map Json.object

theorem items (l : List Json) :
    Agree (renderJsonItems fromStr ctx l) (renderItemsCollecting fromStr ctx l) := by
  cases l
  case nil      => exact pure []
  case cons v l => exact (value v).seq List.cons (items l)

theorem entries (l : List (String × Json)) :
    Agree (renderJsonEntries fromStr ctx l) (renderEntriesCollecting fromStr ctx l) := by
  cases l
  case nil => exact pure []
  case cons e l =>
    obtain ⟨k, v⟩ := e
    exact (value v).seq (fun v l => (k, v) :: l) (entries l)

end

end Agree

-- Every renderer has a result for every template. What the strict ones render, the others render to
-- the same, without a name that has no value, and a name that the strict ones fail at is collected.
theorem renderers_agree (ctx : TemplateContext) (fromStr : String → Option Json) :
    (∀ input lenient sink, (renderInner input ctx lenient sink).isSome) ∧
      (∀ input s, render input ctx = .ok s → renderLenient input ctx = s) ∧
      (∀ input, Agree (render input ctx) (renderCollecting input ctx)) ∧
      ∀ value, Agree (renderJsonValue fromStr ctx value) (renderJsonCollecting fromStr ctx value) := by
  refine ⟨fun input lenient sink => ?_, fun _ _ => renderLenient_of_ok, fun _ => .render, .value⟩
  rw [renderInner_eq]
  rfl

-- A text without braces has no tokens.
theorem pieces_plain {l : List Char} (h : '{' ∉ l) (pos : ℕ) : pieces pos l = l.map .literal := by
  induction l generalizing pos
  case nil => rw [pieces, List.map_nil]
  case cons c l ih =>
    have hl : '{' ∉ l := fun hm => h (List.mem_cons_of_mem c hm)
    have hnext : l.head? ≠ some '{' := fun he => hl (List.mem_of_mem_head? he)
    rw [pieces, if_neg fun h => hnext h.2, if_neg fun h => hnext h.2, ih hl, List.map_cons]

theorem render_plain (h : '{' ∉ input.toList) : render input ctx = .ok input := by
  have hlit (l : List Char) (r : Rendering) :
      renderPieces ctx false (l.map .literal) r = .ok (r.push l) := by
    induction l generalizing r
    case nil => exact congrArg Except.ok push_nil.symm
    case cons c l ih => exact (ih _).trans (congrArg Except.ok push_push)
  rw [render, rendered_eq, pieces_plain h, hlit]
  simp [Except.map, Rendering.push]

end Engine
