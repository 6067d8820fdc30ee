import Handicap.Engine.Theorems.Refresh

-- What the outcome of rendering a request depends on.
namespace Engine

open Guard (SameUnless)

variable {lib : Libraries} {fromStr : String → Option Json} {ctx ctx' : TemplateContext}
variable {kind : EngineError → Prop} {input x : String} {ps : List Piece}

section Same

-- Renderings with two contexts whose templates are rendered to the same, unless there is an error.
variable (ctx ctx' kind) in
def SameAt (templates : List String) : Prop :=
  ∀ t ∈ templates, SameUnless kind (render t ctx) (render t ctx')

theorem SameAt.left {ts ts' : List String} (h : SameAt ctx ctx' kind (ts ++ ts')) :
    SameAt ctx ctx' kind ts :=
  fun t ht => h t (List.mem_append_left _ ht)

theorem SameAt.right {ts ts' : List String} (h : SameAt ctx ctx' kind (ts ++ ts')) :
    SameAt ctx ctx' kind ts' :=
  fun t ht => h t (List.mem_append_right _ ht)

theorem renderLeaf_same {s : String} (h : SameAt ctx ctx' kind [leafTemplate s]) :
    SameUnless kind (renderLeaf fromStr ctx s) (renderLeaf fromStr ctx' s) := by
  have h := h _ (List.mem_singleton_self _)
  unfold renderLeaf
  unfold leafTemplate at h
  cases hl : parseCastLeaf s
  case none =>
    rw [hl] at h
    exact h.bind fun _ => .refl
  case some leaf =>
    obtain ⟨bare, cast⟩ := leaf
    rw [hl] at h
    cases cast <;> exact h.bind fun _ => .refl

mutual

theorem renderJsonValue_same (v : Json) (h : SameAt ctx ctx' kind v.templates) :
    SameUnless kind (renderJsonValue fromStr ctx v) (renderJsonValue fromStr ctx' v) := by
  cases v
  case null       => exact .refl
  case bool b     => exact .refl
  case number n   => exact .refl
  case string s   => exact renderLeaf_same h
  case array l    => exact (renderJsonItems_same l h).bind fun _ => .refl
  case object map => exact (renderJsonEntries_same map h).bind fun _ => .refl

theorem renderJsonItems_same (l : List Json) (h : SameAt ctx ctx' kind (itemTemplates l)) :
    SameUnless kind (renderJsonItems fromStr ctx l) (renderJsonItems fromStr ctx' l) := by
  cases l
  case nil => exact .refl
  case cons v l =>
    exact (renderJsonValue_same v h.left).bind fun _ =>
      (renderJsonItems_same l h.right).bind fun _ => .refl

theorem renderJsonEntries_same (l : List (String × Json))
    (h : SameAt ctx ctx' kind (entryTemplates l)) :
    SameUnless kind (renderJsonEntries fromStr ctx l) (renderJsonEntries fromStr ctx' l) := by
  cases l
  case nil => exact .refl
  case cons e l =>
    exact (renderJsonValue_same e.2 h.left).bind fun _ =>
      (renderJsonEntries_same l h.right).bind fun _ => .refl

end

theorem renderHeaders_same (fields : List (String × String)) (headers : Table String String)
    (h : SameAt ctx ctx' kind (fields.map Prod.snd)) :
    SameUnless kind (renderHeaders lib ctx fields headers)
      (renderHeaders lib ctx' fields headers) := by
  induction fields generalizing headers
  case nil => exact .refl
  case cons field fields ih =>
    refine SameUnless.bind (h _ List.mem_cons_self) fun v => ?_
    cases lib.headerName field.1
    case error e => exact .refl
    case ok name =>
      cases lib.headerValue v
      case error e  => exact .refl
      case ok value => exact ih _ fun t ht => h t (List.mem_cons_of_mem _ ht)

theorem renderFields_same (fields : List (String × String))
    (h : SameAt ctx ctx' kind (fields.map Prod.snd)) :
    SameUnless kind (renderFields ctx fields) (renderFields ctx' fields) := by
  induction fields
  case nil => exact .refl
  case cons field fields ih =>
    exact (h _ List.mem_cons_self).bind fun _ =>
      (ih fun t ht => h t (List.mem_cons_of_mem _ ht)).bind fun _ => .refl

theorem renderBody_same (body : Body) (h : SameAt ctx ctx' kind body.templates) :
    SameUnless kind (renderBody lib ctx body) (renderBody lib ctx' body) := by
  cases body
  case json value  => exact (renderJsonValue_same value h).bind fun _ => .refl
  case form fields => exact (renderFields_same fields h).bind fun _ => .refl
  case raw text    => exact (h _ List.mem_cons_self).bind fun _ => .refl

theorem buildRequest_same (step : HttpStep) (h : SameAt ctx ctx' kind step.request.templates) :
    SameUnless kind (buildRequest lib ctx step) (buildRequest lib ctx' step) := by
  have hrest : SameAt ctx ctx' kind (step.request.headers.map Prod.snd ++
      (step.request.body.map Body.templates).getD []) :=
    fun t ht => h t (List.mem_cons_of_mem _ ht)
  refine SameUnless.bind (h _ List.mem_cons_self) fun url => ?_
  refine SameUnless.bind (renderHeaders_same _ _ hrest.left) fun headers => ?_
  have hbody := hrest.right
  cases hb : step.request.body
  case none => exact .refl
  case some body =>
    rw [hb] at hbody
    exact (renderBody_same body hbody).bind fun _ => .refl

end Same

section Ok

-- Templates that are all rendered.
variable (ctx) in
def RenderedAt (templates : List String) : Prop :=
  ∀ t ∈ templates, ∃ s, render t ctx = .ok s

theorem RenderedAt.append {ts ts' : List String} (h : RenderedAt ctx ts) (h' : RenderedAt ctx ts') :
    RenderedAt ctx (ts ++ ts') :=
  List.forall_mem_append.mpr ⟨h, h'⟩

theorem renderLeaf_ok {s : String} {v : Json} (h : renderLeaf fromStr ctx s = .ok v) :
    RenderedAt ctx [leafTemplate s] := by
  intro t ht
  rw [List.mem_singleton.mp ht]
  unfold renderLeaf at h
  unfold leafTemplate
  cases hl : parseCastLeaf s
  case none =>
    rw [hl] at h
    have ⟨r, hr, _⟩ := Guard.bind_eq_ok.mp h
    exact ⟨r, hr⟩
  case some leaf =>
    obtain ⟨bare, cast⟩ := leaf
    rw [hl] at h
    cases cast <;>
      · have ⟨r, hr, _⟩ := Guard.bind_eq_ok.mp h
        exact ⟨r, hr⟩

mutual

theorem renderJsonValue_ok (v : Json) {r : Json} (h : renderJsonValue fromStr ctx v = .ok r) :
    RenderedAt ctx v.templates := by
  cases v
  case string s => exact renderLeaf_ok h
  case array l =>
    have ⟨_, h, _⟩ := Guard.bind_eq_ok.mp h
    exact renderJsonItems_ok l h
  case object map =>
    have ⟨_, h, _⟩ := Guard.bind_eq_ok.mp h
    exact renderJsonEntries_ok map h
  all_goals exact fun t ht => absurd ht List.not_mem_nil

theorem renderJsonItems_ok (l : List Json) {r : List Json}
    (h : renderJsonItems fromStr ctx l = .ok r) : RenderedAt ctx (itemTemplates l) := by
  cases l
  case nil => exact fun t ht => absurd ht List.not_mem_nil
  case cons v l =>
    have ⟨_, hv, h⟩ := Guard.bind_eq_ok.mp h
    have ⟨_, hl, _⟩ := Guard.bind_eq_ok.mp h
    exact (renderJsonValue_ok v hv).append (renderJsonItems_ok l hl)

theorem renderJsonEntries_ok (l : List (String × Json)) {r : List (String × Json)}
    (h : renderJsonEntries fromStr ctx l = .ok r) : RenderedAt ctx (entryTemplates l) := by
  cases l
  case nil => exact fun t ht => absurd ht List.not_mem_nil
  case cons e l =>
    have ⟨_, hv, h⟩ := Guard.bind_eq_ok.mp h
    have ⟨_, hl, _⟩ := Guard.bind_eq_ok.mp h
    exact (renderJsonValue_ok e.2 hv).append (renderJsonEntries_ok l hl)

end

theorem renderHeaders_ok (fields : List (String × String)) {headers r : Table String String}
    (h : renderHeaders lib ctx fields headers = .ok r) : RenderedAt ctx (fields.map Prod.snd) := by
  induction fields generalizing headers
  case nil => exact fun t ht => absurd ht List.not_mem_nil
  case cons field fields ih =>
    have ⟨v, hv, h⟩ := Guard.bind_eq_ok.mp h
    cases hn : lib.headerName field.1
    case error e =>
      rw [hn] at h
      cases h
    case ok name =>
      rw [hn] at h
      cases hval : lib.headerValue v
      case error e =>
        simp only [hval] at h
        cases h
      case ok value =>
        simp only [hval] at h
        exact List.forall_mem_cons.mpr ⟨⟨v, hv⟩, ih h⟩

theorem renderFields_ok (fields : List (String × String)) {r : List (String × String)}
    (h : renderFields ctx fields = .ok r) : RenderedAt ctx (fields.map Prod.snd) := by
  induction fields generalizing r
  case nil => exact fun t ht => absurd ht List.not_mem_nil
  case cons field fields ih =>
    have ⟨v, hv, h⟩ := Guard.bind_eq_ok.mp h
    have ⟨_, hl, _⟩ := Guard.bind_eq_ok.mp h
    exact List.forall_mem_cons.mpr ⟨⟨v, hv⟩, ih hl⟩

theorem renderBody_ok (body : Body) {r : RenderedBody} (h : renderBody lib ctx body = .ok r) :
    RenderedAt ctx body.templates := by
  cases body
  case json value =>
    have ⟨_, h, _⟩ := Guard.bind_eq_ok.mp h
    exact renderJsonValue_ok value h
  case form fields =>
    have ⟨_, h, _⟩ := Guard.bind_eq_ok.mp h
    exact renderFields_ok fields h
  case raw text =>
    have ⟨s, h, _⟩ := Guard.bind_eq_ok.mp h
    exact List.forall_mem_singleton.mpr ⟨s, h⟩

theorem buildRequest_ok {step : HttpStep} {r : HttpRequest} (h : buildRequest lib ctx step = .ok r) :
    RenderedAt ctx step.request.templates := by
  have ⟨url, hurl, h⟩ := Guard.bind_eq_ok.mp h
  have ⟨headers, hheaders, h⟩ := Guard.bind_eq_ok.mp h
  refine List.forall_mem_cons.mpr ⟨⟨url, hurl⟩, (renderHeaders_ok _ hheaders).append ?_⟩
  cases hb : step.request.body
  case none => exact fun t ht => absurd ht List.not_mem_nil
  case some body =>
    rw [hb] at h
    have ⟨_, h, _⟩ := Guard.bind_eq_ok.mp h
    exact renderBody_ok body h

end Ok

section Lookup

variable {p : Piece} {r : Rendering}

-- The variables that two contexts have the same values for, where everything else is the same.
structure SameBut (x : String) (ctx ctx' : TemplateContext) : Prop where
  vars   : ∀ y, y ≠ x → ctx'.vars.lookup y = ctx.vars.lookup y
  system : ctx'.system = ctx.system

theorem Piece.render_same (h : SameBut x ctx ctx') (hp : p ≠ .flow x) :
    p.render ctx' false r = p.render ctx false r := by
  cases p
  case flow y =>
    have hne : y ≠ x := fun he => hp (he ▸ rfl)
    rw [Piece.render, Piece.render, h.vars y hne]
  case system name default => rw [Piece.render, Piece.render, h.system]
  all_goals rfl

theorem renderPieces_same (h : SameBut x ctx ctx') (hp : .flow x ∉ ps) :
    renderPieces ctx' false ps r = renderPieces ctx false ps r := by
  induction ps generalizing r
  case nil => rfl
  case cons p ps ih =>
    have hne : p ≠ .flow x := fun he => hp (he ▸ List.mem_cons_self)
    rw [renderPieces, List.foldlM_cons, Piece.render_same h hne, renderPieces, List.foldlM_cons]
    refine congrArg _ (funext fun r => ?_)
    exact ih fun hm => hp (List.mem_cons_of_mem _ hm)

theorem render_same (h : SameBut x ctx ctx') (hp : .flow x ∉ pieces 0 input.toList) :
    render input ctx' = render input ctx := by
  rw [render_eq, render_eq, renderPieces_same h hp]

-- Without a value for a name, rendering fails at it, if it has not failed before.
theorem renderPieces_without (h : SameBut x ctx ctx') (hx : ctx.vars.lookup x = none) :
    SameUnless (· = .unknownVar x) (renderPieces ctx false ps r) (renderPieces ctx' false ps r) := by
  induction ps generalizing r
  case nil => exact .refl
  case cons p ps ih =>
    rw [renderPieces, List.foldlM_cons, renderPieces, List.foldlM_cons]
    by_cases hp : p = .flow x
    case pos =>
      refine .inr ⟨_, rfl, ?_⟩
      rw [hp, Piece.render, hx]
      rfl
    case neg =>
      rw [Piece.render_same h hp]
      exact SameUnless.refl.bind fun r => ih

theorem render_without (h : SameBut x ctx ctx') (hx : ctx.vars.lookup x = none) :
    SameUnless (· = .unknownVar x) (render input ctx) (render input ctx') := by
  rw [render_eq, render_eq]
  cases @renderPieces_without ctx ctx' x (pieces 0 input.toList) ⟨[], none⟩ h hx
  case inl he => exact .inl (by rw [he])
  case inr he =>
    obtain ⟨e, hk, he⟩ := he
    exact .inr ⟨e, hk, by rw [he]; rfl⟩

theorem renderPieces_fails (hx : ctx.vars.lookup x = none) (hp : .flow x ∈ ps) {r' : Rendering} :
    renderPieces ctx false ps r ≠ .ok r' := by
  induction ps generalizing r
  case nil => cases hp
  case cons p ps ih =>
    intro h
    rw [renderPieces, List.foldlM_cons] at h
    obtain ⟨r₁, h₁, h₂⟩ := Guard.bind_eq_ok.mp h
    cases List.mem_cons.mp hp
    case inl he =>
      rw [← he, Piece.render, hx] at h₁
      cases h₁
    case inr hp => exact ih hp h₂

theorem render_fails (hx : ctx.vars.lookup x = none) (hp : .flow x ∈ pieces 0 input.toList)
    {s : String} : render input ctx ≠ .ok s := by
  intro h
  have ⟨_, h, _⟩ := renderPieces_of_render h
  exact renderPieces_fails hx hp h

end Lookup

-- The names that a request refers to, out of those of a plan.
def planRefs (fromStr : String → Option Json) (names : List String) (request : Request) : List ℕ :=
  requestFlowRefs fromStr request (names.foldl (fun env name => env.insert name "") ∅)
    (fun name => names.findIdx? (· = name)) names.length

theorem mem_planRefs {names : List String} {request : Request} {i : ℕ}
    (h : names.findIdx? (· = x) = some i) :
    i ∈ planRefs fromStr names request ↔ request.Refers x := by
  have hdummy (y : String) (hy : (names.findIdx? (· = y)).isSome) :
      ((names.foldl (fun env name => env.insert name "") (∅ : Table String String)).lookup y).isSome :=
    AList.lookup_isSome.mpr (mem_dummyEnv ∅ (.inl (by simpa using hy)))
  have hname {y : String} (hy : names.findIdx? (· = y) = some i) : names[i]? = some y := by
    obtain ⟨hlt, hi, _⟩ := List.findIdx?_eq_some_iff_getElem.mp hy
    rw [List.getElem?_eq_getElem hlt, of_decide_eq_true hi]
  have hlt : i < names.length := (List.findIdx?_eq_some_iff_getElem.mp h).choose
  rw [planRefs, mem_requestFlowRefs hdummy]
  constructor
  case mp =>
    rintro ⟨_, y, hy, hr⟩
    rwa [Option.some.inj ((hname h).symm.trans (hname hy))]
  case mpr => exact fun hr => ⟨hlt, x, h, hr⟩

-- Without a value for a name that it refers to, building a request fails at it, unless it fails in
-- the same way whatever its value.
theorem buildRequest_unbound {step : HttpStep} (hr : step.request.Refers x)
    (hx : ctx.vars.lookup x = none) :
    ∃ e, buildRequest lib ctx step = .error e ∧
      (e = .unknownVar x ∨ ∀ vars : Table String String,
        (∀ y, y ≠ x → vars.lookup y = ctx.vars.lookup y) →
          buildRequest lib { ctx with vars := vars } step = .error e) := by
  obtain ⟨t, ht, hp⟩ := hr
  cases hbuild : buildRequest lib ctx step
  case ok r =>
    have ⟨s, hs⟩ := buildRequest_ok hbuild t ht
    exact absurd hs (render_fails hx hp)
  case error e =>
    refine ⟨e, rfl, ?_⟩
    by_cases he : e = .unknownVar x
    case pos => exact .inl he
    case neg =>
      refine .inr fun vars hv => ?_
      have hb : SameBut x ctx { ctx with vars := vars } := ⟨hv, rfl⟩
      have hsame : SameUnless (· = .unknownVar x) (buildRequest lib ctx step)
          (buildRequest lib { ctx with vars := vars } step) :=
        buildRequest_same step fun t _ => render_without hb hx
      rw [hbuild] at hsame
      cases hsame
      case inl hsame => exact hsame.symm
      case inr hsame =>
        obtain ⟨_, rfl, hk⟩ := hsame
        exact absurd (Except.error.inj hk) he

-- A request depends on just the variables that it refers to. Without a value for one of them it
-- fails at it, unless it fails in the same way whatever its value.
theorem flowRefs_exact (lib : Libraries) (names : List String) (step : HttpStep) (f : String) (i : ℕ)
    (h : names.findIdx? (· = f) = some i) :
    (i ∉ planRefs lib.fromStr names step.request →
      ∀ (ctx : TemplateContext) (vars : Table String String),
        (∀ y, y ≠ f → vars.lookup y = ctx.vars.lookup y) →
        buildRequest lib { ctx with vars := vars } step = buildRequest lib ctx step) ∧
    (i ∈ planRefs lib.fromStr names step.request → ∀ ctx : TemplateContext, ∃ e,
      buildRequest lib { ctx with vars := ctx.vars.erase f } step = .error e ∧
        (e = .unknownVar f ∨ ∀ vars : Table String String,
          (∀ y, y ≠ f → vars.lookup y = ctx.vars.lookup y) →
            buildRequest lib { ctx with vars := vars } step = .error e)) := by
  rw [mem_planRefs h]
  constructor
  case left =>
    intro hr ctx vars hv
    have hb : SameBut f ctx { ctx with vars := vars } := ⟨hv, rfl⟩
    refine SameUnless.eq (buildRequest_same step fun t ht => ?_) fun _ => id
    rw [render_same hb fun hp => hr ⟨t, ht, hp⟩]
    exact .refl
  case right =>
    intro hr ctx
    have herase : (ctx.vars.erase f).lookup f = none := AList.lookup_erase ..
    have hne (y : String) (hy : y ≠ f) : (ctx.vars.erase f).lookup y = ctx.vars.lookup y :=
      AList.lookup_erase_ne hy
    have ⟨e, hbuild, he⟩ :=
      @buildRequest_unbound lib { ctx with vars := ctx.vars.erase f } f step hr herase
    exact ⟨e, hbuild, he.imp_right fun h vars hv => h vars fun y hy => (hv y hy).trans (hne y hy).symm⟩

section

def getStep (url : String) : HttpStep :=
  { id := "step", name := "step", request := ⟨.get, url, [], none, [], []⟩, assertions := [],
    extract := [], timeoutSeconds := none, thinkTime := none }

theorem flowRefs_exact_path :
    0 ∈ planRefs (fun _ => none) ["f"] (getStep "http://localhost/{{f}}").request ∧
      ∃ e, buildRequest plainLibraries ⟨∅, ∅, 0, 0, none⟩ (getStep "http://localhost/{{f}}") =
        .error e := by
  have hm : 0 ∈ planRefs (fun _ => none) ["f"] (getStep "http://localhost/{{f}}").request := by
    decide
  have ⟨e, he, _⟩ := (flowRefs_exact plainLibraries ["f"] (getStep "http://localhost/{{f}}") "f" 0
    rfl).2 hm ⟨∅, ∅, 0, 0, none⟩
  exact ⟨hm, e, he⟩

-- Whether rendering fails at a name, or at a template before those that refer to it.
def FailsAt (lib : Libraries) (ctx : TemplateContext) (step : HttpStep) (f : String) : Prop :=
  buildRequest lib ctx step = .error (.unknownVar f) ∨
    ∃ before t after, step.request.templates = before ++ t :: after ∧ .flow f ∈ pieces 0 t.toList ∧
      (∀ u ∈ before, .flow f ∉ pieces 0 u.toList) ∧ ∃ u ∈ before, ∃ e, render u ctx = .error e

-- The template that refers to a name may fail at another one before.
theorem fails_within_template :
    0 ∈ planRefs (fun _ => none) ["f"] (getStep "{{a}}{{f}}").request ∧
      ¬FailsAt plainLibraries ⟨∅, ∅, 0, 0, none⟩ (getStep "{{a}}{{f}}") "f" := by
  refine ⟨by decide, fun h => ?_⟩
  cases h
  case inl h =>
    have ha : buildRequest plainLibraries ⟨∅, ∅, 0, 0, none⟩ (getStep "{{a}}{{f}}") =
        .error (.unknownVar "a") := rfl
    rw [ha] at h
    exact absurd (Except.error.inj h) (by decide)
  case inr h =>
    obtain ⟨before, t, after, he, _, _, u, hu, _⟩ := h
    have hlen := congrArg List.length he
    have hb : before = [] := by
      cases before
      case nil       => rfl
      case cons x xs => simp [Request.templates, getStep] at hlen
    rw [hb] at hu
    cases hu

end

end Engine
