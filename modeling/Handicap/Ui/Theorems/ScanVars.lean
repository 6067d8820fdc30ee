import Handicap.Engine.Theorems.FlowRefs
import Handicap.Engine.Theorems.Variables
import Handicap.Ui.ScanVars
import Handicap.Ui.Theorems.Cast

open Engine (Condition HttpStep Json Request Scenario Step)
open Store (isWhiteSpace)

-- The references that the editor reports are names without a value, where the engine reads the
-- templates as the editor does.
namespace Ui

section

variable {first : Bool} {l m t : List Char}

theorem mem_flowVarRe (h : (m, t) ∈ flowVarRe.candidates first l) : ∃ front back,
    l = '{' :: '{' :: (front ++ m ++ back ++ '}' :: '}' :: t) ∧ m ≠ [] ∧
      '}' ∉ front ++ m ++ back ∧ (∀ c ∈ front, isJsSpace c) ∧ ∀ c ∈ back, isJsSpace c := by
  obtain ⟨_, _, _, _, hb, hg, ha⟩ := Pattern.mem_candidates.mp h
  obtain ⟨_, _, front, hl, hr, rfl⟩ := Regex.mem_seq.mp hb
  obtain ⟨rfl, rfl⟩ := Regex.mem_literal.mp hl
  obtain ⟨rfl, hf⟩ := Regex.mem_many.mp hr
  obtain ⟨_, _, more, hone, hfew, rfl⟩ := Regex.mem_seq.mp hg
  obtain ⟨c, hc, rfl, rfl⟩ := Regex.mem_one.mp hone
  obtain ⟨rfl, hm⟩ := Regex.mem_few.mp hfew
  obtain ⟨back, _, _, hr', hl', rfl⟩ := Regex.mem_seq.mp ha
  obtain ⟨rfl, hb'⟩ := Regex.mem_many.mp hr'
  obtain ⟨rfl, rfl⟩ := Regex.mem_literal.mp hl'
  refine ⟨front, back, by simp, by simp, ?_, hf, hb'⟩
  have hspace {l : List Char} (hl : ∀ c ∈ l, isJsSpace c) : '}' ∉ l :=
    fun h => close_notSpace (hl _ h)
  simp only [List.singleton_append, List.mem_append, List.mem_cons, not_or]
  refine ⟨⟨hspace hf, fun he => ?_, fun hm' => ?_⟩, hspace hb'⟩
  case refine_1 => exact absurd he.symm (by simpa using hc)
  case refine_2 => simpa using hm _ hm'

theorem flowVarRe_match (hm : m ≠ []) (hc : '}' ∉ m) :
    (m, t) ∈ flowVarRe.candidates first ('{' :: '{' :: (m ++ '}' :: '}' :: t)) := by
  obtain ⟨c, m, rfl⟩ := List.exists_cons_of_ne_nil hm
  have hne : ∀ d ∈ c :: m, decide (d ≠ '}') = true :=
    fun d hd => decide_eq_true fun he => hc (he ▸ hd)
  have ⟨h₁, h₂⟩ := List.forall_mem_cons.mp hne
  refine Pattern.mem_candidates.mpr
    ⟨['{', '{'], c :: m ++ '}' :: '}' :: t, '}' :: '}' :: t, ['}', '}'], ?_, ?_, ?_⟩
  case refine_1 =>
    exact Regex.mem_seq.mpr ⟨['{', '{'], _, [], Regex.mem_literal.mpr ⟨rfl, rfl⟩,
      Regex.mem_many.mpr ⟨rfl, by simp⟩, by simp⟩
  case refine_2 =>
    exact Regex.mem_seq.mpr ⟨[c], _, m, Regex.mem_one.mpr ⟨c, h₁, rfl, rfl⟩,
      Regex.mem_few.mpr ⟨rfl, h₂⟩, rfl⟩
  case refine_3 =>
    exact Regex.mem_seq.mpr ⟨[], _, ['}', '}'], Regex.mem_many.mpr ⟨rfl, by simp⟩,
      Regex.mem_literal.mpr ⟨rfl, rfl⟩, rfl⟩

-- No match begins where there are not two braces.
theorem flowVarRe_step {c : Char} (h : ¬(c = '{' ∧ l.head? = some '{')) :
    flowVarRe.search first (c :: l) = flowVarRe.search false l := by
  have hc : flowVarRe.candidates first (c :: l) = [] := by
    refine List.eq_nil_iff_forall_not_mem.mpr fun x hx => ?_
    obtain ⟨_, _, he, _⟩ := mem_flowVarRe (show (x.1, x.2) ∈ _ from hx)
    obtain ⟨rfl, rfl⟩ := List.cons.inj he
    exact h ⟨rfl, rfl⟩
  simp [Pattern.search, Pattern.matchAt, hc]

-- A text before a closing brace, in which no match can begin.
theorem flowVarRe_pass {w : List Char} (hw : '}' ∉ w)
    (h : ¬['{', '{'] <:+: w ∨ l.head? ≠ some '}') :
    flowVarRe.search first (w ++ '}' :: l) = flowVarRe.search false l := by
  induction w generalizing first
  case nil => exact flowVarRe_step (by simp)
  case cons c w ih =>
    have hc : flowVarRe.candidates first (c :: (w ++ '}' :: l)) = [] := by
      refine List.eq_nil_iff_forall_not_mem.mpr fun x hx => ?_
      obtain ⟨front, back, he, _, hcl, _⟩ := mem_flowVarRe (show (x.1, x.2) ∈ _ from hx)
      obtain ⟨rfl, he⟩ := List.cons.inj he
      cases w
      case nil => cases he
      case cons d w he' =>
        obtain ⟨rfl, htail⟩ := List.cons.inj he'
        have hw' : '}' ∉ w := fun hm => hw (List.mem_cons_of_mem _ (List.mem_cons_of_mem _ hm))
        have hcut := (Text.cut_one.mpr ⟨htail, hcl⟩).symm.trans (Text.cut_one.mpr ⟨rfl, hw'⟩)
        obtain ⟨_, rfl⟩ := Prod.mk.inj (Option.some.inj hcut)
        exact h.elim (fun h => h ⟨[], w, rfl⟩) fun h => h rfl
    have ih := @ih false (fun hm => hw (List.mem_cons_of_mem _ hm))
      (h.imp_left fun h hi => h (hi.trans (List.suffix_cons c w).isInfix))
    simpa [Pattern.search, Pattern.matchAt, hc] using ih

end

-- A template whose references the editor finds where the engine looks them up. What comes after the
-- last closing pair is nothing to either.
inductive Clear : List Char → Prop
  | plain {l} (h : ¬['}', '}'] <:+: l) : Clear l
  | literal {c l} (h₁ : ¬(c = '{' ∧ l.head? = some '{')) (h₂ : ¬(c = '$' ∧ l.head? = some '{'))
      (h : Clear l) : Clear (c :: l)
  | flow {name l} (hc : '}' ∉ name) (hs : Settled name) (h : Clear l) :
      Clear ('{' :: '{' :: (name ++ '}' :: '}' :: l))
  | system {inner l} (hc : '}' ∉ inner)
      (hb : ¬['{', '{'] <:+: '{' :: inner ∨ l.head? ≠ some '}') (h : Clear l) :
      Clear ('$' :: '{' :: (inner ++ '}' :: l))

-- The engine looks up a name in a text, wherever the text stands.
def LooksUp (x : String) (l : List Char) : Prop :=
  ∀ pos, .flow x ∈ Engine.pieces pos l

theorem Clear.search {l m t : List Char} {first : Bool} (h : Clear l)
    (hs : flowVarRe.search first l = some (m, t)) :
    LooksUp (.ofList (Text.strip isJsSpace m)) l ∧ Clear t ∧ ∀ x, LooksUp x t → LooksUp x l := by
  induction h generalizing first
  case plain l h =>
    obtain ⟨pre, t', rfl, hx⟩ := Pattern.mem_of_search hs
    obtain ⟨front, back, rfl, _⟩ := mem_flowVarRe hx
    refine absurd ⟨pre ++ '{' :: '{' :: (front ++ m ++ back), t, ?_⟩ h
    simp
  case literal c l h₁ h₂ _ ih =>
    rw [flowVarRe_step h₁] at hs
    have ⟨hm, ht, hx⟩ := ih hs
    have hl {x : String} (h : LooksUp x l) : LooksUp x (c :: l) := by
      intro pos
      rw [Engine.pieces_literal h₁ h₂]
      exact List.mem_cons_of_mem _ (h _)
    exact ⟨hl hm, ht, fun x h => hl (hx x h)⟩
  case flow name l hc hsettled hl ih =>
    have hrest {x : String} (h : LooksUp x l) :
        LooksUp x ('{' :: '{' :: (name ++ '}' :: '}' :: l)) := by
      intro pos
      rw [Engine.pieces_flow hc]
      exact List.mem_cons_of_mem _ (h _)
    by_cases hn : name = []
    case pos =>
      subst hn
      have hnone : flowVarRe.candidates first ('{' :: '{' :: '}' :: '}' :: l) = [] := by
        refine List.eq_nil_iff_forall_not_mem.mpr fun x hx => ?_
        obtain ⟨front, back, he, hne, hcl, _⟩ := mem_flowVarRe (show (x.1, x.2) ∈ _ from hx)
        have he := (List.cons.inj (List.cons.inj he).2).2
        have hcut := (Text.cut_one.mpr ⟨he, hcl⟩).symm.trans
          (Text.cut_one (a := []) (b := '}' :: l) |>.mpr ⟨rfl, by simp⟩)
        have hnil := (Prod.mk.inj (Option.some.inj hcut)).1
        simp [hne] at hnil
      have hsearch : flowVarRe.search first ('{' :: '{' :: '}' :: '}' :: l) =
          flowVarRe.search false l := by
        rw [Pattern.search, Pattern.matchAt, hnone, flowVarRe_step (by simp),
          flowVarRe_step (by simp), flowVarRe_step (by simp)]
        rfl
      have ⟨hm, ht, hx⟩ := ih (hsearch ▸ hs)
      exact ⟨hrest hm, ht, fun x h => hrest (hx x h)⟩
    case neg =>
      -- There is a match at the beginning, so that it is the one that is found.
      have hm := @flowVarRe_match first name l hn hc
      have hsome : (flowVarRe.candidates first ('{' :: '{' :: (name ++ '}' :: '}' :: l))).head? =
          some (m, t) := by
        cases hcand : flowVarRe.candidates first ('{' :: '{' :: (name ++ '}' :: '}' :: l))
        case nil => simp [hcand] at hm
        case cons x xs =>
          simpa [Pattern.search, Pattern.matchAt, hcand] using hs
      obtain ⟨front, back, he, _, hcl, hf, hb⟩ := mem_flowVarRe (List.mem_of_mem_head? hsome)
      have he := (List.cons.inj (List.cons.inj he).2).2
      have hcut := (Text.cut_one.mpr ⟨he, hcl⟩).symm.trans (Text.cut_one.mpr ⟨rfl, hc⟩)
      obtain ⟨hname, hl'⟩ := Prod.mk.inj (Option.some.inj hcut)
      obtain rfl := (List.cons.inj hl').2
      refine ⟨fun pos => ?_, hl, fun x => hrest⟩
      rw [Engine.pieces_flow hc, Engine.trimmed, ← strip_settled.mpr hsettled, ← hname,
        Text.strip_pad hf hb]
      exact List.mem_cons_self
  case system inner l hc hb _ ih =>
    have hw : '}' ∉ '{' :: inner := by simp [hc]
    have hp := @flowVarRe_pass false l ('{' :: inner) hw hb
    rw [List.cons_append] at hp
    rw [flowVarRe_step (by simp), hp] at hs
    have ⟨hm, ht, hx⟩ := ih hs
    have hl {x : String} (h : LooksUp x l) : LooksUp x ('$' :: '{' :: (inner ++ '}' :: l)) := by
      intro pos
      rw [Engine.pieces_system hc]
      exact List.mem_cons_of_mem _ (h _)
    exact ⟨hl hm, ht, fun x h => hl (hx x h)⟩

-- Everything that the editor finds in a clear template is looked up.
theorem Clear.findAll {l : List Char} (h : Clear l) :
    ∀ m ∈ flowVarRe.findAll l, LooksUp (.ofList (Text.strip isJsSpace m)) l := by
  have hgo (fuel : ℕ) (first : Bool) {l : List Char} (h : Clear l) :
      ∀ m ∈ Pattern.findAll.go flowVarRe fuel first l,
        LooksUp (.ofList (Text.strip isJsSpace m)) l := by
    induction fuel generalizing first l
    case zero => simp [Pattern.findAll.go]
    case succ fuel ih =>
      rw [Pattern.findAll.go]
      cases hs : flowVarRe.search first l
      case none => simp
      case some x =>
        obtain ⟨m, t⟩ := x
        obtain ⟨hm, ht, hx⟩ := h.search hs
        exact List.forall_mem_cons.mpr ⟨hm, fun m' hm' => hx _ (ih false ht m' hm')⟩
  exact hgo l.length true h

-- The editor finds a name in a template, and the engine looks it up there.
def Shown (x s : String) : Prop :=
  Clear s.toList ∧ ∃ m ∈ flowVarRe.findAll s.toList, splitFlowToken m = (x, none)

-- A leaf of a JSON body that the engine does not cast is like any template. One that it casts is
-- all one token.
def ShownLeaf (x s : String) : Prop :=
  Engine.parseCastLeaf s = none ∧ Shown x s ∨
    ∃ (l : Leaf) (cast : Engine.Cast), l.Casts cast ∧ l.text = s ∧ l.kind = .flow ∧
      byteOrderMark ∉ l.pad ∧ NoBrace l.inner ∧ Settled l.name ∧
      x = .ofList (Text.strip isJsSpace l.name)

mutual

def leaves : Json → List String
  | .string s    => [s]
  | .array items => itemLeaves items
  | .object map  => entryLeaves map
  | .null        => []
  | .bool _      => []
  | .number _    => []

def itemLeaves : List Json → List String
  | []            => []
  | item :: items => leaves item ++ itemLeaves items

def entryLeaves : List (String × Json) → List String
  | []            => []
  | (_, v) :: map => leaves v ++ entryLeaves map

end

-- A request has a template in which a name is shown.
def requestShows (request : Request) (x : String) : Prop :=
  Shown x request.url ∨ (∃ header ∈ request.headers, Shown x header.2) ∨
    ∃ body ∈ request.body,
      match body with
      | .raw text    => Shown x text
      | .form fields => ∃ field ∈ fields, Shown x field.2
      | .json value  => ∃ s ∈ leaves value, ShownLeaf x s

section

variable {x s : String}

theorem Shown.looksUp (h : Shown x s) : LooksUp x s.toList := by
  obtain ⟨hc, m, hm, he⟩ := h
  have hl := hc.findAll m hm
  unfold splitFlowToken at he
  split at he
  case h_1 => simp at he
  case h_2 => exact (Prod.mk.inj he).1 ▸ hl

theorem ShownLeaf.looksUp (h : ShownLeaf x s) : LooksUp x (Engine.leafTemplate s).toList := by
  unfold Engine.leafTemplate
  obtain ⟨hn, h⟩ | ⟨l, cast, hc, rfl, hkind, hmark, hi, hs, rfl⟩ := h
  case inl =>
    rw [hn]
    exact h.looksUp
  case inr =>
    have hsole : l.kind.Sole l.inner := by
      rw [hkind]
      refine ⟨fun h => ?_, fun h => ?_⟩
      case refine_1 => exact (noBrace_iff.mp hi).1 (h.subset List.mem_cons_self)
      case refine_2 => exact (noBrace_iff.mp hi).2 (h.subset List.mem_cons_self)
    rw [Leaf.parsed hc hmark hsole]
    intro pos
    have hp := @Engine.pieces_flow [] pos _ (Leaf.close_notMem hi)
    simp only [Leaf.bare, hkind, Engine.TokenKind.opening, Engine.TokenKind.closing,
      String.toList_ofList, List.cons_append, List.nil_append]
    rw [hp, Engine.trimmed, Text.strip_strip, strip_settled.mpr hs]
    exact List.mem_cons_self

mutual

theorem templates_leaves (v : Json) : v.templates = (leaves v).map Engine.leafTemplate := by
  cases v
  case string s  => rfl
  case array l   => exact templates_items l
  case object l  => exact templates_entries l
  all_goals rfl

theorem templates_items (l : List Json) :
    Engine.itemTemplates l = (itemLeaves l).map Engine.leafTemplate := by
  cases l
  case nil => rfl
  case cons v l =>
    rw [Engine.itemTemplates, itemLeaves, List.map_append, templates_leaves v, templates_items l]

theorem templates_entries (l : List (String × Json)) :
    Engine.entryTemplates l = (entryLeaves l).map Engine.leafTemplate := by
  cases l
  case nil => rfl
  case cons e l =>
    rw [Engine.entryTemplates, entryLeaves, List.map_append, templates_leaves e.2,
      templates_entries l]

end

theorem requestShows_refers {request : Request} (h : requestShows request x) : request.Refers x := by
  have hmem {l : List (String × String)} (h : ∃ field ∈ l, Shown x field.2) :
      ∃ t ∈ l.map Prod.snd, .flow x ∈ Engine.pieces 0 t.toList := by
    obtain ⟨field, hf, h⟩ := h
    exact ⟨field.2, List.mem_map.mpr ⟨field, hf, rfl⟩, h.looksUp 0⟩
  unfold Request.Refers Request.templates
  obtain h | h | ⟨body, hb, h⟩ := h
  case inl => exact ⟨request.url, by simp, h.looksUp 0⟩
  case inr.inl =>
    have ⟨t, ht, hp⟩ := hmem h
    exact ⟨t, List.mem_append_left _ (List.mem_cons_of_mem _ ht), hp⟩
  case inr.inr =>
    have hbody : ∃ t ∈ body.templates, .flow x ∈ Engine.pieces 0 t.toList := by
      cases body
      case raw text    => exact ⟨text, by simp [Engine.Body.templates], h.looksUp 0⟩
      case form fields => exact hmem h
      case json value =>
        obtain ⟨s, hs, h⟩ := h
        refine ⟨Engine.leafTemplate s, ?_, h.looksUp 0⟩
        rw [Engine.Body.templates, templates_leaves]
        exact List.mem_map.mpr ⟨s, hs, rfl⟩
    obtain ⟨t, ht, hp⟩ := hbody
    refine ⟨t, List.mem_append_right _ ?_, hp⟩
    rw [hb]
    exact ht

end

-- A place where names are referred to.
structure Place where
  own    : Option Own
  stepId : String
  refs   : List String
  strict : Bool

mutual

def placesOne : Step → Option Own → List Place
  | .http step, own               => [⟨own, step.id, collectRequestRefs step.request, true⟩]
  | .loop _ _ _ body, own         => places body own
  | .parallel id _ branches, _    => branchPlaces id branches
  | .ifStep id _ cond thenSteps elifs elseSteps, own =>
    let refs := elifs.foldl (fun refs e => collectCondRefs e.1 refs) (collectCondRefs cond [])
    ⟨own, id, refs, false⟩ :: (places thenSteps own ++ elifPlaces elifs own ++ places elseSteps own)

def places : List Step → Option Own → List Place
  | [], _              => []
  | step :: steps, own => placesOne step own ++ places steps own

def elifPlaces : List (Condition × List Step) → Option Own → List Place
  | [], _                    => []
  | (_, steps) :: elifs, own => places steps own ++ elifPlaces elifs own

def branchPlaces (id : String) : List (String × List Step) → List Place
  | []                     => []
  | (_, steps) :: branches =>
    places steps (some ⟨id, collectSubtreeExtractNames steps⟩) ++ branchPlaces id branches

end

section

variable (flatBase namespaced : List String)

def judgePlace (acc : List (String × Occurrences)) (p : Place) : List (String × Occurrences) :=
  judge flatBase namespaced p.refs p.stepId p.own p.strict acc

mutual

-- The walk judges one place after the other.
theorem walkOne_eq (step : Step) (own : Option Own) (acc : List (String × Occurrences)) :
    walkOne flatBase namespaced step own acc =
      (placesOne step own).foldl (judgePlace flatBase namespaced) acc := by
  cases step
  case http step => rfl
  case loop id name repeats body => exact walk_eq body own acc
  case parallel id name branches => exact walkBranches_eq id branches acc
  case ifStep id name cond thenSteps elifs elseSteps =>
    rw [walkOne, placesOne, List.foldl_cons, List.foldl_append, List.foldl_append, ← walk_eq,
      ← walkElifs_eq, ← walk_eq]
    rfl

theorem walk_eq (steps : List Step) (own : Option Own) (acc : List (String × Occurrences)) :
    walk flatBase namespaced steps own acc =
      (places steps own).foldl (judgePlace flatBase namespaced) acc := by
  cases steps
  case nil => rfl
  case cons step steps => rw [walk, places, List.foldl_append, ← walkOne_eq, ← walk_eq]

theorem walkElifs_eq (elifs : List (Condition × List Step)) (own : Option Own)
    (acc : List (String × Occurrences)) :
    walkElifs flatBase namespaced elifs own acc =
      (elifPlaces elifs own).foldl (judgePlace flatBase namespaced) acc := by
  cases elifs
  case nil => rfl
  case cons e elifs => rw [walkElifs, elifPlaces, List.foldl_append, ← walk_eq, ← walkElifs_eq]

theorem walkBranches_eq (id : String) (branches : List (String × List Step))
    (acc : List (String × Occurrences)) :
    walkBranches flatBase namespaced id branches acc =
      (branchPlaces id branches).foldl (judgePlace flatBase namespaced) acc := by
  cases branches
  case nil => rfl
  case cons b branches =>
    rw [walkBranches, branchPlaces, List.foldl_append, ← walk_eq, ← walkBranches_eq]

end

-- A name that a place refers to and that is not defined there.
structure Place.Misses (p : Place) (x : String) : Prop where
  ref        : x ∈ p.refs
  flat       : x ∉ flatBase
  namespaced : '.' ∈ x.toList → x ∉ namespaced
  own        : '.' ∉ x.toList → ∀ own ∈ p.own, x ∉ own.names

end

section

variable {flatBase namespaced : List String} {acc : List (String × Occurrences)} {x : String}
variable {p : Place}

theorem mem_recordRef {name stepId : String} {inside : Bool} {owner : Option String} {strict : Bool}
    {e : String × Occurrences} (h : e ∈ recordRef name stepId inside owner strict acc) :
    ∀ i ∈ e.2.stepIds, i = stepId ∧ e.1 = name ∨ ∃ a, (e.1, a) ∈ acc ∧ i ∈ a.stepIds := by
  induction acc
  case nil =>
    obtain rfl := List.mem_singleton.mp h
    intro i hi
    exact .inl ⟨by simpa [Occurrences.note] using hi, rfl⟩
  case cons d acc ih =>
    rw [recordRef] at h
    split_ifs at h with hn
    case pos =>
      cases List.mem_cons.mp h
      case inl he =>
        subst he
        intro i hi
        cases List.mem_append.mp hi
        case inl hi => exact .inr ⟨d.2, List.mem_cons_self, hi⟩
        case inr hi => exact .inl ⟨List.mem_singleton.mp hi, hn⟩
      case inr he => exact fun i hi => .inr ⟨e.2, List.mem_cons_of_mem _ he, hi⟩
    case neg =>
      cases List.mem_cons.mp h
      case inl he => exact fun i hi => .inr ⟨e.2, he ▸ List.mem_cons_self, hi⟩
      case inr he =>
        intro i hi
        exact (ih he i hi).imp_right fun ⟨a, ha, hi⟩ => ⟨a, List.mem_cons_of_mem _ ha, hi⟩

-- Every step that has been recorded for a name is that of a place that misses it.
def Recorded (flatBase namespaced : List String) (ps : List Place)
    (acc : List (String × Occurrences)) : Prop :=
  ∀ e ∈ acc, ∀ i ∈ e.2.stepIds, ∃ p ∈ ps, p.stepId = i ∧ p.Misses flatBase namespaced e.1

theorem Recorded.record {ps : List Place} (h : Recorded flatBase namespaced ps acc) (hp : p ∈ ps)
    (hm : p.Misses flatBase namespaced x) (inside owner) :
    Recorded flatBase namespaced ps (recordRef x p.stepId inside owner p.strict acc) := by
  intro e he i hi
  obtain ⟨rfl, hx⟩ | ⟨a, ha, hi⟩ := mem_recordRef he i hi
  case inl => exact ⟨p, hp, rfl, hx ▸ hm⟩
  case inr => exact h _ ha i hi

theorem Recorded.judgeRef {ps : List Place} (h : Recorded flatBase namespaced ps acc) (hp : p ∈ ps)
    (hx : x ∈ p.refs) :
    Recorded flatBase namespaced ps
      (judgeRef flatBase namespaced p.stepId p.own p.strict acc x) := by
  unfold Ui.judgeRef
  by_cases hf : x ∈ flatBase
  case pos => rwa [if_pos hf]
  rw [if_neg hf]
  by_cases hd : '.' ∈ x.toList
  case pos =>
    rw [if_pos hd]
    by_cases hn : x ∈ namespaced
    case pos => rwa [if_pos hn]
    case neg =>
      rw [if_neg hn]
      exact h.record hp ⟨hx, hf, fun _ => hn, fun h => absurd hd h⟩ _ _
  case neg =>
    rw [if_neg hd]
    by_cases ho : p.own.any (x ∈ ·.names)
    case pos => rwa [if_pos ho]
    case neg =>
      rw [if_neg ho]
      refine h.record hp ⟨hx, hf, fun h => absurd h hd, fun _ own hown hm => ho ?_⟩ _ _
      rw [show p.own = some own from hown]
      exact decide_eq_true hm

theorem Recorded.judgePlace {ps : List Place} (h : Recorded flatBase namespaced ps acc)
    (hp : p ∈ ps) : Recorded flatBase namespaced ps (judgePlace flatBase namespaced acc p) := by
  have hrefs (l : List String) (hl : l ⊆ p.refs) {acc : List (String × Occurrences)}
      (h : Recorded flatBase namespaced ps acc) :
      Recorded flatBase namespaced ps (judge flatBase namespaced l p.stepId p.own p.strict acc) := by
    induction l generalizing acc
    case nil => exact h
    case cons x l ih =>
      have ⟨hx, hl⟩ := List.cons_subset.mp hl
      exact ih hl (h.judgeRef hp hx)
  exact hrefs p.refs (List.Subset.refl _) h

theorem walk_recorded (steps : List Step) (own : Option Own) :
    Recorded flatBase namespaced (places steps own) (walk flatBase namespaced steps own []) := by
  have hplaces (l : List Place) (hl : l ⊆ places steps own) {acc : List (String × Occurrences)}
      (h : Recorded flatBase namespaced (places steps own) acc) :
      Recorded flatBase namespaced (places steps own)
        (l.foldl (Ui.judgePlace flatBase namespaced) acc) := by
    induction l generalizing acc
    case nil => exact h
    case cons p l ih =>
      have ⟨hp, hl⟩ := List.cons_subset.mp hl
      exact ih hl (h.judgePlace hp)
  rw [walk_eq]
  exact hplaces _ (List.Subset.refl _) (by simp [Recorded])

end

mutual

-- The editor and the engine collect the same extracts.
theorem extractNames_eq (step : Step) : Step.extractNames step = step.outputVarNames := by
  cases step
  case http step       => rfl
  case parallel        => rfl
  case loop id name repeats body => exact subtreeExtractNames_eq body
  case ifStep id name cond thenSteps elifs elseSteps =>
    rw [Step.extractNames, Engine.Step.outputVarNames, subtreeExtractNames_eq thenSteps,
      elifExtractNames_eq elifs, subtreeExtractNames_eq elseSteps]

theorem subtreeExtractNames_eq (steps : List Step) :
    collectSubtreeExtractNames steps = Engine.collectOutputVarNames steps := by
  cases steps
  case nil => rfl
  case cons step steps =>
    rw [collectSubtreeExtractNames, Engine.collectOutputVarNames, extractNames_eq step,
      subtreeExtractNames_eq steps]

theorem elifExtractNames_eq (elifs : List (Condition × List Step)) :
    elifExtractNames elifs = Engine.elifOutputVarNames elifs := by
  cases elifs
  case nil => rfl
  case cons e elifs =>
    rw [elifExtractNames, Engine.elifOutputVarNames, subtreeExtractNames_eq e.2,
      elifExtractNames_eq elifs]

end

section

variable {k : String}

mutual

-- Whatever is collected is extracted by an HTTP step.
theorem mem_outputVarNames (step : Step) (h : k ∈ step.outputVarNames) :
    ∃ http ∈ step.https, k ∈ http.extract.map Engine.Extract.var := by
  cases step
  case http step => exact ⟨step, List.mem_cons_self, h⟩
  case parallel  => cases h
  case loop id name repeats body => exact mem_collectOutput body h
  case ifStep id name cond thenSteps elifs elseSteps =>
    rw [Engine.Step.outputVarNames, List.mem_append, List.mem_append] at h
    obtain (h | h) | h := h
    case inl.inl =>
      have ⟨http, hh, hk⟩ := mem_collectOutput thenSteps h
      exact ⟨http, List.mem_append_left _ (List.mem_append_left _ hh), hk⟩
    case inl.inr =>
      have ⟨http, hh, hk⟩ := mem_elifOutput elifs h
      exact ⟨http, List.mem_append_left _ (List.mem_append_right _ hh), hk⟩
    case inr =>
      have ⟨http, hh, hk⟩ := mem_collectOutput elseSteps h
      exact ⟨http, List.mem_append_right _ hh, hk⟩

theorem mem_collectOutput (steps : List Step) (h : k ∈ Engine.collectOutputVarNames steps) :
    ∃ http ∈ Engine.collectHttp steps, k ∈ http.extract.map Engine.Extract.var := by
  cases steps
  case nil => cases h
  case cons step steps =>
    rw [Engine.collectOutputVarNames, List.mem_append] at h
    cases h
    case inl h =>
      have ⟨http, hh, hk⟩ := mem_outputVarNames step h
      exact ⟨http, List.mem_append_left _ hh, hk⟩
    case inr h =>
      have ⟨http, hh, hk⟩ := mem_collectOutput steps h
      exact ⟨http, List.mem_append_right _ hh, hk⟩

theorem mem_elifOutput (elifs : List (Condition × List Step))
    (h : k ∈ Engine.elifOutputVarNames elifs) :
    ∃ http ∈ Engine.collectElifHttp elifs, k ∈ http.extract.map Engine.Extract.var := by
  cases elifs
  case nil => cases h
  case cons e elifs =>
    rw [Engine.elifOutputVarNames, List.mem_append] at h
    cases h
    case inl h =>
      have ⟨http, hh, hk⟩ := mem_collectOutput e.2 h
      exact ⟨http, List.mem_append_left _ hh, hk⟩
    case inr h =>
      have ⟨http, hh, hk⟩ := mem_elifOutput elifs h
      exact ⟨http, List.mem_append_right _ hh, hk⟩

end

end

section

variable {http : HttpStep} {own : Option Own}

def httpPlace (http : HttpStep) (own : Option Own) : Place :=
  ⟨own, http.id, collectRequestRefs http.request, true⟩

mutual

-- Every HTTP step outside of parallel steps is a place.
theorem mem_placesOne (step : Step) (hs : step.Sequential) (h : http ∈ step.https) :
    httpPlace http own ∈ placesOne step own := by
  cases step
  case http step =>
    obtain rfl := List.mem_singleton.mp h
    exact List.mem_cons_self
  case loop id name repeats body => exact mem_places body hs h
  case parallel                  => exact hs.elim
  case ifStep id name cond thenSteps elifs elseSteps =>
    have ⟨hthen, helifs, helse⟩ := hs
    rw [Engine.Step.https, List.mem_append, List.mem_append] at h
    refine List.mem_cons_of_mem _ ?_
    rw [List.mem_append, List.mem_append]
    exact h.imp (Or.imp (mem_places thenSteps hthen) (mem_elifPlaces elifs helifs))
      (mem_places elseSteps helse)

theorem mem_places (steps : List Step) (hs : Engine.stepsSequential steps)
    (h : http ∈ Engine.collectHttp steps) : httpPlace http own ∈ places steps own := by
  cases steps
  case nil => cases h
  case cons step steps =>
    rw [Engine.collectHttp, List.mem_append] at h
    rw [places, List.mem_append]
    exact h.imp (mem_placesOne step hs.1) (mem_places steps hs.2)

theorem mem_elifPlaces (elifs : List (Condition × List Step)) (hs : Engine.elifsSequential elifs)
    (h : http ∈ Engine.collectElifHttp elifs) : httpPlace http own ∈ elifPlaces elifs own := by
  cases elifs
  case nil => cases h
  case cons e elifs =>
    rw [Engine.collectElifHttp, List.mem_append] at h
    rw [elifPlaces, List.mem_append]
    exact h.imp (mem_places e.2 hs.1) (mem_elifPlaces elifs hs.2)

end

theorem mem_branchPlaces {id : String} {branches : List (String × List Step)} {b : String × List Step}
    (hs : ∀ b ∈ branches, Engine.stepsSequential b.2) (hb : b ∈ branches)
    (h : http ∈ Engine.collectHttp b.2) :
    httpPlace http (some ⟨id, Engine.collectOutputVarNames b.2⟩) ∈ branchPlaces id branches := by
  induction branches
  case nil => cases hb
  case cons b' branches ih =>
    have ⟨hs₁, hs₂⟩ := List.forall_mem_cons.mp hs
    rw [branchPlaces, List.mem_append]
    cases List.mem_cons.mp hb
    case inl he =>
      subst he
      rw [subtreeExtractNames_eq]
      exact .inl (mem_places b.2 hs₁ h)
    case inr hb => exact .inr (ih hs₂ hb)

-- Every HTTP step of a scenario is a place, with what its branch extracts.
theorem site_place {steps : List Step} (htop : ∀ step ∈ steps, step.TopLevel)
    {names : List String} (h : (names, http) ∈ Engine.sites steps) :
    ∃ own, httpPlace http own ∈ places steps none ∧ (own.map Own.names).getD [] = names := by
  induction steps
  case nil => simp [Engine.sites] at h
  case cons step steps ih =>
    have ⟨ht₁, ht₂⟩ := List.forall_mem_cons.mp htop
    rw [Engine.sites, List.flatMap_cons, List.mem_append] at h
    cases h
    case inr h =>
      have ⟨own, hp, ho⟩ := ih ht₂ h
      exact ⟨own, List.mem_append_right _ hp, ho⟩
    case inl h =>
      have hplain (hseq : step.Sequential) (h : (names, http) ∈ step.https.map fun h => ([], h)) :
          ∃ own, httpPlace http own ∈ places (step :: steps) none ∧
            (own.map Own.names).getD [] = names := by
        obtain ⟨_, hh, he⟩ := List.mem_map.mp h
        obtain ⟨rfl, rfl⟩ := Prod.mk.inj he
        exact ⟨none, List.mem_append_left _ (mem_placesOne step hseq hh), rfl⟩
      cases step
      case parallel id name branches =>
        obtain ⟨b, hb, h⟩ := List.mem_flatMap.mp h
        obtain ⟨_, hh, he⟩ := List.mem_map.mp h
        obtain ⟨rfl, rfl⟩ := Prod.mk.inj he
        exact ⟨_, List.mem_append_left _ (mem_branchPlaces ht₁ hb hh), rfl⟩
      all_goals exact hplain ht₁ h

end

section

variable {scenario : Scenario} {rows : List (Table String String)} {x : String}

-- A name that can have a value outside of branches is one that the editor knows to be defined.
theorem available_known (h : Engine.Available scenario rows x)
    (hrows : ∀ row ∈ rows, row.lookup x = none) :
    x ∈ flatProducerNames scenario ∨ '.' ∈ x.toList ∧ x ∈ collectNamespacedProducers scenario := by
  obtain h | ⟨row, hr, h⟩ | h | ⟨step, hs, h⟩ := h
  case inl => exact .inl (List.mem_append_right _ h)
  case inr.inl =>
    rw [hrows row hr] at h
    cases h
  case inr.inr.inl =>
    rw [← subtreeExtractNames_eq] at h
    exact .inl (List.mem_append_left _ h)
  case inr.inr.inr =>
    cases step
    case parallel id name branches =>
      obtain ⟨b, hb, h⟩ := List.mem_flatMap.mp h
      obtain ⟨k, hk, rfl⟩ := List.mem_map.mp h
      obtain ⟨http, hh, hk⟩ := mem_collectOutput b.2 hk
      obtain ⟨e, he, rfl⟩ := List.mem_map.mp hk
      refine .inr ⟨by simp [String.toList_append, toString], ?_⟩
      exact List.mem_flatMap.mpr ⟨_, hs, List.mem_flatMap.mpr ⟨b, hb,
        List.mem_flatMap.mpr ⟨http, hh, List.mem_map.mpr ⟨e, he, rfl⟩⟩⟩⟩
    all_goals cases h

-- The editor reads the references to a name as the engine does: no two steps have the same id, a
-- name with a dot is not one that the branch of the step extracts itself, and each request in which
-- the editor finds the name refers to it. Those in which it is shown do.
structure ReadsRight (scenario : Scenario) (x : String) : Prop where
  ids   : ((places scenario.steps none).map Place.stepId).Nodup
  own   : ∀ site ∈ Engine.sites scenario.steps, x ∈ collectRequestRefs site.2.request →
    '.' ∈ x.toList → x ∉ site.1
  found : ∀ site ∈ Engine.sites scenario.steps, x ∈ collectRequestRefs site.2.request →
    site.2.request.Refers x

-- A step is reached without a value for a name, and its request fails at the name, or before.
def FailsWithout (it : Engine.Iteration) (x : String) (v : Engine.StepVisit) : Prop :=
  v.vars.lookup x = none ∧ ∃ e, v.result = .error e ∧
    (e = .unknownVar x ∨ ∀ vars : Table String String,
      (∀ y, y ≠ x → vars.lookup y = v.vars.lookup y) →
        Engine.buildRequest it.lib ⟨vars, it.env, it.vuId, it.iterId, v.loopIndex⟩ v.step =
          .error e)

-- Whatever is reported of an HTTP step is no false alarm.
theorem reported_fails (it : Engine.Iteration) (clock : ℚ) {r : UndefinedRef}
    (htop : ∀ step ∈ scenario.steps, step.TopLevel) (hrows : ∀ row ∈ rows, row.lookup x = none)
    (hr : (x, r) ∈ undefinedVarRefs scenario) (hx : ReadsRight scenario x) :
    ∀ v ∈ Engine.stepVisits (it.runIteration scenario rows clock).log, v.step.id ∈ r.stepIds →
      FailsWithout it x v := by
  intro v hv hid
  have ⟨hanswer, names, hsite, hbound⟩ := Engine.stepVisits_bound htop v hv
  obtain ⟨own, hplace, hown⟩ := site_place htop hsite
  obtain ⟨e, he, hre⟩ := List.mem_map.mp hr
  obtain ⟨rfl, rfl⟩ := Prod.mk.inj hre
  obtain ⟨p, hp, hpid, hmiss⟩ := walk_recorded scenario.steps none e he v.step.id hid
  -- The place that has been recorded is the one that is reached.
  obtain rfl : p = httpPlace v.step own := List.inj_on_of_nodup_map hx.ids hp hplace hpid
  have hnames : e.1 ∉ names := by
    by_cases hd : '.' ∈ e.1.toList
    case pos => exact hx.own _ hsite hmiss.ref hd
    case neg =>
      subst hown
      have hno := hmiss.own hd
      cases own
      case none     => simp
      case some own => exact hno own rfl
  have hnone : v.vars.lookup e.1 = none := by
    by_contra hsome
    cases hbound e.1 (Option.isSome_iff_ne_none.mpr hsome)
    case inl h => exact hnames h
    case inr h =>
      cases available_known h hrows
      case inl h => exact hmiss.flat h
      case inr h => exact hmiss.namespaced h.1 h.2
  refine ⟨hnone, ?_⟩
  have hrefers := hx.found _ hsite hmiss.ref
  obtain ⟨err, hbuild, herr⟩ := @Engine.buildRequest_unbound it.lib
    ⟨v.vars, it.env, it.vuId, it.iterId, v.loopIndex⟩ e.1 v.step hrefers hnone
  refine ⟨err, ?_, herr⟩
  have hresult := hanswer.trans hbuild
  cases hres : v.result
  case error e' =>
    rw [hres] at hresult
    exact congrArg Except.error (Except.error.inj hresult)
  case ok =>
    rw [hres] at hresult
    cases hresult

end

section

-- A server that answers every request with an empty page.
def emptyPages : Engine.Outside where
  exchange _ _  := ⟨0, 0, 0, .ok ⟨200, [], [], 0, .ok []⟩⟩
  generated _ _ := ""
  draw _        := 0
  delay _       := 0

def withHost : Engine.Iteration :=
  { lib := Engine.plainLibraries, outside := emptyPages, client := ⟨1, false⟩,
    env := (∅ : Table String String).insert "HOST" "h", vuId := 0, iterId := 0, deadline := 1,
    cancelledAt := none }

def oneStep (url : String) : Scenario :=
  { version := 1, name := "one", varDecls := [], cookieJar := false, defaultThinkTime := none,
    notes := none, steps := [.http (Engine.getStep url)] }

def nestedReference : Scenario :=
  oneStep "${HOST:-{{x}}}"

-- A reference within the default of a variable of the environment is reported, though the request
-- is rendered without it.
theorem nested_reference_reported :
    ∃ r, ("x", r) ∈ undefinedVarRefs nestedReference ∧ r.hasStrictRef ∧
      (∀ step ∈ nestedReference.steps, step.TopLevel) ∧
      ∃ v ∈ Engine.stepVisits (withHost.runIteration nestedReference [] 0).log,
        v.step.id ∈ r.stepIds ∧ v.result.toOption.isSome ∧ ¬FailsWithout withHost "x" v := by
  have href : undefinedVarRefs nestedReference = [("x", ⟨["step"], [], .downstream, true⟩)] := by
    decide
  have hlog : ((Engine.stepVisits (withHost.runIteration nestedReference [] 0).log).map fun v =>
      (v.step.id, v.result.toOption.isSome)) = [("step", true)] := by
    decide +kernel
  obtain ⟨v, hv, he⟩ := List.mem_map.mp (hlog ▸ List.mem_singleton_self ("step", true))
  have ⟨hid, hok⟩ := Prod.mk.inj he
  refine ⟨_, href ▸ List.mem_singleton_self _, rfl, ?_, v, hv, ?_, hok, ?_⟩
  case refine_1 =>
    intro step hs
    obtain rfl := List.mem_singleton.mp hs
    trivial
  case refine_2 =>
    rw [hid]
    exact List.mem_singleton_self _
  case refine_3 =>
    rintro ⟨_, e, herr, _⟩
    rw [herr] at hok
    cases hok

def plainReference : Scenario :=
  oneStep "{{x}}"

theorem plainReference_readsRight : ReadsRight plainReference "x" where
  ids := by decide
  own := by
    intro site hs _ hd
    exact absurd hd (by decide)
  found := by
    intro site hs _
    obtain rfl := List.mem_singleton.mp hs
    refine requestShows_refers (.inl ⟨?_, ['x'], by decide, by decide⟩)
    exact @Clear.flow ['x'] [] (by decide) ⟨by decide, by decide⟩ (.plain (by simp))

theorem plain_reference_fails :
    ∃ v ∈ Engine.stepVisits (withHost.runIteration plainReference [] 0).log,
      FailsWithout withHost "x" v := by
  have hlog : ((Engine.stepVisits (withHost.runIteration plainReference [] 0).log).map fun v =>
      v.step.id) = ["step"] := by
    decide +kernel
  obtain ⟨v, hv, hid⟩ := List.mem_map.mp (hlog ▸ List.mem_singleton_self "step")
  have href : undefinedVarRefs plainReference = [("x", ⟨["step"], [], .downstream, true⟩)] := by
    decide
  refine ⟨v, hv, reported_fails withHost 0 (fun step hs => ?_) (by simp)
    (href ▸ List.mem_singleton_self _) plainReference_readsRight v hv ?_⟩
  case refine_1 =>
    obtain rfl := List.mem_singleton.mp hs
    trivial
  case refine_2 =>
    rw [hid]
    exact List.mem_singleton_self _

end

end Ui
