import Handicap.Ui.Store

namespace Ui

variable {Doc Model V : Type} {lib : ScenarioLib Doc Model V}

-- Parsing gives back the document whose text it is.
def ScenarioLib.Lawful (lib : ScenarioLib Doc Model V) : Prop :=
  ∀ doc, lib.parseDocument (lib.stringify doc) = .ok doc

-- A text is the one of a scenario.
def ScenarioLib.Parses (lib : ScenarioLib Doc Model V) (yaml : String) : Prop :=
  ∃ parsed, lib.parseScenarioDoc yaml = some (.ok parsed)

-- Whether an action edits the document itself.
def EditorAction.inPlace : EditorAction V → Bool
  | .renameVariable .. | .renameParallelVar .. | .reparentStep .. => false
  | _                                                             => true

namespace ScenarioEditorState

section

variable (lib) (s : ScenarioEditorState Doc Model)

-- The text is the one of the document, and the model is what it parses to.
def Consistent : Prop :=
  match s.doc with
  | some doc => s.yamlText = lib.stringify doc ∧
    ∃ model, s.model = some model ∧ lib.parseScenarioDoc s.yamlText = some (.ok (doc, model))
  | none     => s.model = none ∧ s.yamlText = ""

def Sound : Prop :=
  s.yamlError = none → s.Consistent lib

-- The edit that an action makes, and the state in which it does.
def edits : EditorAction V → Option (ScenarioEditorState Doc Model × Edit V)
  | .edit e                      => some (s, e)
  | .setStepsThinkTime ids value => s.model.bind fun model =>
    let filtered := ids.filter (· ∈ lib.httpStepIds model)
    if filtered = [] then none else some (s, .setStepsThinkTime filtered value)
  | .renameVariable oldName newName => some (s, .renameVariable oldName newName)
  | .renameParallelVar branchName oldName newName =>
    some (s, .renameParallelVar branchName oldName newName)
  | .addBranch parallelId childId =>
    let taken := (s.model.map (lib.branchNames · parallelId)).getD []
    some (s, .addBranch parallelId (defaultBranchName taken) childId)
  | .removeStep stepId                       => some (s, .removeStep stepId)
  | .reparentStep stepId parentId band index => some (s, .reparentStep stepId parentId band index)
  | .addStepExtract stepId extract           =>
    (s.commitPendingYaml lib).bind fun next =>
      (next.model.bind (lib.httpExtract · stepId)).map fun extracts =>
        (next, .setStepExtract stepId (extracts ++ [extract]))
  | .insertTemplateSteps preparedYaml        =>
    let afterTopIndex := s.model.bind fun model => s.selectedStepId.bind (lib.topAncestor model)
    some (s, .insertSteps afterTopIndex preparedYaml)
  | _ => none

-- The document that an edit would give.
def applied (e : Edit V) : Option (Applied Doc) :=
  match s.doc, s.yamlError with
  | some doc, none => some (lib.applyEdit doc e)
  | _, _           => none

-- An edit whose result cannot be parsed leaves everything as it was.
def Unharmed (a : EditorAction V) : Prop :=
  ∀ t ∈ s.edits lib a, ∀ x ∈ t.1.applied lib t.2, x.thrown = false →
    ¬lib.Parses (lib.stringify x.doc) →
      (s.step lib a).doc = t.1.doc ∧ (s.step lib a).model = t.1.model ∧
        (s.step lib a).yamlText = t.1.yamlText

-- An edit in place gives a document that can be parsed, unless it gives up and leaves the document
-- as it is. An error is not cleared where a text could not be loaded.
def Careful (a : EditorAction V) : Prop :=
  (a.inPlace → ∀ t ∈ s.edits lib a, ∀ x ∈ t.1.applied lib t.2,
    if x.thrown then some x.doc = t.1.doc else lib.Parses (lib.stringify x.doc)) ∧
  (a = .clearPendingYaml → s.doc = none → s.yamlText = "")

-- Whether there is an error or not, the text is the one of the document if there is one.
def Invariant : Prop :=
  match s.doc with
  | some _ => s.Consistent lib
  | none   => s.model = none ∧ (s.yamlError = none → s.yamlText = "")

end

theorem parseScenarioDoc_stringify {yaml : String} {parsed : Doc × Model} (hl : lib.Lawful)
    (h : lib.parseScenarioDoc yaml = some (.ok parsed)) :
    lib.parseScenarioDoc (lib.stringify parsed.1) = some (.ok parsed) := by
  simp only [ScenarioLib.parseScenarioDoc] at h ⊢
  cases hd : lib.parseDocument yaml
  case error => simp [hd] at h
  case ok doc =>
    simp only [hd, Option.map_eq_some_iff] at h
    obtain ⟨read, hm, h⟩ := h
    cases read
    case error => simp [Except.map] at h
    case ok model =>
      obtain rfl : (doc, model) = parsed := by simpa [Except.map] using h
      simp [hl doc, hm, Except.map]

variable {s t : ScenarioEditorState Doc Model} {e : Edit V} {a : EditorAction V}

theorem Consistent.invariant (h : s.Consistent lib) : s.Invariant lib := by
  unfold Invariant
  split
  case h_1 => exact h
  case h_2 hd =>
    have ⟨hm, ht⟩ : s.model = none ∧ s.yamlText = "" := by simpa [Consistent, hd] using h
    exact ⟨hm, fun _ => ht⟩

theorem Invariant.sound (h : s.Invariant lib) : s.Sound lib := by
  intro he
  unfold Invariant at h
  split at h
  case h_1 => exact h
  case h_2 hd => simp [Consistent, hd, h.1, h.2 he]

-- What the document, the model and the text have in common does not depend on the other fields.
theorem Invariant.congr (h : s.Invariant lib) (hd : t.doc = s.doc) (hm : t.model = s.model)
    (ht : t.yamlText = s.yamlText) (he : s.doc = none → t.yamlError = none → s.yamlError = none) :
    t.Invariant lib := by
  unfold Invariant Consistent at *
  rw [hd, hm, ht]
  cases hs : s.doc
  case some => simpa [hs] using h
  case none =>
    have ⟨hm, hy⟩ : s.model = none ∧ (s.yamlError = none → s.yamlText = "") := by
      simpa [hs] using h
    exact ⟨hm, fun h => hy (he hs h)⟩

theorem accept_consistent {yaml : String} {parsed : Doc × Model} (hl : lib.Lawful)
    (h : lib.parseScenarioDoc yaml = some (.ok parsed)) : (s.accept lib parsed).Consistent lib :=
  ⟨rfl, parsed.2, rfl, parseScenarioDoc_stringify hl h⟩

theorem initial_invariant : (initial : ScenarioEditorState Doc Model).Invariant lib :=
  ⟨rfl, fun _ => rfl⟩

theorem loadFromString_invariant {yaml : String} (hl : lib.Lawful) (h : s.Invariant lib) :
    (s.loadFromString lib yaml).Invariant lib := by
  unfold loadFromString
  split
  case h_1    => exact h
  case h_2    => exact ⟨rfl, by simp⟩
  case h_3 hp => exact (accept_consistent (s := s) hl hp).invariant.congr rfl rfl rfl (by simp)

theorem commitPendingYaml_invariant (hl : lib.Lawful) (h : s.Invariant lib)
    (hc : s.commitPendingYaml lib = some t) : t.Invariant lib := by
  unfold commitPendingYaml at hc
  split at hc
  case h_1 => exact Option.some.inj hc ▸ h
  case h_2 =>
    split at hc
    case h_1    => simp at hc
    case h_2    => exact Option.some.inj hc ▸ h.congr rfl rfl rfl (by simp)
    case h_3 hp =>
      exact Option.some.inj hc ▸
        (accept_consistent (s := s) hl hp).invariant.congr rfl rfl rfl (by simp)

theorem transact_invariant (hl : lib.Lawful) (h : s.transact lib e = some t) :
    t.Invariant lib := by
  unfold transact at h
  split at h
  case h_2 => simp at h
  case h_1 doc _ _ =>
    simp only at h
    split at h
    case isTrue  => simp at h
    case isFalse =>
      split at h
      case h_1 hp => exact Option.some.inj h ▸ (accept_consistent hl hp).invariant
      case h_2    => simp at h

-- An edit of the document itself. What it would give is looked at before it is made.
theorem dispatch_invariant (hl : lib.Lawful) (h : s.Invariant lib)
    (hc : ∀ x ∈ s.applied lib e,
      if x.thrown then some x.doc = s.doc else lib.Parses (lib.stringify x.doc)) :
    (s.dispatch lib e).Invariant lib := by
  unfold dispatch
  split
  case h_2 => exact h
  case h_1 doc hd he =>
    have hc := hc (lib.applyEdit doc e) (by simp [applied, hd, he])
    simp only
    split
    case isTrue ht =>
      rw [if_pos ht] at hc
      exact h.congr hc rfl rfl fun _ _ => he
    case isFalse ht =>
      rw [if_neg ht] at hc
      obtain ⟨parsed, hp⟩ := hc
      simp only [hp]
      exact (accept_consistent hl hp).invariant

theorem dispatch_of_applied_eq_none (h : s.applied lib e = none) : s.dispatch lib e = s := by
  unfold dispatch
  cases hd : s.doc
  case none => rfl
  case some doc =>
    cases he : s.yamlError
    case none     => simp [applied, hd, he] at h
    case some err => rfl

theorem rename_invariant {conflict : Model → Option RenameVarError} {oldName newName : String}
    (hl : lib.Lawful) (h : s.Invariant lib) :
    (s.rename lib conflict oldName newName e).2.Invariant lib := by
  simp only [rename]
  split
  case h_2 => exact h
  case h_1 =>
    split_ifs
    case pos => exact h
    case pos => exact h
    case neg => exact h
    case pos =>
      split
      case h_1 => exact h
      case h_2 =>
        split
        case h_1    => exact h
        case h_2 ht => exact (transact_invariant hl ht).congr rfl rfl rfl fun _ h => h

-- An action that edits the document itself is a dispatch, but for the selection.
theorem step_eq_dispatch {m : ScenarioEditorState Doc Model × Edit V} (hp : a.inPlace)
    (h : m ∈ s.edits lib a) :
    ∃ sel, s.step lib a = ({ m.1 with selectedStepId := sel }).dispatch lib m.2 := by
  cases a <;> simp only [edits, Option.mem_def, reduceCtorEq, Option.some.injEq] at h
  case renameVariable    => simp [EditorAction.inPlace] at hp
  case renameParallelVar => simp [EditorAction.inPlace] at hp
  case reparentStep      => simp [EditorAction.inPlace] at hp
  case edit                => exact ⟨s.selectedStepId, h ▸ rfl⟩
  case addBranch           => exact ⟨s.selectedStepId, h ▸ rfl⟩
  case insertTemplateSteps => exact ⟨s.selectedStepId, h ▸ rfl⟩
  case setStepsThinkTime ids value =>
    obtain ⟨model, hm, h⟩ := Option.bind_eq_some_iff.mp h
    split at h
    case isTrue     => simp at h
    case isFalse hf =>
      obtain rfl := Option.some.inj h
      have hs : s.step lib (.setStepsThinkTime ids value) =
          s.dispatch lib (.setStepsThinkTime (ids.filter (· ∈ lib.httpStepIds model)) value) := by
        simp [step, setStepsThinkTime, hm, hf]
      exact ⟨s.selectedStepId, hs⟩
  case removeStep stepId =>
    subst h
    by_cases he : s.yamlError = none
    case pos =>
      by_cases hs : s.selectedStepId = some stepId
      case pos => exact ⟨none, by simp [step, removeStep, he, hs]⟩
      case neg =>
        have hs : s.step lib (.removeStep stepId) = s.dispatch lib (.removeStep stepId) := by
          simp [step, removeStep, he, hs]
        exact ⟨s.selectedStepId, hs⟩
    case neg =>
      have hn : s.applied lib (.removeStep stepId) = none := by
        unfold applied
        split <;> simp_all
      exact ⟨s.selectedStepId, by simpa [step, removeStep, he] using
        (dispatch_of_applied_eq_none hn).symm⟩
  case addStepExtract stepId extract =>
    obtain ⟨next, hn, h⟩ := Option.bind_eq_some_iff.mp h
    obtain ⟨extracts, hx, rfl⟩ := Option.map_eq_some_iff.mp h
    refine ⟨next.selectedStepId, ?_⟩
    simp only [step, addStepExtract, hn]
    split
    case isTrue he =>
      refine (dispatch_of_applied_eq_none ?_).symm
      unfold applied
      split <;> simp_all
    case isFalse => simp [hx]

-- The state in which an action edits is one of the store.
theorem edits_invariant {m : ScenarioEditorState Doc Model × Edit V} (hl : lib.Lawful)
    (h : s.Invariant lib) (hm : m ∈ s.edits lib a) : m.1.Invariant lib := by
  cases a <;> simp only [edits, Option.mem_def, reduceCtorEq, Option.some.injEq] at hm
  case setStepsThinkTime =>
    obtain ⟨model, -, hm⟩ := Option.bind_eq_some_iff.mp hm
    split at hm
    case isTrue  => simp at hm
    case isFalse => exact Option.some.inj hm ▸ h
  case addStepExtract =>
    obtain ⟨next, hn, hm⟩ := Option.bind_eq_some_iff.mp hm
    obtain ⟨extracts, -, rfl⟩ := Option.map_eq_some_iff.mp hm
    exact commitPendingYaml_invariant hl h hn
  all_goals exact hm ▸ h

theorem step_invariant_of_edits_eq_none (hl : lib.Lawful) (h : s.Invariant lib)
    (hc : s.Careful lib a) (hn : s.edits lib a = none) : (s.step lib a).Invariant lib := by
  cases a <;> simp only [edits, reduceCtorEq] at hn
  case loadFromString     => exact loadFromString_invariant hl h
  case resetEmpty         => exact loadFromString_invariant hl h
  case commitPendingYaml  =>
    simp only [step]
    cases hc : s.commitPendingYaml lib
    case none => exact h
    case some => exact commitPendingYaml_invariant hl h hc
  case select             => exact h.congr rfl rfl rfl fun _ h => h
  case setPendingYamlText => exact h.congr rfl rfl rfl fun _ h => h
  case bumpTestRunEpoch   => exact h.congr rfl rfl rfl fun _ h => h
  case clearPendingYaml   =>
    cases hd : s.doc
    case some => exact h.congr rfl rfl rfl fun hs => by simp [hs] at hd
    case none =>
      have hm : s.model = none := by simp only [Invariant, hd] at h; exact h.1
      simp [step, Invariant, hd, hm, hc.2 rfl hd]
  case setStepsThinkTime =>
    simp only [step, setStepsThinkTime]
    split
    case h_1    => exact h
    case h_2 hm =>
      simp only [hm, Option.bind_some] at hn
      split at hn
      case isTrue hf => simpa [hf] using h
      case isFalse   => simp at hn
  case addStepExtract stepId _ =>
    simp only [step, addStepExtract]
    cases hc : s.commitPendingYaml lib
    case none      => exact h
    case some next =>
      have hx : next.model.bind (lib.httpExtract · stepId) = none := by simpa [hc] using hn
      have hi : next.Invariant lib := commitPendingYaml_invariant hl h hc
      simpa [hx] using hi

-- A step whose edits give documents that can be parsed, and that clears no error of a text that
-- could not be loaded, preserves what the store maintains.
theorem step_invariant (hl : lib.Lawful) (h : s.Invariant lib) (hc : s.Careful lib a) :
    (s.step lib a).Invariant lib := by
  cases hm : s.edits lib a
  case none   => exact step_invariant_of_edits_eq_none hl h hc hm
  case some m =>
    cases hp : a.inPlace
    case true =>
      have ⟨sel, hs⟩ := step_eq_dispatch hp hm
      have hi : ({ m.1 with selectedStepId := sel } : ScenarioEditorState Doc Model).Invariant lib :=
        (edits_invariant hl h hm).congr rfl rfl rfl fun _ h => h
      exact hs ▸ dispatch_invariant hl hi (hc.1 hp m hm)
    case false =>
      cases a <;> simp only [EditorAction.inPlace, Bool.true_eq_false] at hp
      case renameVariable    => exact rename_invariant hl h
      case renameParallelVar => exact rename_invariant hl h
      case reparentStep stepId parentId band index =>
        simp only [step, reparentStep]
        cases ht : s.transact lib (.reparentStep stepId parentId band index)
        case none => exact h
        case some => exact transact_invariant hl ht

-- What is applied is applied to the document, while there is no error.
theorem applied_eq_some {x : Applied Doc} (h : x ∈ s.applied lib e) :
    ∃ doc, s.doc = some doc ∧ s.yamlError = none ∧ x = lib.applyEdit doc e := by
  unfold applied at h
  split at h
  case h_1 doc hd he => exact ⟨doc, hd, he, (Option.some.inj h).symm⟩
  case h_2           => simp at h

theorem transact_eq_none {x : Applied Doc} (hx : x ∈ s.applied lib e) (ht : x.thrown = false)
    (hp : ¬lib.Parses (lib.stringify x.doc)) : s.transact lib e = none := by
  have ⟨doc, hd, he, hx⟩ := applied_eq_some hx
  unfold transact
  simp only [hd, he, ← hx, ht, Bool.false_eq_true, if_false]
  split
  case h_1 ho => exact absurd ⟨_, ho⟩ hp
  case h_2    => rfl

theorem rename_eq_self {conflict : Model → Option RenameVarError} {oldName newName : String}
    (h : s.transact lib e = none) : (s.rename lib conflict oldName newName e).2 = s := by
  simp only [rename]
  split
  case h_2 => rfl
  case h_1 =>
    split_ifs
    case pos => rfl
    case pos => rfl
    case neg => rfl
    case pos =>
      split
      case h_1 => rfl
      case h_2 => simp [h]

-- A copy that cannot be parsed is dropped.
theorem unharmed_of_inPlace_eq_false (h : a.inPlace = false) : s.Unharmed lib a := by
  intro m hm x hx ht hp
  suffices hs : s.step lib a = m.1 by simp [hs]
  cases a <;> simp only [EditorAction.inPlace, Bool.true_eq_false] at h
  all_goals
    obtain rfl := Option.some.inj hm
    have hn := transact_eq_none hx ht hp
  case renameVariable    => exact rename_eq_self hn
  case renameParallelVar => exact rename_eq_self hn
  case reparentStep      => simp [step, reparentStep, hn]

theorem Careful.unharmed (h : s.Careful lib a) : s.Unharmed lib a := by
  cases hp : a.inPlace
  case false => exact unharmed_of_inPlace_eq_false hp
  case true =>
    intro m hm x hx ht hn
    have ho := h.1 hp m hm x hx
    simp only [ht, Bool.false_eq_true, if_false] at ho
    exact absurd ho hn

-- An edit in place after which the store is sound, and that an error has not harmed, was careful.
theorem careful_of_dispatch {x : Applied Doc} (h : s.Invariant lib) (hx : x ∈ s.applied lib e)
    (hs : (s.dispatch lib e).Sound lib)
    (hu : x.thrown = false → ¬lib.Parses (lib.stringify x.doc) →
      (s.dispatch lib e).doc = s.doc) :
    if x.thrown then some x.doc = s.doc else lib.Parses (lib.stringify x.doc) := by
  have ⟨doc, hd, he, hx⟩ := applied_eq_some hx
  have ⟨ht, model, _, hp⟩ : s.yamlText = lib.stringify doc ∧
      ∃ model, s.model = some model ∧
        lib.parseScenarioDoc s.yamlText = some (.ok (doc, model)) := by
    simpa [Invariant, Consistent, hd] using h
  cases hth : x.thrown
  case true =>
    have hq : s.dispatch lib e = { s with doc := some x.doc } := by
      unfold dispatch
      simp [hd, he, ← hx, hth]
    have ⟨_, model', _, hp'⟩ : s.yamlText = lib.stringify x.doc ∧
        ∃ model, s.model = some model ∧
          lib.parseScenarioDoc s.yamlText = some (.ok (x.doc, model)) := by
      simpa [Sound, Consistent, hq, he] using hs
    have hdoc : (doc, model) = (x.doc, model') :=
      Except.ok.inj (Option.some.inj (hp.symm.trans hp'))
    simp [hd, (Prod.mk.inj hdoc).1]
  case false =>
    simp only [Bool.false_eq_true, if_false]
    by_contra hn
    have hq : (s.dispatch lib e).doc = some x.doc := by
      unfold dispatch
      simp only [hd, he, ← hx, hth, Bool.false_eq_true, if_false]
      split
      case h_1    => rfl
      case h_2    => rfl
      case h_3 ho => exact absurd ⟨_, ho⟩ hn
    have hdoc : x.doc = doc := by simpa [hq, hd] using hu hth hn
    rw [hdoc, ← ht] at hn
    exact hn ⟨_, hp⟩

-- A careful step is one that leaves the store sound and unharmed, and no other is.
theorem careful_of_sound (hl : lib.Lawful) (h : s.Invariant lib)
    (hs : (s.step lib a).Sound lib) (hu : s.Unharmed lib a) : s.Careful lib a := by
  constructor
  case left =>
    intro hp m hm x hx
    have ⟨sel, he⟩ := step_eq_dispatch hp hm
    have hi : ({ m.1 with selectedStepId := sel } : ScenarioEditorState Doc Model).Invariant lib :=
      (edits_invariant hl h hm).congr rfl rfl rfl fun _ h => h
    rw [he] at hs
    have hd (ht : x.thrown = false) (hn : ¬lib.Parses (lib.stringify x.doc)) :=
      he ▸ (hu m hm x hx ht hn).1
    have ho := careful_of_dispatch hi hx hs hd
    exact ho
  case right =>
    rintro rfl hd
    have hc : (s.step lib .clearPendingYaml).Consistent lib := hs rfl
    have ⟨_, ht⟩ : s.model = none ∧ s.yamlText = "" := by simpa [step, Consistent, hd] using hc
    exact ht

-- The editor shows what it holds, and an edit that cannot be parsed changes nothing, exactly along
-- the runs whose edits in place give documents that can be parsed and that do not clear the error
-- of a text that could not be loaded.
theorem editor_sound (hl : lib.Lawful) (actions : List (EditorAction V)) :
    Trace.Meets (step lib) (fun s a => (s.step lib a).Sound lib ∧ s.Unharmed lib a) initial
      actions ↔ Trace.Meets (step lib) (Careful lib) initial actions :=
  Trace.meets_congr initial_invariant (fun _ _ hi hc => step_invariant hl hi hc)
    fun _ _ hi => ⟨fun h => careful_of_sound hl hi h.1 h.2,
      fun hc => ⟨(step_invariant hl hi hc).sound, hc.unharmed⟩⟩

end ScenarioEditorState

-- A scenario without steps, which has a name or an empty one.
inductive NamedDoc
  | named
  | unnamed
  deriving DecidableEq

namespace NamedDoc

def stringify : NamedDoc → String
  | named   => "version: 1\nname: a\nsteps: []\n"
  | unnamed => "version: 1\nname: \"\"\nsteps: []\n"

def parseDocument (yaml : String) : Except String NamedDoc :=
  if yaml = named.stringify then .ok named
  else if yaml = unnamed.stringify then .ok unnamed
  else .error "not a scenario"

def toModel : NamedDoc → Option (Except String String)
  | named   => some (.ok "a")
  | unnamed => some (.error "name: name required")

def applyEdit (doc : NamedDoc) : Edit Unit → Applied NamedDoc
  | .setName value => ⟨if value = "" then unnamed else named, false⟩
  | _              => ⟨doc, false⟩

def scenarioLib : ScenarioLib NamedDoc String Unit where
  parseDocument       := parseDocument
  stringify           := stringify
  toModel             := toModel
  applyEdit           := applyEdit
  httpStepIds _       := []
  branchNames _ _     := []
  httpExtract _ _     := none
  topAncestor _ _     := none
  renameConflict _ _ _    := none
  renameConflict₂ _ _ _ _ := none

theorem scenarioLib_lawful : scenarioLib.Lawful := by
  intro doc
  cases doc <;> decide

end NamedDoc

namespace ScenarioEditorState

open NamedDoc (named unnamed)

-- A scenario is loaded and its name is typed again.
theorem editor_sound_named :
    Trace.Meets (step NamedDoc.scenarioLib)
      (fun s a => (s.step NamedDoc.scenarioLib a).Sound NamedDoc.scenarioLib ∧
        s.Unharmed NamedDoc.scenarioLib a) initial
      [.loadFromString named.stringify, .edit (.setName "a"), .clearPendingYaml] := by
  refine (editor_sound NamedDoc.scenarioLib_lawful _).mpr ?_
  simp only [Trace.meets_cons]
  refine ⟨⟨by simp [EditorAction.inPlace, edits], by simp⟩,
    ⟨fun _ m hm x hx => ?_, by simp⟩, ⟨by simp [edits], fun _ h => ?_⟩, Trace.meets_nil⟩
  case refine_1 =>
    obtain rfl := Option.some.inj hm
    obtain rfl := Option.some.inj hx
    have hp : NamedDoc.scenarioLib.Parses named.stringify := ⟨(named, "a"), by decide⟩
    exact hp
  case refine_2 =>
    have hd : (run NamedDoc.scenarioLib [.loadFromString named.stringify, .edit (.setName "a")]).doc =
        some named := by decide
    exact absurd (hd.symm.trans h) (by simp)

-- A name that is deleted leaves a document that cannot be parsed under the text and the model of
-- the one before, and that stays when the error is cleared.
theorem editor_sound_counterexample :
    ¬Trace.Meets (step NamedDoc.scenarioLib)
      (fun s a => (s.step NamedDoc.scenarioLib a).Sound NamedDoc.scenarioLib ∧
        s.Unharmed NamedDoc.scenarioLib a) initial
      [.loadFromString named.stringify, .edit (.setName ""), .clearPendingYaml] := by
  intro h
  have hs := (h [.loadFromString named.stringify, .edit (.setName "")] .clearPendingYaml
    List.prefix_rfl).1 rfl
  have ht : named.stringify = unnamed.stringify := hs.1
  exact absurd ht (by decide)

end ScenarioEditorState

end Ui
