import Handicap.Engine.Theorems.Declarations

-- Scenarios are read from what they are written as.
namespace Engine

open Guard (bind_eq_ok)

section

variable {step : HttpStep}

structure HttpStep.Canonical (step : HttpStep) : Prop where
  request        : step.request.Canonical
  assertions     : ∀ a ∈ step.assertions, a.Canonical
  timeoutSeconds : ∀ n ∈ step.timeoutSeconds, n < 2 ^ 32

theorem sequence_reads {α : Type} {m : Mapping} {key : String} {read : Yaml → Except GenError α}
    {o : Option (List α)} (h : present m key (sequence read) = .ok o) :
    ∀ a ∈ o.getD [], ∃ y, read y = .ok a := by
  obtain _ | l := o
  case none => simp
  case some =>
    intro a ha
    obtain ⟨y, _, hy⟩ := present_reads h l rfl
    unfold sequence at hy
    split at hy
    case h_1 items =>
      obtain ⟨y, _, hr⟩ := mem_of_mapM hy ha
      exact ⟨y, hr⟩
    case h_2 => simp [invalid] at hy

theorem httpStep_canonical {m : Mapping} (h : HttpStep.deserialize m = .ok step) :
    step.Canonical := by
  obtain ⟨_, _, h⟩ := bind_eq_ok.mp h
  obtain ⟨id, _, h⟩ := bind_eq_ok.mp h
  obtain ⟨name, _, h⟩ := bind_eq_ok.mp h
  obtain ⟨request, hr, h⟩ := bind_eq_ok.mp h
  obtain ⟨assertions, ha, h⟩ := bind_eq_ok.mp h
  obtain ⟨extract, _, h⟩ := bind_eq_ok.mp h
  obtain ⟨timeout, ht, h⟩ := bind_eq_ok.mp h
  obtain ⟨think, _, h⟩ := bind_eq_ok.mp h
  obtain rfl := Except.ok.inj h
  refine ⟨?_, fun a hm => ?_, fun n hm => ?_⟩
  case refine_1 =>
    obtain ⟨y, _, hy⟩ := field_reads hr
    exact request_canonical hy
  case refine_2 =>
    obtain ⟨y, hy⟩ := sequence_reads ha a hm
    exact assertion_canonical hy
  case refine_3 =>
    obtain ⟨y, _, hy⟩ := optional_reads ht n hm
    exact readU32_range hy

-- The fields of a step, and its type.
def HttpStep.fields (step : HttpStep) : List (String × Option Yaml) :=
  [("type", some (.string "http")), ("id", some (.string step.id)),
    ("name", some (.string step.name)), ("request", some step.request.serialize),
    ("assert", some (.sequence (step.assertions.map Assertion.serialize))),
    ("extract", some (.sequence (step.extract.map Extract.serialize))),
    ("timeout_seconds", step.timeoutSeconds.map .ofNat),
    ("think_time", step.thinkTime.map serializeThinkTime)]

theorem httpStep_trees (h : step.Canonical) : Trees step.fields := by
  simp only [HttpStep.fields, trees_some, trees_map, trees_nil, and_true]
  refine ⟨.string _, .string _, .string _, (reads_request h.request).tree, ?_, ?_,
    fun n _ => isTree_ofNat n, fun t _ => (reads_thinkTime t).tree⟩
  case refine_1 => exact (reads_sequence fun a ha => reads_assertion (h.assertions a ha)).tree
  case refine_2 => exact (reads_sequence fun e _ => reads_extract e).tree

theorem httpStep_deserialize (h : step.Canonical) {m : Mapping} (hl : m.Has step.fields) :
    HttpStep.deserialize m = .ok step := by
  have hget := hl.get
  simp only [HttpStep.fields, List.forall_mem_cons] at hget
  obtain ⟨_, hgi, hgn, hgr, hga, hge, hgs, hgt, -⟩ := hget
  have ha := reads_sequence fun a ha => reads_assertion (h.assertions a ha)
  have he := reads_sequence (l := step.extract) fun e _ => reads_extract e
  rw [HttpStep.deserialize, hl.denyUnknown (by simp [HttpStep.fields]), ok_bind, field_string hgi,
    ok_bind, field_string hgn, ok_bind, field_of_get hgr (reads_request h.request).read, ok_bind,
    present_of_some hga ha.read, ok_bind, present_of_some hge he.read, ok_bind,
    optional_of_get hgs (fun _ => rfl) fun n hn => readU32_ofNat (h.timeoutSeconds n hn), ok_bind,
    orNull_of_get hgt (fun _ => rfl) fun t _ => (reads_thinkTime t).read, ok_bind]
  rfl

end

-- Steps that can be written and read back.
inductive Step.Canonical : Step → Prop
  | http {step : HttpStep} (h : step.Canonical) : Canonical (.http step)
  | loop {id name : String} {repeats : ℕ} {body : List Step} (hr : repeats < 2 ^ 32)
      (hb : ∀ step ∈ body, Canonical step) : Canonical (.loop id name repeats body)
  | ifStep {id name : String} {cond : Condition} {thenSteps elseSteps : List Step}
      {elifs : List (Condition × List Step)} (ht : ∀ step ∈ thenSteps, Canonical step)
      (he : ∀ e ∈ elifs, ∀ step ∈ e.2, Canonical step)
      (hs : ∀ step ∈ elseSteps, Canonical step) :
      Canonical (.ifStep id name cond thenSteps elifs elseSteps)
  | parallel {id name : String} {branches : List (String × List Step)}
      (hb : ∀ b ∈ branches, ∀ step ∈ b.2, Canonical step) : Canonical (.parallel id name branches)

-- A sequence is read item by item.
theorem eq_sequence {α : Type} {read : Yaml → Except GenError α}
    {items : List Yaml → Except GenError (List α)} (hnil : items [] = .ok [])
    (hcons : ∀ y l, items (y :: l) = do return (← read y) :: (← items l)) (l : List Yaml) :
    items l = l.mapM read := by
  induction l
  case nil         => exact hnil
  case cons y l ih => rw [hcons, List.mapM_cons, ih]

theorem steps_eq : steps = sequence Step.deserialize := by
  have hi (l : List Yaml) : stepItems l = l.mapM Step.deserialize :=
    eq_sequence (by rfl) (fun _ _ => by rw [stepItems]) l
  funext y
  cases y
  case sequence items => exact hi items
  all_goals rfl

theorem elifs_eq : elifs = sequence elifBranch := by
  have hi (l : List Yaml) : elifItems l = l.mapM elifBranch :=
    eq_sequence (by rfl) (fun _ _ => by rw [elifItems]) l
  funext y
  cases y
  case sequence items => exact hi items
  all_goals rfl

theorem branches_eq : branches = sequence branch := by
  have hi (l : List Yaml) : branchItems l = l.mapM branch :=
    eq_sequence (by rfl) (fun _ _ => by rw [branchItems]) l
  funext y
  cases y
  case sequence items => exact hi items
  all_goals rfl

theorem serializeSteps_eq (l : List Step) : serializeSteps l = l.map Step.serialize := by
  induction l
  case nil            => rfl
  case cons step l ih => rw [serializeSteps, ih, List.map_cons]

def serializeElif (e : Condition × List Step) : Yaml :=
  .mapping [("cond", e.1.serialize), ("then", .sequence (serializeSteps e.2))]

theorem serializeElifs_eq (l : List (Condition × List Step)) :
    serializeElifs l = l.map serializeElif := by
  induction l
  case nil         => rfl
  case cons e l ih => rw [serializeElifs, ih, List.map_cons, serializeElif]

def serializeBranch (b : String × List Step) : Yaml :=
  .mapping [("name", .string b.1), ("steps", .sequence (serializeSteps b.2))]

theorem serializeBranches_eq (l : List (String × List Step)) :
    serializeBranches l = l.map serializeBranch := by
  induction l
  case nil         => rfl
  case cons b l ih => rw [serializeBranches, ih, List.map_cons, serializeBranch]

section

variable {entries : List (String × Yaml)} {m : Mapping} {key : String}

theorem fieldSteps_eq (hm : fields entries = .ok m) :
    fieldSteps key entries = present m key (sequence Step.deserialize) :=
  steps_eq ▸ eq_present rfl (fun _ _ _ => by rw [fieldSteps]) hm

theorem fieldElifs_eq (hm : fields entries = .ok m) :
    fieldElifs entries = present m "elif" (sequence elifBranch) :=
  elifs_eq ▸ eq_present rfl (fun _ _ _ => by rw [fieldElifs]) hm

theorem fieldBranches_eq (hm : fields entries = .ok m) :
    fieldBranches entries = present m "branches" (sequence branch) :=
  branches_eq ▸ eq_present rfl (fun _ _ _ => by rw [fieldBranches]) hm

end

theorem reads_steps {l : List Step} (h : ∀ step ∈ l, Reads Step.deserialize step.serialize step) :
    Reads (sequence Step.deserialize) (.sequence (serializeSteps l)) l :=
  serializeSteps_eq l ▸ reads_sequence h

theorem reads_elif {e : Condition × List Step}
    (h : ∀ step ∈ e.2, Reads Step.deserialize step.serialize step) :
    Reads elifBranch (serializeElif e) e := by
  have hs : serializeElif e = .mapping (collect [("cond", some e.1.serialize),
    ("then", some (.sequence (serializeSteps e.2)))]) := rfl
  rw [hs]
  refine reads_mapping (by simp) ?_ fun m hm hl => ?_
  case refine_1 =>
    simp only [trees_some, trees_nil, and_true]
    exact ⟨(reads_condition e.1).tree, (reads_steps h).tree⟩
  case refine_2 =>
    have hget := hl.get
    simp only [List.forall_mem_cons] at hget
    obtain ⟨hgc, hgt, -⟩ := hget
    rw [elifBranch, hm, ok_bind, hl.denyUnknown (by simp), ok_bind,
      field_of_get hgc (reads_condition e.1).read, ok_bind, fieldSteps_eq hm,
      present_of_some hgt (reads_steps h).read]
    rfl

theorem reads_elifs {l : List (Condition × List Step)}
    (h : ∀ e ∈ l, ∀ step ∈ e.2, Reads Step.deserialize step.serialize step) :
    Reads (sequence elifBranch) (.sequence (serializeElifs l)) l :=
  serializeElifs_eq l ▸ reads_sequence fun e he => reads_elif (h e he)

theorem reads_branch {b : String × List Step}
    (h : ∀ step ∈ b.2, Reads Step.deserialize step.serialize step) :
    Reads branch (serializeBranch b) b := by
  have hs : serializeBranch b = .mapping (collect [("name", some (.string b.1)),
    ("steps", some (.sequence (serializeSteps b.2)))]) := rfl
  rw [hs]
  refine reads_mapping (by simp) ?_ fun m hm hl => ?_
  case refine_1 =>
    simp only [trees_some, trees_nil, and_true]
    exact ⟨.string _, (reads_steps h).tree⟩
  case refine_2 =>
    have hget := hl.get
    simp only [List.forall_mem_cons] at hget
    obtain ⟨hgn, hgs, -⟩ := hget
    rw [branch, hm, ok_bind, hl.denyUnknown (by simp), ok_bind, field_string hgn, ok_bind,
      fieldSteps_eq hm, present_of_some hgs (reads_steps h).read]
    rfl

theorem reads_branches {l : List (String × List Step)}
    (h : ∀ b ∈ l, ∀ step ∈ b.2, Reads Step.deserialize step.serialize step) :
    Reads (sequence branch) (.sequence (serializeBranches l)) l :=
  serializeBranches_eq l ▸ reads_sequence fun b hb => reads_branch (h b hb)

theorem reads_step {step : Step} (h : step.Canonical) :
    Reads Step.deserialize step.serialize step := by
  induction h
  case http step h =>
    have hs : (Step.http step).serialize = .mapping (collect step.fields) := by
      simp [Step.serialize, HttpStep.serializeEntries, HttpStep.fields]
    rw [hs]
    refine reads_mapping (by simp [HttpStep.fields]) (httpStep_trees h) fun m hm hl => ?_
    have ht : m.get "type" = some (.string "http") := hl.get _ List.mem_cons_self
    rw [Step.deserialize, hm, ok_bind, field_string ht, ok_bind]
    simp only [httpStep_deserialize h hl, ok_map]
  case loop id name repeats body hr _ ih =>
    have hs : (Step.loop id name repeats body).serialize = .mapping (collect [
      ("type", some (.string "loop")), ("id", some (.string id)), ("name", some (.string name)),
      ("repeat", some (.ofNat repeats)), ("do", some (.sequence (serializeSteps body)))]) := rfl
    have hb := reads_steps ih
    rw [hs]
    refine reads_mapping (by simp) (by simp [hb.tree]) fun m hm hl => ?_
    have hd : denyUnknown m ["type", "id", "name", "repeat", "do"] = .ok () :=
      hl.denyUnknown (by simp)
    have hget := hl.get
    simp only [List.forall_mem_cons] at hget
    obtain ⟨hgt, hgi, hgn, hgr, hgb, -⟩ := hget
    rw [Step.deserialize, hm, ok_bind, field_string hgt, ok_bind]
    simp only [hd, ok_bind, field_string hgi, field_string hgn,
      required_of_get hgr (readU32_ofNat hr), fieldSteps_eq hm, present_of_some hgb hb.read, demand]
    rfl
  case ifStep id name cond thenSteps elseSteps elifs _ _ _ iht ihe ihs =>
    have hs : (Step.ifStep id name cond thenSteps elifs elseSteps).serialize = .mapping (collect [
      ("type", some (.string "if")), ("id", some (.string id)), ("name", some (.string name)),
      ("cond", some cond.serialize), ("then", some (.sequence (serializeSteps thenSteps))),
      ("elif", some (.sequence (serializeElifs elifs))),
      ("else", some (.sequence (serializeSteps elseSteps)))]) := rfl
    have hc := reads_condition cond
    have ht := reads_steps iht
    have he := reads_elifs ihe
    have hes := reads_steps ihs
    rw [hs]
    refine reads_mapping (by simp) (by simp [hc.tree, ht.tree, he.tree, hes.tree])
      fun m hm hl => ?_
    have hd : denyUnknown m ["type", "id", "name", "cond", "then", "elif", "else"] = .ok () :=
      hl.denyUnknown (by simp)
    have hget := hl.get
    simp only [List.forall_mem_cons] at hget
    obtain ⟨hgt, hgi, hgn, hgc, hgth, hge, hgs, -⟩ := hget
    rw [Step.deserialize, hm, ok_bind, field_string hgt, ok_bind]
    simp only [hd, ok_bind, field_string hgi, field_string hgn, field_of_get hgc hc.read,
      fieldSteps_eq hm, present_of_some hgth ht.read, demand, fieldElifs_eq hm,
      present_of_some hge he.read, present_of_some hgs hes.read]
    rfl
  case parallel id name branches _ ih =>
    have hs : (Step.parallel id name branches).serialize = .mapping (collect [
      ("type", some (.string "parallel")), ("id", some (.string id)), ("name", some (.string name)),
      ("branches", some (.sequence (serializeBranches branches)))]) := rfl
    have hb := reads_branches ih
    rw [hs]
    refine reads_mapping (by simp) (by simp [hb.tree]) fun m hm hl => ?_
    have hd : denyUnknown m ["type", "id", "name", "branches"] = .ok () :=
      hl.denyUnknown (by simp)
    have hget := hl.get
    simp only [List.forall_mem_cons] at hget
    obtain ⟨hgt, hgi, hgn, hgb, -⟩ := hget
    rw [Step.deserialize, hm, ok_bind, field_string hgt, ok_bind]
    simp only [hd, ok_bind, field_string hgi, field_string hgn, fieldBranches_eq hm,
      present_of_some hgb hb.read, demand]
    rfl

-- What holds of a tree if it holds of its items and of the values of its fields.
theorem Yaml.tree_induction {P : Yaml → Prop} (null : P .null) (bool : ∀ b, P (.bool b))
    (int : ∀ n, P (.int n)) (wide : ∀ n, P (.wide n)) (float : ∀ q, P (.float q))
    (string : ∀ s, P (.string s))
    (sequence : ∀ items, (∀ y ∈ items, P y) → P (.sequence items))
    (mapping : ∀ entries, (∀ e ∈ entries, P e.2) → P (.mapping entries)) (y : Yaml) : P y :=
  @Yaml.rec P (fun items => ∀ y ∈ items, P y) (fun entries => ∀ e ∈ entries, P e.2)
    (fun e => P e.2) null bool int wide float string sequence mapping (List.forall_mem_nil _)
    (fun _ _ hy hl => List.forall_mem_cons.mpr ⟨hy, hl⟩) (List.forall_mem_nil _)
    (fun _ _ he hl => List.forall_mem_cons.mpr ⟨he, hl⟩) (fun _ _ hy => hy) y

-- Whatever has been read can be written and read back.
structure CanonicalReads (y : Yaml) : Prop where
  step     : ∀ step, Step.deserialize y = .ok step → step.Canonical
  steps    : ∀ l, sequence Step.deserialize y = .ok l → ∀ step ∈ l, step.Canonical
  elif     : ∀ e, elifBranch y = .ok e → ∀ step ∈ e.2, step.Canonical
  elifs    : ∀ l, sequence elifBranch y = .ok l → ∀ e ∈ l, ∀ step ∈ e.2, step.Canonical
  branch   : ∀ b, branch y = .ok b → ∀ step ∈ b.2, step.Canonical
  branches : ∀ l, sequence Engine.branch y = .ok l → ∀ b ∈ l, ∀ step ∈ b.2, step.Canonical

theorem sequence_mem {α : Type} {read : Yaml → Except GenError α} {items : List Yaml} {l : List α}
    {Q : α → Prop} (h : ∀ y ∈ items, ∀ a, read y = .ok a → Q a)
    (hs : sequence read (.sequence items) = .ok l) : ∀ a ∈ l, Q a := by
  intro a ha
  obtain ⟨y, hy, hr⟩ := mem_of_mapM hs ha
  exact h y hy a hr

theorem present_of_entries {α : Type} {P : Yaml → Prop} {entries : List (String × Yaml)}
    {m : Mapping} {key : String} {read : Yaml → Except GenError α} {o : Option α}
    (ih : ∀ e ∈ entries, P e.2) (hm : fields entries = .ok m) (h : present m key read = .ok o) :
    ∀ a ∈ o, ∃ y, P y ∧ read y = .ok a := by
  intro a ha
  obtain ⟨y, hg, hy⟩ := present_reads h a ha
  exact ⟨y, ih _ (fields_eq_ok hm ▸ mem_of_get hg), hy⟩

theorem demand_eq_ok {α : Type} {key : String} {o : Option α} {a : α} (h : demand key o = .ok a) :
    o = some a := by
  cases o
  case none   => simp [demand] at h
  case some a => exact congrArg some (Except.ok.inj h)

section

variable {entries : List (String × Yaml)} {m : Mapping} {key : String} {o : Option (List Step)}

-- The steps of a field.
theorem fieldSteps_canonical (ih : ∀ e ∈ entries, CanonicalReads e.2)
    (hm : fields entries = .ok m) (h : fieldSteps key entries = .ok o) :
    ∀ l ∈ o, ∀ step ∈ l, step.Canonical := by
  rw [fieldSteps_eq hm] at h
  intro l hl
  obtain ⟨y, hy, hr⟩ := present_of_entries ih hm h l hl
  exact hy.steps l hr

theorem demand_canonical (ih : ∀ e ∈ entries, CanonicalReads e.2) (hm : fields entries = .ok m)
    (h : fieldSteps key entries = .ok o) {l : List Step} (hd : demand key o = .ok l) :
    ∀ step ∈ l, step.Canonical :=
  fieldSteps_canonical ih hm h l (demand_eq_ok hd)

end

theorem step_canonical {entries : List (String × Yaml)} {step : Step}
    (ih : ∀ e ∈ entries, CanonicalReads e.2) (h : Step.deserialize (.mapping entries) = .ok step) :
    step.Canonical := by
  rw [Step.deserialize] at h
  obtain ⟨m, hm, h⟩ := bind_eq_ok.mp h
  obtain ⟨kind, _, h⟩ := bind_eq_ok.mp h
  split at h
  case h_1 =>
    obtain ⟨http, hh, rfl⟩ := map_eq_ok h
    exact .http (httpStep_canonical hh)
  case h_2 =>
    obtain ⟨_, _, h⟩ := bind_eq_ok.mp h
    obtain ⟨_, _, h⟩ := bind_eq_ok.mp h
    obtain ⟨_, _, h⟩ := bind_eq_ok.mp h
    obtain ⟨repeats, hr, h⟩ := bind_eq_ok.mp h
    obtain ⟨body, hb, h⟩ := bind_eq_ok.mp h
    obtain ⟨l, hl, h⟩ := bind_eq_ok.mp h
    obtain rfl := Except.ok.inj h
    obtain ⟨y, _, hy⟩ := required_reads hr
    exact .loop (readU32_range hy) (demand_canonical ih hm hb hl)
  case h_3 =>
    obtain ⟨_, _, h⟩ := bind_eq_ok.mp h
    obtain ⟨_, _, h⟩ := bind_eq_ok.mp h
    obtain ⟨_, _, h⟩ := bind_eq_ok.mp h
    obtain ⟨cond, _, h⟩ := bind_eq_ok.mp h
    obtain ⟨thenSteps, ht, h⟩ := bind_eq_ok.mp h
    obtain ⟨l, hl, h⟩ := bind_eq_ok.mp h
    obtain ⟨elifs, he, h⟩ := bind_eq_ok.mp h
    obtain ⟨elseSteps, hs, h⟩ := bind_eq_ok.mp h
    obtain rfl := Except.ok.inj h
    refine .ifStep (demand_canonical ih hm ht hl) ?_ ?_
    case refine_1 =>
      rw [fieldElifs_eq hm] at he
      obtain _ | elifs := elifs
      case none => simp
      case some =>
        obtain ⟨y, hy, hr⟩ := present_of_entries ih hm he elifs rfl
        exact hy.elifs elifs hr
    case refine_2 =>
      obtain _ | elseSteps := elseSteps
      case none => simp
      case some => exact fieldSteps_canonical ih hm hs elseSteps rfl
  case h_4 =>
    obtain ⟨_, _, h⟩ := bind_eq_ok.mp h
    obtain ⟨_, _, h⟩ := bind_eq_ok.mp h
    obtain ⟨_, _, h⟩ := bind_eq_ok.mp h
    obtain ⟨branches, hb, h⟩ := bind_eq_ok.mp h
    obtain ⟨l, hl, h⟩ := bind_eq_ok.mp h
    obtain rfl := Except.ok.inj h
    rw [fieldBranches_eq hm] at hb
    obtain ⟨y, hy, hr⟩ := present_of_entries ih hm hb l (demand_eq_ok hl)
    exact .parallel (hy.branches l hr)
  case h_5 => simp at h

theorem tree_canonical (y : Yaml) : CanonicalReads y := by
  induction y using Yaml.tree_induction
  case sequence items ih =>
    constructor
    case step     => simp [Step.deserialize, invalid]
    case elif     => simp [elifBranch, invalid]
    case branch   => simp [branch, invalid]
    case steps    => exact fun l h => sequence_mem (fun y hy => (ih y hy).step) h
    case elifs    => exact fun l h => sequence_mem (fun y hy => (ih y hy).elif) h
    case branches => exact fun l h => sequence_mem (fun y hy => (ih y hy).branch) h
  case mapping entries ih =>
    constructor
    case steps    => simp [sequence, invalid]
    case elifs    => simp [sequence, invalid]
    case branches => simp [sequence, invalid]
    case step     => exact fun step h => step_canonical ih h
    case elif =>
      intro e h
      rw [elifBranch] at h
      obtain ⟨m, hm, h⟩ := bind_eq_ok.mp h
      obtain ⟨_, _, h⟩ := bind_eq_ok.mp h
      obtain ⟨cond, _, h⟩ := bind_eq_ok.mp h
      obtain ⟨o, ho, h⟩ := bind_eq_ok.mp h
      obtain ⟨l, hl, h⟩ := bind_eq_ok.mp h
      obtain rfl := Except.ok.inj h
      exact demand_canonical ih hm ho hl
    case branch =>
      intro b h
      rw [branch] at h
      obtain ⟨m, hm, h⟩ := bind_eq_ok.mp h
      obtain ⟨_, _, h⟩ := bind_eq_ok.mp h
      obtain ⟨name, _, h⟩ := bind_eq_ok.mp h
      obtain ⟨o, ho, h⟩ := bind_eq_ok.mp h
      obtain ⟨l, hl, h⟩ := bind_eq_ok.mp h
      obtain rfl := Except.ok.inj h
      exact demand_canonical ih hm ho hl
  all_goals constructor <;> simp [Step.deserialize, elifBranch, branch, sequence, invalid]

section

variable {lib : DeclLib} {s : Scenario} {y : Yaml}

structure Scenario.Canonical (lib : DeclLib) (s : Scenario) : Prop where
  version : s.version < 2 ^ 32
  ordered : KeyOrder.Ordered s.varDecls
  decls   : ∀ v ∈ s.varDecls, v.2.Canonical lib
  steps   : ∀ step ∈ s.steps, step.Canonical

theorem variables_canonical {l : List (String × VarDecl)}
    (h : Scenario.deserializeVariables lib y = .ok l) :
    KeyOrder.Ordered l ∧ ∀ v ∈ l, v.2.Canonical lib := by
  unfold Scenario.deserializeVariables at h
  split at h
  case h_2 => simp [invalid] at h
  case h_1 =>
    obtain ⟨decls, hd, h⟩ := bind_eq_ok.mp h
    obtain rfl := Except.ok.inj h
    refine ⟨KeyOrder.ofList_ordered decls, fun v hv => ?_⟩
    obtain ⟨e, _, he⟩ := mem_of_mapM hd (KeyOrder.mem_ofList hv)
    obtain ⟨d, hd, he⟩ := bind_eq_ok.mp he
    obtain rfl := Except.ok.inj he
    exact varDecl_canonical hd

theorem reads_variables {l : List (String × VarDecl)} (ho : KeyOrder.Ordered l)
    (h : ∀ v ∈ l, v.2.Canonical lib) :
    Reads (Scenario.deserializeVariables lib) (.mapping (l.map fun v => (v.1, v.2.serialize))) l
    where
  tree := by
    refine .mapping ?_ (List.forall_mem_map.mpr fun v hv => (reads_varDecl (h v hv)).tree)
    rw [List.map_map]
    exact ho.nodup
  read := by
    have hr : (l.map fun v => (v.1, v.2.serialize)).mapM (fun e => do
        return (e.1, ← VarDecl.deserialize lib e.2) : _ → Except GenError (String × VarDecl)) =
        .ok l := by
      refine mapM_map fun v hv => ?_
      simp only [(reads_varDecl (h v hv)).read]
      rfl
    rw [Scenario.deserializeVariables, hr, ok_bind, KeyOrder.ofList_eq_self ho]
    rfl

theorem scenario_canonical (h : Scenario.deserialize lib y = .ok s) : s.Canonical lib := by
  obtain ⟨m, _, h⟩ := bind_eq_ok.mp h
  obtain ⟨_, _, h⟩ := bind_eq_ok.mp h
  obtain ⟨version, hv, h⟩ := bind_eq_ok.mp h
  obtain ⟨name, _, h⟩ := bind_eq_ok.mp h
  obtain ⟨decls, hd, h⟩ := bind_eq_ok.mp h
  obtain ⟨cookieJar, _, h⟩ := bind_eq_ok.mp h
  obtain ⟨think, _, h⟩ := bind_eq_ok.mp h
  obtain ⟨notes, _, h⟩ := bind_eq_ok.mp h
  obtain ⟨steps, hs, h⟩ := bind_eq_ok.mp h
  obtain rfl := Except.ok.inj h
  have hl : KeyOrder.Ordered (decls.getD []) ∧ ∀ v ∈ decls.getD [], v.2.Canonical lib := by
    obtain _ | decls := decls
    case none => exact ⟨.nil, by simp⟩
    case some =>
      obtain ⟨y, _, hy⟩ := present_reads hd decls rfl
      exact variables_canonical hy
  refine ⟨?_, hl.left, hl.right, ?_⟩
  case refine_1 =>
    obtain ⟨y, _, hy⟩ := required_reads hv
    exact readU32_range hy
  case refine_2 =>
    obtain ⟨y, _, hy⟩ := field_reads hs
    rw [steps_eq] at hy
    exact (tree_canonical y).steps steps hy

theorem reads_scenario (h : s.Canonical lib) : Reads (Scenario.deserialize lib) s.serialize s := by
  have hs : s.serialize = .mapping (collect [("version", some (.ofNat s.version)),
      ("name", some (.string s.name)),
      ("variables", some (.mapping (s.varDecls.map fun v => (v.1, v.2.serialize)))),
      ("cookie_jar", some (.string (if s.cookieJar then "auto" else "off"))),
      ("default_think_time", s.defaultThinkTime.map serializeThinkTime),
      ("notes", s.notes.map .string), ("steps", some (.sequence (serializeSteps s.steps)))]) := by
    simp [Scenario.serialize]
  have hv := reads_variables h.ordered h.decls
  have hst := reads_steps fun step hm => reads_step (h.steps step hm)
  have hc : variant cookieJarModes (.string (if s.cookieJar then "auto" else "off")) =
      .ok s.cookieJar := by
    cases s.cookieJar <;> rfl
  rw [hs]
  refine reads_mapping (by simp) ?_ fun m hm hl => ?_
  case refine_1 =>
    simp only [trees_some, trees_map, trees_nil, and_true]
    exact ⟨isTree_ofNat _, .string _, hv.tree, .string _, fun t _ => (reads_thinkTime t).tree,
      fun n _ => .string n, hst.tree⟩
  case refine_2 =>
    have hget := hl.get
    simp only [List.forall_mem_cons] at hget
    obtain ⟨hgv, hgn, hgd, hgc, hgt, hgo, hgs, -⟩ := hget
    have hname : required m "name" (readText lib "name") = .ok s.name := required_of_get hgn rfl
    rw [Scenario.deserialize, Yaml.fields, hm, ok_bind, hl.denyUnknown (by simp), ok_bind,
      required_of_get hgv (readU32_ofNat h.version), ok_bind, hname, ok_bind,
      present_of_some hgd hv.read, ok_bind, present_of_some hgc hc, ok_bind,
      orNull_of_get hgt (fun _ => rfl) fun t _ => (reads_thinkTime t).read, ok_bind,
      optional_text hgo, ok_bind, steps_eq, field_of_get hgs hst.read, ok_bind]
    rfl

end

-- A tree is read from the text that it is printed as.
def YamlText.Lossless (yaml : YamlText) : Prop :=
  ∀ y : Yaml, y.IsTree → ∃ text, yaml.print y = .ok text ∧ yaml.parse text = .ok y

section

variable {yaml : YamlText} {lib : DeclLib} {s : Scenario} {text : String}

theorem fromYaml_canonical (h : fromYaml yaml lib text = .ok s) : s.Canonical lib := by
  obtain ⟨y, _, h⟩ := bind_eq_ok.mp h
  exact scenario_canonical h

theorem toYaml_of_canonical (hy : yaml.Lossless) (h : s.Canonical lib) :
    ∃ out, s.toYaml yaml = .ok out ∧ fromYaml yaml lib out = .ok s := by
  have hs := reads_scenario h
  obtain ⟨out, ho, hp⟩ := hy s.serialize hs.tree
  refine ⟨out, ?_, ?_⟩
  case refine_1 => rw [Scenario.toYaml, ho, Except.mapError]
  case refine_2 =>
    rw [fromYaml, hp, Except.mapError, ok_bind]
    exact hs.read

end

end Engine
