import Handicap.Engine.Theorems.Refresh

-- The branches of a parallel step, which know nothing of each other.
namespace Engine

-- Two outsides are the same for the strand of a path and for all that is forked from it.
def AgreeBelow (path : List ℕ) (o o' : Outside) : Prop :=
  ∀ a, path <:+ a → o.exchange a = o'.exchange a ∧ o.generated a = o'.generated a ∧
    o.draw a = o'.draw a ∧ o.delay a = o'.delay a

def Iteration.within (it : Iteration) (o : Outside) : Iteration :=
  { it with outside := o }

-- A branch on its own.
def Iteration.executeBranch (it : Iteration) (branch : String × List Step) (b : ℕ)
    (loopIndex : Option ℕ) (s : Strand) : BranchRun :=
  ⟨branch.1, collectOutputVarNames branch.2, it.executeSteps branch.2 loopIndex none (s.fork b)⟩

-- A branch under way: what has become of it so far, and its steps that are still to come.
structure Underway where
  run  : BranchRun
  rest : List Step

namespace Underway

def begin (branch : String × List Step) (b : ℕ) (s : Strand) : Underway :=
  ⟨⟨branch.1, collectOutputVarNames branch.2, ⟨.ok .continue, s.fork b, []⟩⟩, branch.2⟩

def advance (it : Iteration) (loopIndex : Option ℕ) (u : Underway) : Underway :=
  match u.rest with
  | []           => u
  | step :: rest =>
    let run := u.run.run.next fun s => it.guarded s (it.executeOne step loopIndex none)
    ⟨{ u.run with run := run }, rest⟩

end Underway

-- The branches take turns in some order, and the one whose turn it is takes a step.
def Iteration.interleave (it : Iteration) (branches : List (String × List Step))
    (loopIndex : Option ℕ) (s : Strand) (turns : List ℕ) : List Underway :=
  turns.foldl (fun pool b => pool.modify b (Underway.advance it loopIndex))
    (branches.mapIdx fun b branch => Underway.begin branch b s)

def Run.error (r : Run) : Option EngineError :=
  match r.flow with
  | .error e => some e
  | .ok _    => none

-- The first error in the order of the branches, or the worst of what has become of them.
def BranchRun.outcome (branches : List BranchRun) : Except EngineError StepFlow :=
  match branches.findSome? fun b => b.run.error with
  | some e => .error e
  | none   =>
    if ∃ b ∈ branches, b.run.flow = .ok .aborted then .ok .aborted
    else if ∃ b ∈ branches, b.run.flow = .ok .deadlineReached then .ok .deadlineReached
    else .ok .continue

variable {it : Iteration} {o : Outside} {s : Strand} {r r' : Run} {k k' : Strand → Run}
  {path : List ℕ}

theorem AgreeBelow.mono {path' : List ℕ} {o o' : Outside} (h : AgreeBelow path o o')
    (hp : path <:+ path') : AgreeBelow path' o o' :=
  fun a ha => h a (hp.trans ha)

-- The same run, which stays on its path.
structure Stays (path : List ℕ) (r r' : Run) : Prop where
  eq   : r' = r
  path : r.strand.path = path

namespace Stays

theorem stop {flow : Except EngineError StepFlow} {log : List Event} (h : s.path = path) :
    Stays path ⟨flow, s, log⟩ ⟨flow, s, log⟩ :=
  ⟨rfl, h⟩

theorem next (h : Stays path r r') (hk : ∀ s, s.path = path → Stays path (k s) (k' s)) :
    Stays path (r.next k) (r'.next k') := by
  obtain ⟨rfl, hp⟩ := h
  have hk := hk _ hp
  unfold Run.next
  split
  case h_1 => exact ⟨by rw [hk.eq], hk.path⟩
  case h_2 => exact ⟨rfl, hp⟩

section

variable (ho : AgreeBelow path it.outside o)

include ho

theorem look_eq (h : s.path = path) : (it.within o).look s = it.look s := by
  have ⟨_, _, _, hd⟩ := ho s.address (h ▸ List.suffix_cons s.tick s.path)
  unfold Iteration.look
  rw [hd]
  rfl

theorem guarded (h : s.path = path) (hk : ∀ s, s.path = path → Stays path (k s) (k' s)) :
    Stays path (it.guarded s k) ((it.within o).guarded s k') := by
  have hl : (it.look s).path = path := h
  have hd : (it.within o).deadline = it.deadline := rfl
  have hc : (it.within o).isCancelled (it.look s) = it.isCancelled (it.look s) := rfl
  unfold Iteration.guarded
  simp only [look_eq ho h, hd, hc]
  split_ifs
  case pos     => exact stop hl
  case pos     => exact stop hl
  case neg     => exact hk _ hl

theorem rounds {body body' : ℕ → Strand → Run}
    (hb : ∀ i s, s.path = path → Stays path (body i s) (body' i s)) (n i : ℕ) (h : s.path = path) :
    Stays path (it.rounds body n i s) ((it.within o).rounds body' n i s) := by
  induction n generalizing i s
  case zero      => exact stop h
  case succ n ih => exact guarded ho h fun s h => (hb i s h).next fun s h => ih (i + 1) h

theorem pace_eq (seconds : ℚ) (h : s.path = path) :
    (it.within o).pace seconds s = it.pace seconds s := by
  unfold Iteration.pace
  rw [look_eq ho h]
  rfl

theorem think (thinkTime) (h : s.path = path) :
    Stays path (it.think thinkTime s) ((it.within o).think thinkTime s) := by
  cases thinkTime
  case none => exact stop h
  case some tt =>
    have ⟨_, _, hd, _⟩ := ho s.address (h ▸ List.suffix_cons s.tick s.path)
    have ⟨tick, clock, hs⟩ := think_strand it (some tt) s
    refine ⟨?_, by rw [hs]; exact h⟩
    unfold Iteration.think
    have hw : (it.within o).outside.draw s.address = it.outside.draw s.address := hd.symm
    simp only [hw, pace_eq ho _ (s := s.step) h]

theorem http (step : HttpStep) (loopIndex defaultThink) (h : s.path = path) :
    Stays path (it.executeHttp step loopIndex defaultThink s)
      ((it.within o).executeHttp step loopIndex defaultThink s) := by
  have hs : path <:+ s.place := h ▸ List.suffix_cons s.turn s.path
  have hg (i : ℕ) : (it.within o).outside.generated (i :: s.place) =
      it.outside.generated (i :: s.place) :=
    (ho _ (hs.trans (List.suffix_cons i s.place))).2.1.symm
  have he (s' : Strand) (ha : s'.place = s.place) :
      (it.within o).executeStep step loopIndex s' = it.executeStep step loopIndex s' := by
    have hx : (it.within o).outside.exchange s'.place = it.outside.exchange s'.place :=
      ha ▸ (ho _ hs).1.symm
    unfold Iteration.executeStep
    rw [hx]
    rfl
  unfold Iteration.executeHttp
  simp only [hg, he (s.insert _) rfl]
  split
  case h_1 => exact stop h
  case h_2 => exact Stays.next (stop h) fun s h => think ho _ h

end

theorem mergeAll {branches : List BranchRun} {flow : StepFlow} (h : s.path = path) :
    (BranchRun.mergeAll branches flow s).strand.path = path := by
  induction branches generalizing flow s
  case nil => exact h
  case cons b branches ih =>
    rw [BranchRun.mergeAll]
    cases b.run.flow
    case error => exact h
    case ok f  => exact ih h

mutual

-- By induction on the steps.
theorem executeOne {path : List ℕ} (ho : AgreeBelow path it.outside o) (step : Step)
    (loopIndex defaultThink) {s : Strand} (h : s.path = path) :
    Stays path (it.executeOne step loopIndex defaultThink s)
      ((it.within o).executeOne step loopIndex defaultThink s) := by
  cases step
  case http step => exact http ho step loopIndex defaultThink h
  case loop id name repeats body =>
    exact rounds ho (fun i s h => executeSteps ho body (some i) defaultThink h) repeats 0 h
  case ifStep id name cond thenSteps elifs elseSteps =>
    have hs : selectBranch (it.within o).lib ((it.within o).context loopIndex s) cond elifs
        elseSteps = selectBranch it.lib (it.context loopIndex s) cond elifs elseSteps := rfl
    rw [Iteration.executeOne, Iteration.executeOne, hs]
    refine Stays.next (stop h) fun s' h => ?_
    cases selectBranch it.lib (it.context loopIndex s) cond elifs elseSteps
    case thenBranch => exact executeSteps ho thenSteps loopIndex defaultThink h
    case elif j     => exact executeElif ho elifs j loopIndex defaultThink h
    case elseBranch => exact executeSteps ho elseSteps loopIndex defaultThink h
    case none       => exact executeSteps ho elseSteps loopIndex defaultThink h
  case parallel id name branches =>
    rw [Iteration.executeOne, Iteration.executeOne, executeBranches ho branches 0 loopIndex h]
    exact ⟨rfl, mergeAll h⟩

theorem executeSteps {path : List ℕ} (ho : AgreeBelow path it.outside o) (steps : List Step)
    (loopIndex defaultThink) {s : Strand} (h : s.path = path) :
    Stays path (it.executeSteps steps loopIndex defaultThink s)
      ((it.within o).executeSteps steps loopIndex defaultThink s) := by
  cases steps
  case nil             => exact stop h
  case cons step steps =>
    exact guarded ho h fun s h =>
      (executeOne ho step loopIndex defaultThink h).next fun s h =>
        executeSteps ho steps loopIndex defaultThink h

theorem executeElif {path : List ℕ} (ho : AgreeBelow path it.outside o)
    (elifs : List (Condition × List Step)) (j : ℕ) (loopIndex defaultThink) {s : Strand}
    (h : s.path = path) :
    Stays path (it.executeElif elifs j loopIndex defaultThink s)
      ((it.within o).executeElif elifs j loopIndex defaultThink s) := by
  cases elifs
  case nil => exact stop h
  case cons elif elifs =>
    obtain ⟨cond, steps⟩ := elif
    cases j
    case zero   => exact executeSteps ho steps loopIndex defaultThink h
    case succ j => exact executeElif ho elifs j loopIndex defaultThink h

theorem executeBranches {path : List ℕ} (ho : AgreeBelow path it.outside o)
    (branches : List (String × List Step)) (b : ℕ) (loopIndex) {s : Strand} (h : s.path = path) :
    (it.within o).executeBranches branches b loopIndex s =
      it.executeBranches branches b loopIndex s := by
  cases branches
  case nil => rfl
  case cons branch branches =>
    obtain ⟨name, steps⟩ := branch
    have hf : path <:+ (s.fork b).path := h ▸ ⟨[b, s.turn], rfl⟩
    have hr := executeSteps (ho.mono hf) steps loopIndex none (s := s.fork b) rfl
    rw [Iteration.executeBranches, Iteration.executeBranches, hr.eq,
      executeBranches ho branches (b + 1) loopIndex h]

end

end Stays

section

variable {branches : List (String × List Step)} {loopIndex : Option ℕ}

theorem executeBranches_getElem? (branches : List (String × List Step)) (b i : ℕ) (loopIndex) :
    (it.executeBranches branches b loopIndex s)[i]? =
      branches[i]?.map fun branch => it.executeBranch branch (b + i) loopIndex s := by
  induction branches generalizing b i
  case nil => rfl
  case cons branch branches ih =>
    obtain ⟨name, steps⟩ := branch
    rw [Iteration.executeBranches]
    cases i
    case zero   => rfl
    case succ i =>
      rw [List.getElem?_cons_succ, List.getElem?_cons_succ, ih, Nat.add_right_comm, Nat.add_assoc]

theorem Run.next_pos (h : r.flow = .ok .continue) :
    r.next k = { k r.strand with log := r.log ++ (k r.strand).log } := by
  simp [Run.next, h]

theorem Run.next_neg (h : r.flow ≠ .ok .continue) : r.next k = r := by
  unfold Run.next
  split
  case h_1 hr => exact absurd hr h
  case h_2    => rfl

theorem Run.next_next : (r.next k).next k' = r.next fun s => (k s).next k' := by
  by_cases h : r.flow = .ok .continue
  case neg => rw [next_neg h, next_neg h, next_neg h]
  rw [next_pos h, next_pos h]
  by_cases hk : (k r.strand).flow = .ok .continue
  case pos =>
    rw [next_pos hk]
    simp only [Run.next, hk, List.append_assoc]
  case neg =>
    rw [next_neg hk]
    exact next_neg hk

theorem Run.next_stop : (r.next fun s => ⟨.ok .continue, s, []⟩) = r := by
  unfold Run.next
  split
  case h_1 hr => cases r; simp_all
  case h_2    => rfl

theorem guarded_next :
    (it.guarded s k).next k' = it.guarded s fun s => (k s).next k' := by
  unfold Iteration.guarded
  simp only
  split_ifs
  case pos => rfl
  case pos => rfl
  case neg => rfl

-- A branch that has had its turns has done all of its steps.
theorem advance_iterate (u : Underway) (n : ℕ) (hn : u.rest.length ≤ n) :
    ((Underway.advance it loopIndex)^[n] u).run =
      { u.run with run := u.run.run.next fun s => it.executeSteps u.rest loopIndex none s } := by
  induction n generalizing u
  case zero =>
    have hr : u.rest = [] := List.length_eq_zero_iff.mp (Nat.le_zero.mp hn)
    simp only [Function.iterate_zero, id, hr, Iteration.executeSteps, Run.next_stop]
  case succ n ih =>
    rw [Function.iterate_succ_apply]
    obtain ⟨run, rest⟩ := u
    cases rest
    case nil            => exact ih ⟨run, []⟩ (Nat.zero_le _)
    case cons step rest =>
      rw [Underway.advance, ih _ (Nat.le_of_succ_le_succ hn)]
      simp only [Run.next_next, guarded_next, Iteration.executeSteps]

theorem pool_getElem? (pool : List Underway) (turns : List ℕ) (b : ℕ) :
    (turns.foldl (fun pool b => pool.modify b (Underway.advance it loopIndex)) pool)[b]? =
      pool[b]?.map (Underway.advance it loopIndex)^[turns.count b] := by
  induction turns generalizing pool
  case nil => simp
  case cons c turns ih =>
    rw [List.foldl_cons, ih, List.getElem?_modify, List.count_cons]
    by_cases hc : c = b
    case pos => simp [hc, Function.comp_def]
    case neg => simp [hc]

-- The order of the turns does not matter.
theorem interleave_run (turns : List ℕ)
    (ht : ∀ b branch, branches[b]? = some branch → branch.2.length ≤ turns.count b) :
    (it.interleave branches loopIndex s turns).map Underway.run =
      it.executeBranches branches 0 loopIndex s := by
  refine List.ext_getElem? fun b => ?_
  rw [List.getElem?_map, Iteration.interleave, pool_getElem?, executeBranches_getElem?,
    Nat.zero_add, List.getElem?_mapIdx]
  cases hb : branches[b]?
  case none        => rfl
  case some branch =>
    simp only [Option.map_some]
    rw [advance_iterate _ _ (ht b branch hb)]
    rfl

end

namespace BranchRun

variable {branches : List BranchRun} {flow : StepFlow}

theorem mergeAll_flow : (mergeAll branches flow s).flow =
    (branches.findSome? fun b => b.run.error).elim
      (if flow = .aborted ∨ ∃ b ∈ branches, b.run.flow = .ok .aborted then .ok .aborted
      else if flow = .deadlineReached ∨ ∃ b ∈ branches, b.run.flow = .ok .deadlineReached then
        .ok .deadlineReached
      else .ok .continue) .error := by
  induction branches generalizing flow s
  case nil => cases flow <;> simp [mergeAll]
  case cons b branches ih =>
    rw [mergeAll, List.findSome?_cons, Run.error]
    cases hb : b.run.flow
    case error e => rfl
    case ok f =>
      simp only [ih]
      cases f <;> cases flow <;> simp [hb]

theorem mergeAll_outcome : (mergeAll branches .continue s).flow = outcome branches := by
  rw [mergeAll_flow, outcome]
  cases branches.findSome? fun b => b.run.error
  case none   => simp
  case some e => rfl

-- Where all branches have come to an end without an error, each of them is merged.
theorem mergeAll_vars (h : (mergeAll branches flow s).flow = .ok .continue) :
    (mergeAll branches flow s).strand.vars.lookup =
      Scope.assign s.vars.lookup (branches.flatMap entries) := by
  induction branches generalizing flow s
  case nil => rfl
  case cons b branches ih =>
    rw [mergeAll] at h ⊢
    cases hb : b.run.flow
    case error e =>
      rw [hb] at h
      cases h
    case ok f =>
      rw [hb] at h
      have hv : (s.merge b.entries).vars.lookup = Scope.assign s.vars.lookup b.entries :=
        lookup_insert s.vars b.entries
      rw [List.flatMap_cons, Scope.assign, List.foldl_append]
      exact (ih h).trans (congrArg (Scope.assign · _) hv)

theorem mem_entries {b : BranchRun} {e : String × String} :
    e ∈ b.entries ↔ ∃ k ∈ b.outputs, ∃ v, b.run.strand.vars.lookup k = some v ∧
      e = (s!"{b.name}.{k}", v) := by
  simp [entries, eq_comm]

end BranchRun

-- A branch begins with the variables of the fork, and its run is that of its own steps, whatever
-- the other branches are and whatever they are answered, and in whatever order the branches take
-- their turns. The step ends with the first error in the order of the branches, or with the worst
-- of what has become of them, and where it continues, exactly what the branches have put out is
-- merged into the variables of the fork, under the names of the branches.
theorem parallel_isolates (it : Iteration) (id name : String)
    (branches : List (String × List Step)) (loopIndex defaultThink) (s : Strand) :
    let runs := it.executeBranches branches 0 loopIndex s
    let r := it.executeOne (.parallel id name branches) loopIndex defaultThink s
    (∀ b, (s.fork b).vars = s.vars ∧
      runs[b]? = branches[b]?.map fun branch => it.executeBranch branch b loopIndex s) ∧
    (∀ b o branch, AgreeBelow (s.fork b).path it.outside o →
      (it.within o).executeBranch branch b loopIndex s = it.executeBranch branch b loopIndex s) ∧
    (∀ turns : List ℕ, (∀ b branch, branches[b]? = some branch → branch.2.length ≤ turns.count b) →
      (it.interleave branches loopIndex s turns).map Underway.run = runs) ∧
    r.flow = BranchRun.outcome runs ∧
    (r.flow = .ok .continue →
      r.strand.vars.lookup =
        Scope.assign s.vars.lookup (runs.flatMap BranchRun.entries) ∧
      ∀ e, e ∈ runs.flatMap BranchRun.entries ↔
        ∃ b ∈ runs, ∃ k ∈ b.outputs, ∃ v, b.run.strand.vars.lookup k = some v ∧
          e = (s!"{b.name}.{k}", v)) := by
  refine ⟨fun b => ⟨rfl, ?_⟩, fun b o branch ho => ?_, fun turns => interleave_run turns,
    BranchRun.mergeAll_outcome, fun h => ⟨BranchRun.mergeAll_vars h, fun e => ?_⟩⟩
  case refine_1 => rw [executeBranches_getElem?, Nat.zero_add]
  case refine_2 =>
    have hr := (Stays.executeSteps ho branch.2 loopIndex none (s := s.fork b) rfl).eq
    rw [Iteration.executeBranch, hr]
    rfl
  case refine_3 => simp only [List.mem_flatMap, BranchRun.mem_entries]

end Engine
