import Handicap.Api.Theorems.StripThink
import Handicap.Engine.Runner
import Handicap.Ui.ThinkTime

open Store (ThinkTime)

namespace Engine

section

variable (d : Option ThinkTime)

def HttpStep.withDefault (step : HttpStep) : HttpStep :=
  { step with thinkTime := step.thinkTime.or d }

mutual

-- The default think time is written to the steps that have none, but not to those in branches.
def Step.withDefault : Step → Step
  | .http step                                     => .http (step.withDefault d)
  | .loop id name repeats body                     => .loop id name repeats (stepsWithDefault body)
  | .ifStep id name cond thenSteps elifs elseSteps =>
    .ifStep id name cond (stepsWithDefault thenSteps) (elifsWithDefault elifs)
      (stepsWithDefault elseSteps)
  | .parallel id name branches                     => .parallel id name branches

def stepsWithDefault : List Step → List Step
  | []            => []
  | step :: steps => step.withDefault :: stepsWithDefault steps

def elifsWithDefault : List (Condition × List Step) → List (Condition × List Step)
  | []                     => []
  | (cond, steps) :: elifs => (cond, stepsWithDefault steps) :: elifsWithDefault elifs

end

end

-- The scenario without a default, whose steps have all the think times that they take.
def Scenario.explicit (sc : Scenario) : Scenario :=
  { sc with defaultThinkTime := none, steps := stepsWithDefault sc.defaultThinkTime sc.steps }

section

variable {d : Option ThinkTime}

mutual

-- By induction on the steps.
theorem withDefault_withoutThink (step : Step) :
    (step.withDefault d).mapHttp HttpStep.withoutThink = step.mapHttp HttpStep.withoutThink := by
  cases step
  case http => rfl
  case loop id name repeats body =>
    rw [Step.withDefault, Step.mapHttp, Step.mapHttp, steps_withoutThink body]
  case ifStep id name cond thenSteps elifs elseSteps =>
    rw [Step.withDefault, Step.mapHttp, Step.mapHttp, steps_withoutThink thenSteps,
      elifs_withoutThink elifs, steps_withoutThink elseSteps]
  case parallel => rfl

theorem steps_withoutThink (l : List Step) :
    mapHttpSteps HttpStep.withoutThink (stepsWithDefault d l) =
      mapHttpSteps HttpStep.withoutThink l := by
  cases l
  case nil => rfl
  case cons step l =>
    rw [stepsWithDefault, mapHttpSteps, mapHttpSteps, withDefault_withoutThink step,
      steps_withoutThink l]

theorem elifs_withoutThink (elifs : List (Condition × List Step)) :
    mapHttpElifs HttpStep.withoutThink (elifsWithDefault d elifs) =
      mapHttpElifs HttpStep.withoutThink elifs := by
  cases elifs
  case nil => rfl
  case cons e elifs =>
    obtain ⟨cond, steps⟩ := e
    rw [elifsWithDefault, mapHttpElifs, mapHttpElifs, steps_withoutThink steps,
      elifs_withoutThink elifs]

end

theorem explicit_withoutThink (sc : Scenario) : sc.explicit.withoutThink = sc.withoutThink := by
  rw [Scenario.withoutThink, Scenario.explicit, steps_withoutThink]
  rfl

end

-- What has happened, but for the think time that the step has of its own.
def Event.unpaced : Event → Event
  | .http step loopIndex refreshed vars result =>
    .http step.withoutThink loopIndex refreshed vars result
  | e                                          => e

-- Two runs in which the same happens, pauses included.
structure SameRun (r r' : Run) : Prop where
  flow   : r.flow = r'.flow
  strand : r.strand = r'.strand
  log    : r.log.map Event.unpaced = r'.log.map Event.unpaced

namespace SameRun

variable {r r' : Run} {k k' : Strand → Run}

theorem refl (r : Run) : SameRun r r :=
  ⟨rfl, rfl, rfl⟩

theorem next (h : SameRun r r') (hk : ∀ s, SameRun (k s) (k' s)) :
    SameRun (r.next k) (r'.next k') := by
  rw [Run.next, Run.next, ← h.flow]
  split
  case h_1 =>
    have hs := hk r.strand
    rw [← h.strand]
    refine ⟨hs.flow, hs.strand, ?_⟩
    rw [List.map_append, List.map_append, h.log, hs.log]
  case h_2 => exact h

theorem guarded (it : Iteration) (s : Strand) (hk : ∀ s, SameRun (k s) (k' s)) :
    SameRun (it.guarded s k) (it.guarded s k') := by
  simp only [Iteration.guarded]
  split_ifs
  case pos => exact refl _
  case pos => exact refl _
  case neg => exact hk _

theorem rounds (it : Iteration) {body body' : ℕ → Strand → Run}
    (h : ∀ i s, SameRun (body i s) (body' i s)) (n i : ℕ) (s : Strand) :
    SameRun (it.rounds body n i s) (it.rounds body' n i s) := by
  induction n generalizing i s
  case zero      => exact refl _
  case succ n ih => exact guarded it s fun s => (h i s).next fun s => ih (i + 1) s

end SameRun

section

variable {d : Option ThinkTime} (it : Iteration)

theorem selectBranch_withDefault {ctx : TemplateContext} {cond : Condition}
    {elifs : List (Condition × List Step)} {elseSteps : List Step} :
    selectBranch it.lib ctx cond (elifsWithDefault d elifs) (stepsWithDefault d elseSteps) =
      selectBranch it.lib ctx cond elifs elseSteps := by
  have hfind : (elifsWithDefault d elifs).findIdx? (fun e => evalCondition it.lib ctx e.1) =
      elifs.findIdx? fun e => evalCondition it.lib ctx e.1 := by
    induction elifs
    case nil => rfl
    case cons e elifs ih =>
      rw [elifsWithDefault, List.findIdx?_cons, List.findIdx?_cons, ih]
  have hempty : (stepsWithDefault d elseSteps).isEmpty = elseSteps.isEmpty := by
    cases elseSteps <;> rfl
  rw [selectBranch, selectBranch, hfind, hempty]

-- A step that has been given the default thinks as long as the one that has taken it.
theorem executeHttp_same (step : HttpStep) (loopIndex : Option ℕ) (s : Strand) :
    SameRun (it.executeHttp step loopIndex d s)
      (it.executeHttp (step.withDefault d) loopIndex none s) := by
  have hor : (step.withDefault d).thinkTime.or none = step.thinkTime.or d := by
    rw [Option.or_none]
    rfl
  simp only [Iteration.executeHttp, hor]
  have hstep : ∀ s, it.executeStep (step.withDefault d) loopIndex s =
      it.executeStep step loopIndex s := fun _ => rfl
  have hid : (step.withDefault d).id = step.id := rfl
  rw [hid, hstep]
  split
  case h_1 => exact ⟨rfl, rfl, rfl⟩
  case h_2 => exact SameRun.next ⟨rfl, rfl, rfl⟩ fun _ => .refl _

mutual

-- By induction on the steps, which differ in think times only.
theorem executeOne_same (step : Step) (loopIndex : Option ℕ) (s : Strand) :
    SameRun (it.executeOne step loopIndex d s)
      (it.executeOne (step.withDefault d) loopIndex none s) := by
  cases step
  case http step => exact executeHttp_same it step loopIndex s
  case loop id name repeats body =>
    exact SameRun.rounds it (fun i s => executeSteps_same body (some i) s) repeats 0 s
  case ifStep id name cond thenSteps elifs elseSteps =>
    rw [Step.withDefault, Iteration.executeOne, Iteration.executeOne, selectBranch_withDefault]
    generalize selectBranch it.lib (it.context loopIndex s) cond elifs elseSteps = taken
    refine (SameRun.refl _).next fun s => ?_
    cases taken
    case thenBranch => exact executeSteps_same thenSteps loopIndex s
    case elif j     => exact executeElif_same elifs j loopIndex s
    case elseBranch => exact executeSteps_same elseSteps loopIndex s
    case none       => exact executeSteps_same elseSteps loopIndex s
  case parallel id name branches => exact .refl _

theorem executeSteps_same (l : List Step) (loopIndex : Option ℕ) (s : Strand) :
    SameRun (it.executeSteps l loopIndex d s)
      (it.executeSteps (stepsWithDefault d l) loopIndex none s) := by
  cases l
  case nil => exact .refl _
  case cons step l =>
    rw [stepsWithDefault, Iteration.executeSteps, Iteration.executeSteps]
    exact SameRun.guarded it s fun s =>
      (executeOne_same step loopIndex s).next fun s => executeSteps_same l loopIndex s

theorem executeElif_same (elifs : List (Condition × List Step)) (j : ℕ) (loopIndex : Option ℕ)
    (s : Strand) :
    SameRun (it.executeElif elifs j loopIndex d s)
      (it.executeElif (elifsWithDefault d elifs) j loopIndex none s) := by
  cases elifs
  case nil => exact .refl _
  case cons e elifs =>
    obtain ⟨cond, steps⟩ := e
    cases j
    case zero   => exact executeSteps_same steps loopIndex s
    case succ j => exact executeElif_same elifs j loopIndex s

end

end

end Engine

open Engine

namespace Ui

-- What a row says of its step.
def ThinkRow.about (r : ThinkRow) : String × String × HttpMethod × String × Option ThinkTime :=
  (r.stepId, r.name, r.method, r.url, r.configured)

def aboutStep (h : HttpStep) : String × String × HttpMethod × String × Option ThinkTime :=
  (h.id, h.name, h.request.method, h.request.url, h.thinkTime)

-- The think time that a step has once the default has been written to it.
def effectiveThink (h : HttpStep) : Option ThinkTime :=
  h.thinkTime.bind normalizeEffective

-- The rows of steps that go by the default, or else of steps in a branch.
structure Rows (rows : List ThinkRow) (steps explicit : List HttpStep) : Prop where
  about     : rows.map ThinkRow.about = steps.map aboutStep
  effective : rows.map ThinkRow.effective = explicit.map effectiveThink

theorem Rows.append {rows rows' : List ThinkRow} {steps steps' explicit explicit' : List HttpStep}
    (h : Rows rows steps explicit) (h' : Rows rows' steps' explicit') :
    Rows (rows ++ rows') (steps ++ steps') (explicit ++ explicit') :=
  ⟨by simp only [List.map_append, h.about, h'.about],
    by simp only [List.map_append, h.effective, h'.effective]⟩

section

variable {d : Option ThinkTime} {path : List String}

theorem thinkRow_rows (step : HttpStep) :
    Rows [thinkRow d path false step] [step] [step.withDefault d] := by
  refine ⟨rfl, ?_⟩
  obtain ⟨id, name, request, assertions, extract, timeoutSeconds, thinkTime⟩ := step
  cases thinkTime
  case some => rfl
  case none => cases d <;> rfl

theorem thinkRow_inside (step : HttpStep) : Rows [thinkRow d path true step] [step] [step] := by
  refine ⟨rfl, ?_⟩
  obtain ⟨id, name, request, assertions, extract, timeoutSeconds, thinkTime⟩ := step
  cases thinkTime <;> rfl

mutual

-- In a branch, at any depth.
theorem visitStep_inside (path : List String) (step : Step) :
    Rows (visitStep d path true step) step.https step.https := by
  cases step
  case http step => exact thinkRow_inside step
  case loop id name repeats body => exact visitSteps_inside _ body
  case ifStep id name cond thenSteps elifs elseSteps =>
    exact ((visitSteps_inside _ thenSteps).append (visitElifs_inside path name 1 elifs)).append
      (visitSteps_inside _ elseSteps)
  case parallel id name branches => exact visitBranches_inside path name branches

theorem visitSteps_inside (path : List String) (l : List Step) :
    Rows (visitSteps d path true l) (collectHttp l) (collectHttp l) := by
  cases l
  case nil         => exact ⟨rfl, rfl⟩
  case cons step l => exact (visitStep_inside path step).append (visitSteps_inside path l)

theorem visitElifs_inside (path : List String) (name : String) (n : ℕ)
    (elifs : List (Condition × List Step)) :
    Rows (visitElifs d path name n true elifs) (collectElifHttp elifs) (collectElifHttp elifs) := by
  cases elifs
  case nil => exact ⟨rfl, rfl⟩
  case cons e elifs =>
    obtain ⟨cond, steps⟩ := e
    exact (visitSteps_inside _ steps).append (visitElifs_inside path name (n + 1) elifs)

theorem visitBranches_inside (path : List String) (name : String)
    (branches : List (String × List Step)) :
    Rows (visitBranches d path name branches) (collectBranchHttp branches)
      (collectBranchHttp branches) := by
  cases branches
  case nil => exact ⟨rfl, rfl⟩
  case cons b branches =>
    obtain ⟨branch, steps⟩ := b
    exact (visitSteps_inside _ steps).append (visitBranches_inside path name branches)

end

mutual

-- Outside of branches, and in all branches below.
theorem visitStep_rows (path : List String) (step : Step) :
    Rows (visitStep d path false step) step.https (step.withDefault d).https := by
  cases step
  case http step => exact thinkRow_rows step
  case loop id name repeats body => exact visitSteps_rows _ body
  case ifStep id name cond thenSteps elifs elseSteps =>
    exact ((visitSteps_rows _ thenSteps).append (visitElifs_rows path name 1 elifs)).append
      (visitSteps_rows _ elseSteps)
  case parallel id name branches => exact visitBranches_inside path name branches

theorem visitSteps_rows (path : List String) (l : List Step) :
    Rows (visitSteps d path false l) (collectHttp l) (collectHttp (stepsWithDefault d l)) := by
  cases l
  case nil         => exact ⟨rfl, rfl⟩
  case cons step l => exact (visitStep_rows path step).append (visitSteps_rows path l)

theorem visitElifs_rows (path : List String) (name : String) (n : ℕ)
    (elifs : List (Condition × List Step)) :
    Rows (visitElifs d path name n false elifs) (collectElifHttp elifs)
      (collectElifHttp (elifsWithDefault d elifs)) := by
  cases elifs
  case nil => exact ⟨rfl, rfl⟩
  case cons e elifs =>
    obtain ⟨cond, steps⟩ := e
    exact (visitSteps_rows _ steps).append (visitElifs_rows path name (n + 1) elifs)

end

end

-- The rows are those of the steps in order. What they show as effective is what the steps think
-- once the default is written to them, and then the interpreter does what it did with the default.
theorem buildThinkRows_shows (sc : Scenario) :
    (buildThinkRows sc).map ThinkRow.about = (collectHttp sc.steps).map aboutStep ∧
      (buildThinkRows sc).map ThinkRow.effective =
        (collectHttp sc.explicit.steps).map effectiveThink ∧
      sc.explicit.withoutThink = sc.withoutThink ∧ sc.explicit.defaultThinkTime = none ∧
      ∀ (it : Iteration) (loopIndex : Option ℕ) (s : Strand),
        SameRun (it.executeSteps sc.steps loopIndex sc.defaultThinkTime s)
          (it.executeSteps sc.explicit.steps loopIndex sc.explicit.defaultThinkTime s) := by
  have hr : Rows (buildThinkRows sc) _ _ := visitSteps_rows [] sc.steps
  exact ⟨hr.about, hr.effective, explicit_withoutThink sc, rfl,
    fun it loopIndex s => executeSteps_same it sc.steps loopIndex s⟩

end Ui
