import Handicap.Coordinator.Calls
import Handicap.Coordinator.Theorems.Run
import Handicap.Coordinator.Theorems.Slots

namespace Coordinator

theorem filterMap_concat {α β : Type*} (f : α → Option β) (l : List α) (a : α) :
    (l ++ [a]).filterMap f = l.filterMap f ++ (f a).toList := by
  cases h : f a <;> simp [h]

namespace RunWorkers

-- What a call can do to a run, by the kind of the call.
inductive Step (rw : RunWorkers) : Call → Effect → RunWorkers → Prop
  | register {worker tx o rw'} :
    Registers rw worker tx o rw' → Step rw (.register worker tx) (.registered o) rw'
  | recordPhase {worker phase f rw'} :
    Records rw worker phase f rw' → Step rw (.recordPhase worker phase) (.recorded f) rw'
  | workerDisconnected {worker s rw'} :
    Disconnects rw worker s rw' → Step rw (.workerDisconnected worker) (.tornDown s) rw'
  | failRunHung {s rw'} :
    Hangs rw s rw' → Step rw .failRunHung (.tornDown s) rw'

variable {rw rw' : RunWorkers} {c : Call} {calls calls' : List Call} {e : Effect}

theorem exec_step (rw : RunWorkers) (c : Call) : Step rw c (rw.exec c).1 (rw.exec c).2 := by
  cases c
  case register => exact .register (registers rfl)
  case recordPhase => exact .recordPhase (records rfl)
  case workerDisconnected => exact .workerDisconnected (disconnects rfl)
  case failRunHung => exact .failRunHung (hangs rfl)

namespace Step

theorem preserves_slots (s : Step rw c e rw') : rw'.slots = rw.slots := by
  cases s
  case register r => cases r <;> rfl
  case recordPhase r => cases r <;> (dsimp only [setPhase]; split <;> rfl)
  case workerDisconnected d => cases d <;> rfl
  case failRunHung h => cases h <;> rfl

theorem preserves_terminal (s : Step rw c e rw') (h : rw.terminal) : rw'.terminal := by
  cases s
  case register r => cases r <;> exact h
  case recordPhase r => cases r <;> simp [h]
  case workerDisconnected d => cases d <;> simp [h]
  case failRunHung h' => cases h' <;> simp [h]

-- A call ends the run exactly if it makes it terminal.
theorem ending_isSome (s : Step rw c e rw') :
    e.ending.isSome ↔ rw.terminal = false ∧ rw'.terminal = true := by
  cases s
  case register r => cases r <;> simp_all [Effect.ending]
  case recordPhase r => cases r <;> simp_all [Effect.ending]
  case workerDisconnected d => cases d <;> simp_all [Effect.ending]
  case failRunHung h => cases h <;> simp_all [Effect.ending]

end Step

@[simp]
theorem after_nil : rw.after [] = rw :=
  rfl

@[simp]
theorem after_concat : rw.after (calls ++ [c]) = ((rw.after calls).exec c).2 :=
  Trace.run_concat

theorem history_concat :
    rw.history (calls ++ [c]) = rw.history calls ++ [(c, ((rw.after calls).exec c).1)] := by
  induction calls generalizing rw
  case nil => rfl
  case cons d calls ih => simp only [List.cons_append, history, ih]; rfl

theorem endings_concat :
    rw.endings (calls ++ [c]) =
      rw.endings calls ++ ((rw.after calls).exec c).1.ending.toList := by
  rw [endings, history_concat, filterMap_concat, endings]

theorem grants_concat :
    rw.grants (calls ++ [c]) =
      rw.grants calls ++ (grantOf (c, ((rw.after calls).exec c).1)).toList := by
  rw [grants, history_concat, filterMap_concat, grants]

theorem members_concat :
    rw.members (calls ++ [c]) =
      rw.members calls ++
        (grantOf (c, ((rw.after calls).exec c).1)).toList.map Grant.worker := by
  simp only [members, grants_concat, List.map_append]

theorem slots_after : (rw.after calls).slots = rw.slots := by
  induction calls using List.reverseRecOn
  case nil => rfl
  case append_singleton calls c ih => rw [after_concat, (exec_step _ c).preserves_slots, ih]

theorem expected_after : (rw.after calls).expected = rw.expected := by
  have h : (rw.after calls).slots.length = rw.slots.length := congrArg _ slots_after
  simpa using h

theorem terminal_after_append (h : (rw.after calls).terminal) :
    (rw.after (calls ++ calls')).terminal := by
  rw [after, Trace.run_append]
  exact Trace.invariant (I := fun rw => rw.terminal) h fun rw c =>
    (exec_step rw c).preserves_terminal

end RunWorkers

variable {worker : WorkerId} {c : Call} {calls : List Call}

@[simp]
theorem lastReport_nil : lastReport worker [] = none :=
  rfl

theorem lastReport_concat :
    lastReport worker (calls ++ [c]) = (reportOf worker c <|> lastReport worker calls) :=
  List.foldl_concat ..

end Coordinator
