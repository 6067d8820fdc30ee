import Handicap.Engine.Closed
import Handicap.Library.Serial

open Store Serial

namespace Engine

-- The VU is in an iteration, whose id is not advanced yet.
def ClosedPc.isBusy : ClosedPc → Bool
  | iterating | pacing => true
  | _                  => false

-- The VU starts no iteration any more.
def ClosedPc.isExited : ClosedPc → Bool
  | exited _ => true
  | _        => false

-- The ids of VUs are different as long as they fit.
theorem ids_nodup {n offset : ℕ} {log : List (ℕ × ℕ)} (hc : ∀ i, Counts 32 i log)
    (hl : ∀ i, (numbers i log).length ≤ 2 ^ 32) (hn : ∀ e ∈ log, e.1 < n)
    (ho : offset + n ≤ 2 ^ 32) :
    (log.map fun (index, iterId) => (Word.saturatingAdd 32 offset index, iterId)).Nodup := by
  refine nodup_map_source (nodup_of_numbers fun i => (hc i).nodup (hl i)) fun e he e' he' heq => ?_
  have h := hn e he
  have h' := hn e' he'
  rw [Word.saturatingAdd_eq (by omega), Word.saturatingAdd_eq (by omega)] at heq
  omega

namespace Closed

-- What an event can do, with what its task has found out before it.
inductive Moves (plan : ClosedPlan) (s : Closed) : Closed → Prop
  | stays : Moves plan s s
  | ends : Moves plan s { s with spawning := false }
  | spawns {count} (h : s.spawned + count ≤ plan.vus.val) : Moves plan s (s.spawn count)
  | cancels : Moves plan s { s with runCancelled := true }
  | goes {index pc} (hs : (s.vus index).pc ≠ .unspawned) (hx : (s.vus index).pc.isExited = false)
      (hb : pc.isBusy = (s.vus index).pc.isBusy) :
    Moves plan s (s.goto index pc)
  | exits {index exit} (hs : (s.vus index).pc ≠ .unspawned) : Moves plan s (s.exit index exit)
  | starts {index} (hp : (s.vus index).pc = .token) : Moves plan s (s.startIteration index)
  | again {index} (hb : (s.vus index).pc.isBusy) : Moves plan s (s.again index)

variable {plan : ClosedPlan} {s s' : Closed} {e : ClosedEvent} {events : List ClosedEvent}
variable {i index now : ℕ}

theorem step_moves (plan : ClosedPlan) (s : Closed) (e : ClosedEvent) :
    Moves plan s (s.step plan e) := by
  cases e
  case turn now =>
    simp only [step, turn]
    split_ifs
    case pos => exact .ends
    case pos => exact .stays
    case neg h _ => exact .spawns (by omega)
    case neg => exact .stays
  case cancel => exact .cancels
  case built =>
    simp only [step]
    split_ifs
    case pos h _ => exact .goes (by simp [h]) (h ▸ rfl) (h ▸ rfl)
    case neg h _ => exact .exits (by simp [h])
    case neg => exact .stays
  case vu =>
    simp only [step]
    unfold vuStep
    split
    case h_1 h =>
      split_ifs
      case pos => exact .exits (by simp [h])
      case neg => exact .goes (by simp [h]) (h ▸ rfl) (h ▸ rfl)
    case h_2 h =>
      split_ifs
      case pos => exact .exits (by simp [h])
      case neg => exact .starts h
    case h_3 => exact .stays
  case iterated index result =>
    simp only [step]
    split_ifs
    case neg => exact .stays
    case pos h =>
      have hx exit : Moves plan s (s.exit index exit) := .exits (by simp [h])
      cases result
      case exhausted => exact hx .ok
      case error => exact hx .failed
      case flow flow =>
        cases flow
        case deadlineReached => exact hx .ok
        case aborted => exact hx .aborted
        case «continue» =>
          simp only [iterated]
          split_ifs
          case pos => exact .goes (by simp [h]) (h ▸ rfl) (h ▸ rfl)
          case neg => exact .again (h ▸ rfl)
  case paced index outcome =>
    simp only [step]
    split_ifs
    case neg => exact .stays
    case pos h =>
      cases outcome
      case cancelled => exact .exits (by simp [h])
      all_goals exact .again (h ▸ rfl)

-- VUs are spawned in the order of their indexes, and only VUs that have been start iterations.
structure Placed (plan : ClosedPlan) (s : Closed) : Prop where
  spawned   : s.spawned ≤ plan.vus.val
  unspawned : ∀ i, s.spawned ≤ i → (s.vus i).pc = .unspawned
  started   : ∀ e ∈ s.started, e.1 < s.spawned

-- The ids of the iterations of a VU are the numbers of the iterations before them.
structure Numbered (s : Closed) (i : ℕ) : Prop where
  counts : Counts 32 i s.started
  idle   : (s.vus i).pc.isExited = false → (s.vus i).pc.isBusy = false →
    (s.vus i).iterId = Word.cast 32 (numbers i s.started).length
  busy   : (s.vus i).pc.isBusy →
    Word.add 32 (s.vus i).iterId 1 = Word.cast 32 (numbers i s.started).length

namespace Placed

theorem new : Placed plan .new where
  spawned   := Nat.zero_le _
  unspawned := fun _ _ => rfl
  started   := nofun

theorem spawned_of_ne (c : Placed plan s) (h : (s.vus index).pc ≠ .unspawned) :
    index < s.spawned :=
  Nat.lt_of_not_le fun hle => h (c.unspawned index hle)

theorem locally (c : Placed plan s) {v : ClosedVu} (hi : (s.vus index).pc ≠ .unspawned)
    (hv : s'.vus = Function.update s.vus index v) (hs : s'.spawned = s.spawned)
    (hl : ∀ e ∈ s'.started, e ∈ s.started ∨ e.1 = index) : Placed plan s' := by
  have hi := c.spawned_of_ne hi
  refine ⟨hs ▸ c.spawned, fun i h => ?_, fun e he => ?_⟩
  · rw [hs] at h
    rw [hv, Function.update_of_ne (Nat.ne_of_gt (hi.trans_le h))]
    exact c.unspawned i h
  · rw [hs]
    cases hl e he
    case inl he => exact c.started e he
    case inr he => exact he ▸ hi

theorem step (c : Placed plan s) (h : Moves plan s s') : Placed plan s' := by
  cases h
  case stays => exact c
  case ends => exact ⟨c.spawned, c.unspawned, c.started⟩
  case cancels => exact ⟨c.spawned, c.unspawned, c.started⟩
  case spawns count h =>
    refine ⟨h, fun i hi => ?_, fun e he => (c.started e he).trans_le (Nat.le_add_right ..)⟩
    have hi : s.spawned + count ≤ i := hi
    simp only [spawn]
    rw [if_neg (by omega)]
    exact c.unspawned i (by omega)
  case goes hs _ _ => exact c.locally hs rfl rfl fun _ => .inl
  case exits hs => exact c.locally hs rfl rfl fun _ => .inl
  case starts hp =>
    refine c.locally (by simp [hp]) rfl rfl fun e he => ?_
    exact (List.mem_append.mp he).imp id fun h => by rw [List.mem_singleton.mp h]
  case again hb =>
    exact c.locally (fun hp => by simp [hp, ClosedPc.isBusy] at hb) rfl rfl fun _ => .inl

end Placed

namespace Numbered

theorem new : Numbered .new i where
  counts := counts_nil
  idle   := fun _ _ => rfl
  busy   := fun h => by simp [Closed.new, ClosedPc.isBusy] at h

-- A VU changes the numbers of no other one.
theorem of_ne (c : Numbered s i) {v : ClosedVu} (hi : i ≠ index)
    (hv : s'.vus = Function.update s.vus index v)
    (hl : s'.started = s.started ∨ ∃ k, s'.started = s.started ++ [(index, k)]) :
    Numbered s' i := by
  have hn : numbers i s'.started = numbers i s.started := by
    cases hl
    case inl hl => rw [hl]
    case inr hl =>
      have ⟨k, hl⟩ := hl
      rw [hl, numbers_concat_of_ne hi.symm]
  refine ⟨?_, ?_, ?_⟩
  · rw [Counts, hn]
    exact c.counts
  · rw [hv, Function.update_of_ne hi, hn]
    exact c.idle
  · rw [hv, Function.update_of_ne hi, hn]
    exact c.busy

theorem step (c : Numbered s i) (cp : Placed plan s) (h : Moves plan s s') : Numbered s' i := by
  cases h
  case stays => exact c
  case ends => exact ⟨c.counts, c.idle, c.busy⟩
  case cancels => exact ⟨c.counts, c.idle, c.busy⟩
  case spawns count _ =>
    cases Decidable.em (s.spawned ≤ i ∧ i < s.spawned + count)
    case inl h =>
      have hp := cp.unspawned i h.left
      have hi := c.idle (hp ▸ rfl) (hp ▸ rfl)
      exact ⟨c.counts, fun _ _ => by simpa [spawn, h] using hi, by simp [spawn, h, ClosedPc.isBusy]⟩
    case inr h =>
      have hv : (s.spawn count).vus i = s.vus i := if_neg h
      exact ⟨c.counts, hv ▸ c.idle, hv ▸ c.busy⟩
  case goes index pc _ hx hb =>
    cases Decidable.em (i = index)
    case inr hi => exact c.of_ne hi rfl (.inl rfl)
    case inl hi =>
      subst hi
      refine ⟨c.counts, ?_, ?_⟩
      · simpa [goto, hb] using fun _ => c.idle hx
      · simpa [goto, hb] using c.busy
  case exits index exit _ =>
    cases Decidable.em (i = index)
    case inr hi => exact c.of_ne hi rfl (.inl rfl)
    case inl hi =>
      subst hi
      exact ⟨c.counts, by simp [Closed.exit, goto, ClosedPc.isExited],
        by simp [Closed.exit, goto, ClosedPc.isBusy]⟩
  case starts index hp =>
    cases Decidable.em (i = index)
    case inr hi => exact c.of_ne hi rfl (.inr ⟨_, rfl⟩)
    case inl hi =>
      subst hi
      have hk := c.idle (hp ▸ rfl) (hp ▸ rfl)
      refine ⟨c.counts.concat_self hk, by simp [startIteration, goto, ClosedPc.isBusy], fun _ => ?_⟩
      simp [startIteration, goto, hk, Word.add_cast]
  case again index hb =>
    cases Decidable.em (i = index)
    case inr hi => exact c.of_ne hi rfl (.inl rfl)
    case inl hi =>
      subst hi
      exact ⟨c.counts, fun _ _ => by simpa [again] using c.busy hb,
        by simp [again, ClosedPc.isBusy]⟩

end Numbered

theorem run_placed (plan : ClosedPlan) (events : List ClosedEvent) :
    Placed plan (run plan events) ∧ ∀ i, Numbered (run plan events) i := by
  refine Trace.invariant (I := fun s => Placed plan s ∧ ∀ i, Numbered s i)
    ⟨.new, fun _ => .new⟩ fun s e c => ?_
  have h := step_moves plan s e
  exact ⟨c.left.step h, fun i => (c.right i).step c.left h⟩

-- No two iterations have the same ids, as long as the ids fit.
theorem run_ids_nodup (hv : plan.vuOffset.val + plan.vus.val ≤ 2 ^ 32)
    (hl : ∀ i, (numbers i (run plan events).started).length ≤ 2 ^ 32) :
    (ids plan (run plan events)).Nodup := by
  have ⟨cp, cn⟩ := run_placed plan events
  exact ids_nodup (fun i => (cn i).counts) hl
    (fun e he => (cp.started e he).trans_le cp.spawned) hv

end Closed

end Engine
