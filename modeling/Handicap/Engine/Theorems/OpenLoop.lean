import Handicap.Engine.OpenLoop
import Mathlib.Data.List.Perm.Basic
import Mathlib.Data.List.Range

open Store

namespace Engine

variable {plan : OpenLoopPlan} {s : OpenLoop} {slot now : ℕ} {e : OpenLoopEvent} {a : Arrival}
variable {events : List OpenLoopEvent}

-- The time of an attempt, which does not depend on what happened to the ones before it.
def OpenLoopPlan.attemptTime (plan : OpenLoopPlan) (k : ℕ) : ℕ :=
  match plan.curve with
  | none       => k * plan.fixedInterval
  | some times => plan.curveTime times k

namespace OpenLoop

-- The attempts that started an arrival.
def fired (s : OpenLoop) : List Arrival :=
  s.attempts.filterMap Prod.snd

-- The free slots and those of the running arrivals are the slots of the pool.
structure Pooled (plan : OpenLoopPlan) (s : OpenLoop) : Prop where
  capacity : s.slots.capacity = plan.slotCount
  pool     : s.pool = List.range plan.slotCount
  perm     : (s.slots.queue ++ s.running.map Arrival.slot).Perm (List.range plan.slotCount)
  leaked   : s.leaked = []
  clients  : ∀ a ∈ s.running, a.client = a.slot
  phase    : s.phase ≠ .panicked

-- The attempts are consumed one by one, in the order of the schedule.
structure Accounted (plan : OpenLoopPlan) (s : OpenLoop) : Prop where
  total : s.arrivalCounter + s.dropped = s.attempts.length
  times : s.attempts.map Prod.fst = (List.range s.attempts.length).map plan.attemptTime
  next  : s.next = plan.attemptTime s.attempts.length
  tick  : plan.curve.isSome → s.tick = s.attempts.length
  fired : s.fired.map Arrival.iterId = (List.range s.arrivalCounter).map (Word.cast 32)

-- What an attempt does, with a slot to spare or without one.
inductive Attempts (plan : OpenLoopPlan) (s : OpenLoop) : OpenLoop → Prop
  | fired {queue arrival} (hq : s.slots.queue = arrival.slot :: queue)
      (hc : arrival.client = arrival.slot) (hi : arrival.iterId = Word.cast 32 s.arrivalCounter) :
    Attempts plan s (advance plan { s with
      slots          := { s.slots with queue }
      arrivalCounter := s.arrivalCounter + 1
      running        := s.running ++ [arrival]
      attempts       := s.attempts ++ [(s.next, some arrival)] })
  | dropped (hq : s.slots.queue = []) :
    Attempts plan s (advance plan { s with
      dropped  := s.dropped + 1
      attempts := s.attempts ++ [(s.next, none)] })

theorem attempts_of_pooled (p : Pooled plan s) : Attempts plan s (attempt plan s) := by
  simp only [attempt, SlotChannel.tryRecv]
  cases hq : s.slots.queue
  case nil => exact .dropped hq
  case cons slot queue =>
    have hs : slot ∈ List.range plan.slotCount := p.perm.subset (by simp [hq])
    have hc : s.pool[slot]? = some slot := by
      rw [p.pool, List.getElem?_range (List.mem_range.mp hs)]
    simp only [hc]
    exact .fired hq rfl rfl

@[simp]
theorem advance_attempts : (advance plan s).attempts = s.attempts := by
  unfold advance
  split <;> rfl

@[simp]
theorem advance_arrivalCounter : (advance plan s).arrivalCounter = s.arrivalCounter := by
  unfold advance
  split <;> rfl

@[simp]
theorem advance_dropped : (advance plan s).dropped = s.dropped := by
  unfold advance
  split <;> rfl

theorem advance_next {n : ℕ} (hn : s.next = plan.attemptTime n)
    (ht : plan.curve.isSome → s.tick = n) :
    (advance plan s).next = plan.attemptTime (n + 1) ∧
      (plan.curve.isSome → (advance plan s).tick = n + 1) := by
  simp only [OpenLoopPlan.attemptTime, advance] at hn ⊢
  split at hn
  case h_1 hc =>
    simp only [hc]
    exact ⟨by rw [hn, Nat.succ_mul], by simp⟩
  case h_2 hc =>
    have hk : s.tick = n := ht (by rw [hc]; rfl)
    simp [hc, hk]

-- The pool after an arrival has left it and before it comes back.
namespace Pooled

theorem new : Pooled plan (.new plan) where
  capacity := rfl
  pool     := rfl
  perm     := by simp [OpenLoop.new]
  leaked   := rfl
  clients  := nofun
  phase    := by simp [OpenLoop.new]

theorem advance (p : Pooled plan s) : Pooled plan (advance plan s) := by
  unfold OpenLoop.advance
  split <;> exact ⟨p.capacity, p.pool, p.perm, p.leaked, p.clients, p.phase⟩

theorem attempt (p : Pooled plan s) : Pooled plan (attempt plan s) := by
  have h := attempts_of_pooled p
  generalize OpenLoop.attempt plan s = s' at h
  cases h
  case dropped hq =>
    have p' : Pooled plan
        { s with dropped := s.dropped + 1, attempts := s.attempts ++ [(s.next, none)] } :=
      ⟨p.capacity, p.pool, p.perm, p.leaked, p.clients, p.phase⟩
    exact p'.advance
  case fired queue arrival hq hc hi =>
    refine Pooled.advance ⟨p.capacity, p.pool, ?_, p.leaked, ?_, p.phase⟩
    · have hp := p.perm
      rw [hq] at hp
      simp only [List.map_append, List.map_cons, List.map_nil]
      rw [← List.append_assoc]
      exact (List.perm_append_singleton ..).trans hp
    · intro a ha
      cases List.mem_append.mp ha
      case inl ha => exact p.clients a ha
      case inr ha => exact List.mem_singleton.mp ha ▸ hc

theorem running_nodup (p : Pooled plan s) : (s.running.map Arrival.slot).Nodup :=
  (List.nodup_append.mp (p.perm.nodup_iff.mpr List.nodup_range)).right.left

-- A running arrival leaves room for its slot in the channel.
theorem room (p : Pooled plan s) (h : a ∈ s.running) :
    s.slots.queue.length < s.slots.capacity := by
  have hl := p.perm.length_eq
  have hr := List.length_pos_of_mem h
  rw [List.length_append, List.length_map, List.length_range] at hl
  rw [p.capacity]
  omega

theorem finish (p : Pooled plan s) : Pooled plan (s.finish slot) := by
  unfold OpenLoop.finish
  split
  case h_1 => exact p
  case h_2 a ha =>
    have hm := List.mem_of_find?_eq_some ha
    simp only [SlotChannel.trySend, p.room hm, if_true]
    refine ⟨p.capacity, p.pool, ?_, p.leaked, fun b hb => p.clients b (List.mem_of_mem_erase hb),
      p.phase⟩
    have hr := ((List.perm_cons_erase hm).map Arrival.slot).symm
    rw [List.append_assoc]
    exact (hr.append_left s.slots.queue).trans p.perm

theorem step (p : Pooled plan s) : Pooled plan (step plan s e) := by
  cases e
  case turn now =>
    simp only [OpenLoop.step, OpenLoop.turn]
    split_ifs
    case pos => exact ⟨p.capacity, p.pool, p.perm, p.leaked, p.clients, by simp⟩
    case pos => exact p
    case neg => exact p.attempt
    case neg => exact p
  case finish => exact p.finish
  case exhaust =>
    simp only [OpenLoop.step]
    split_ifs
    case pos => exact p
    case neg => exact ⟨p.capacity, p.pool, p.perm, p.leaked, p.clients, p.phase⟩
  case cancel => exact ⟨p.capacity, p.pool, p.perm, p.leaked, p.clients, p.phase⟩
  case joined =>
    simp only [OpenLoop.step]
    split_ifs
    case pos => exact ⟨p.capacity, p.pool, p.perm, p.leaked, p.clients, by simp⟩
    case neg => exact p

end Pooled

namespace Accounted

theorem new : Accounted plan (.new plan) where
  total := rfl
  times := rfl
  next  := by
    simp only [OpenLoop.new, OpenLoopPlan.attemptTime, List.length_nil]
    split <;> simp_all
  tick  := fun _ => rfl
  fired := rfl

theorem advance {r : Option Arrival} (c : Accounted plan s) (s' : OpenLoop)
    (ha : s'.attempts = s.attempts ++ [(s.next, r)]) (hn : s'.next = s.next) (ht : s'.tick = s.tick)
    (hc : s'.arrivalCounter + s'.dropped = s.arrivalCounter + s.dropped + 1)
    (hf : s'.fired.map Arrival.iterId = (List.range s'.arrivalCounter).map (Word.cast 32)) :
    Accounted plan (advance plan s') := by
  have hl : s'.attempts.length = s.attempts.length + 1 := by simp [ha]
  have ⟨hn', ht'⟩ := advance_next (hn.trans c.next) fun h => ht.trans (c.tick h)
  refine ⟨?_, ?_, ?_, fun h => ?_, ?_⟩
  · simp only [advance_arrivalCounter, advance_dropped, advance_attempts]
    rw [hl, hc, c.total]
  · rw [advance_attempts, hl, List.range_succ, List.map_append, ← c.times, ha]
    simp [c.next]
  · rw [advance_attempts, hl, hn']
  · rw [advance_attempts, hl, ht' h]
  · simpa only [OpenLoop.fired, advance_attempts, advance_arrivalCounter] using hf

theorem attempt (c : Accounted plan s) (p : Pooled plan s) : Accounted plan (attempt plan s) := by
  have h := attempts_of_pooled p
  generalize OpenLoop.attempt plan s = s' at h
  cases h
  case dropped =>
    refine c.advance _ rfl rfl rfl rfl ?_
    simpa [OpenLoop.fired] using c.fired
  case fired arrival _ _ hi =>
    refine c.advance (r := arrival) _ rfl rfl rfl (Nat.add_right_comm ..) ?_
    have hf := c.fired
    simp only [OpenLoop.fired] at hf
    simp [OpenLoop.fired, List.range_succ, hf, hi]

theorem step (c : Accounted plan s) (p : Pooled plan s) : Accounted plan (step plan s e) := by
  cases e
  case turn now =>
    simp only [OpenLoop.step, OpenLoop.turn]
    split_ifs
    case pos => exact ⟨c.total, c.times, c.next, c.tick, c.fired⟩
    case pos => exact c
    case neg => exact c.attempt p
    case neg => exact c
  case finish =>
    simp only [OpenLoop.step, OpenLoop.finish]
    split
    case h_1 => exact c
    case h_2 => exact ⟨c.total, c.times, c.next, c.tick, c.fired⟩
  case exhaust =>
    simp only [OpenLoop.step]
    split_ifs
    case pos => exact c
    case neg => exact ⟨c.total, c.times, c.next, c.tick, c.fired⟩
  case cancel => exact ⟨c.total, c.times, c.next, c.tick, c.fired⟩
  case joined =>
    simp only [OpenLoop.step]
    split_ifs
    case pos => exact ⟨c.total, c.times, c.next, c.tick, c.fired⟩
    case neg => exact c

end Accounted

theorem run_invariant : Pooled plan (run plan events) ∧ Accounted plan (run plan events) :=
  Trace.invariant (I := fun s => Pooled plan s ∧ Accounted plan s) ⟨.new, .new⟩
    fun _ _ h => ⟨h.left.step, h.right.step h.left⟩

-- Whatever the schedule and in whatever order attempts are made and arrivals end: the free slots
-- and those of the running arrivals are the slots of the pool, every slot can be given back, and
-- every attempt is consumed once, by an arrival or as a drop.
theorem slot_pool (plan : OpenLoopPlan) (events : List OpenLoopEvent) :
    let s := run plan events
    (s.slots.queue ++ s.running.map Arrival.slot).Perm (List.range plan.slotCount) ∧
    (s.running.map Arrival.slot).Nodup ∧ (s.running.map Arrival.client).Nodup ∧
    s.leaked = [] ∧ (∀ a ∈ s.running, (s.slots.trySend a.slot).1) ∧
    s.running.length ≤ plan.slotCount ∧ s.phase ≠ .panicked ∧
    s.arrivalCounter + s.dropped = s.attempts.length ∧ s.fired.length = s.arrivalCounter ∧
    s.attempts.map Prod.fst = (List.range s.attempts.length).map plan.attemptTime := by
  intro s
  have ⟨p, c⟩ : Pooled plan s ∧ Accounted plan s := run_invariant
  have hc : s.running.map Arrival.client = s.running.map Arrival.slot :=
    List.map_congr_left p.clients
  have hl := p.perm.length_eq
  rw [List.length_append, List.length_map, List.length_range] at hl
  refine ⟨p.perm, p.running_nodup, hc ▸ p.running_nodup, p.leaked, fun a ha => ?_,
    hl ▸ Nat.le_add_left .., p.phase, c.total, ?_, c.times⟩
  · have hr : s.slots.queue.length < s.slots.capacity := p.room ha
    simp [SlotChannel.trySend, hr]
  · simpa using congrArg List.length c.fired

end OpenLoop

end Engine
