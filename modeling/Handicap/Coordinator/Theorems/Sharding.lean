import Handicap.Coordinator.Theorems.Calls
import Handicap.Coordinator.Theorems.Pool

open Store Tiling Apportionment

namespace Coordinator

def Grant.slot (g : Grant) : ℕ × ℕ :=
  (g.vuOffset, g.vuCount)

namespace RunWorkers

-- The shards given away so far are the first ones, in order and to different workers. As long as
-- the run is not over, its map holds just these workers.
structure Sharded (gs : List Grant) (rw : RunWorkers) : Prop where
  nodup   : (gs.map Grant.worker).Nodup
  indices : gs.map Grant.shardIndex = List.range gs.length
  slots   : gs.map Grant.slot = rw.slots.take gs.length
  next    : rw.nextShard = gs.length
  le      : gs.length ≤ rw.expected
  keys    : rw.terminal = false → rw.workers.keys.Perm (gs.map Grant.worker)
  entries : rw.terminal = false → ∀ w e, rw.workers.lookup w = some e →
    ⟨w, e.shardIndex, e.vuOffset, e.vuCount⟩ ∈ gs

namespace Sharded

variable {rw rw' : RunWorkers} {gs : List Grant} {worker : WorkerId} {tx : Tx} {phase : ℤ}
variable {c : Call} {e : Effect}

theorem mem_iff (s : Sharded gs rw) (ht : rw.terminal = false) :
    worker ∈ gs.map Grant.worker ↔ ∃ e, rw.workers.lookup worker = some e := by
  rw [← (s.keys ht).mem_iff, ← Option.isSome_iff_exists, AList.lookup_isSome, AList.mem_keys]

theorem new {base : PendingAssignment} {expected : ℕ} {totalVus : U32}
    {precomputed : Option (Vector (ℕ × ℕ) expected)} :
    Sharded [] (.new base expected totalVus precomputed) where
  nodup   := .nil
  indices := rfl
  slots   := rfl
  next    := rfl
  le      := Nat.zero_le _
  keys    := fun _ => .nil
  entries := fun _ w e h => by cases h

-- A run that is over gives away no more shards.
theorem of_terminal (s : Sharded gs rw) (hs : rw'.slots = rw.slots)
    (hn : rw'.nextShard = rw.nextShard) (ht : rw'.terminal) : Sharded gs rw' where
  nodup   := s.nodup
  indices := s.indices
  slots   := hs ▸ s.slots
  next    := hn.trans s.next
  le      := by
    have hl := congrArg List.length hs
    rw [slots_length, slots_length] at hl
    exact hl.symm ▸ s.le
  keys    := fun h => by simp [ht] at h
  entries := fun h => by simp [ht] at h

theorem addWorker (s : Sharded gs rw) (h : rw.nextShard < rw.expected) (ht : rw.terminal = false)
    (hw : rw.workers.lookup worker = none) :
    Sharded (gs ++ [⟨worker, rw.nextShard, (rw.slot rw.nextShard h).1, (rw.slot rw.nextShard h).2⟩])
      (rw.addWorker worker tx h) := by
  have hnew : worker ∉ gs.map Grant.worker := by
    rw [s.mem_iff ht]
    simp [hw]
  have hlt : gs.length < rw.slots.length := by rw [slots_length, ← s.next]; exact h
  refine ⟨?nodup, ?indices, ?slots, ?next, ?le, fun _ => ?keys, fun _ w e he => ?entries⟩
  case nodup =>
    rw [List.map_append]
    exact List.nodup_append.mpr ⟨s.nodup, List.nodup_singleton _, by
      rintro a ha b hb rfl
      obtain rfl : a = worker := by simpa using hb
      exact hnew ha⟩
  case indices =>
    rw [List.map_append, s.indices, List.length_append, List.length_singleton, List.range_succ,
      List.map_singleton]
    exact congrArg (_ ++ [·]) s.next
  case slots =>
    have hs : (rw.addWorker worker tx h).slots = rw.slots := rfl
    rw [hs, List.map_append, s.slots, List.length_append, List.length_singleton, List.take_add_one,
      List.getElem?_eq_getElem hlt, slots_getElem]
    simp [Grant.slot, s.next]
  case next =>
    rw [List.length_append, List.length_singleton]
    exact congrArg (· + 1) s.next
  case le =>
    rw [List.length_append, List.length_singleton, ← s.next]
    exact h
  case keys =>
    rw [addWorker_keys hw, List.map_append]
    exact ((s.keys ht).cons worker).trans (List.perm_append_singleton worker _).symm
  case entries =>
    rw [lookup_addWorker] at he
    split at he
    case isTrue hw => cases he; simp [hw]
    case isFalse hw => exact List.mem_append_left _ (s.entries ht w e he)

theorem setPhase (s : Sharded gs rw) (p : Pb.Phase) : Sharded gs (rw.setPhase worker p) where
  nodup   := s.nodup
  indices := s.indices
  slots   := by
    have hs : (rw.setPhase worker p).slots = rw.slots := by
      rw [RunWorkers.setPhase]
      split <;> rfl
    exact hs ▸ s.slots
  next    := (setPhase_nextShard p).trans s.next
  le      := (setPhase_expected p).symm ▸ s.le
  keys    := fun h => (setPhase_keys_perm p).trans (s.keys (setPhase_terminal p ▸ h))
  entries := by
    intro h w e he
    rw [setPhase_terminal] at h
    rw [lookup_setPhase] at he
    split at he
    case isFalse => exact s.entries h w e he
    case isTrue =>
      obtain ⟨e', he', rfl⟩ := Option.map_eq_some_iff.mp he
      exact s.entries h w e' he'

theorem step (s : Sharded gs rw) (h : Step rw c e rw') :
    Sharded (gs ++ (grantOf (c, e)).toList) rw' := by
  cases h
  case register r =>
    cases r
    case rejected => simpa [grantOf] using s
    case resent => simpa [grantOf] using s
    case admitted hn ht hw => exact s.addWorker hn ht hw
  case recordPhase r =>
    simp only [grantOf, Option.toList_none, List.append_nil]
    cases r
    case kept => exact s.setPhase _
    case failed => exact (s.setPhase _).of_terminal rfl rfl rfl
    case aborted => exact (s.setPhase _).of_terminal rfl rfl rfl
    case completed => exact (s.setPhase _).of_terminal rfl rfl rfl
  case workerDisconnected d =>
    simp only [grantOf, Option.toList_none, List.append_nil]
    cases d
    case harmless => exact s
    case lost => exact s.of_terminal rfl rfl rfl
  case failRunHung d =>
    simp only [grantOf, Option.toList_none, List.append_nil]
    cases d
    case ended => exact s
    case hung => exact s.of_terminal rfl rfl rfl

theorem after (s : Sharded [] rw) (calls : List Call) :
    Sharded (rw.grants calls) (rw.after calls) := by
  induction calls using List.reverseRecOn
  case nil => exact s
  case append_singleton calls c ih =>
    rw [grants_concat, after_concat]
    exact ih.step (exec_step _ c)

-- Once every shard is given away, the grants are all slots of the run.
theorem slots_eq (s : Sharded gs rw) (h : gs.length = rw.expected) :
    gs.map Grant.slot = rw.slots := by
  rw [s.slots, List.take_of_length_le (by simp [h])]

-- A known worker is sent its own shard again.
theorem register_known {g : Grant} (s : Sharded gs rw) (ht : rw.terminal = false) (hg : g ∈ gs) :
    (rw.register g.worker tx).1 =
      .resend g.shardIndex rw.expected g.vuOffset g.vuCount := by
  obtain ⟨e, he⟩ := (s.mem_iff ht).mp (List.mem_map_of_mem hg)
  have hmem := s.entries ht _ e he
  have heq : (⟨g.worker, e.shardIndex, e.vuOffset, e.vuCount⟩ : Grant) = g :=
    List.inj_on_of_nodup_map s.nodup hmem hg rfl
  simp only [register, ht, he]
  rw [← heq]
  rfl

-- A new worker is given the next shard, as long as there is one.
theorem register_new (s : Sharded gs rw) (tx : Tx) (ht : rw.terminal = false)
    (hw : worker ∉ gs.map Grant.worker) :
    if h : gs.length < rw.expected then
      (rw.register worker tx).1 =
        .assigned gs.length rw.expected (rw.slot gs.length h).1 (rw.slot gs.length h).2
          rw.workers.keys.isEmpty
    else
      (rw.register worker tx).1 = .reject := by
  have he : rw.workers.lookup worker = none := by
    rw [s.mem_iff ht] at hw
    exact Option.eq_none_iff_forall_ne_some.mpr fun e he => hw ⟨e, he⟩
  have hn := s.next
  generalize gs.length = n at hn
  subst hn
  split
  case isTrue h => simp [register, ht, he, h]
  case isFalse h => simp [register, ht, he, h]

end Sharded

def registrations (regs : List (WorkerId × Tx)) : List Call :=
  regs.map fun r => .register r.1 r.2

-- Registrations alone do not end a run.
theorem terminal_after_registrations {rw : RunWorkers} (h : rw.terminal = false)
    (regs : List (WorkerId × Tx)) : (rw.after (registrations regs)).terminal = false := by
  induction regs using List.reverseRecOn
  case nil => exact h
  case append_singleton regs r ih =>
    rw [registrations, List.map_append, List.map_singleton, after_concat]
    exact (registers rfl).preserves_terminal.trans ih

-- The workers that register first, in whatever order, are given the shards one by one, and the
-- shards partition the VUs. This holds for an even split and for counts that are contiguous and sum
-- to the total, as a reservation by capacity makes them.
theorem registrations_partition (base : PendingAssignment) {expected : ℕ} (totalVus : U32)
    {precomputed : Option (Vector (ℕ × ℕ) expected)} (hn : 1 ≤ expected)
    (hc : ∀ counts, precomputed = some counts → Tiles 0 totalVus counts.toList)
    (regs : List (WorkerId × Tx)) :
    let run := new base expected totalVus precomputed
    let gs := run.grants (registrations regs)
    let rw := run.after (registrations regs)
    (gs.map Grant.worker).Nodup ∧ gs.map Grant.shardIndex = List.range gs.length ∧
    gs.length ≤ expected ∧
    (∀ g ∈ gs, ∀ tx, (rw.register g.worker tx).1 =
      .resend g.shardIndex expected g.vuOffset g.vuCount) ∧
    (∀ worker ∉ gs.map Grant.worker, ∀ tx,
      (gs.length < expected → ∃ vuOffset vuCount first,
        (rw.register worker tx).1 = .assigned gs.length expected vuOffset vuCount first) ∧
      (gs.length = expected → (rw.register worker tx).1 = .reject)) ∧
    (gs.length = expected →
      gs.Pairwise (fun g g' => Disjoint (interval g.slot) (interval g'.slot)) ∧
      (∀ i (_ : i + 1 < gs.length), gs[i].vuOffset + gs[i].vuCount = gs[i + 1].vuOffset) ∧
      ∀ x, (∃ g ∈ gs, x ∈ interval g.slot) ↔ x < totalVus) ∧
    (∀ i < expected, Shard.shardSplit totalVus expected i =
      (evenOffset totalVus expected i, evenShare totalVus expected i)) ∧
    ∀ (pool : Pool) (id : RunId) (workerCap : U32) workers counts,
      (pool.reserveIdlePoolCapacity id workerCap totalVus).1 = .reserved workers counts →
      workers ≠ [] → Tiles 0 totalVus counts.toList := by
  intro run gs rw
  have s : Sharded gs rw := Sharded.new.after _
  have ht : rw.terminal = false := terminal_after_registrations rfl regs
  have he : rw.expected = expected := expected_after
  have hslots : rw.slots = run.slots := slots_after
  refine ⟨s.nodup, s.indices, he ▸ s.le, fun g hg tx => he ▸ s.register_known ht hg,
    fun worker hw tx => ⟨fun hlt => ?next, fun hfull => ?full⟩, fun hfull => ?partition,
    fun i hi => Shard.shardSplit_eq totalVus.isLt hi,
    fun pool id workerCap workers counts h hne => ?_⟩
  case next =>
    have hr := s.register_new tx ht hw
    rw [dif_pos (he ▸ hlt)] at hr
    exact ⟨_, _, _, hr.trans (congrArg (RegisterOutcome.assigned gs.length · _ _ _) he)⟩
  case full =>
    have hr := s.register_new tx ht hw
    rwa [dif_neg (by omega)] at hr
  case partition =>
    have t : Tiles 0 totalVus (gs.map Grant.slot) := by
      rw [s.slots_eq (hfull.trans he.symm), hslots]
      exact slots_tile (show run.Counted from hc) hn
    have hp := List.pairwise_map.mp t.pairwise_disjoint
    refine ⟨hp, fun i hi => ?_, fun x => ?_⟩
    · have hi' : i + 1 < (gs.map Grant.slot).length := by simpa using hi
      have h := t.consecutive i hi'
      simp only [List.getElem_map] at h
      exact h
    · simpa using t.exists_mem_iff x
  case _ =>
    have ⟨_, hcounts, ha⟩ := Pool.reserved_eq h hne
    exact hcounts ▸ Pool.slices_tile ha

theorem registrations_partition_uneven :
    let run := new default 2 10 (some #v[(0, 4), (4, 6)])
    let gs := run.grants (registrations [("a", 1), ("b", 2), ("a", 3), ("c", 4)])
    gs.length = 2 ∧ ∀ x, (∃ g ∈ gs, x ∈ interval g.slot) ↔ x < 10 := by
  have hc : ∀ counts, some #v[(0, 4), (4, 6)] = some counts → Tiles 0 (10 : U32) counts.toList := by
    rintro _ ⟨⟩
    exact ⟨rfl, rfl, rfl⟩
  have h := registrations_partition default 10 (by decide) hc
    [("a", 1), ("b", 2), ("a", 3), ("c", 4)]
  exact ⟨by decide, (h.right.right.right.right.right.left (by decide)).right.right⟩

end RunWorkers

end Coordinator
