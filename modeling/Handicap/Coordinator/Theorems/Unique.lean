import Handicap.Coordinator.Theorems.Sharding
import Handicap.Worker.Theorems.Draws
import Handicap.Worker.Theorems.Loading

open Store Tiling Apportionment Worker
open Engine (DataSet)
open Pb (ServerMessage)

namespace Coordinator

def WorkerStream.slot (ws : WorkerStream) : ℕ × ℕ :=
  (ws.offset, ws.count)

namespace RunWorkers

variable {rw : RunWorkers} {id : RunId} {g : Grant} {gs : List Grant} {i : ℕ} {ds : DataSet}
variable {datasets : String → List StringMap} {transfer : WorkerId → ℕ → Transfer}
variable {inbound : WorkerId → List Inbound} {b : PendingDataBinding} {w : WorkerId}

-- What a worker is sent for the shard that it is given.
def granted (rw : RunWorkers) (id : RunId) (g : Grant) : Pb.RunAssignment × List WorkerStream :=
  rw.assignmentFor id g.shardIndex rw.expected g.vuOffset g.vuCount

-- What a worker receives for its shard.
def Delivers (rw : RunWorkers) (id : RunId) (datasets : String → List StringMap)
    (transfer : ℕ → Transfer) (g : Grant) (inbound : List Inbound) : Prop :=
  Inbound.batches inbound <+:
    (streamDatasets datasets transfer id (rw.granted id g).2).filter ServerMessage.isBatch

-- The datasets with which a worker runs the engine, if it does.
def loaded (rw : RunWorkers) (id : RunId) (gs : List Grant) (inbound : WorkerId → List Inbound)
    (w : WorkerId) : List DataSet :=
  match gs.find? (·.worker = w) with
  | none   => []
  | some g =>
    match loadAssignment (rw.granted id g).1 (inbound w) with
    | some (.ok ts) => ts
    | _             => []

-- The rows that a worker has of a binding.
def loadedRows (rw : RunWorkers) (id : RunId) (gs : List Grant) (inbound : WorkerId → List Inbound)
    (i : ℕ) (w : WorkerId) : List StringMap :=
  (((rw.loaded id gs inbound w)[i]?).map DataSet.rows).getD []

-- The datasets still have their rows, all that is streamed for a shard arrives, nothing ends the
-- loading, and there is room for the rows.
structure DeliversInFull (rw : RunWorkers) (id : RunId) (datasets : String → List StringMap)
    (transfer : ℕ → Transfer) (g : Grant) (inbound : List Inbound) : Prop where
  present : ∀ b ∈ rw.base.dataBindings, b.rowCount ≤ (datasets b.datasetId).length
  works   : ∀ i, (transfer i).Works
  arrives : Inbound.batches inbound =
    (streamDatasets datasets transfer id (rw.granted id g).2).filter ServerMessage.isBatch
  runs    : ∀ x ∈ inbound, ¬x.Stops id
  fits    : Allocates ((rw.granted id g).1.dataBindings.map (·.rowCount))

theorem granted_snd : (rw.granted id g).2 =
    rw.base.dataBindings.mapIdx fun i b => workerStream rw.expected g.shardIndex b i :=
  rfl

theorem granted_bindings_nodup : ((rw.granted id g).2.map (·.bindingIndex)).Nodup := by
  have hi : (rw.granted id g).2.map (·.bindingIndex) = List.range rw.base.dataBindings.length := by
    exact List.ext_getElem (by simp [granted_snd]) fun i _ _ => by simp [granted_snd, workerStream]
  exact hi ▸ List.nodup_range

theorem granted_binding {j : ℕ} :
    (rw.granted id g).1.dataBindings[j]? = rw.base.dataBindings[j]?.map fun b =>
      ⟨b.policy, b.seed, (workerStream rw.expected g.shardIndex b j).count⟩ := by
  simp only [granted, assignmentFor, List.getElem?_zipWith, List.getElem?_mapIdx]
  cases rw.base.dataBindings[j]? <;> rfl

theorem granted_rowCount (id : RunId) (g : Grant) (hb : rw.base.dataBindings[i]? = some b) :
    ((rw.granted id g).1.dataBindings.map (·.rowCount))[i]? =
      some (workerStream rw.expected g.shardIndex b i).count := by
  rw [List.getElem?_map, granted_binding, hb]
  rfl

theorem Delivers.rowsFor {transfer : ℕ → Transfer} {inbound : List Inbound}
    (d : rw.Delivers id datasets transfer g inbound) (hb : rw.base.dataBindings[i]? = some b) :
    rowsFor i inbound <+: (workerStream rw.expected g.shardIndex b i).slice datasets := by
  have hws : workerStream rw.expected g.shardIndex b i ∈ (rw.granted id g).2 := by
    refine List.mem_of_getElem? (i := i) ?_
    simp [granted_snd, hb]
  have hs := streamDatasets_rowsFor datasets transfer id granted_bindings_nodup hws
  rw [← ServerMessage.flatMap_filter_isBatch] at hs
  rw [rowsFor_eq_batches]
  exact (d.flatMap _).trans hs

-- Unless it is promised nothing, a worker has loaded its buckets.
theorem loadAssignment_ok {assignment : Pb.RunAssignment} {inbound : List Inbound}
    {ts : List DataSet} (h : loadAssignment assignment inbound = some (.ok ts)) :
    ts = [] ∨ ∃ result, loadDatasets (assignment.dataBindings.map (·.rowCount)) assignment.runId
      inbound = some (.ok result) ∧
      ts = List.zipWith (fun b rows => ⟨b.policy, b.seed, rows⟩) assignment.dataBindings result := by
  simp only [loadAssignment] at h
  split_ifs at h
  case neg =>
    cases h
    exact .inl rfl
  case pos =>
    simp only [Option.bind_eq_bind, Option.bind_eq_some_iff] at h
    obtain ⟨_, -, _ | result, hr, hts⟩ := h
    case error => cases hts
    case ok =>
      cases hts
      exact .inr ⟨result, hr, rfl⟩

-- The worker has loaded its slice, in order and as a whole.
theorem loaded_slice {ts : List DataSet} {transfer : ℕ → Transfer} {inbound : List Inbound}
    (d : rw.Delivers id datasets transfer g inbound)
    (hl : loadAssignment (rw.granted id g).1 inbound = some (.ok ts))
    (hb : rw.base.dataBindings[i]? = some b) (hd : ts[i]? = some ds) :
    ds.policy = b.policy ∧ ds.rows = (workerStream rw.expected g.shardIndex b i).slice datasets ∧
      ds.rows.length = (workerStream rw.expected g.shardIndex b i).count := by
  cases loadAssignment_ok hl
  case inl h =>
    subst h
    cases hd
  case inr h =>
    obtain ⟨result, hr, rfl⟩ := h
    have hle : ∀ j (hj : j < ((rw.granted id g).1.dataBindings.map (·.rowCount)).length),
        (rowsFor j inbound).length ≤ ((rw.granted id g).1.dataBindings.map (·.rowCount))[j] := by
      intro j hj
      have hj' : j < rw.base.dataBindings.length := by simpa [granted, assignmentFor] using hj
      have hbj := List.getElem?_eq_getElem hj'
      obtain ⟨_, hc⟩ := List.getElem?_eq_some_iff.mp (granted_rowCount id g hbj)
      exact hc ▸ (d.rowsFor hbj).length_le.trans WorkerStream.slice_length_le
    obtain ⟨hi, hc⟩ := List.getElem?_eq_some_iff.mp (granted_rowCount id g hb)
    obtain ⟨hrows, hlen⟩ := (loadDatasets_ok hr hle).right i hi
    rw [hc] at hlen
    rw [List.getElem?_zipWith, granted_binding, hb, hrows] at hd
    cases hd
    have heq := (d.rowsFor hb).eq_of_length_le (hlen ▸ WorkerStream.slice_length_le)
    exact ⟨rfl, heq, hlen⟩

theorem find?_worker (hn : (gs.map Grant.worker).Nodup) (hg : g ∈ gs) :
    gs.find? (·.worker = g.worker) = some g := by
  cases hf : gs.find? (·.worker = g.worker)
  case none => simpa using List.find?_eq_none.mp hf g hg
  case some g' =>
    have hw : g'.worker = g.worker := by simpa using List.find?_some hf
    rw [List.inj_on_of_nodup_map hn (List.mem_of_find?_eq_some hf) hg hw]

theorem loaded_eq (hn : (gs.map Grant.worker).Nodup) (hg : g ∈ gs) {ts : List DataSet}
    (hl : loadAssignment (rw.granted id g).1 (inbound g.worker) = some (.ok ts)) :
    rw.loaded id gs inbound g.worker = ts := by
  simp only [loaded, find?_worker hn hg, hl]

-- Only a worker that has been given a shard has datasets.
theorem loaded_some (h : (rw.loaded id gs inbound w)[i]? = some ds) :
    ∃ g ∈ gs, g.worker = w ∧ ∃ ts, ts[i]? = some ds ∧
      loadAssignment (rw.granted id g).1 (inbound w) = some (.ok ts) := by
  simp only [loaded] at h
  cases hf : gs.find? (·.worker = w)
  case none => simp [hf] at h
  case some g =>
    simp only [hf] at h
    have hw : g.worker = w := by simpa using List.find?_some hf
    split at h
    case h_1 ts hl => exact ⟨g, List.mem_of_find?_eq_some hf, hw, ts, h, hl⟩
    case h_2 => cases h

theorem granted_within (hk : g.shardIndex < rw.expected)
    (hr : ∀ b ∈ rw.base.dataBindings, b.rowCount ≤ (datasets b.datasetId).length) :
    ∀ ws ∈ (rw.granted id g).2, ws.Within datasets := by
  intro ws hws
  rw [granted_snd, List.mem_mapIdx] at hws
  obtain ⟨j, hj, rfl⟩ := hws
  refine Nat.le_trans ?_ (hr _ (List.getElem_mem hj))
  by_cases hp : rw.base.dataBindings[j].policy = .unique
  case pos =>
    let total := Word.cast 32 rw.base.dataBindings[j].rowCount
    have ht : total < 2 ^ 32 := Nat.mod_lt _ (Nat.two_pow_pos 32)
    have hle := (evenOffset_add_evenShare_le total hk).trans (Nat.mod_le ..)
    simp only [workerStream, Shard.datasetSlice, hp, decide_true, if_true]
    rwa [Shard.shardSplit_eq ht hk]
  case neg => simp [workerStream, Shard.datasetSlice, hp]

-- What a worker has loaded is the slice of its shard.
theorem loaded_delivered
    (hd : ∀ g ∈ gs, rw.Delivers id datasets (transfer g.worker) g (inbound g.worker))
    (hb : rw.base.dataBindings[i]? = some b) (h : (rw.loaded id gs inbound w)[i]? = some ds) :
    ∃ g ∈ gs, g.worker = w ∧ ds.policy = b.policy ∧
      ds.rows = (workerStream rw.expected g.shardIndex b i).slice datasets ∧
      ds.rows.length = (workerStream rw.expected g.shardIndex b i).count := by
  obtain ⟨g, hg, hw, ts, hts, hl⟩ := loaded_some h
  exact ⟨g, hg, hw, loaded_slice (hd g hg) (hw ▸ hl) hb hts⟩

section

variable {transfer : ℕ → Transfer} {inbound : List Inbound}

theorem DeliversInFull.delivers (d : rw.DeliversInFull id datasets transfer g inbound) :
    rw.Delivers id datasets transfer g inbound := by
  rw [Delivers, d.arrives]

theorem DeliversInFull.rowsFor (d : rw.DeliversInFull id datasets transfer g inbound)
    (hk : g.shardIndex < rw.expected) (hb : rw.base.dataBindings[i]? = some b) :
    rowsFor i inbound = (workerStream rw.expected g.shardIndex b i).slice datasets ∧
      (rowsFor i inbound).length = (workerStream rw.expected g.shardIndex b i).count := by
  have hws : workerStream rw.expected g.shardIndex b i ∈ (rw.granted id g).2 := by
    refine List.mem_of_getElem? (i := i) ?_
    simp [granted_snd, hb]
  have hin : ∀ ws ∈ (rw.granted id g).2, ws.Within datasets := granted_within hk d.present
  have hs := streamDatasets_complete id granted_bindings_nodup d.works hin hws
  rw [← ServerMessage.flatMap_filter_isBatch, ← d.arrives, ← rowsFor_eq_batches] at hs
  exact ⟨hs, (congrArg List.length hs).trans (hin _ hws).length_slice⟩

-- What has been streamed in full is loaded.
theorem DeliversInFull.load (d : rw.DeliversInFull id datasets transfer g inbound)
    (hk : g.shardIndex < rw.expected) :
    ∃ ts, loadAssignment (rw.granted id g).1 inbound = some (.ok ts) ∧
      ∀ i b, rw.base.dataBindings[i]? = some b →
        ((ts[i]?).map DataSet.rows).getD [] =
          (workerStream rw.expected g.shardIndex b i).slice datasets := by
  let counts := (rw.granted id g).1.dataBindings.map (·.rowCount)
  have hlen (i : ℕ) (hi : i < counts.length) : (Worker.rowsFor i inbound).length = counts[i] := by
    have hi' : i < rw.base.dataBindings.length := by
      simpa [counts, granted, assignmentFor] using hi
    have hb := List.getElem?_eq_getElem hi'
    obtain ⟨_, hc⟩ := List.getElem?_eq_some_iff.mp (granted_rowCount id g hb)
    exact (d.rowsFor hk hb).2.trans hc.symm
  by_cases hany : (rw.granted id g).1.dataBindings.any fun b => 0 < b.rowCount
  case pos =>
    obtain ⟨result, hr⟩ := loadDatasets_full d.fits d.runs hlen
    refine ⟨List.zipWith (fun b rows => ⟨b.policy, b.seed, rows⟩)
      (rw.granted id g).1.dataBindings result, ?_, fun i b hb => ?_⟩
    case refine_1 =>
      rw [loadAssignment, if_pos hany, Word.checkedSum_eq d.fits.total]
      change (loadDatasets counts id inbound).bind _ = _
      rw [hr]
      rfl
    case refine_2 =>
      obtain ⟨hi, hc⟩ := List.getElem?_eq_some_iff.mp (granted_rowCount id g hb)
      obtain ⟨hrows, -⟩ := (loadDatasets_ok hr fun i hi => (hlen i hi).le).2 i hi
      rw [List.getElem?_zipWith, granted_binding, hb, hrows]
      exact (d.rowsFor hk hb).1
  case neg =>
    refine ⟨[], if_neg hany, fun i b hb => ?_⟩
    obtain ⟨hi, hc⟩ := List.getElem?_eq_some_iff.mp (granted_rowCount id g hb)
    have hz : (workerStream rw.expected g.shardIndex b i).count = 0 := by
      by_contra hne
      refine hany (List.any_eq_true.mpr ?_)
      have hm : counts[i] ∈ counts := List.getElem_mem hi
      obtain ⟨p, hp, he⟩ := List.mem_map.mp hm
      exact ⟨p, hp, decide_eq_true (he ▸ hc ▸ Nat.pos_of_ne_zero hne)⟩
    have hl := (d.rowsFor hk hb).2
    rw [(d.rowsFor hk hb).1, hz] at hl
    exact (List.eq_nil_of_length_eq_zero hl).symm

end

theorem DeliversInFull.loaded {transfer : ℕ → Transfer}
    (d : rw.DeliversInFull id datasets transfer g (inbound g.worker))
    (hn : (gs.map Grant.worker).Nodup) (hg : g ∈ gs) (hk : g.shardIndex < rw.expected)
    (hb : rw.base.dataBindings[i]? = some b) :
    loadAssignment (rw.granted id g).1 (inbound g.worker) =
        some (.ok (rw.loaded id gs inbound g.worker)) ∧
      rw.loadedRows id gs inbound i g.worker =
        (workerStream rw.expected g.shardIndex b i).slice datasets ∧
      (rw.loadedRows id gs inbound i g.worker).length =
        (workerStream rw.expected g.shardIndex b i).count := by
  obtain ⟨ts, hts, hrows⟩ := d.load hk
  have heq : rw.loaded id gs inbound g.worker = ts := loaded_eq hn hg hts
  have hr : rw.loadedRows id gs inbound i g.worker =
      (workerStream rw.expected g.shardIndex b i).slice datasets := by
    rw [loadedRows, heq]
    exact hrows i b hb
  refine ⟨hts.trans (congrArg (some ∘ Except.ok) heq.symm), hr, ?_⟩
  exact hr ▸ (d.rowsFor hk hb).1 ▸ (d.rowsFor hk hb).2

-- The shards of a unique binding are the even shares of its rows.
theorem workerStream_slot (hp : b.policy = .unique) (hr : b.rowCount < 2 ^ 32) {n k : ℕ}
    (hk : k < n) :
    (workerStream n k b i).slot = (evenOffset b.rowCount n k, evenShare b.rowCount n k) := by
  have hc : Word.cast 32 b.rowCount = b.rowCount := Nat.mod_eq_of_lt hr
  have h := Shard.shardSplit_eq hr hk
  simpa [workerStream, WorkerStream.slot, Shard.datasetSlice, hp, hc] using h

theorem slots_tile_upTo (hp : b.policy = .unique) (hr : b.rowCount < 2 ^ 32) {n : ℕ}
    (hi : gs.map Grant.shardIndex = List.range gs.length) (hn : gs.length ≤ n) :
    Tiles 0 (evenOffset b.rowCount n gs.length)
      (gs.map fun g => (workerStream n g.shardIndex b i).slot) := by
  have t := tiles_map_range (evenOffset b.rowCount n) (evenShare b.rowCount n) gs.length
    fun _ _ => evenOffset_succ
  have hm : gs.map (fun g => (workerStream n g.shardIndex b i).slot) =
      (List.range gs.length).map fun k =>
        (evenOffset b.rowCount n k, evenShare b.rowCount n k) := by
    rw [← hi, List.map_map]
    refine List.map_congr_left fun g hg => workerStream_slot hp hr ?_
    have hk : g.shardIndex ∈ List.range gs.length := hi ▸ List.mem_map_of_mem hg
    exact (List.mem_range.mp hk).trans_le hn
  rwa [hm, ← evenOffset_zero]

variable {expected : ℕ} {precomputed : Option (Vector (ℕ × ℕ) expected)}

-- However the workers register, whatever comes between the batches, and in whatever order the VUs
-- of all workers draw: a unique binding is divided among the workers, and each of its rows is
-- handed out at most once in the whole run. A worker that runs out of rows has handed out all of
-- its own.
theorem unique_exactly_once (base : PendingAssignment) (hn : 1 ≤ expected) (totalVus : U32)
    (calls : List Call) (id : RunId) (genRange : ℕ → ℕ → ℕ) (draws : List Draw)
    (hb : base.dataBindings[i]? = some b) (hp : b.policy = .unique) (hr : b.rowCount < 2 ^ 32)
    (hd : ∀ g ∈ (new base expected totalVus precomputed).grants calls,
      (new base expected totalVus precomputed).Delivers id datasets (transfer g.worker) g
        (inbound g.worker)) :
    let run := new base expected totalVus precomputed
    let gs := run.grants calls
    let stream (g : Grant) := workerStream expected g.shardIndex b i
    let data := run.loaded id gs inbound
    let s := Draws.run genRange data draws
    let offset w := ((gs.find? (·.worker = w)).map fun g => (stream g).offset).getD 0
    gs.Pairwise (fun g g' => Disjoint (interval (stream g).slot) (interval (stream g').slot)) ∧
    (gs.length = expected → Tiles 0 b.rowCount (gs.map fun g => (stream g).slot)) ∧
    (∀ g ∈ gs, ∀ ds, (data g.worker)[i]? = some ds →
      ds.policy = .unique ∧ ds.rows = (stream g).slice datasets ∧
      ds.rows.length = (stream g).count) ∧
    (∀ g ∈ gs, run.DeliversInFull id datasets (transfer g.worker) g (inbound g.worker) →
      loadAssignment (run.granted id g).1 (inbound g.worker) = some (.ok (data g.worker)) ∧
      run.loadedRows id gs inbound i g.worker = (stream g).slice datasets ∧
      (run.loadedRows id gs inbound i g.worker).length = (stream g).count) ∧
    (gs.length = expected →
      (∀ g ∈ gs, run.DeliversInFull id datasets (transfer g.worker) g (inbound g.worker)) →
      gs.flatMap (fun g => run.loadedRows id gs inbound i g.worker) =
        ((datasets b.datasetId).take b.rowCount).map (applyMappings b.mappings)) ∧
    (s.handedOut offset i).Nodup ∧
    ∀ pre d, pre ++ [(d, none)] <+: s.log → d.binding = i → ∃ g ∈ gs, g.worker = d.worker ∧
      ∀ k < (stream g).count, ∃ d', (d', some k) ∈ pre ∧ d'.worker = d.worker ∧ d'.binding = i := by
  intro run gs stream data s offset
  have hs : Sharded gs (run.after calls) := Sharded.new.after _
  have he : (run.after calls).expected = expected := expected_after
  have t := slots_tile_upTo (i := i) hp hr hs.indices (he ▸ hs.le)
  have hdis : gs.Pairwise fun g g' =>
      Disjoint (interval (stream g).slot) (interval (stream g').slot) := by
    have hp := t.pairwise_disjoint
    rwa [List.pairwise_map] at hp
  have hdata : ∀ w ds, (data w)[i]? = some ds → ∃ g ∈ gs, g.worker = w ∧ ds.policy = .unique ∧
      ds.rows = (stream g).slice datasets ∧ ds.rows.length = (stream g).count := by
    intro w ds hds
    obtain ⟨g, hg, hw, hpol, hsl⟩ := loaded_delivered hd hb hds
    exact ⟨g, hg, hw, hpol.trans hp, hsl⟩
  have hoff : ∀ g ∈ gs, offset g.worker = (stream g).offset := by
    intro g hg
    simp [offset, find?_worker hs.nodup hg]
  have hu : ∀ w ds, (data w)[i]? = some ds → ds.policy = .unique := by
    intro w ds hds
    obtain ⟨_, _, _, hpol, _⟩ := hdata w ds hds
    exact hpol
  have htiles : gs.length = expected → Tiles 0 b.rowCount (gs.map fun g => (stream g).slot) := by
    intro hfull
    rwa [hfull, evenOffset_last hn] at t
  have hload : ∀ g ∈ gs,
      run.DeliversInFull id datasets (transfer g.worker) g (inbound g.worker) →
        loadAssignment (run.granted id g).1 (inbound g.worker) = some (.ok (data g.worker)) ∧
        run.loadedRows id gs inbound i g.worker = (stream g).slice datasets ∧
        (run.loadedRows id gs inbound i g.worker).length = (stream g).count := by
    intro g hg d
    have hm : g.shardIndex ∈ List.range gs.length := hs.indices ▸ List.mem_map_of_mem hg
    have hk : g.shardIndex < expected := (List.mem_range.mp hm).trans_le (he ▸ hs.le)
    exact d.loaded hs.nodup hg hk hb
  refine ⟨hdis, htiles, fun g hg ds hds => ?slices, hload, fun hfull hall => ?cover, ?nodup,
    fun pre d hpre hi => ?none⟩
  case cover =>
    have hp := (htiles hfull).pieces ((datasets b.datasetId).map (applyMappings b.mappings))
    rw [List.flatMap_map, List.drop_zero, Nat.sub_zero, ← List.map_take] at hp
    rw [← hp]
    refine List.flatMap_congr fun g hg => ?_
    rw [(hload g hg (hall g hg)).2.1, WorkerStream.slice, getRowsRange, List.map_take,
      List.map_drop]
    rfl
  case slices =>
    obtain ⟨g', hg', hw, h⟩ := hdata _ _ hds
    exact List.inj_on_of_nodup_map hs.nodup hg' hg hw ▸ h
  case nodup =>
    refine Draws.handedOut_nodup hu fun w w' ds ds' hds hds' hne => ?_
    obtain ⟨g, hg, hw, _, _, hl⟩ := hdata _ _ hds
    obtain ⟨g', hg', hw', _, _, hl'⟩ := hdata _ _ hds'
    subst hw hw'
    rw [hl, hl', hoff g hg, hoff g' hg']
    have : Std.Symm fun g g' : Grant =>
      Disjoint (interval (stream g).slot) (interval (stream g').slot) := ⟨fun _ _ h => h.symm⟩
    exact hdis.forall hg hg' fun h => hne (h ▸ rfl)
  case none =>
    subst hi
    have hm : (d, none) ∈ pre ++ [(d, none)] := by simp
    obtain ⟨ds, hds⟩ := Draws.data_of_mem_log (hpre.subset hm)
    obtain ⟨g, hg, hw, hpol, _, hl⟩ := hdata _ _ hds
    exact ⟨g, hg, hw, fun k hk => Draws.drawn_all_of_none hds hpol hpre k (hl ▸ hk)⟩

-- Two workers share three accounts, and the second one is faster than the first.
theorem unique_exactly_once_accounts :
    let accounts : PendingDataBinding := ⟨"accounts", .unique, 0, [.column "user" "name"], 3⟩
    let row (column name : String) : StringMap := AList.insert column name ∅
    let run := new { (default : PendingAssignment) with dataBindings := [accounts] } 2 10 none
    let gs := run.grants [.register "w1" 1, .register "w2" 2]
    let inbound : WorkerId → List Inbound := fun w =>
      if w = "w1" then
        [.message .ping, .message (.datasetBatch "r" [row "user" "a", row "user" "b"] 0)]
      else
        [.message (.datasetBatch "r" [row "user" "c"] 0), .message (.abort "other" "")]
    let draws := [⟨"w2", 0, 1, 0⟩, ⟨"w1", 0, 0, 0⟩, ⟨"w1", 0, 0, 1⟩, ⟨"w2", 0, 1, 1⟩]
    let s := Draws.run (fun _ _ => 0) (run.loaded "r" gs inbound) draws
    let stream (g : Grant) := workerStream 2 g.shardIndex accounts 0
    let offset w := ((gs.find? (·.worker = w)).map fun g => (stream g).offset).getD 0
    (s.handedOut offset 0).Nodup ∧ Tiles 0 3 (gs.map fun g => (stream g).slot) ∧
      gs.flatMap (fun g => run.loadedRows "r" gs inbound 0 g.worker) =
        [row "user" "a", row "user" "b", row "user" "c"] := by
  intro accounts row run gs inbound draws s stream offset
  let datasets : String → List StringMap :=
    fun _ => [row "name" "a", row "name" "b", row "name" "c"]
  let transfer : ℕ → Transfer := fun _ => ⟨fun _ => false, fun _ => false⟩
  have hgs : gs = [⟨"w1", 0, 0, 5⟩, ⟨"w2", 1, 5, 5⟩] := by decide
  have ht (i : ℕ) : (transfer i).Works := fun _ => ⟨Bool.false_ne_true, Bool.false_ne_true⟩
  have hb : [accounts][0]? = some accounts := rfl
  have hone {ws : WorkerStream} {rows : List StringMap} (hr : ws.offset + ws.count ≤ 3)
      (hz : 0 < ws.count)
      (hrows : (getRowsRange (datasets "") ws.offset ws.count).map (applyMappings ws.mappings) =
        rows) :
      streamDatasets datasets transfer "r" [ws] = [.datasetBatch "r" rows ws.bindingIndex] := by
    have hc : ws.count ≤ datasetBatchRows :=
      le_trans (by omega) (show 3 ≤ datasetBatchRows by decide)
    have ho : streamDataset (datasets ws.datasetId) (transfer ws.bindingIndex) "r" ws = _ :=
      streamDataset_once (ht ws.bindingIndex) hr hz hc
    simp only [streamDatasets, if_neg hz.ne', ho]
    rw [← hrows]
    rfl
  have hd : ∀ g ∈ gs, run.DeliversInFull "r" datasets transfer g (inbound g.worker) := by
    intro g hg
    rw [hgs] at hg
    obtain rfl | hg := List.mem_cons.mp hg
    case inl =>
      have hs : (run.granted "r" ⟨"w1", 0, 0, 5⟩).2 =
          [⟨"accounts", accounts.mappings, 0, 2, 0⟩] := by
        decide
      have hm := @hone ⟨"accounts", accounts.mappings, 0, 2, 0⟩ _ (by decide) (by decide) rfl
      refine ⟨by simp [run, new, datasets, accounts], ht, ?_, ?_, ⟨by decide, by decide⟩⟩
      case refine_1 => rw [hs, hm]; rfl
      case refine_2 => simp [inbound, Inbound.Stops]
    case inr =>
      obtain rfl := List.mem_singleton.mp hg
      have hs : (run.granted "r" ⟨"w2", 1, 5, 5⟩).2 =
          [⟨"accounts", accounts.mappings, 2, 1, 0⟩] := by
        decide
      have hm := @hone ⟨"accounts", accounts.mappings, 2, 1, 0⟩ _ (by decide) (by decide) rfl
      refine ⟨by simp [run, new, datasets, accounts], ht, ?_, ?_, ⟨by decide, by decide⟩⟩
      case refine_1 => rw [hs, hm]; rfl
      case refine_2 => simp [inbound, Inbound.Stops]
  have h := @unique_exactly_once 0 datasets (fun _ => transfer) inbound accounts 2 none
    { (default : PendingAssignment) with dataBindings := [accounts] } (by decide) 10
    [.register "w1" 1, .register "w2" 2] "r" (fun _ _ => 0) draws hb rfl (by decide)
    fun g hg => (hd g hg).delivers
  obtain ⟨-, htiles, -, -, hcover, hnodup, -⟩ := h
  have hlen : gs.length = 2 := by rw [hgs]; rfl
  exact ⟨hnodup, htiles hlen, hcover hlen hd⟩

end RunWorkers

end Coordinator
