import Handicap.Monitor.Theorems.Transfer

open Guard

-- An import only adds, and what it has added stays resolved.
namespace Monitor

section Rows

variable {α : Type} {clash : α → α → Bool} {rows new : List α}

-- Rows of which none clashes with one before it are all inserted.
theorem insertRows (h : (rows ++ new).Pairwise fun x y => clash y x = false) :
    new.foldlM (insertRow clash) rows = some (rows ++ new) := by
  induction new generalizing rows
  case nil => simp
  case cons row new ih =>
    have hrow : insertRow clash rows row = some (rows ++ [row]) := by
      refine if_neg fun ha => ?_
      obtain ⟨x, hx, hc⟩ := List.any_eq_true.mp ha
      rw [(List.pairwise_append.mp h).2.2 x hx row List.mem_cons_self] at hc
      cases hc
    rw [List.append_cons] at h ⊢
    rw [List.foldlM_cons, hrow]
    exact ih h

-- Rows of which the ids and the names are distinct do not clash.
theorem pairwise_clash {key key' : α → String} {l : List α} (hk : (l.map key).Nodup)
    (hk' : (l.map key').Nodup) :
    l.Pairwise fun x y => (decide (key y = key x) || decide (key' y = key' x)) = false := by
  refine (List.Pairwise.and (List.pairwise_map.mp hk) (List.pairwise_map.mp hk')).imp ?_
  rintro x y ⟨hxy, hxy'⟩
  simp [Ne.symm hxy, Ne.symm hxy']

-- What is added to distinct rows is distinct if it is so in itself and new.
theorem nodup_added {key : α → String} (hr : (rows.map key).Nodup) (hn : (new.map key).Nodup)
    (h : ∀ x ∈ new.map key, x ∉ rows.map key) : ((rows ++ new).map key).Nodup := by
  rw [List.map_append]
  exact List.nodup_append.mpr ⟨hr, hn, fun a ha b hb he => h b hb (he ▸ ha)⟩

theorem find?_key {key : α → String} {row : α} (hn : (rows.map key).Nodup) (hm : row ∈ rows) :
    rows.find? (fun x => key x = key row) = some row := by
  cases hf : rows.find? (fun x => key x = key row)
  case none => simpa using List.find?_eq_none.mp hf row hm
  case some row' =>
    have hk : key row' = key row := by simpa using List.find?_some hf
    rw [List.inj_on_of_nodup_map hn (List.mem_of_find?_eq_some hf) hm hk]

theorem map_zipWith_left {β γ δ : Type} {f : α → β → γ} {key : γ → δ} {key' : α → δ} {l : List α}
    {l' : List β} (hl : l'.length = l.length) (hf : ∀ a b, key (f a b) = key' a) :
    (l.zipWith f l').map key = l.map key' := by
  induction l generalizing l'
  case nil => simp
  case cons a l ih =>
    cases l'
    case nil       => cases hl
    case cons b l' => simp [hf, ih (Nat.succ.inj hl)]

theorem map_zipWith_right {β γ : Type} {f : α → β → γ} {key : γ → β} {l : List α} {l' : List β}
    (hl : l'.length = l.length) (hf : ∀ a b, key (f a b) = b) : (l.zipWith f l').map key = l' := by
  induction l' generalizing l
  case nil => simp
  case cons b l' ih =>
    cases l
    case nil      => cases hl
    case cons a l => simp [hf, ih (Nat.succ.inj hl)]

end Rows

-- What is known of an id in a table: that it is not there, or whether the row that has it is the
-- same.
def Finds {α : Type} (rows : List α) (key : α → String) (same : α → Prop) (id : String) :
    ResState → Prop
  | .absent    => ∀ row ∈ rows, key row ≠ id
  | .same      => ∃ row ∈ rows, key row = id ∧ same row
  | .different => ∃ row ∈ rows, key row = id ∧ ¬same row

namespace Finds

variable {α : Type} {rows : List α} {key : α → String} {same : α → Prop} {id : String} {st : ResState}

theorem absent_iff (h : Finds rows key same id st) : st = .absent ↔ id ∉ rows.map key := by
  rw [List.mem_map]
  constructor
  case mp =>
    rintro rfl ⟨row, hm, hk⟩
    exact h row hm hk
  case mpr =>
    intro hn
    cases st
    case absent    => rfl
    case same      =>
      obtain ⟨row, hm, hk, -⟩ := h
      exact absurd ⟨row, hm, hk⟩ hn
    case different =>
      obtain ⟨row, hm, hk, -⟩ := h
      exact absurd ⟨row, hm, hk⟩ hn

-- Only one row has the id.
theorem different_iff (h : Finds rows key same id st) (hn : (rows.map key).Nodup) :
    st = .different ↔ ∃ row ∈ rows, key row = id ∧ ¬same row := by
  constructor
  case mp =>
    rintro rfl
    exact h
  case mpr =>
    rintro ⟨row, hm, hk, hs⟩
    cases st
    case absent    => exact absurd hk (h row hm)
    case same      =>
      obtain ⟨row', hm', hk', hs'⟩ := h
      have he : row' = row := List.inj_on_of_nodup_map hn hm' hm (hk'.trans hk.symm)
      exact absurd (he ▸ hs') hs
    case different => rfl

end Finds

namespace Pc

variable {b : ValidBundle} {pc pc' : Pc} {s : ValidScenario} {e : ValidEnv} {vb : ValidBoard}
  {plan : AddPlan}

-- What the database guarantees of its rows.
structure Sound (pc : Pc) : Prop where
  boardIds    : (pc.boards.map (·.id)).Nodup
  boardNames  : (pc.boards.map (·.name)).Nodup
  scenarioIds : (pc.scenarios.map (·.id)).Nodup
  envIds      : (pc.environments.map (·.id)).Nodup
  envNames    : (pc.environments.map (·.name)).Nodup

-- A board of the file is on the machine, or something that it comes with is there and differs.
def Clashes (pc : Pc) (b : ValidBundle) : Prop :=
  (∃ vb ∈ b.boards, ∃ row ∈ pc.boards, row.id = vb.id) ∨
  (∃ s ∈ b.scenarios, ∃ row ∈ pc.scenarios, row.id = s.id ∧ ¬row.yaml = s.yaml) ∨
  ∃ e ∈ b.environments, ∃ row ∈ pc.environments, row.id = e.id ∧ ¬row.vars = e.vars

theorem scenarioState_finds (hs : s ∈ b.scenarios) :
    Finds pc.scenarios (·.id) (·.yaml = s.yaml) s.id (scenarioState (pc.snapshot b) s.id s.yaml) := by
  have hmem {y : String} : (s.id, y) ∈ (pc.snapshot b).scenarios ↔
      ∃ row ∈ pc.scenarios, row.id = s.id ∧ row.yaml = y := by
    simp only [snapshot, List.mem_map, List.mem_filter, List.any_eq_true, decide_eq_true_eq,
      Prod.mk.injEq]
    constructor
    case mp =>
      rintro ⟨row, ⟨hm, -⟩, hr⟩
      exact ⟨row, hm, hr⟩
    case mpr =>
      rintro ⟨row, hm, hr⟩
      exact ⟨row, ⟨hm, s, hs, hr.1.symm⟩, hr⟩
  unfold scenarioState
  split
  case h_1 hl =>
    intro row hm hid
    simpa using List.lookup_eq_none_iff.mp hl _ (hmem.mpr ⟨row, hm, hid, rfl⟩)
  case h_2 y hl =>
    obtain ⟨l₁, l₂, he, -⟩ := List.lookup_eq_some_iff.mp hl
    obtain ⟨row, hm, hid, hy⟩ := hmem.mp (he ▸ List.mem_append_right l₁ List.mem_cons_self)
    split
    case isTrue h  => exact ⟨row, hm, hid, hy.trans h⟩
    case isFalse h => exact ⟨row, hm, hid, fun he => h (hy.symm.trans he)⟩

theorem envState_finds :
    Finds pc.environments (·.id) (·.vars = e.vars) e.id (envState (pc.snapshot b) e.id e.vars) := by
  unfold envState
  split
  case h_1 hl => exact fun row hm hid => by simpa [hid] using List.find?_eq_none.mp hl row hm
  case h_2 row hl =>
    have hm  : row ∈ pc.environments := List.mem_of_find?_eq_some hl
    have hid : row.id = e.id := by simpa using List.find?_some hl
    split
    case isTrue h  => exact ⟨row, hm, hid, h⟩
    case isFalse h => exact ⟨row, hm, hid, h⟩

theorem scenarioInfo_of_mem {snap : PcSnapshot} {id : String} (hb : Bundled b)
    (hs : s ∈ b.scenarios) (hid : id = s.id) :
    scenarioInfo b snap id = some ⟨s.id, s.name, scenarioState snap s.id s.yaml⟩ := by
  rw [hid, scenarioInfo, find?_key hb.scenarioIds hs]
  rfl

theorem envInfo_of_mem {snap : PcSnapshot} (hb : Bundled b) (he : e ∈ b.environments) :
    envInfo b snap e.id = some ⟨e.id, e.name, envState snap e.id e.vars⟩ := by
  rw [envInfo, find?_key hb.envIds he]
  rfl

-- The analysis knows of everything in the file how it stands.
theorem lookup_scenarios {snap : PcSnapshot} (hb : Bundled b) (hs : s ∈ b.scenarios) :
    (states ((analyze b snap).boards.flatMap (·.scenarios))).lookup s.id =
      some (scenarioState snap s.id s.yaml) := by
  have hinfo : ∀ r ∈ (analyze b snap).boards.flatMap (·.scenarios),
      scenarioInfo b snap r.id = some r := by
    intro r hr
    obtain ⟨a, ha, hr⟩ := List.mem_flatMap.mp hr
    obtain ⟨vb, -, rfl⟩ := List.mem_map.mp ha
    obtain ⟨p, -, hr⟩ := mem_scenarios.mp hr
    rw [scenarioInfo_id hr, hr]
  obtain ⟨vb, hvb, p, hp, hid⟩ := hb.scenariosUsed s hs
  exact (lookup_states hinfo).mpr ⟨_, List.mem_flatMap.mpr ⟨_, List.mem_map_of_mem hvb,
    mem_scenarios.mpr ⟨p, hp, scenarioInfo_of_mem hb hs hid⟩⟩, rfl, rfl⟩

theorem lookup_environments {snap : PcSnapshot} (hb : Bundled b) (he : e ∈ b.environments) :
    (states ((analyze b snap).boards.flatMap (·.environments))).lookup e.id =
      some (envState snap e.id e.vars) := by
  have hinfo : ∀ r ∈ (analyze b snap).boards.flatMap (·.environments),
      envInfo b snap r.id = some r := by
    intro r hr
    obtain ⟨a, ha, hr⟩ := List.mem_flatMap.mp hr
    obtain ⟨vb, -, rfl⟩ := List.mem_map.mp ha
    obtain ⟨p, -, eid, -, hr⟩ := mem_environments.mp hr
    rw [envInfo_id hr, hr]
  obtain ⟨vb, hvb, p, hp, hid⟩ := hb.envsUsed e he
  exact (lookup_states hinfo).mpr ⟨_, List.mem_flatMap.mpr ⟨_, List.mem_map_of_mem hvb,
    mem_environments.mpr ⟨p, hp, e.id, hid, envInfo_of_mem hb he⟩⟩, rfl, rfl⟩

theorem conflict_iff {snap : PcSnapshot} : (analyzeBoard b snap vb).conflict = true ↔
    (∃ row ∈ snap.boards, row.id = vb.id) ∨
    (∃ r ∈ (analyzeBoard b snap vb).scenarios, r.state = .different) ∨
    ∃ r ∈ (analyzeBoard b snap vb).environments, r.state = .different := by
  change ((snap.boards.find? (·.id = vb.id)).isSome || ((analyzeBoard b snap vb).scenarios ++
    (analyzeBoard b snap vb).environments).any (·.state = .different)) = true ↔ _
  rw [Bool.or_eq_true, List.find?_isSome, List.any_append, Bool.or_eq_true, List.any_eq_true,
    List.any_eq_true]
  simp only [decide_eq_true_eq]

theorem conflicts_iff (hb : Bundled b) (hpc : pc.Sound) :
    (∃ vb ∈ b.boards, (analyzeBoard b (pc.snapshot b) vb).conflict = true) ↔ pc.Clashes b := by
  constructor
  case mp =>
    rintro ⟨vb, hvb, hc⟩
    obtain ⟨row, hrow, hid⟩ | ⟨r, hr, hst⟩ | ⟨r, hr, hst⟩ := conflict_iff.1 hc
    case inl =>
      obtain ⟨row', hrow', rfl⟩ := List.mem_map.mp hrow
      exact .inl ⟨vb, hvb, row', hrow', hid⟩
    case inr.inl =>
      obtain ⟨p, -, hr⟩ := mem_scenarios.mp hr
      obtain ⟨s, hs, rfl⟩ := Option.map_eq_some_iff.mp hr
      have hs := List.mem_of_find?_eq_some hs
      exact .inr (.inl ⟨s, hs, ((scenarioState_finds hs).different_iff hpc.scenarioIds).mp hst⟩)
    case inr.inr =>
      obtain ⟨p, -, eid, -, hr⟩ := mem_environments.mp hr
      obtain ⟨e, he, rfl⟩ := Option.map_eq_some_iff.mp hr
      have he := List.mem_of_find?_eq_some he
      exact .inr (.inr ⟨e, he, (envState_finds.different_iff hpc.envIds).mp hst⟩)
  case mpr =>
    rintro (⟨vb, hvb, row, hrow, hid⟩ | ⟨s, hs, hrow⟩ | ⟨e, he, hrow⟩)
    case inl => exact ⟨vb, hvb, conflict_iff.2 (.inl ⟨_, List.mem_map_of_mem hrow, hid⟩)⟩
    case inr.inl =>
      obtain ⟨vb, hvb, p, hp, hid⟩ := hb.scenariosUsed s hs
      have hst := ((scenarioState_finds hs).different_iff hpc.scenarioIds).mpr hrow
      exact ⟨vb, hvb, conflict_iff.2 (.inr (.inl ⟨_, mem_scenarios.mpr
        ⟨p, hp, scenarioInfo_of_mem hb hs hid⟩, hst⟩))⟩
    case inr.inr =>
      obtain ⟨vb, hvb, p, hp, hid⟩ := hb.envsUsed e he
      have hst := ((envState_finds (b := b)).different_iff hpc.envIds).mpr hrow
      exact ⟨vb, hvb, conflict_iff.2 (.inr (.inr ⟨_, mem_environments.mpr
        ⟨p, hp, e.id, hid, envInfo_of_mem hb he⟩, hst⟩))⟩

-- The machine with the rows of a plan behind its own.
def adding (pc : Pc) (plan : AddPlan) : Pc where
  boards       := pc.boards ++ plan.boards.map fun b => ⟨b.1, b.2.1, b.2.2, false⟩
  scenarios    := pc.scenarios ++ plan.scenarios.map fun s => ⟨s.1, s.2.1, s.2.2⟩
  environments := pc.environments ++ plan.environments.map fun e => ⟨e.1, e.2.1, e.2.2⟩

theorem apply_eq (h : (pc.adding plan).Sound) : pc.apply plan = some (pc.adding plan) := by
  have hs : plan.scenarios.foldlM insertScenario pc.scenarios = some (pc.adding plan).scenarios := by
    have hp : List.foldlM (insertRow fun x y => x.id = y.id) pc.scenarios _ = _ := insertRows
      ((List.pairwise_map.mp h.scenarioIds).imp fun hne => by simp [Ne.symm hne])
    rwa [List.foldlM_map] at hp
  have he : plan.environments.foldlM insertEnvironment pc.environments =
      some (pc.adding plan).environments := by
    have hp : List.foldlM (insertRow fun x y => x.id = y.id || x.name = y.name)
        pc.environments _ = _ :=
      insertRows (pairwise_clash h.envIds h.envNames)
    rwa [List.foldlM_map] at hp
  have hb : plan.boards.foldlM insertBoard pc.boards = some (pc.adding plan).boards := by
    have hp : List.foldlM (insertRow fun x y => x.id = y.id || x.name = y.name) pc.boards _ = _ :=
      insertRows (pairwise_clash h.boardIds h.boardNames)
    rwa [List.foldlM_map] at hp
  simp only [apply, hs, he, hb]
  rfl

def newScenarios (pc : Pc) (b : ValidBundle) : List ValidScenario :=
  b.scenarios.filter (·.id ∉ pc.scenarios.map (·.id))

def newEnvironments (pc : Pc) (b : ValidBundle) : List ValidEnv :=
  b.environments.filter (·.id ∉ pc.environments.map (·.id))

def boardNames (pc : Pc) (b : ValidBundle) : List String :=
  (nameAll "board" (some nameMaxChars) (pc.boards.map (·.name)) (b.boards.map (·.name))).1

def envNames (pc : Pc) (b : ValidBundle) : List String :=
  (nameAll "environment" none (pc.environments.map (·.name)) ((pc.newEnvironments b).map (·.name))).1

-- The machine with what an import adds.
def grown (pc : Pc) (b : ValidBundle) : Pc where
  boards       := pc.boards ++
    b.boards.zipWith (fun vb name => ⟨vb.id, name, vb.config, false⟩) (pc.boardNames b)
  scenarios    := pc.scenarios ++ (pc.newScenarios b).map fun s => ⟨s.id, s.name, s.yaml⟩
  environments := pc.environments ++
    (pc.newEnvironments b).zipWith (fun e name => ⟨e.id, name, e.vars⟩) (pc.envNames b)

-- Without a clash there is a plan, and it is to add what is not there.
theorem planAdd_eq (hb : Bundled b) (hpc : pc.Sound) (hc : ¬pc.Clashes b) :
    ∃ result, planAdd b (pc.snapshot b) (analyze b (pc.snapshot b)) = .ok
      { boards       := b.boards.zipWith (fun vb name => (vb.id, name, vb.config)) (pc.boardNames b)
        scenarios    := (pc.newScenarios b).map fun s => (s.id, s.name, s.yaml)
        environments :=
          (pc.newEnvironments b).zipWith (fun e name => (e.id, name, e.vars)) (pc.envNames b)
        result } := by
  have hnone : (analyze b (pc.snapshot b)).boards.filter (·.conflict) = [] := by
    rw [List.filter_eq_nil_iff]
    intro a ha hconf
    obtain ⟨vb, hvb, rfl⟩ := List.mem_map.mp ha
    exact hc ((conflicts_iff hb hpc).mp ⟨vb, hvb, hconf⟩)
  have hs : b.scenarios.filter (fun s => (states ((analyze b (pc.snapshot b)).boards.flatMap
      (·.scenarios))).lookup s.id = some .absent) = pc.newScenarios b := by
    refine List.filter_congr fun s hs => decide_eq_decide.mpr ?_
    rw [lookup_scenarios hb hs, Option.some.injEq, (scenarioState_finds hs).absent_iff]
  have he : b.environments.filter (fun e => (states ((analyze b (pc.snapshot b)).boards.flatMap
      (·.environments))).lookup e.id = some .absent) = pc.newEnvironments b := by
    refine List.filter_congr fun e he => decide_eq_decide.mpr ?_
    rw [lookup_environments hb he, Option.some.injEq, envState_finds.absent_iff]
  have hn : (pc.snapshot b).boards.map (·.name) = pc.boards.map (·.name) := by
    simp [snapshot, Function.comp_def]
  simp only [planAdd, hnone, hs, he, hn]
  exact ⟨_, rfl⟩

theorem planAdd_error (hb : Bundled b) (hpc : pc.Sound) (hc : pc.Clashes b) :
    ∃ boards, planAdd b (pc.snapshot b) (analyze b (pc.snapshot b)) = .error boards := by
  obtain ⟨vb, hvb, hconf⟩ := (conflicts_iff hb hpc).mpr hc
  have hsome : (analyze b (pc.snapshot b)).boards.filter (·.conflict) ≠ [] :=
    List.ne_nil_of_mem (List.mem_filter.mpr ⟨List.mem_map_of_mem hvb, hconf⟩)
  exact ⟨_, if_pos hsome⟩

-- What a panel refers to is on the machine as it is in the file.
def Resolves (pc : Pc) (b : ValidBundle) (p : PanelConfig) : Prop :=
  (∃ s ∈ b.scenarios, s.id = p.scenarioId ∧ ∃ x ∈ pc.scenarios, x.id = s.id ∧ x.yaml = s.yaml) ∧
  ∀ eid ∈ p.environmentId,
    ∃ e ∈ b.environments, e.id = eid ∧ ∃ x ∈ pc.environments, x.id = e.id ∧ x.vars = e.vars

-- What an import has added: what was there is as it was, and everything new is from the file.
structure Added (b : ValidBundle) (pc pc' : Pc) : Prop where
  sound        : pc'.Sound
  boards       : ∃ new, pc'.boards = pc.boards ++ new ∧
    new.map (fun x => (x.id, x.config, x.enabled)) =
        b.boards.map (fun vb => (vb.id, vb.config, false)) ∧
    (pc.boards.length + b.boards.length + 3 ≤ 10 ^ 37 → ∀ x ∈ new, x.name.length ≤ nameMaxChars)
  scenarios    : pc'.scenarios = pc.scenarios ++
    (b.scenarios.filter (·.id ∉ pc.scenarios.map (·.id))).map fun s => ⟨s.id, s.name, s.yaml⟩
  environments : ∃ new, pc'.environments = pc.environments ++ new ∧
    new.map (fun x => (x.id, x.vars)) =
      (b.environments.filter (·.id ∉ pc.environments.map (·.id))).map fun e => (e.id, e.vars)
  resolves     : ∀ vb ∈ b.boards, ∀ p ∈ vb.config.panels, pc'.Resolves b p

theorem boardNames_length : (pc.boardNames b).length = b.boards.length := by
  rw [boardNames, nameAll_spec.1, List.length_map]

theorem envNames_length : (pc.envNames b).length = (pc.newEnvironments b).length := by
  rw [envNames, nameAll_spec.1, List.length_map]

theorem grown_sound (hb : Bundled b) (hpc : pc.Sound) (hc : ¬pc.Clashes b) :
    (pc.grown b).Sound := by
  constructor
  case boardIds =>
    have hids : (b.boards.zipWith (fun vb name => (⟨vb.id, name, vb.config, false⟩ : StoredBoard))
        (pc.boardNames b)).map (·.id) = b.boards.map (·.id) :=
      map_zipWith_left boardNames_length fun _ _ => rfl
    refine nodup_added hpc.boardIds ?_ ?_ <;> rw [hids]
    case refine_1 => exact hb.boardIds
    case refine_2 =>
      intro id hid hm
      obtain ⟨vb, hvb, rfl⟩ := List.mem_map.mp hid
      obtain ⟨row, hrow, he⟩ := List.mem_map.mp hm
      exact hc (.inl ⟨vb, hvb, row, hrow, he⟩)
  case boardNames =>
    refine nodup_added hpc.boardNames ?_ ?_ <;>
      rw [map_zipWith_right boardNames_length fun _ _ => rfl]
    case refine_1 => exact nameAll_spec.2.1
    case refine_2 => exact nameAll_spec.2.2
  case scenarioIds =>
    refine nodup_added hpc.scenarioIds ?_ ?_ <;> rw [List.map_map]
    case refine_1 => exact hb.scenarioIds.sublist (List.filter_sublist.map _)
    case refine_2 =>
      intro id hid
      obtain ⟨s, hs, rfl⟩ := List.mem_map.mp hid
      exact of_decide_eq_true (List.mem_filter.mp hs).2
  case envIds =>
    have hids : ((pc.newEnvironments b).zipWith (fun e name => (⟨e.id, name, e.vars⟩ : PcEnv))
        (pc.envNames b)).map (·.id) = (pc.newEnvironments b).map (·.id) :=
      map_zipWith_left envNames_length fun _ _ => rfl
    refine nodup_added hpc.envIds ?_ ?_ <;> rw [hids]
    case refine_1 => exact hb.envIds.sublist (List.filter_sublist.map _)
    case refine_2 =>
      intro id hid
      obtain ⟨e, he, rfl⟩ := List.mem_map.mp hid
      exact of_decide_eq_true (List.mem_filter.mp he).2
  case envNames =>
    refine nodup_added hpc.envNames ?_ ?_ <;>
      rw [map_zipWith_right envNames_length fun _ _ => rfl]
    case refine_1 => exact nameAll_spec.2.1
    case refine_2 => exact nameAll_spec.2.2

-- What is in the file is on the machine then, whether it has been added or was there.
theorem scenario_grown (hc : ¬pc.Clashes b) (hs : s ∈ b.scenarios) :
    ∃ x ∈ (pc.grown b).scenarios, x.id = s.id ∧ x.yaml = s.yaml := by
  by_cases hm : s.id ∈ pc.scenarios.map (·.id)
  case pos =>
    obtain ⟨row, hrow, hid⟩ := List.mem_map.mp hm
    refine ⟨row, List.mem_append_left _ hrow, hid, ?_⟩
    by_contra hy
    exact hc (.inr (.inl ⟨s, hs, row, hrow, hid, hy⟩))
  case neg =>
    have hn : s ∈ pc.newScenarios b := List.mem_filter.mpr ⟨hs, decide_eq_true hm⟩
    exact ⟨_, List.mem_append_right _ (List.mem_map_of_mem hn), rfl, rfl⟩

theorem environment_grown (hc : ¬pc.Clashes b) (he : e ∈ b.environments) :
    ∃ x ∈ (pc.grown b).environments, x.id = e.id ∧ x.vars = e.vars := by
  by_cases hm : e.id ∈ pc.environments.map (·.id)
  case pos =>
    obtain ⟨row, hrow, hid⟩ := List.mem_map.mp hm
    refine ⟨row, List.mem_append_left _ hrow, hid, ?_⟩
    by_contra hv
    exact hc (.inr (.inr ⟨e, he, row, hrow, hid, hv⟩))
  case neg =>
    have hn : e ∈ pc.newEnvironments b := List.mem_filter.mpr ⟨he, decide_eq_true hm⟩
    have hrows : ((pc.newEnvironments b).zipWith (fun e name => (⟨e.id, name, e.vars⟩ : PcEnv))
        (pc.envNames b)).map (fun x => (x.id, x.vars)) =
          (pc.newEnvironments b).map fun e => (e.id, e.vars) :=
      map_zipWith_left envNames_length fun _ _ => rfl
    have hx := List.mem_map_of_mem (f := fun e : ValidEnv => (e.id, e.vars)) hn
    rw [← hrows] at hx
    obtain ⟨x, hx, he⟩ := List.mem_map.mp hx
    exact ⟨x, List.mem_append_right _ hx, (Prod.mk.inj he).1, (Prod.mk.inj he).2⟩

theorem grown_added (hb : Bundled b) (hpc : pc.Sound) (hc : ¬pc.Clashes b) :
    Added b pc (pc.grown b) := by
  constructor
  case sound        => exact grown_sound hb hpc hc
  case scenarios    => rfl
  case boards       =>
    refine ⟨_, rfl, map_zipWith_left boardNames_length fun _ _ => rfl, fun hsize x hx => ?_⟩
    have hnames : (b.boards.zipWith (fun vb name => (⟨vb.id, name, vb.config, false⟩ : StoredBoard))
        (pc.boardNames b)).map (·.name) = pc.boardNames b :=
      map_zipWith_right boardNames_length fun _ _ => rfl
    have hm : x.name ∈ pc.boardNames b := hnames ▸ List.mem_map_of_mem hx
    refine nameAll_length (by decide) ?_ (by simpa using hsize) _ hm
    intro name hname
    obtain ⟨vb, hvb, rfl⟩ := List.mem_map.mp hname
    exact hb.names vb hvb
  case environments => exact ⟨_, rfl, map_zipWith_left envNames_length fun _ _ => rfl⟩
  case resolves     =>
    intro vb hvb p hp
    obtain ⟨s, hs, hid⟩ := hb.scenarioRefs vb hvb p hp
    refine ⟨⟨s, hs, hid, scenario_grown hc hs⟩, fun eid heid => ?_⟩
    obtain ⟨e, he, hid⟩ := hb.envRefs vb hvb p hp eid heid
    exact ⟨e, he, hid, environment_grown hc he⟩

-- An import never fails halfway: it is refused if and only if the file clashes with the machine,
-- and otherwise it adds what is not there.
theorem importBundle_conflicts (hb : Bundled b) (hpc : pc.Sound) (hc : pc.Clashes b) :
    ∃ boards, pc.importBundle b = .conflicts boards := by
  obtain ⟨boards, hplan⟩ := planAdd_error hb hpc hc
  exact ⟨boards, by simp only [importBundle, hplan]⟩

theorem importBundle_added (hb : Bundled b) (hpc : pc.Sound) (hc : ¬pc.Clashes b) :
    ∃ result, pc.importBundle b = .added (pc.grown b) result := by
  obtain ⟨result, hplan⟩ := planAdd_eq hb hpc hc
  have hgrown {plan : AddPlan} (hp : pc.adding plan = pc.grown b) :
      pc.apply plan = some (pc.grown b) :=
    hp ▸ apply_eq (hp ▸ grown_sound hb hpc hc)
  refine ⟨result, ?_⟩
  simp only [importBundle, hplan]
  rw [hgrown (by simp [adding, grown, List.map_zipWith])]

-- No row is lost or changed.
structure Keeps (pc pc' : Pc) : Prop where
  boards       : pc.boards <+: pc'.boards
  scenarios    : pc.scenarios <+: pc'.scenarios
  environments : pc.environments <+: pc'.environments

namespace Keeps

theorem refl : Keeps pc pc :=
  ⟨List.prefix_rfl, List.prefix_rfl, List.prefix_rfl⟩

theorem trans {pc'' : Pc} (h : Keeps pc pc') (h' : Keeps pc' pc'') : Keeps pc pc'' :=
  ⟨h.boards.trans h'.boards, h.scenarios.trans h'.scenarios, h.environments.trans h'.environments⟩

theorem resolves {p : PanelConfig} (h : Keeps pc pc') (hp : pc.Resolves b p) : pc'.Resolves b p := by
  obtain ⟨⟨s, hs, hid, x, hx, hxs⟩, henv⟩ := hp
  refine ⟨⟨s, hs, hid, x, h.scenarios.subset hx, hxs⟩, fun eid he => ?_⟩
  obtain ⟨e, he, hid, x, hx, hxe⟩ := henv eid he
  exact ⟨e, he, hid, x, h.environments.subset hx, hxe⟩

end Keeps

theorem Added.keeps (h : Added b pc pc') : Keeps pc pc' := by
  obtain ⟨-, ⟨nb, hb, -⟩, hs, ⟨ne, he, -⟩, -⟩ := h
  exact ⟨hb ▸ List.prefix_append _ _, hs ▸ List.prefix_append _ _, he ▸ List.prefix_append _ _⟩

-- A file of which the boards are there clashes.
theorem Added.clashes {pc'' : Pc} (h : Added b pc pc') (hb : Bundled b) (hk : Keeps pc' pc'') :
    pc''.Clashes b := by
  obtain ⟨new, hnew, hrows, -⟩ := h.boards
  obtain ⟨vb, hvb⟩ := List.exists_mem_of_ne_nil _ hb.nonempty
  have hm := List.mem_map_of_mem (f := fun vb : ValidBoard => (vb.id, vb.config, false)) hvb
  rw [← hrows] at hm
  obtain ⟨row, hrow, he⟩ := List.mem_map.mp hm
  have hrow : row ∈ pc'.boards := hnew ▸ List.mem_append_right _ hrow
  exact .inl ⟨vb, hvb, row, hk.boards.subset hrow, (Prod.mk.inj he).1⟩

section Run

variable {lib : BundleLib} {file : BundleIn × (ℕ → ℕ → String)}
  {files before later : List (BundleIn × (ℕ → ℕ → String))}

theorem importFile_of_clashes (h : parseBundle lib file.2 file.1 = .ok b) (hpc : pc.Sound)
    (hc : pc.Clashes b) : pc.importFile lib file = pc := by
  obtain ⟨boards, hconf⟩ := importBundle_conflicts (parseBundle_bundled h) hpc hc
  simp only [importFile, h, hconf]

theorem importFile_of_not_clashes (h : parseBundle lib file.2 file.1 = .ok b) (hpc : pc.Sound)
    (hc : ¬pc.Clashes b) : pc.importFile lib file = pc.grown b := by
  obtain ⟨result, hadd⟩ := importBundle_added (parseBundle_bundled h) hpc hc
  simp only [importFile, h, hadd]

theorem importFile_keeps (hpc : pc.Sound) :
    (pc.importFile lib file).Sound ∧ Keeps pc (pc.importFile lib file) := by
  cases h : parseBundle lib file.2 file.1
  case error e =>
    have hf : pc.importFile lib file = pc := by simp only [importFile, h]
    exact hf.symm ▸ ⟨hpc, .refl⟩
  case ok b =>
    by_cases hc : pc.Clashes b
    case pos => exact (importFile_of_clashes h hpc hc).symm ▸ ⟨hpc, .refl⟩
    case neg =>
      have ha := grown_added (parseBundle_bundled h) hpc hc
      exact (importFile_of_not_clashes h hpc hc).symm ▸ ⟨ha.sound, ha.keeps⟩

theorem imports_keeps (hpc : pc.Sound) :
    (pc.imports lib files).Sound ∧ Keeps pc (pc.imports lib files) := by
  induction files generalizing pc
  case nil => exact ⟨hpc, .refl⟩
  case cons file files ih =>
    obtain ⟨hs, hk⟩ : (pc.importFile lib file).Sound ∧ Keeps pc (pc.importFile lib file) :=
      importFile_keeps hpc
    obtain ⟨hs', hk'⟩ := ih hs
    exact ⟨hs', hk.trans hk'⟩

-- In a run of imports, a file that has been accepted is refused if and only if it clashes with the
-- machine as it is then. Otherwise it is added as a whole, is never added again, and what its
-- panels refer to stays as it is in the file. No import ever fails halfway or touches what was
-- there.
theorem imports_add (hpc : pc.Sound) (h : parseBundle lib file.2 file.1 = .ok b) :
    let pc₁ := pc.imports lib before
    let pc₂ := pc₁.importFile lib file
    let pc₃ := pc₂.imports lib later
    (pc₃.Sound ∧ Keeps pc pc₃) ∧
    (pc₁.Clashes b → (∃ boards, pc₁.importBundle b = .conflicts boards) ∧ pc₂ = pc₁) ∧
    (¬pc₁.Clashes b → (∃ result, pc₁.importBundle b = .added pc₂ result) ∧ Added b pc₁ pc₂ ∧
      pc₃.Clashes b ∧ ∀ vb ∈ b.boards, ∀ p ∈ vb.config.panels, pc₃.Resolves b p) := by
  intro pc₁ pc₂ pc₃
  have hb := parseBundle_bundled h
  obtain ⟨hs₁, hk₁⟩ : pc₁.Sound ∧ Keeps pc pc₁ := imports_keeps hpc
  obtain ⟨hs₂, hk₂⟩ : pc₂.Sound ∧ Keeps pc₁ pc₂ := importFile_keeps hs₁
  obtain ⟨hs₃, hk₃⟩ : pc₃.Sound ∧ Keeps pc₂ pc₃ := imports_keeps hs₂
  refine ⟨⟨hs₃, hk₁.trans (hk₂.trans hk₃)⟩, fun hc => ?_, fun hc => ?_⟩
  case refine_1 => exact ⟨importBundle_conflicts hb hs₁ hc, importFile_of_clashes h hs₁ hc⟩
  case refine_2 =>
    have he : pc₂ = pc₁.grown b := importFile_of_not_clashes h hs₁ hc
    have ha : Added b pc₁ pc₂ := he ▸ grown_added hb hs₁ hc
    exact ⟨he ▸ importBundle_added hb hs₁ hc, ha, ha.clashes hb hk₃,
      fun vb hvb p hp => hk₃.resolves (ha.resolves vb hvb p hp)⟩

def homeLib : BundleLib where
  isUlid          := fun id => id.length = 26
  jsonpathIsValid := fun _ => true
  isCanonicalUlid := fun id => id.length = 26
  fromYaml        := fun _ => .ok ⟨1, "홈", [], true, none, none, []⟩

def homeFile : BundleIn where
  boards       := [⟨"01ARZ3NDEKTSV4RRFFQ69G5FAV", "상황판",
    { panels := [{ id         := "01ARZ3NDEKTSV4RRFFQ69G5FAX"
                   title      := "홈"
                   scenarioId := "01ARZ3NDEKTSV4RRFFQ69G5FAW" }] }⟩]
  scenarios    := [⟨"01ARZ3NDEKTSV4RRFFQ69G5FAW", "version: 1\nname: 홈\nsteps: []\n"⟩]
  environments := []

def homeBundle : ValidBundle where
  boards       := [⟨"01ARZ3NDEKTSV4RRFFQ69G5FAV", "상황판",
    { panels := [{ id         := "01ARZ3NDEKTSV4RRFFQ69G5FAX"
                   title      := "홈"
                   scenarioId := "01ARZ3NDEKTSV4RRFFQ69G5FAW" }] }, []⟩]
  scenarios    := [⟨"01ARZ3NDEKTSV4RRFFQ69G5FAW", "홈", "version: 1\nname: 홈\nsteps: []\n"⟩]
  environments := []

-- The name of the board of the file is taken.
def homePc : Pc where
  boards       := [⟨"01ARZ3NDEKTSV4RRFFQ69G5FAY", "상황판", {}, true⟩]
  scenarios    := []
  environments := []

theorem imports_add_home : homePc.Sound ∧ ¬homePc.Clashes homeBundle ∧
    Added homeBundle homePc (homePc.importFile homeLib (homeFile, fun _ _ => "")) := by
  have hpc : homePc.Sound := by constructor <;> decide
  have hc : ¬homePc.Clashes homeBundle := by
    rintro (⟨vb, hvb, row, hrow, hid⟩ | ⟨s, hs, row, hrow, -⟩ | ⟨e, he, -⟩)
    case inl =>
      obtain rfl := List.mem_singleton.mp hvb
      obtain rfl := List.mem_singleton.mp hrow
      exact absurd hid (by decide)
    case inr.inl => cases hrow
    case inr.inr => cases he
  obtain ⟨-, -, hadds⟩ :=
    @imports_add homeBundle homePc homeLib (homeFile, fun _ _ => "") [] [] hpc rfl
  exact ⟨hpc, hc, (hadds hc).2.1⟩

end Run

end Pc

end Monitor
