import Handicap.Settings.Requests

namespace Settings

variable {cliSeeds : List (String × ℤ)} {d : SettingDef}

-- The value that the database and the command line ask for.
def expected (db : Db) (cliSeeds : List (String × ℤ)) (d : SettingDef) : ℤ :=
  ((loadOverrides db d.key).filter d.inRange).getD (SettingsState.seedFor cliSeeds d)

theorem settings_nodup : (settings.map SettingDef.key).Nodup := by
  decide

theorem findDef_mem {key : String} (h : findDef key = some d) : d ∈ settings ∧ d.key = key := by
  have hm := List.mem_of_find?_eq_some h
  have hp := List.find?_some h
  exact ⟨hm, by simpa using hp⟩

theorem checkHeartbeatPair_isOk {interval stale : ℕ} :
    (checkHeartbeatPair interval stale).isOk ↔ interval < stale := by
  unfold checkHeartbeatPair
  split_ifs
  case pos h => simpa [Except.isOk, Except.toBool] using h
  case neg h => simpa [Except.isOk, Except.toBool] using h

namespace SettingsState

section

variable {o : String → Option ℤ} {s : SettingsState} {values : Table String ℤ} {key : String}

theorem values_addDef : (addDef o cliSeeds s d).snap.values =
    (if d.isMutable then some (((o d.key).filter d.inRange).getD (seedFor cliSeeds d)) else none).elim
      s.snap.values (s.snap.values.insert d.key) := by
  unfold addDef
  cases d.isMutable
  case false => rfl
  case true => cases (o d.key).filter d.inRange <;> rfl

theorem seeds_addDef : (addDef o cliSeeds s d).seeds =
    (if d.isMutable then some (seedFor cliSeeds d) else none).elim s.seeds
      (s.seeds.insert d.key) := by
  unfold addDef
  cases d.isMutable
  case false => rfl
  case true => cases (o d.key).filter d.inRange <;> rfl

theorem seeds_build (hd : d ∈ settings) (hm : d.isMutable) :
    (build o cliSeeds).seeds.lookup d.key = some (seedFor cliSeeds d) :=
  Table.lookup_foldl (F := addDef o cliSeeds) (T := seeds) (fun _ _ => seeds_addDef)
    settings_nodup hd (if_pos hm)

theorem lookup_clampStale_ne (h : key ≠ staleTimeout) :
    (clampStale values).lookup key = values.lookup key := by
  unfold clampStale
  split
  case h_2 => rfl
  case h_1 =>
    split_ifs
    case pos => exact AList.lookup_insert_ne h
    case neg => rfl

theorem lookup_clampStale {interval stale : ℤ} (hi : values.lookup heartbeatInterval = some interval)
    (hs : values.lookup staleTimeout = some stale) : (clampStale values).lookup staleTimeout =
      some (if stale ≤ interval then Int.bmod (interval + 1) (2 ^ 64) else stale) := by
  simp only [clampStale, hi, hs]
  split_ifs
  case pos => exact AList.lookup_insert _
  case neg => exact hs

-- Before the timeout is looked at, every setting has the value that is asked for.
theorem values_foldl (hd : d ∈ settings) (hm : d.isMutable) :
    (settings.foldl (addDef o cliSeeds) s).snap.values.lookup d.key =
      some (((o d.key).filter d.inRange).getD (seedFor cliSeeds d)) :=
  Table.lookup_foldl (F := addDef o cliSeeds) (T := fun s => s.snap.values)
    (fun _ _ => values_addDef) settings_nodup hd (if_pos hm)

end

variable {db : Db} {s : SettingsState} {r : Request} {key : String}

theorem values_build (hd : d ∈ settings) (hm : d.isMutable) (h : d.key ≠ staleTimeout) :
    (build (loadOverrides db) cliSeeds).snap.values.lookup d.key = some (expected db cliSeeds d) :=
  (lookup_clampStale_ne h).trans (values_foldl hd hm)

theorem stale_build :
    (build (loadOverrides db) cliSeeds).snap.values.lookup staleTimeout =
      some (if expected db cliSeeds staleDef ≤ expected db cliSeeds intervalDef then
        Int.bmod (expected db cliSeeds intervalDef + 1) (2 ^ 64)
      else
        expected db cliSeeds staleDef) :=
  lookup_clampStale (values_foldl (d := intervalDef) (by decide) rfl)
    (values_foldl (d := staleDef) (by decide) rfl)

theorem lookup_apply : (r.apply s).snap.values.lookup key =
    if key = r.key then some (r.value s) else s.snap.values.lookup key := by
  cases r
  all_goals
    split_ifs
    case pos h =>
      subst h
      exact AList.lookup_insert _
    case neg h => exact AList.lookup_insert_ne h

theorem seeds_apply : (r.apply s).seeds = s.seeds := by
  cases r <;> rfl

end SettingsState

namespace Request

variable {s : SettingsState} {r : Request}

theorem isOk_bind {x y : Except String Unit} (h : (x >>= fun _ => y).isOk) : x.isOk ∧ y.isOk := by
  cases x
  case error => cases h
  case ok => exact ⟨rfl, h⟩

-- What a request that is not refused has passed.
theorem check_isOk (h : (r.check s).isOk) :
    (∃ d ∈ settings, d.isMutable ∧ d.key = r.key ∧
      ∀ v, r.stored = some (.number v) → d.inRange v) ∧
    (checkPair s r.key (r.value s)).isOk := by
  cases r
  case put key value =>
    have ⟨hv, hp⟩ := isOk_bind h
    refine ⟨?_, hp⟩
    unfold validate at hv
    split at hv
    case h_1 => cases hv
    case h_2 d hd =>
      have ⟨hm, hk⟩ := findDef_mem hd
      split_ifs at hv
      case pos hmut hr =>
        refine ⟨d, hm, hmut, hk, fun v hs => ?_⟩
        cases hs
        exact hr
      all_goals cases hv
  case delete key =>
    simp only [check] at h
    split at h
    case h_1 => cases h
    case h_2 d hd =>
      have ⟨hm, hk⟩ := findDef_mem hd
      split_ifs at h
      case pos hmut => exact ⟨⟨d, hm, hmut, hk, by simp [stored]⟩, h⟩
      case neg => cases h

end Request

namespace Server

-- A request for the key has written the database, and has yet to change the snapshot.
def Underway (s : Server) (key : String) : Prop :=
  ∃ task r, s.handlers.lookup task = some ⟨r, true⟩ ∧ r.key = key

-- The timeout that was raised at the start, as long as no request has changed it.
def Clamped (db : Db) (cliSeeds : List (String × ℤ)) (s : Server) : Prop :=
  staleTimeout ∉ s.applied ∧
    expected db cliSeeds staleDef ≤ expected db cliSeeds intervalDef ∧
    s.state.snap.values.lookup staleTimeout = some (expected db cliSeeds intervalDef + 1)

structure Sound (db : Db) (cliSeeds : List (String × ℤ)) (s : Server) : Prop where
  paired : s.state.poolHeartbeatIntervalSeconds < s.state.poolStaleTimeoutSeconds
  synced : s.handlers.entries = [] → ∀ d ∈ settings, d.isMutable →
    s.state.snap.values.lookup d.key = some (expected s.db cliSeeds d) ∨
      d.key = staleTimeout ∧ s.Clamped db cliSeeds

-- The two settings of the heartbeat, each of which is checked with the other one.
def Opposed (key key' : String) : Prop :=
  key = heartbeatInterval ∧ key' = staleTimeout ∨ key = staleTimeout ∧ key' = heartbeatInterval

-- No request writes a row while another one that has written it is yet to change the snapshot, and
-- none changes a setting of the heartbeat in the snapshot while one for the other setting is
-- underway.
def Orderly (s : Server) : Action → Prop
  | .request _ _   => True
  | .write task ok => ok → ∀ h ∈ s.handlers.lookup task, h.written = false →
    ∀ e ∈ s.handlers.entries, e.2.written → e.2.request.key ≠ h.request.key
  | .apply task    => ∀ h ∈ s.handlers.lookup task, h.written →
    ∀ e ∈ s.handlers.entries, ¬Opposed e.2.request.key h.request.key

-- A request has been checked for a setting that can be changed.
def Valid (h : Handler) : Prop :=
  ∃ d ∈ settings, d.isMutable ∧ d.key = h.request.key ∧
    ∀ v, h.request.stored = some (.number v) → d.inRange v

-- A request still passes its check of the heartbeat, and the row that it has written is still
-- there.
structure Invariant (db : Db) (cliSeeds : List (String × ℤ)) (s : Server) : Prop where
  seeds  : ∀ d ∈ settings, d.isMutable →
    s.state.seeds.lookup d.key = some (SettingsState.seedFor cliSeeds d)
  valid  : ∀ task h, s.handlers.lookup task = some h → Valid h
  passed : ∀ task h, s.handlers.lookup task = some h →
    (Request.checkPair s.state h.request.key (h.request.value s.state)).isOk
  stored : ∀ task h, s.handlers.lookup task = some h → h.written →
    s.db.lookup h.request.key = h.request.stored
  paired : s.state.poolHeartbeatIntervalSeconds < s.state.poolStaleTimeoutSeconds
  synced : ∀ d ∈ settings, d.isMutable → s.Underway d.key ∨
    s.state.snap.values.lookup d.key = some (expected s.db cliSeeds d) ∨
      d.key = staleTimeout ∧ s.Clamped db cliSeeds

-- The seeds of the heartbeat are times.
def Seeded (cliSeeds : List (String × ℤ)) : Prop :=
  ∀ p ∈ cliSeeds, p.1 = heartbeatInterval ∨ p.1 = staleTimeout → 0 ≤ p.2 ∧ p.2 < i64Max

variable {db : Db} {s : Server} {a : Action}

theorem asU64_lt {v w : ℤ} (hv : 0 ≤ v) (hw : w ≤ i64Max) (h : v < w) : asU64 v < asU64 w := by
  unfold asU64 i64Max at *
  rw [Int.emod_eq_of_lt hv (by omega), Int.emod_eq_of_lt (by omega) (by omega)]
  omega

theorem seedFor_bounds (h : Seeded cliSeeds) (hd : d = intervalDef ∨ d = staleDef) :
    0 ≤ SettingsState.seedFor cliSeeds d ∧ SettingsState.seedFor cliSeeds d < i64Max := by
  unfold SettingsState.seedFor
  cases hf : cliSeeds.find? (·.1 = d.key)
  case none => cases hd <;> subst d <;> decide
  case some p =>
    have hk : p.1 = d.key := by simpa using List.find?_some hf
    refine h p (List.mem_of_find?_eq_some hf) (hd.imp ?_ ?_)
    all_goals
      intro he
      rw [hk, he]
      rfl

theorem expected_bounds (h : Seeded cliSeeds) (hd : d = intervalDef ∨ d = staleDef) :
    0 ≤ expected db cliSeeds d ∧ expected db cliSeeds d < i64Max := by
  unfold expected
  cases hf : (loadOverrides db d.key).filter d.inRange
  case none => exact seedFor_bounds h hd
  case some v =>
    have hr : d.inRange v := (Option.filter_eq_some_iff.mp hf).right
    have ⟨hmin, hmax⟩ := Bool.and_eq_true_iff.mp hr
    have hmin := of_decide_eq_true hmin
    have hmax := of_decide_eq_true hmax
    have hb : 0 ≤ d.min ∧ d.max < i64Max := by cases hd <;> subst d <;> decide
    exact ⟨hb.left.trans hmin, hmax.trans_lt hb.right⟩

theorem start_invariant (h : Seeded cliSeeds) : (start db cliSeeds).Invariant db cliSeeds := by
  have hb {d : SettingDef} (hd : d = intervalDef ∨ d = staleDef) :
    0 ≤ expected db cliSeeds d ∧ expected db cliSeeds d < i64Max := expected_bounds h hd
  have ⟨hi, hi'⟩ := hb (.inl rfl)
  have ⟨hs, hs'⟩ := hb (.inr rfl)
  have hstale : (start db cliSeeds).state.snap.values.lookup staleTimeout = some _ :=
    SettingsState.stale_build
  have hmod : Int.bmod (expected db cliSeeds intervalDef + 1) (2 ^ 64) =
      expected db cliSeeds intervalDef + 1 := by
    unfold i64Max at hi'
    exact Int.bmod_eq_of_le_mul_two (by omega) (by omega)
  rw [hmod] at hstale
  have hinterval : (start db cliSeeds).state.snap.values.lookup heartbeatInterval =
    some (expected db cliSeeds intervalDef) :=
      SettingsState.values_build (d := intervalDef) (by decide) rfl (by decide)
  refine ⟨fun d => SettingsState.seeds_build, fun task h hl => (by cases hl),
    fun task h hl => (by cases hl), fun task h hl => (by cases hl), ?paired,
    fun d hd hm => .inr ?synced⟩
  case paired =>
    rw [SettingsState.poolHeartbeatIntervalSeconds, SettingsState.poolStaleTimeoutSeconds,
      SettingsState.get, SettingsState.get, hinterval, hstale]
    simp only [Option.getD_some]
    split_ifs
    case pos hle => exact asU64_lt hi (by omega) (by omega)
    case neg hlt => exact asU64_lt hi (by omega) (by omega)
  case synced =>
    cases Decidable.em (d.key = staleTimeout)
    case inr hk => exact .inl (SettingsState.values_build hd hm hk)
    case inl hk =>
      have he : d = staleDef := List.inj_on_of_nodup_map settings_nodup hd (by decide) hk
      subst he
      split_ifs at hstale
      case pos hle => exact .inr ⟨rfl, by simp [start], hle, hstale⟩
      case neg => exact .inl hstale

namespace Invariant

variable {task : ℕ} {r : Request} {h : Handler} {key : String}

-- Who is underway stays so while another task goes on.
theorem underway_insert (hu : s.Underway key)
    (hn : ∀ r, s.handlers.lookup task ≠ some ⟨r, true⟩) :
    { s with handlers := s.handlers.insert task h }.Underway key := by
  have ⟨task', r, hl, hk⟩ := hu
  have hne : task' ≠ task := fun he => hn r (he ▸ hl)
  exact ⟨task', r, (AList.lookup_insert_ne hne).trans hl, hk⟩

theorem underway_erase (hu : s.Underway key)
    (hn : ∀ r, s.handlers.lookup task = some ⟨r, true⟩ → r.key ≠ key) :
    { s with handlers := s.handlers.erase task }.Underway key := by
  have ⟨task', r, hl, hk⟩ := hu
  have hne : task' ≠ task := fun he => hn r (he ▸ hl) hk
  exact ⟨task', r, (AList.lookup_erase_ne hne).trans hl, hk⟩

theorem forall_insert {P : Handler → Prop} {h' : Handler} {task' : ℕ}
    (hs : ∀ task h, s.handlers.lookup task = some h → task ≠ task' → P h) (hn : P h') (task : ℕ)
    (h : Handler) (hl : (s.handlers.insert task' h').lookup task = some h) : P h := by
  cases Decidable.em (task = task')
  case inl he =>
    subst he
    rw [AList.lookup_insert] at hl
    cases hl
    exact hn
  case inr he =>
    rw [AList.lookup_insert_ne he] at hl
    exact hs task h hl he

theorem forall_erase {P : Handler → Prop} {task' : ℕ}
    (hs : ∀ task h, s.handlers.lookup task = some h → task ≠ task' → P h) (task : ℕ) (h : Handler)
    (hl : (s.handlers.erase task').lookup task = some h) : P h := by
  cases Decidable.em (task = task')
  case inl he =>
    subst he
    rw [AList.lookup_erase] at hl
    cases hl
  case inr he =>
    rw [AList.lookup_erase_ne he] at hl
    exact hs task h hl he

theorem request (i : s.Invariant db cliSeeds) (hn : task ∉ s.handlers)
    (hr : (r.check s.state).isOk) :
    { s with handlers := s.handlers.insert task ⟨r, false⟩ }.Invariant db cliSeeds := by
  have ⟨hv, hc⟩ := Request.check_isOk hr
  refine ⟨i.seeds, forall_insert (fun task h hl _ => i.valid task h hl) hv,
    forall_insert (fun task h hl _ => i.passed task h hl) hc,
    forall_insert (fun task h hl _ => i.stored task h hl) (by simp), i.paired,
    fun d hd hm => (i.synced d hd hm).imp_left fun hu => underway_insert hu fun r hl => ?_⟩
  exact absurd hl (by simp [AList.lookup_eq_none.mpr hn])

theorem lookup_write (r : Request) (db : Db) (key : String) :
    (r.write db).lookup key = if key = r.key then r.stored else db.lookup key := by
  cases r
  case put key' value =>
    split_ifs
    case pos h => exact h ▸ AList.lookup_insert _
    case neg h => exact AList.lookup_insert_ne h
  case delete key' =>
    split_ifs
    case pos h => exact h ▸ AList.lookup_erase _ _
    case neg h => exact AList.lookup_erase_ne h

theorem expected_write {d : SettingDef} (h : d.key ≠ r.key) :
    expected (r.write s.db) cliSeeds d = expected s.db cliSeeds d := by
  unfold expected loadOverrides
  rw [lookup_write, if_neg h]

theorem write (i : s.Invariant db cliSeeds) (hl : s.handlers.lookup task = some ⟨r, false⟩)
    (ho : s.Orderly (.write task true)) :
    { s with db := r.write s.db, handlers := s.handlers.insert task ⟨r, true⟩ }.Invariant
      db cliSeeds := by
  refine ⟨i.seeds, forall_insert (fun task h hl _ => i.valid task h hl) (i.valid task ⟨r, false⟩ hl),
    forall_insert (fun task h hl _ => i.passed task h hl) (i.passed task ⟨r, false⟩ hl),
    forall_insert (fun task' h hl' _ hw => ?_) fun _ => ?_, i.paired, fun d hd hm => ?_⟩
  -- Nobody else has written the row.
  case refine_1 =>
    have hk := ho rfl _ hl rfl ⟨task', h⟩ (AList.mem_lookup_iff.mp hl') hw
    rw [lookup_write, if_neg hk]
    exact i.stored task' h hl' hw
  case refine_2 => rw [lookup_write, if_pos rfl]
  cases Decidable.em (d.key = r.key)
  case inl he => exact .inl ⟨task, r, AList.lookup_insert _, he.symm⟩
  case inr he =>
    refine (i.synced d hd hm).imp (fun hu => underway_insert hu fun r' hl' => ?_) ?_
    case refine_1 =>
      rw [hl] at hl'
      cases hl'
    case refine_2 => exact Or.imp_left fun hv => hv.trans (congrArg some (expected_write he).symm)

theorem fail (i : s.Invariant db cliSeeds) (hl : s.handlers.lookup task = some ⟨r, false⟩) :
    { s with handlers := s.handlers.erase task }.Invariant db cliSeeds := by
  refine ⟨i.seeds, forall_erase fun task h hl _ => i.valid task h hl,
    forall_erase fun task h hl _ => i.passed task h hl,
    forall_erase fun task h hl _ => i.stored task h hl, i.paired,
    fun d hd hm => (i.synced d hd hm).imp_left fun hu => underway_erase hu fun r' hl' => ?_⟩
  rw [hl] at hl'
  cases hl'

-- The value that a request puts into force is the one the database asks for.
theorem expected_stored {d : SettingDef} (i : s.Invariant db cliSeeds)
    (hl : s.handlers.lookup task = some ⟨r, true⟩) (hd : d ∈ settings) (hm : d.isMutable)
    (hk : d.key = r.key) : expected s.db cliSeeds d = r.value s.state := by
  have hs : s.db.lookup r.key = r.stored := i.stored task _ hl rfl
  have ⟨d', hd', _, hk', hr⟩ := i.valid task _ hl
  have he : d = d' := List.inj_on_of_nodup_map settings_nodup hd hd' (hk.trans hk'.symm)
  subst he
  unfold expected loadOverrides
  rw [hk, hs]
  cases r
  case put key value =>
    have hf : (some value).filter d.inRange = some value := Option.filter_some_pos (hr value rfl)
    simp [Request.stored, Request.value, hf]
  case delete key =>
    have hseed : s.state.seeds.lookup key = _ := hk ▸ i.seeds d hd hm
    simp [Request.stored, Request.value, SettingsState.seedOf, hseed]

theorem paired_apply (hc : (Request.checkPair s.state r.key (r.value s.state)).isOk)
    (hp : s.state.poolHeartbeatIntervalSeconds < s.state.poolStaleTimeoutSeconds) :
    (r.apply s.state).poolHeartbeatIntervalSeconds < (r.apply s.state).poolStaleTimeoutSeconds := by
  have hne : heartbeatInterval ≠ staleTimeout := by decide
  unfold SettingsState.poolHeartbeatIntervalSeconds SettingsState.poolStaleTimeoutSeconds
    SettingsState.get at *
  rw [SettingsState.lookup_apply, SettingsState.lookup_apply]
  unfold Request.checkPair SettingsState.poolHeartbeatIntervalSeconds
    SettingsState.poolStaleTimeoutSeconds SettingsState.get at hc
  cases Decidable.em (r.key = heartbeatInterval)
  case inl hi =>
    rw [if_pos hi, checkHeartbeatPair_isOk] at hc
    rw [if_pos hi.symm, if_neg fun h => hne (hi.symm.trans h.symm)]
    exact hc
  case inr hi =>
    rw [if_neg hi] at hc
    rw [if_neg fun h => hi h.symm]
    cases Decidable.em (r.key = staleTimeout)
    case inl hs =>
      rw [if_pos hs, checkHeartbeatPair_isOk] at hc
      rw [if_pos hs.symm]
      exact hc
    case inr hs =>
      rw [if_neg fun h => hs h.symm]
      exact hp

-- A check of the heartbeat holds as long as the other setting is not changed.
theorem passed_apply {r' : Request} (ho : ¬Opposed r'.key r.key)
    (hc : (Request.checkPair s.state r'.key (r'.value s.state)).isOk) :
    (Request.checkPair (r.apply s.state) r'.key (r'.value (r.apply s.state))).isOk := by
  have hv : r'.value (r.apply s.state) = r'.value s.state := by
    cases r'
    case put => rfl
    case delete => simp only [Request.value, SettingsState.seedOf, SettingsState.seeds_apply]
  have ⟨hi, hs⟩ := not_or.mp ho
  rw [hv]
  unfold Request.checkPair SettingsState.poolStaleTimeoutSeconds
    SettingsState.poolHeartbeatIntervalSeconds SettingsState.get at hc ⊢
  rw [SettingsState.lookup_apply, SettingsState.lookup_apply]
  cases Decidable.em (r'.key = heartbeatInterval)
  case inl hk =>
    have hne : staleTimeout ≠ r.key := fun h => hi ⟨hk, h.symm⟩
    rw [if_pos hk] at hc ⊢
    rw [if_neg hne]
    exact hc
  case inr hk =>
    rw [if_neg hk] at hc ⊢
    cases Decidable.em (r'.key = staleTimeout)
    case inl hk' =>
      have hne : heartbeatInterval ≠ r.key := fun h => hs ⟨hk', h.symm⟩
      rw [if_pos hk'] at hc ⊢
      rw [if_neg hne]
      exact hc
    case inr hk' =>
      rw [if_neg hk']
      rfl

theorem apply (i : s.Invariant db cliSeeds) (hl : s.handlers.lookup task = some ⟨r, true⟩)
    (ho : s.Orderly (.apply task)) :
    { s with
      state    := r.apply s.state
      handlers := s.handlers.erase task
      applied  := s.applied ++ [r.key] }.Invariant db cliSeeds := by
  have hseeds : (r.apply s.state).seeds = s.state.seeds := SettingsState.seeds_apply
  have hstored (task') (h : Handler) (hl' : s.handlers.lookup task' = some h) (_ : task' ≠ task) :=
    passed_apply (ho _ hl rfl ⟨task', h⟩ (AList.mem_lookup_iff.mp hl')) (i.passed task' h hl')
  refine ⟨fun d hd hm => hseeds ▸ i.seeds d hd hm, forall_erase fun task h hl _ => i.valid task h hl,
    forall_erase hstored, forall_erase fun task h hl _ => i.stored task h hl,
    paired_apply (i.passed task _ hl) i.paired, fun d hd hm => ?_⟩
  cases Decidable.em (d.key = r.key)
  case inl hk =>
    refine .inr (.inl ?_)
    rw [SettingsState.lookup_apply, if_pos hk, i.expected_stored hl hd hm hk]
  case inr hk =>
    have hv : (r.apply s.state).snap.values.lookup d.key = s.state.snap.values.lookup d.key := by
      rw [SettingsState.lookup_apply, if_neg hk]
    refine (i.synced d hd hm).imp (fun hu => underway_erase hu fun r' hl' hk' => ?_) (Or.imp ?_ ?_)
    case refine_1 =>
      rw [hl] at hl'
      cases hl'
      exact hk hk'.symm
    case refine_2 => exact hv.trans
    case refine_3 =>
      rintro ⟨he, hn, hle, hv'⟩
      refine ⟨he, ?_, hle, he ▸ hv.trans (he ▸ hv')⟩
      simpa using ⟨hn, fun h => hk (he.trans h)⟩

theorem step (i : s.Invariant db cliSeeds) (ho : s.Orderly a) :
    (s.step a).Invariant db cliSeeds := by
  cases a
  case request task r =>
    simp only [Server.step]
    split_ifs
    case pos => exact i
    case neg h =>
      have ⟨hn, hr⟩ := not_or.mp h
      exact i.request hn (not_not.mp hr)
  case write task ok =>
    simp only [Server.step]
    split
    case h_1 r hl =>
      cases ok
      case true  => exact i.write hl ho
      case false => exact i.fail hl
    case h_2 => exact i
  case apply task =>
    simp only [Server.step]
    split
    case h_1 r hl => exact i.apply hl ho
    case h_2 => exact i

end Invariant

-- In every run in which requests that write the same row, or change the two settings of the
-- heartbeat, do not get in each other's way, the timeout stays above the interval, and the snapshot
-- is what the database asks for whenever no request is underway.
theorem settings_sound (db : Db) (cliSeeds : List (String × ℤ)) (actions : List Action)
    (hs : Seeded cliSeeds) (h : Trace.Meets step Orderly (start db cliSeeds) actions) :
    (run db cliSeeds actions).Sound db cliSeeds := by
  have i : (run db cliSeeds actions).Invariant db cliSeeds :=
    h.invariant (start_invariant hs) fun _ _ i ho => i.step ho
  refine ⟨i.paired, fun he d hd hm => (i.synced d hd hm).resolve_left ?_⟩
  rintro ⟨task, r, hl, _⟩
  rw [AList.lookup, he] at hl
  cases hl

instance (key key' : String) : Decidable (Opposed key key') :=
  inferInstanceAs (Decidable (_ ∨ _))

instance : DecidablePred s.Orderly
  | .request _ _ => inferInstanceAs (Decidable True)
  | .write _ ok  =>
    inferInstanceAs (Decidable (ok → ∀ h ∈ s.handlers.lookup _, _ → ∀ e ∈ s.handlers.entries, _))
  | .apply _     =>
    inferInstanceAs (Decidable (∀ h ∈ s.handlers.lookup _, _ → ∀ e ∈ s.handlers.entries, _))

-- Requests that overlap, the first two of them for the same setting.
theorem settings_sound_put :
    let s := run ∅ []
      [.request 0 (.put staleTimeout 60), .request 1 (.put staleTimeout 50),
        .request 2 (.put "max_data_bindings" 9), .write 2 true, .write 0 true, .apply 0,
        .write 1 true, .apply 1, .request 0 (.put heartbeatInterval 40), .write 0 true, .apply 2,
        .apply 0, .request 0 (.delete heartbeatInterval), .write 0 false]
    s.state.poolHeartbeatIntervalSeconds = 40 ∧ s.state.poolStaleTimeoutSeconds = 50 ∧
      s.Sound ∅ [] :=
  ⟨by decide, by decide, settings_sound ∅ [] _ (by simp [Seeded]) (by decide)⟩

-- The timeout that the database asks for is not above the interval of the command line. Each of two
-- requests passes its check before the other one changes the snapshot. Two requests change the
-- snapshot in another order than the database.
theorem settings_sound_counterexample :
    (let s := start (AList.singleton staleTimeout (.number 20)) [(heartbeatInterval, 25)]
     s.handlers.entries = [] ∧ loadOverrides s.db staleTimeout = some 20 ∧
       s.state.snap.values.lookup staleTimeout = some 26) ∧
    (let s := run ∅ []
      [.request 0 (.put heartbeatInterval 25), .request 1 (.put staleTimeout 20), .write 0 true,
        .write 1 true, .apply 0, .apply 1]
     s.state.poolStaleTimeoutSeconds < s.state.poolHeartbeatIntervalSeconds) ∧
    (let s := run ∅ []
      [.request 0 (.put "max_data_bindings" 9), .request 1 (.put "max_data_bindings" 10),
        .write 0 true, .write 1 true, .apply 1, .apply 0]
     s.handlers.entries = [] ∧ loadOverrides s.db "max_data_bindings" = some 10 ∧
       s.state.get "max_data_bindings" = 9) := by
  decide

end Server

end Settings
