import Handicap.Monitor.Theorems.Config
import Handicap.Monitor.Transfer
import Handicap.Store.Theorems.Upload

open Guard Renaming

-- What an import is planned from: new names, what the machine has, and a file that has been
-- accepted.
namespace Monitor

section Names

variable {base kind : String} {taken bases : List String} {maxChars : Option ℕ} {n : ℕ}

-- The number of a name can be read off its end.
theorem numberedName_injective : Function.Injective (numberedName base maxChars) := by
  have hl (k : ℕ) : ∃ l, (numberedName base maxChars k).toList.reverse =
      ')' :: ((toString k).toList.reverse ++ '(' :: l) := by
    have hc : (toString ")").toList.reverse = [')'] := rfl
    have ho : (toString " (").toList.reverse = ['(', ' '] := rfl
    simp only [numberedName, String.toList_append, List.reverse_append, hc, ho, List.append_assoc,
      List.cons_append, List.nil_append, List.cons.injEq, true_and]
    exact ⟨_, rfl⟩
  have hd (k : ℕ) : '(' ∉ (toString k).toList.reverse := by
    intro hm
    have hk : '(' ∈ Nat.toDigits 10 k := by simpa using hm
    exact absurd (Nat.isDigit_of_mem_toDigits (by decide) (by decide) hk) (by decide)
  intro m n h
  obtain ⟨l, hm⟩ := hl m
  obtain ⟨l', hn⟩ := hl n
  rw [h, hn] at hm
  have hcm := Text.cut_one.mpr ⟨(List.cons.inj hm).right, hd m⟩
  have hcn := (Text.cut_one (b := l')).mpr ⟨rfl, hd n⟩
  have he := (Prod.mk.inj (Option.some.inj (hcm.symm.trans hcn))).left
  exact Store.toString_injective (List.reverse_injective he)

theorem numberedName_length {max : ℕ} (h : 40 ≤ max) (hn : n < 10 ^ 37) :
    (numberedName base (some max) n).length ≤ max := by
  have hl : (toString n).length ≤ 37 := by
    rw [← String.length_toList]
    simpa using (Nat.length_toDigits_le_iff (b := 10) (by decide) (by decide)).mpr hn
  have hs : s!" ({n})".length = (toString n).length + 3 := by
    have ho : (toString " (").length = 2 := rfl
    have hc : (toString ")").length = 1 := rfl
    rw [String.length_append, String.length_append, ho, hc]
    omega
  simp only [numberedName, String.length_append, String.length_ofList, List.length_take, hs]
  omega

theorem uniqueName_spec : uniqueName base taken maxChars ∉ taken ∧
    (uniqueName base taken maxChars = base ∨
      ∃ n < taken.length + 3, uniqueName base taken maxChars = numberedName base maxChars n) := by
  unfold uniqueName
  split
  case isTrue h  => exact ⟨h, .inl rfl⟩
  case isFalse h =>
    obtain ⟨m, hm, hf, hfree⟩ := firstFree_spec (exists_free numberedName_injective taken 2)
    rw [hf]
    exact ⟨hfree, .inr ⟨m, by omega, rfl⟩⟩

-- The names are new and distinct.
theorem nameAll_spec : (nameAll kind maxChars taken bases).1.length = bases.length ∧
    (nameAll kind maxChars taken bases).1.Nodup ∧
    ∀ name ∈ (nameAll kind maxChars taken bases).1, name ∉ taken := by
  induction bases generalizing taken
  case nil => simp [nameAll]
  case cons base bases ih =>
    obtain ⟨hl, hn, hf⟩ := @ih (uniqueName base taken maxChars :: taken)
    refine ⟨by simp [nameAll, hl], ?_, ?_⟩
    case refine_1 => exact List.nodup_cons.mpr ⟨fun hm => hf _ hm List.mem_cons_self, hn⟩
    case refine_2 =>
      intro name hm
      cases List.mem_cons.mp hm
      case inl he => exact he ▸ uniqueName_spec.left
      case inr hm => exact fun ht => hf name hm (List.mem_cons_of_mem _ ht)

theorem nameAll_length {max : ℕ} (hmax : 40 ≤ max) (hb : ∀ base ∈ bases, base.length ≤ max)
    (ht : taken.length + bases.length + 3 ≤ 10 ^ 37) :
    ∀ name ∈ (nameAll kind (some max) taken bases).1, name.length ≤ max := by
  induction bases generalizing taken
  case nil => simp [nameAll]
  case cons base bases ih =>
    rw [List.length_cons] at ht
    intro name hm
    cases List.mem_cons.mp hm
    case inl he =>
      obtain ⟨-, hu | ⟨n, hn, hu⟩⟩ := @uniqueName_spec base taken (some max)
      case inl => exact he ▸ hu.symm ▸ hb base List.mem_cons_self
      case inr => exact he ▸ hu.symm ▸ numberedName_length hmax (by omega)
    case inr hm =>
      exact ih (fun base h => hb base (List.mem_cons_of_mem _ h)) (by simp; omega) name hm

end Names

section Infos

variable {info : String → Option ResourceInfo} {ids : List String} {infos : List ResourceInfo}
  {r : ResourceInfo} {id : String} {st : ResState}

-- What is collected is what is known of the ids.
theorem mem_foldl_addInfo (hi : ∀ id r, info id = some r → r.id = id)
    (h : ∀ r ∈ infos, info r.id = some r) :
    r ∈ ids.foldl (addInfo info) infos ↔ r ∈ infos ∨ ∃ id ∈ ids, info id = some r := by
  induction ids generalizing infos
  case nil => simp
  case cons id ids ih =>
    have hstep : ∀ r, r ∈ addInfo info infos id ↔ r ∈ infos ∨ info id = some r := by
      intro r
      unfold addInfo
      split
      case isTrue ha =>
        obtain ⟨r', hm, he⟩ := List.any_eq_true.mp ha
        have he : r'.id = id := of_decide_eq_true he
        constructor
        case mp => exact .inl
        case mpr =>
          rintro (hm' | hr)
          case inl => exact hm'
          case inr =>
            have := h r' hm
            rw [he, hr] at this
            exact Option.some.inj this ▸ hm
      case isFalse => simp
    have hnext : ∀ r ∈ addInfo info infos id, info r.id = some r := by
      intro r hr
      obtain hm | hr := (hstep r).mp hr
      case inl => exact h r hm
      case inr => rw [hi id r hr, hr]
    rw [List.foldl_cons, ih hnext, hstep, List.exists_mem_cons_iff, or_assoc]

theorem lookup_states (h : ∀ r ∈ infos, info r.id = some r) :
    (states infos).lookup id = some st ↔ ∃ r ∈ infos, r.id = id ∧ r.state = st := by
  induction infos using List.reverseRecOn
  case nil => simp [states]
  case append_singleton infos r ih =>
    have ih := ih fun r' hm => h r' (List.mem_append_left _ hm)
    have hs : states (infos ++ [r]) = (states infos).insert r.id r.state := by
      simp [states]
    by_cases he : r.id = id
    case pos =>
      subst he
      rw [hs, AList.lookup_insert]
      constructor
      case mp  => exact fun hst => ⟨r, by simp, rfl, Option.some.inj hst⟩
      case mpr =>
        rintro ⟨r', hm, hid, rfl⟩
        have hr  := h r (by simp)
        have hr' := h r' hm
        rw [hid, hr] at hr'
        rw [Option.some.inj hr']
    case neg =>
      rw [hs, AList.lookup_insert_ne (Ne.symm he), ih]
      constructor
      case mp =>
        rintro ⟨r', hm, hid⟩
        exact ⟨r', by simp [hm], hid⟩
      case mpr =>
        rintro ⟨r', hm, hid, hst⟩
        obtain hm | hm := List.mem_append.mp hm
        case inl => exact ⟨r', hm, hid, hst⟩
        case inr => exact absurd (List.mem_singleton.mp hm ▸ hid) he

end Infos

section Analysis

variable {b : ValidBundle} {pc : PcSnapshot} {vb : ValidBoard} {r : ResourceInfo} {id : String}

theorem scenarioInfo_id {r} (h : scenarioInfo b pc id = some r) : r.id = id := by
  obtain ⟨s, hs, rfl⟩ := Option.map_eq_some_iff.mp h
  simpa using List.find?_some hs

theorem envInfo_id {r} (h : envInfo b pc id = some r) : r.id = id := by
  obtain ⟨e, he, rfl⟩ := Option.map_eq_some_iff.mp h
  simpa using List.find?_some he

theorem mem_scenarios : r ∈ (analyzeBoard b pc vb).scenarios ↔
    ∃ p ∈ vb.config.panels, scenarioInfo b pc p.scenarioId = some r := by
  have hf : (analyzeBoard b pc vb).scenarios =
      (vb.config.panels.map (·.scenarioId)).foldl (addInfo (scenarioInfo b pc)) [] := by
    rw [List.foldl_map]
    rfl
  rw [hf, mem_foldl_addInfo (fun _ _ => scenarioInfo_id) (by simp)]
  simp

theorem mem_environments : r ∈ (analyzeBoard b pc vb).environments ↔
    ∃ p ∈ vb.config.panels, ∃ eid ∈ p.environmentId, envInfo b pc eid = some r := by
  have hf : (analyzeBoard b pc vb).environments =
      (vb.config.panels.filterMap (·.environmentId)).foldl (addInfo (envInfo b pc)) [] := by
    rw [List.foldl_filterMap]
    change vb.config.panels.foldl (addEnvironment b pc) [] = _
    refine congrArg (vb.config.panels.foldl · []) (funext fun infos => funext fun p => ?_)
    unfold addEnvironment
    cases p.environmentId <;> rfl
  rw [hf, mem_foldl_addInfo (fun _ _ => envInfo_id) (by simp)]
  simp only [List.not_mem_nil, false_or, List.mem_filterMap]
  constructor
  case mp =>
    rintro ⟨eid, ⟨p, hp, he⟩, hr⟩
    exact ⟨p, hp, eid, he, hr⟩
  case mpr =>
    rintro ⟨p, hp, eid, he, hr⟩
    exact ⟨eid, ⟨p, hp, he⟩, hr⟩

end Analysis

-- What holds of a file that has been accepted: its ids are distinct, everything that its panels
-- refer to is there, and everything that is there is referred to.
structure Bundled (b : ValidBundle) : Prop where
  nonempty      : b.boards ≠ []
  boardIds      : (b.boards.map (·.id)).Nodup
  scenarioIds   : (b.scenarios.map (·.id)).Nodup
  envIds        : (b.environments.map (·.id)).Nodup
  names         : ∀ vb ∈ b.boards, vb.name.length ≤ nameMaxChars
  scenarioRefs  : ∀ vb ∈ b.boards, ∀ p ∈ vb.config.panels, ∃ s ∈ b.scenarios, s.id = p.scenarioId
  envRefs       : ∀ vb ∈ b.boards, ∀ p ∈ vb.config.panels, ∀ eid ∈ p.environmentId,
    ∃ e ∈ b.environments, e.id = eid
  scenariosUsed : ∀ s ∈ b.scenarios, ∃ vb ∈ b.boards, ∃ p ∈ vb.config.panels, p.scenarioId = s.id
  envsUsed      : ∀ e ∈ b.environments, ∃ vb ∈ b.boards, ∃ p ∈ vb.config.panels,
    p.environmentId = some e.id

section Parsing

variable {lib : ConfigLib} {new : ℕ → String} {name name' : String} {cfg cfg' : BoardConfig}
  {p : PanelConfig}

def PanelConfig.refs (p : PanelConfig) : String × Option String :=
  (p.scenarioId, p.environmentId)

-- Once the panels of the groups have been made the same as their groups, the checks of a board do
-- not change what its panels refer to.
theorem validate_refs
    (h : validateAndNormalize lib new name (applyGroupMirror cfg) = .ok (name', cfg')) :
    cfg'.panels.map (·.refs) = (applyGroupMirror cfg).panels.map (·.refs) := by
  have hids := validate_groupIds h
  rw [validate_groups h] at hids
  obtain ⟨-, -, -, -, -, panels, hv, -, -, -, rfl⟩ := Iff.mp validateAndNormalize_eq_ok h
  refine (each_map hv fun n p p' hp => ?_).trans ?_
  case refine_1 =>
    obtain ⟨-, id, -, -, cs, -, ds, -, rfl⟩ := validatePanel_eq_ok.mp (inPanel_eq_ok.mp hp)
    rfl
  case refine_2 =>
    rw [normalizePanels_eq, List.map_map]
    refine List.map_congr_left fun p hp => ?_
    have hb (q : PanelConfig) : (normalizeStepPanel q).refs = q.refs := by
      unfold normalizeStepPanel
      cases q.stepId <;> rfl
    rw [Function.comp_apply, normalizePanel, hb]
    cases hg : (applyGroupMirror cfg).sortGroups.groupOf p
    case none => rfl
    case some g =>
      obtain ⟨hm, hid⟩ := (groupOf_eq_some_iff hids).mp hg
      obtain ⟨p₀, -, rfl⟩ := List.mem_map.mp hp
      have hperm : (applyGroupMirror cfg).sortGroups.groups.Perm cfg.groups := sortGroups_perm
      have hg₀ : g ∈ cfg.groups := hperm.mem_iff.mp hm
      cases h₀ : cfg.groupOf p₀
      case none =>
        rw [h₀] at hid
        rw [BoardConfig.groupOf, show p₀.groupId = some g.id from hid] at h₀
        simpa using List.find?_eq_none.mp h₀ g hg₀
      case some g₀ =>
        obtain ⟨gid, hp₀, hf⟩ := Option.bind_eq_some_iff.mp h₀
        rw [h₀] at hid
        have hgid : g₀.id = gid := by simpa using List.find?_some hf
        have hid : g.id = g₀.id := by
          rw [hgid]
          exact Option.some.inj ((show p₀.groupId = some g.id from hid).symm.trans hp₀)
        have hm₀ := hperm.mem_iff.mpr (List.mem_of_find?_eq_some hf)
        obtain rfl := List.inj_on_of_nodup_map hids hm hm₀ hid
        rfl

theorem refuseSome_eq_ok {x : Option String} {u : Unit} : refuseSome x = .ok u ↔ x = none := by
  cases x <;> simp [refuseSome]

theorem each_distinct {group : String} {pre ids : List String} {us : List Unit} (hn : pre.Nodup)
    (h : each (fun i id => refuse (id ∈ (pre ++ ids).take i)
      s!"ID가 중복되었습니다: {group}[{i}].id") pre.length ids = .ok us) : (pre ++ ids).Nodup := by
  induction ids generalizing pre us
  case nil => simpa using hn
  case cons id ids ih =>
    obtain ⟨u, hu, us', hus, -⟩ := each_cons_eq_ok.mp h
    have hid : id ∉ pre := by simpa using refuse_eq_ok.mp hu
    have hpre : (pre ++ [id]).Nodup := List.nodup_append.mpr
      ⟨hn, List.nodup_singleton id, fun a ha b hb he => hid (List.mem_singleton.mp hb ▸ he ▸ ha)⟩
    have := @ih (pre ++ [id]) us' hpre (by simpa using hus)
    simpa using this

theorem checkDistinct_nodup {group : String} {ids : List String} {u : Unit}
    (h : checkDistinct group ids = .ok u) : ids.Nodup := by
  obtain ⟨us, h, -⟩ := bind_eq_ok.mp h
  exact @each_distinct group [] ids us List.nodup_nil h

theorem checkRefs_spec {scenarioIds envIds : List String} {name : String} {cfg : BoardConfig}
    {u : Unit} (h : checkRefs scenarioIds envIds name cfg = .ok u) :
    ∀ p ∈ cfg.panels, p.scenarioId ∈ scenarioIds ∧ ∀ e ∈ p.environmentId, e ∈ envIds := by
  obtain ⟨us, h, -⟩ := bind_eq_ok.mp h
  intro p hp
  obtain ⟨n, u, hu⟩ := each_of_mem h hp
  obtain ⟨hs, he⟩ := seq_eq_ok.mp hu
  have hs := refuse_eq_ok.mp hs
  have he := refuse_eq_ok.mp he
  push Not at hs he
  exact ⟨hs, he⟩

theorem parseScenario_id {lib : BundleLib} {s : ScenarioIn} {v : ValidScenario × List String}
    (h : parseScenario lib s = .ok v) : v.1.id = s.id := by
  unfold parseScenario at h
  split at h
  case h_1 => cases h
  case h_2 => cases h
  case h_3 =>
    obtain ⟨_, -, h⟩ := bind_eq_ok.mp h
    obtain ⟨_, -, h⟩ := bind_eq_ok.mp h
    exact Except.ok.inj h ▸ rfl

theorem parseEnv_id {e : EnvIn} {v : ValidEnv} (h : parseEnv e = .ok v) : v.id = e.id := by
  obtain ⟨-, h⟩ := seq_eq_ok.mp h
  exact Except.ok.inj h ▸ rfl

-- The configurations that the references are checked in.
theorem configs_eq {boards : List BoardIn} {configs : List BoardConfig}
    (h : boards.mapM (fun b => do
      inBoard b.name (checkCounts b.config)
      Except.ok (applyGroupMirror b.config)) = .ok configs) :
    configs = boards.map fun b => applyGroupMirror b.config := by
  rw [← each_const (n := 0)] at h
  rw [← List.map_id configs]
  refine each_pointwise h fun n b cfg hb => ?_
  exact (Except.ok.inj (seq_eq_ok.mp hb).2).symm

theorem inBoard_eq_ok {α : Type} {x : Except String α} {a : α} :
    inBoard name x = .ok a ↔ x = .ok a := by
  cases x <;> simp [inBoard, Except.mapError]

theorem validate_name (h : validateAndNormalize lib new name cfg = .ok (name', cfg')) :
    name'.length ≤ nameMaxChars := by
  obtain ⟨hn, -, -, -, -, panels, -, -, -, rfl, -⟩ := Iff.mp validateAndNormalize_eq_ok h
  have hr := refuse_eq_ok.mp hn
  simp only [inRange, Bool.not_eq_true', Bool.not_eq_false, Bool.and_eq_true, decide_eq_true_eq] at hr
  exact hr.2

-- A file that has been accepted is well formed.
theorem parseBundle_bundled {lib : BundleLib} {new : ℕ → ℕ → String} {input : BundleIn}
    {b : ValidBundle} (h : parseBundle lib new input = .ok b) : Bundled b := by
  simp only [parseBundle, bind_eq_ok, refuseSome_eq_ok, pure, Except.pure, Except.ok.injEq] at h
  obtain ⟨_, hne, _, -, _, -, _, -, _, -, _, hdb, _, hds, _, hde, _, -, _, -, _, -, parsed, hp,
    envs, he, configs, hc, _, hr, _, hus, _, hue, boards, hb, rfl⟩ := h
  obtain rfl := configs_eq hc
  rw [← each_const (n := 0)] at hp he
  have hz : input.boards.zip (input.boards.map fun b => applyGroupMirror b.config) =
      input.boards.map fun b => (b, applyGroupMirror b.config) := by
    have := List.zip_map' (f := id) (g := fun b : BoardIn => applyGroupMirror b.config)
      (l := input.boards)
    simpa using this
  rw [hz] at hr hb
  have hsid : (parsed.map Prod.fst).map (·.id) = input.scenarios.map (·.id) := by
    rw [List.map_map]
    exact each_pointwise hp fun _ _ _ => parseScenario_id
  have heid : envs.map (·.id) = input.environments.map (·.id) :=
    each_pointwise he fun _ _ _ => parseEnv_id
  have hone {n : ℕ} {q : BoardIn × BoardConfig} {vb : ValidBoard}
      (h : (do
        let v ← inBoard q.1.name (validateAndNormalize lib.toConfigLib (new n) q.1.name q.2)
        Except.ok ⟨q.1.id, v.1, v.2, boardWarnings v.2 (parsed.map fun s => (s.1.id, s.2))⟩) =
          Except.ok vb) :
      vb.id = q.1.id ∧ validateAndNormalize lib.toConfigLib (new n) q.1.name q.2 =
        .ok (vb.name, vb.config) := by
    obtain ⟨v, hv, hvb⟩ := bind_eq_ok.mp h
    obtain rfl := Except.ok.inj hvb
    exact ⟨rfl, inBoard_eq_ok.1 hv⟩
  have hbid : boards.map (·.id) = input.boards.map (·.id) := by
    have hm : boards.map (·.id) =
        (input.boards.map fun b => (b, applyGroupMirror b.config)).map (·.1.id) :=
      each_pointwise hb fun _ _ _ h => (hone h).1
    rw [hm, List.map_map]
    rfl
  have hfrom : ∀ vb ∈ boards, ∃ bin ∈ input.boards, vb.name.length ≤ nameMaxChars ∧
      vb.config.panels.map (·.refs) = (applyGroupMirror bin.config).panels.map (·.refs) := by
    intro vb hvb
    obtain ⟨q, hq, n, hn⟩ := each_mem hb hvb
    obtain ⟨bin, hbin, rfl⟩ := List.mem_map.mp hq
    exact ⟨bin, hbin, validate_name (hone hn).2, validate_refs (hone hn).2⟩
  have hto : ∀ bin ∈ input.boards, ∃ vb ∈ boards,
      vb.config.panels.map (·.refs) = (applyGroupMirror bin.config).panels.map (·.refs) := by
    intro bin hbin
    obtain ⟨n, vb, hvb, hn⟩ := each_of_mem_left hb (List.mem_map_of_mem hbin)
    exact ⟨vb, hvb, validate_refs (hone hn).2⟩
  have hfound : ∀ bin ∈ input.boards, ∀ p ∈ (applyGroupMirror bin.config).panels,
      p.scenarioId ∈ input.scenarios.map (·.id) ∧
        ∀ e ∈ p.environmentId, e ∈ input.environments.map (·.id) := by
    intro bin hbin
    exact checkRefs_spec (forM_eq_ok.mp hr _ (List.mem_map_of_mem hbin))
  have hpanel {vb : ValidBoard} (hvb : vb ∈ boards) {p : PanelConfig} (hp : p ∈ vb.config.panels) :
      p.scenarioId ∈ input.scenarios.map (·.id) ∧
        ∀ e ∈ p.environmentId, e ∈ input.environments.map (·.id) := by
    obtain ⟨bin, hbin, -, hm⟩ := hfrom vb hvb
    obtain ⟨p₀, hp₀, he⟩ := List.mem_map.mp (hm ▸ List.mem_map_of_mem hp)
    have := hfound bin hbin p₀ hp₀
    rwa [(Prod.mk.inj he).1, (Prod.mk.inj he).2] at this
  have hback {q : PanelConfig} (hq : q ∈ (input.boards.map fun b => applyGroupMirror b.config).flatMap
      (·.panels)) : ∃ vb ∈ boards, ∃ p ∈ vb.config.panels, p.refs = q.refs := by
    obtain ⟨cfg, hcfg, hq⟩ := List.mem_flatMap.mp hq
    obtain ⟨bin, hbin, rfl⟩ := List.mem_map.mp hcfg
    obtain ⟨vb, hvb, hm⟩ := hto bin hbin
    obtain ⟨p, hp, he⟩ := List.mem_map.mp (hm.symm ▸ List.mem_map_of_mem hq)
    exact ⟨vb, hvb, p, hp, he⟩
  have hus := List.find?_eq_none.mp (Option.map_eq_none_iff.mp hus)
  have hue := List.find?_eq_none.mp (Option.map_eq_none_iff.mp hue)
  constructor
  case nonempty     =>
    intro he
    have hnil : input.boards.map (·.id) = [] := hbid ▸ List.map_eq_nil_iff.mpr he
    exact refuse_eq_ok.mp hne (List.map_eq_nil_iff.mp hnil)
  case boardIds     => exact hbid ▸ checkDistinct_nodup hdb
  case scenarioIds  => exact hsid ▸ checkDistinct_nodup hds
  case envIds       => exact heid ▸ checkDistinct_nodup hde
  case names        => exact fun vb hvb => (hfrom vb hvb).choose_spec.2.1
  case scenarioRefs =>
    intro vb hvb p hp
    exact List.mem_map.mp (hsid ▸ (hpanel hvb hp).1)
  case envRefs =>
    intro vb hvb p hp eid he
    exact List.mem_map.mp (heid ▸ (hpanel hvb hp).2 eid he)
  case scenariosUsed =>
    intro s hs
    have hu := hus s hs
    simp only [decide_not, Bool.not_eq_true', Bool.not_eq_false, Bool.decide_eq_true] at hu
    obtain ⟨q, hq, he⟩ := List.any_eq_true.mp hu
    obtain ⟨vb, hvb, p, hp, hr⟩ := hback hq
    exact ⟨vb, hvb, p, hp, (Prod.mk.inj hr).1.trans (of_decide_eq_true he)⟩
  case envsUsed =>
    intro e hm
    have hu := hue e hm
    simp only [decide_not, Bool.not_eq_true', Bool.not_eq_false, Bool.decide_eq_true] at hu
    obtain ⟨q, hq, he⟩ := List.any_eq_true.mp hu
    obtain ⟨vb, hvb, p, hp, hr⟩ := hback hq
    exact ⟨vb, hvb, p, hp, (Prod.mk.inj hr).2.trans (of_decide_eq_true he)⟩

end Parsing

end Monitor
