import Handicap.Library.Contiguous
import Handicap.Monitor.Config

namespace Monitor

open Guard Contiguous

variable {lib : ConfigLib} {new : ℕ → String} {name name' : String} {cfg cfg' : BoardConfig}
variable {p p' : PanelConfig}

-- The panel runs what the group does.
def PanelConfig.Follows (p : PanelConfig) (g : CheckGroup) : Prop :=
  p.scenarioId = g.scenarioId ∧ p.environmentId = g.environmentId ∧
    p.intervalSeconds = g.intervalSeconds

-- The panel is about the step only.
def PanelConfig.Bound (p : PanelConfig) (step : String) : Prop :=
  p.latencySource = .step step ∧ (∀ c ∈ p.conditions, c.stepId = step) ∧
    ∀ d ∈ p.displayItems, d.stepId = step

namespace BoardConfig

def groupKeys (cfg : BoardConfig) : List (Option String) :=
  cfg.panels.map (·.groupId)

structure Grouped (cfg : BoardConfig) : Prop where
  existing   : ∀ p ∈ cfg.panels, ∀ gid ∈ p.groupId, ∃ g ∈ cfg.groups, g.id = gid
  nonempty   : ∀ g ∈ cfg.groups, ∃ p ∈ cfg.panels, p.groupId = some g.id
  contiguous : Contiguous cfg.groupKeys
  mirrored   : ∀ p ∈ cfg.panels, ∀ g ∈ cfg.groups, p.groupId = some g.id → p.Follows g

structure Normal (cfg : BoardConfig) : Prop extends cfg.Grouped where
  panelIds : (cfg.panels.map (·.id)).Nodup
  groupIds : (cfg.groups.map (·.id)).Nodup
  stepped  : ∀ p ∈ cfg.panels, p.groupId.isSome → p.stepId.isSome
  ordered  : cfg.groups.Pairwise (cfg.first · < cfg.first ·)
  bound    : ∀ p ∈ cfg.panels, ∀ step ∈ p.stepId, p.Bound step

end BoardConfig

section

-- Each of the checks that correct a value leaves the corrected value as it is.

@[simp]
theorem trim_trim {s : String} : trim (trim s) = trim s :=
  Text.trim_trim

theorem checkPath_header_eq_ok {path path' : String} :
    checkPath lib .header path = .ok path' ↔
      inRange (trim path).length 1 200 ∧ trim path = path' := by
  simp [checkPath, bind_eq_ok, pure, Except.pure]

theorem checkPath_self {source : ConditionSource} {path path' : String}
    (h : checkPath lib source path = .ok path') : checkPath lib source path' = .ok path' := by
  cases source
  case body =>
    obtain ⟨h₁, h₂, h₃, rfl⟩ : _ ∧ _ ∧ _ ∧ path = path' := by
      simpa only [checkPath, seq_eq_ok, pure, Except.pure, Except.ok.injEq] using h
    exact h
  case header =>
    obtain ⟨hl, rfl⟩ := checkPath_header_eq_ok.1 h
    rw [checkPath_header_eq_ok, trim_trim]
    exact ⟨hl, rfl⟩
  all_goals simpa [checkPath] using h

theorem checkDisplayPath_header_eq_ok {path path' : String} :
    checkDisplayPath lib .header path = .ok path' ↔ inRange (trim path).length 1 200 ∧
      (trim path).toLower ∉ authHeaders ∧ trim path = path' := by
  simp [checkDisplayPath, bind_eq_ok, pure, Except.pure]

theorem checkDisplayPath_self {source : DisplaySource} {path path' : String}
    (h : checkDisplayPath lib source path = .ok path') :
    checkDisplayPath lib source path' = .ok path' := by
  cases source
  case body =>
    obtain ⟨h₁, h₂, rfl⟩ : _ ∧ _ ∧ path = path' := by
      simpa only [checkDisplayPath, seq_eq_ok, pure, Except.pure, Except.ok.injEq] using h
    exact h
  case header =>
    obtain ⟨hl, ha, rfl⟩ := checkDisplayPath_header_eq_ok.1 h
    rw [checkDisplayPath_header_eq_ok, trim_trim]
    exact ⟨hl, ha, rfl⟩
  case status => simpa [checkDisplayPath] using h

theorem validateCondition_eq_ok {c c' : Condition} :
    validateCondition lib c = .ok c' ↔ lib.isUlid c.stepId ∧ c.source.allows c.op ∧
      ∃ path, checkPath lib c.source c.path = .ok path ∧
        checkValue (c.normalize path).op (c.normalize path).value = .ok () ∧
        c.normalize path = c' := by
  simp [validateCondition, seq_eq_ok, bind_eq_ok (α := String), pure, Except.pure]

theorem normalize_normalize {c : Condition} {path path' : String} :
    (c.normalize path).normalize path' = { c.normalize path with path := path' } := by
  cases hv : c.op.needsValue <;> cases hf : c.op.hasFlags <;> simp [Condition.normalize, hv, hf]

theorem validateCondition_self {c c' : Condition} (h : validateCondition lib c = .ok c') :
    validateCondition lib c' = .ok c' := by
  obtain ⟨hu, ha, path, hp, hv, rfl⟩ := validateCondition_eq_ok.1 h
  refine validateCondition_eq_ok.2 ⟨hu, ha, path, checkPath_self hp, ?_, ?_⟩
  case refine_1 =>
    rw [normalize_normalize]
    exact hv
  case refine_2 => exact normalize_normalize

theorem validateCondition_stepId {c c' : Condition} (h : validateCondition lib c = .ok c') :
    c'.stepId = c.stepId := by
  obtain ⟨-, -, path, -, -, rfl⟩ := validateCondition_eq_ok.1 h
  rfl

theorem validateConditions_eq_ok {l l' : List Condition} :
    validateConditions lib l = .ok l' ↔
      ¬maxConditions < l.length ∧ each (fun _ => validateCondition lib) 1 l = .ok l' := by
  simp [validateConditions, seq_eq_ok]

theorem validateConditions_map {l l' : List Condition} (h : validateConditions lib l = .ok l') :
    l'.map (·.stepId) = l.map (·.stepId) :=
  each_map (validateConditions_eq_ok.1 h).2 fun _ _ _ => validateCondition_stepId

theorem validateConditions_self {l l' : List Condition} (h : validateConditions lib l = .ok l') :
    validateConditions lib l' = .ok l' := by
  have ⟨hl, he⟩ := validateConditions_eq_ok.1 h
  have hn : l'.length = l.length := by simpa using congrArg List.length (validateConditions_map h)
  exact validateConditions_eq_ok.2
    ⟨hn ▸ hl, each_eq_self he fun _ _ _ => validateCondition_self⟩

theorem validateDisplayItem_eq_ok {d d' : DisplayItem} :
    validateDisplayItem lib d = .ok d' ↔ lib.isUlid d.stepId ∧
      ∃ path, checkDisplayPath lib d.source d.path = .ok path ∧ { d with path } = d' := by
  simp [validateDisplayItem, bind_eq_ok, pure, Except.pure]

theorem validateDisplayItem_self {d d' : DisplayItem} (h : validateDisplayItem lib d = .ok d') :
    validateDisplayItem lib d' = .ok d' := by
  obtain ⟨hu, path, hp, rfl⟩ := validateDisplayItem_eq_ok.1 h
  exact validateDisplayItem_eq_ok.2 ⟨hu, path, checkDisplayPath_self hp, rfl⟩

theorem validateDisplayItem_stepId {d d' : DisplayItem} (h : validateDisplayItem lib d = .ok d') :
    d'.stepId = d.stepId := by
  obtain ⟨-, path, -, rfl⟩ := validateDisplayItem_eq_ok.1 h
  rfl

theorem validateDisplayItems_eq_ok {l l' : List DisplayItem} :
    validateDisplayItems lib l = .ok l' ↔
      ¬maxDisplayItems < l.length ∧ each (fun _ => validateDisplayItem lib) 1 l = .ok l' := by
  simp [validateDisplayItems, seq_eq_ok]

theorem validateDisplayItems_map {l l' : List DisplayItem}
    (h : validateDisplayItems lib l = .ok l') : l'.map (·.stepId) = l.map (·.stepId) :=
  each_map (validateDisplayItems_eq_ok.1 h).2 fun _ _ _ => validateDisplayItem_stepId

theorem validateDisplayItems_self {l l' : List DisplayItem}
    (h : validateDisplayItems lib l = .ok l') : validateDisplayItems lib l' = .ok l' := by
  have ⟨hl, he⟩ := validateDisplayItems_eq_ok.1 h
  have hn : l'.length = l.length := by simpa using congrArg List.length (validateDisplayItems_map h)
  exact validateDisplayItems_eq_ok.2
    ⟨hn ▸ hl, each_eq_self he fun _ _ _ => validateDisplayItem_self⟩

theorem checkPanelId_self {new new' id id' : String} (hn : lib.isUlid new) (he : ¬lib.isUlid "")
    (h : checkPanelId lib new id = .ok id') : checkPanelId lib new' id' = .ok id' := by
  have hid : lib.isUlid id' := by
    unfold checkPanelId at h
    split at h
    case isTrue  => exact Except.ok.inj h ▸ hn
    case isFalse =>
      obtain ⟨hu, rfl⟩ : lib.isUlid id ∧ id = id' := by
        simpa [bind_eq_ok, pure, Except.pure] using h
      exact hu
  have hne : id' ≠ "" := fun h => he (h ▸ hid)
  simp [checkPanelId, hne, hid, bind_eq_ok, pure, Except.pure]

theorem validatePanel_eq_ok {new : String} :
    validatePanel lib new p = .ok p' ↔ checkName "칸 제목" (trim p.title) = .ok () ∧
      ∃ id, checkPanelId lib new p.id = .ok id ∧ checkRanges p = .ok () ∧
      ∃ conditions, validateConditions lib p.conditions = .ok conditions ∧
      ∃ displayItems, validateDisplayItems lib p.displayItems = .ok displayItems ∧
        { p with title := trim p.title, id, conditions, displayItems } = p' := by
  simp only [validatePanel, bind_eq_ok, pure, Except.pure, Except.ok.injEq, Unique.exists_iff,
    PUnit.default_eq_unit]

theorem validatePanel_self {new new' : String} (hn : lib.isUlid new) (he : ¬lib.isUlid "")
    (h : validatePanel lib new p = .ok p') : validatePanel lib new' p' = .ok p' := by
  obtain ⟨ht, id, hid, hr, cs, hc, ds, hd, rfl⟩ := validatePanel_eq_ok.1 h
  rw [validatePanel_eq_ok, trim_trim]
  exact ⟨ht, id, checkPanelId_self hn he hid, hr, cs, validateConditions_self hc, ds,
    validateDisplayItems_self hd, rfl⟩

-- What the validation of a panel does not touch.
theorem validatePanel_frame {new : String} (h : validatePanel lib new p = .ok p') :
    (p'.groupId, p'.stepId) = (p.groupId, p.stepId) ∧
      (∀ g, p.Follows g → p'.Follows g) ∧ ∀ step, p.Bound step → p'.Bound step := by
  obtain ⟨-, id, -, -, cs, hc, ds, hd, rfl⟩ := validatePanel_eq_ok.1 h
  refine ⟨rfl, fun _ h => h, fun step ⟨hl, hcs, hds⟩ => ⟨hl, ?_, ?_⟩⟩
  case refine_1 =>
    have hm : ∀ s ∈ cs.map (·.stepId), s = step := by
      rw [validateConditions_map hc]
      simpa using hcs
    simpa using hm
  case refine_2 =>
    have hm : ∀ s ∈ ds.map (·.stepId), s = step := by
      rw [validateDisplayItems_map hd]
      simpa using hds
    simpa using hm

@[simp]
theorem inPanel_eq_ok {α : Type} {n : ℕ} {x : Except String α} {a : α} :
    inPanel n x = .ok a ↔ x = .ok a := by
  cases x <;> simp [inPanel, Except.mapError]

end

section

-- The checks of the groups only read the groups of the panels, and whether they have steps.

theorem first_congr (h : cfg'.groupKeys = cfg.groupKeys) (g : CheckGroup) :
    cfg'.first g = cfg.first g := by
  have hf (c : BoardConfig) : c.panels.findIdx? (·.groupId = some g.id) =
      c.groupKeys.findIdx? (· = some g.id) := by
    simp [BoardConfig.groupKeys, List.findIdx?_map, Function.comp_def]
  simp only [BoardConfig.first, hf, h]

theorem hasMember_iff {g : String} : cfg.hasMember g ↔ some g ∈ cfg.groupKeys := by
  simp [BoardConfig.hasMember, BoardConfig.groupKeys]

theorem checkGroups_congr (h : cfg'.groupKeys = cfg.groupKeys) {n : ℕ} {seen : List String}
    {gs : List CheckGroup} : checkGroups lib cfg' n seen gs = checkGroups lib cfg n seen gs := by
  have hm (g : String) : cfg'.hasMember g = cfg.hasMember g := by
    rw [Bool.eq_iff_iff, hasMember_iff, hasMember_iff, h]
  induction gs generalizing n seen
  case nil          => rfl
  case cons g gs ih => simp only [checkGroups, hm, ih]

theorem checkPlacement_congr {groups : List CheckGroup} {n : ℕ} {closed : List String}
    {prev : Option String} {ps ps' : List PanelConfig}
    (h : ps'.map (fun p => (p.groupId, p.stepId)) = ps.map fun p => (p.groupId, p.stepId)) :
    checkPlacement groups n closed prev ps' = checkPlacement groups n closed prev ps := by
  induction ps generalizing ps' n closed prev
  case nil =>
    obtain rfl : ps' = [] := by simpa using h
    rfl
  case cons p ps ih =>
    cases ps'
    case nil         => simp at h
    case cons p' ps' =>
      obtain ⟨⟨hg, hs⟩, h⟩ : (p'.groupId = p.groupId ∧ p'.stepId = p.stepId) ∧ _ := by
        simpa using h
      simp only [checkPlacement, hg, hs]
      rw [ih (by simpa using h)]

-- What the check of the groups establishes.
theorem checkGroups_spec {n : ℕ} {seen : List String} {gs : List CheckGroup}
    (h : checkGroups lib cfg n seen gs = .ok ()) :
    (gs.map (·.id)).Nodup ∧ (∀ g ∈ gs, g.id ∉ seen) ∧ (∀ g ∈ gs, lib.isUlid g.id) ∧
      ∀ g ∈ gs, some g.id ∈ cfg.groupKeys := by
  induction gs generalizing n seen
  case nil => simp
  case cons g gs ih =>
    simp only [checkGroups, seq_eq_ok, refuse_eq_ok, Bool.not_eq_true', Bool.not_eq_false] at h
    obtain ⟨hu, hs, _, _, hm, hgs⟩ := h
    obtain ⟨hnd, hns, hus, hms⟩ := ih hgs
    have hng : g.id ∉ gs.map (·.id) := by
      intro hg
      obtain ⟨g', hg', he⟩ := List.mem_map.mp hg
      exact hns g' hg' (by simp [he])
    refine ⟨List.nodup_cons.mpr ⟨hng, hnd⟩, ?_, ?_, ?_⟩
    · exact List.forall_mem_cons.mpr ⟨hs, fun g' hg' h => hns g' hg' (List.mem_cons_of_mem _ h)⟩
    · exact List.forall_mem_cons.mpr ⟨hu, hus⟩
    · exact List.forall_mem_cons.mpr ⟨hasMember_iff.1 hm, hms⟩

-- What the check of the placement establishes. A group that is closed is not met again, and the one
-- of the panel before is not closed.
theorem checkPlacement_spec {groups : List CheckGroup} {n : ℕ} {closed : List String}
    {prev : Option String} {ps : List PanelConfig} (hp : ∀ g ∈ prev, g ∉ closed)
    (h : checkPlacement groups n closed prev ps = .ok ()) :
    Contiguous (prev :: ps.map (·.groupId)) ∧ (∀ g ∈ closed, some g ∉ ps.map (·.groupId)) ∧
      (∀ p ∈ ps, ∀ gid ∈ p.groupId, ∃ g ∈ groups, g.id = gid) ∧
      ∀ p ∈ ps, p.groupId.isSome → p.stepId.isSome := by
  induction ps generalizing n closed prev
  case nil => exact ⟨contiguous_nil.cons (by simp), by simp, by simp, by simp⟩
  case cons p ps ih =>
    simp only [checkPlacement, seq_eq_ok, refuse_eq_ok] at h
    obtain ⟨he, hc, hs, h⟩ := h
    have he : ∀ gid ∈ p.groupId, ∃ g ∈ groups, g.id = gid := by simpa using he
    have hs : p.groupId.isSome → p.stepId.isSome := by
      simpa [← Option.isSome_iff_ne_none] using hs
    by_cases heq : prev = p.groupId
    case pos =>
      rw [if_neg (by simpa using heq)] at h
      obtain ⟨ho, hn, hes, hss⟩ := ih (heq ▸ hp) h
      refine ⟨?_, ?_, List.forall_mem_cons.mpr ⟨he, hes⟩, List.forall_mem_cons.mpr ⟨hs, hss⟩⟩
      · rw [heq]
        exact ho.cons_dup
      · simp only [List.map_cons, List.mem_cons, not_or]
        exact fun g hg => ⟨fun hgp => hp g (heq.trans hgp.symm) hg, hn g hg⟩
    case neg =>
      rw [if_pos heq] at h
      have hp' : ∀ g ∈ p.groupId, g ∉ prev.toList ++ closed := by
        intro g hg hm
        cases List.mem_append.mp hm
        case inl hm => exact heq ((Option.mem_toList.mp hm).trans hg.symm)
        case inr hm => exact hc ⟨g, hg, fun hpg => heq (hpg.trans hg.symm), hm⟩
      obtain ⟨ho, hn, hes, hss⟩ := ih hp' h
      have hnp : ∀ g, prev = some g → some g ∉ p.groupId :: ps.map (·.groupId) := by
        intro g hg hm
        cases List.mem_cons.mp hm
        case inl hm => exact heq (hg.trans hm)
        case inr hm => exact hn g (by simp [hg]) hm
      refine ⟨ho.cons hnp, ?_, List.forall_mem_cons.mpr ⟨he, hes⟩,
        List.forall_mem_cons.mpr ⟨hs, hss⟩⟩
      simp only [List.map_cons, List.mem_cons, not_or]
      exact fun g hg => ⟨fun hgp => hp' g hgp.symm (by simp [hg]), hn g (by simp [hg])⟩

end

section

theorem map_eq_self {α : Type} {f : α → α} {l : List α} (h : ∀ a ∈ l, f a = a) : l.map f = l :=
  (List.map_congr_left h).trans (List.map_id' l)

theorem mirror_eq_self {g : CheckGroup} (h : p.Follows g) : p.mirror g = p := by
  obtain ⟨hs, he, hi⟩ := h
  simp [PanelConfig.mirror, ← hs, ← he, ← hi]

theorem bindTo_eq_self {step : String} (h : p.Bound step) : p.bindTo step = p := by
  obtain ⟨hl, hc, hd⟩ := h
  have hc : p.conditions.map ({ · with stepId := step }) = p.conditions :=
    map_eq_self fun c hm => by rw [← hc c hm]
  have hd : p.displayItems.map ({ · with stepId := step }) = p.displayItems :=
    map_eq_self fun d hm => by rw [← hd d hm]
  simp only [PanelConfig.bindTo, hc, hd, ← hl]

def normalizePanel (cfg : BoardConfig) (p : PanelConfig) : PanelConfig :=
  normalizeStepPanel (((cfg.groupOf p).map p.mirror).getD p)

theorem normalizePanels_eq :
    normalizePanels cfg = { cfg with panels := cfg.panels.map (normalizePanel cfg) } := by
  simp [normalizePanels, applyGroupMirror, Function.comp_def, normalizePanel]

theorem normalizePanel_eq_self (hg : ∀ g ∈ cfg.groupOf p, p.Follows g)
    (hb : ∀ step ∈ p.stepId, p.Bound step) : normalizePanel cfg p = p := by
  have hm : ((cfg.groupOf p).map p.mirror).getD p = p := by
    cases h : cfg.groupOf p
    case none   => rfl
    case some g => exact mirror_eq_self (hg g h)
  rw [normalizePanel, hm, normalizeStepPanel]
  cases h : p.stepId
  case none      => rfl
  case some step => exact bindTo_eq_self (hb step h)

theorem normalizePanels_eq_self (hg : ∀ p ∈ cfg.panels, ∀ g ∈ cfg.groupOf p, p.Follows g)
    (hb : ∀ p ∈ cfg.panels, ∀ step ∈ p.stepId, p.Bound step) : normalizePanels cfg = cfg := by
  rw [normalizePanels_eq, map_eq_self fun p hp => normalizePanel_eq_self (hg p hp) (hb p hp)]

theorem normalizeStepPanel_frame :
    (normalizeStepPanel p).groupId = p.groupId ∧ (normalizeStepPanel p).stepId = p.stepId ∧
      ∀ g, p.Follows g → (normalizeStepPanel p).Follows g := by
  unfold normalizeStepPanel
  cases h : p.stepId
  case none => exact ⟨rfl, h, fun _ h => h⟩
  case some => exact ⟨rfl, h, fun _ h => h⟩

theorem normalizeStepPanel_bound : ∀ step ∈ p.stepId, (normalizeStepPanel p).Bound step := by
  intro step h
  rw [normalizeStepPanel, Option.mem_def.mp h]
  exact ⟨rfl, by simp [PanelConfig.bindTo], by simp [PanelConfig.bindTo]⟩

-- A panel is in the same group and about the same step as before, and now runs what the one does
-- and is bound to the other.
theorem normalizePanel_spec (cfg : BoardConfig) (p : PanelConfig) :
    (normalizePanel cfg p).groupId = p.groupId ∧ (normalizePanel cfg p).stepId = p.stepId ∧
      (∀ g ∈ cfg.groupOf p, (normalizePanel cfg p).Follows g) ∧
      ∀ step ∈ p.stepId, (normalizePanel cfg p).Bound step := by
  cases h : cfg.groupOf p
  case none =>
    have ⟨hg, hs, _⟩ := normalizeStepPanel_frame (p := p)
    simpa [normalizePanel, h] using ⟨hg, hs, normalizeStepPanel_bound⟩
  case some g =>
    have ⟨hg, hs, hf⟩ := normalizeStepPanel_frame (p := p.mirror g)
    have hb := normalizeStepPanel_bound (p := p.mirror g)
    simpa [normalizePanel, h] using ⟨hg, hs, hf g ⟨rfl, rfl, rfl⟩, hb⟩

theorem groupOf_eq_some_iff (hn : (cfg.groups.map (·.id)).Nodup) {g : CheckGroup} :
    cfg.groupOf p = some g ↔ g ∈ cfg.groups ∧ p.groupId = some g.id := by
  rw [BoardConfig.groupOf, Option.bind_eq_some_iff]
  constructor
  case mp =>
    rintro ⟨gid, hp, hg⟩
    have hid : g.id = gid := by simpa using List.find?_some hg
    exact ⟨List.mem_of_find?_eq_some hg, hid ▸ hp⟩
  case mpr =>
    rintro ⟨hg, hp⟩
    refine ⟨g.id, hp, ?_⟩
    cases hf : cfg.groups.find? (·.id = g.id)
    case none => simpa using List.find?_eq_none.mp hf g hg
    case some g' =>
      have hid : g'.id = g.id := by simpa using List.find?_some hf
      rw [List.inj_on_of_nodup_map hn (List.mem_of_find?_eq_some hf) hg hid]

end

section

theorem sortGroups_perm : cfg.sortGroups.groups.Perm cfg.groups :=
  List.perm_insertionSort ..

theorem sortGroups_pairwise : cfg.sortGroups.groups.Pairwise (cfg.first · ≤ cfg.first ·) := by
  have : Std.Total fun g h : CheckGroup => cfg.first g ≤ cfg.first h := ⟨fun g h => Nat.le_total ..⟩
  have : IsTrans CheckGroup fun g h => cfg.first g ≤ cfg.first h := ⟨fun _ _ _ => Nat.le_trans⟩
  exact List.pairwise_insertionSort _ _

theorem sortGroups_eq_self (h : cfg.groups.Pairwise (cfg.first · ≤ cfg.first ·)) :
    cfg.sortGroups = cfg := by
  rw [BoardConfig.sortGroups, List.Pairwise.insertionSort_eq h]

-- Groups that have panels and are not the same have different first panels.
theorem first_ne {g h : CheckGroup} (hm : some g.id ∈ cfg.groupKeys) (hn : g.id ≠ h.id)
    (hm' : some h.id ∈ cfg.groupKeys) : cfg.first g ≠ cfg.first h := by
  have hf (g : CheckGroup) (hm : some g.id ∈ cfg.groupKeys) :
      ∃ p, cfg.panels[cfg.first g]? = some p ∧ p.groupId = some g.id := by
    obtain ⟨p, hp, hg⟩ := List.mem_map.mp hm
    cases hi : cfg.panels.findIdx? (·.groupId = some g.id)
    case none => simpa [hg] using List.findIdx?_eq_none_iff.mp hi p hp
    case some i =>
      have ⟨hl, hp, _⟩ := List.findIdx?_eq_some_iff_getElem.mp hi
      exact ⟨cfg.panels[i], by simp [BoardConfig.first, hi], by simpa using hp⟩
  intro he
  obtain ⟨p, hp, hg⟩ := hf g hm
  obtain ⟨q, hq, hh⟩ := hf h hm'
  obtain rfl : p = q := Option.some.inj (hp.symm.trans (he ▸ hq))
  exact hn (Option.some.inj (hg.symm.trans hh))

end

section

theorem validateAndNormalize_eq_ok :
    validateAndNormalize lib new name cfg = .ok (name', cfg') ↔
      checkName "보드 이름" (trim name) = .ok () ∧ checkCounts cfg = .ok () ∧
      checkGroups lib cfg.sortGroups 1 [] cfg.sortGroups.groups = .ok () ∧
      checkPlacement cfg.sortGroups.groups 1 [] none cfg.panels = .ok () ∧
      (∃ us, each (fun n p => inPanel n (checkStepId lib p)) 1 cfg.panels = .ok us) ∧
      ∃ panels, each (fun n p => inPanel n (validatePanel lib (new n) p)) 1
          (normalizePanels cfg.sortGroups).panels = .ok panels ∧
        (panels.map (·.id)).Nodup ∧ inRange cfg.recordLimitKb 16 1024 ∧
        trim name = name' ∧ { normalizePanels cfg.sortGroups with panels } = cfg' := by
  simp only [validateAndNormalize, validateGroups, bind_eq_ok, pure, Except.pure, Except.ok.injEq,
    Unique.exists_iff, PUnit.default_eq_unit, refuse_eq_ok, Prod.mk.injEq, Bool.not_eq_true',
    Bool.not_eq_false, not_not]
  constructor
  case mp =>
    rintro ⟨hn, hc, _, ⟨hg, hp, rfl⟩, us, hs, panels, hv, hnd, hr, rfl, rfl⟩
    exact ⟨hn, hc, hg, hp, ⟨us, hs⟩, panels, hv, hnd, hr, rfl, rfl⟩
  case mpr =>
    rintro ⟨hn, hc, hg, hp, ⟨us, hs⟩, panels, hv, hnd, hr, rfl, rfl⟩
    exact ⟨hn, hc, _, ⟨hg, hp, rfl⟩, us, hs, panels, hv, hnd, hr, rfl, rfl⟩

variable (h : validateAndNormalize lib new name cfg = .ok (name', cfg'))

include h

theorem validate_pairs :
    cfg'.panels.map (fun p => (p.groupId, p.stepId)) =
      cfg.panels.map fun p => (p.groupId, p.stepId) := by
  obtain ⟨-, -, -, -, -, panels, hv, -, -, -, rfl⟩ := Iff.mp validateAndNormalize_eq_ok h
  refine (each_map hv fun n p p' hp => ?_).trans ?_
  case refine_1 => exact (validatePanel_frame (inPanel_eq_ok.1 hp)).1
  case refine_2 =>
    have hn (p : PanelConfig) : ((normalizePanel cfg.sortGroups p).groupId,
        (normalizePanel cfg.sortGroups p).stepId) = (p.groupId, p.stepId) :=
      Prod.ext (normalizePanel_spec ..).1 (normalizePanel_spec ..).2.1
    simp only [normalizePanels_eq, List.map_map, Function.comp_def, hn]
    rfl

theorem validate_groupKeys : cfg'.groupKeys = cfg.groupKeys := by
  simpa [BoardConfig.groupKeys, Function.comp_def] using
    congrArg (List.map Prod.fst) (validate_pairs h)

theorem validate_groups : cfg'.groups = cfg.sortGroups.groups := by
  obtain ⟨-, -, -, -, -, panels, -, -, -, -, rfl⟩ := Iff.mp validateAndNormalize_eq_ok h
  rfl

theorem validate_groupIds : (cfg'.groups.map (·.id)).Nodup := by
  have ⟨_, _, hg, _⟩ := Iff.mp validateAndNormalize_eq_ok h
  exact validate_groups h ▸ (checkGroups_spec hg).1

theorem validate_ulids : ∀ g ∈ cfg'.groups, lib.isUlid g.id := by
  have ⟨_, _, hg, _⟩ := Iff.mp validateAndNormalize_eq_ok h
  exact validate_groups h ▸ (checkGroups_spec hg).2.2.1

theorem validate_members : ∀ g ∈ cfg'.groups, some g.id ∈ cfg'.groupKeys := by
  have ⟨_, _, hg, _⟩ := Iff.mp validateAndNormalize_eq_ok h
  rw [validate_groupKeys h, validate_groups h]
  exact (checkGroups_spec hg).2.2.2

-- Every panel of the result is a normalized one that has passed the checks.
theorem validate_panel (hp : p' ∈ cfg'.panels) : ∃ p ∈ cfg.panels, ∃ n,
    validatePanel lib (new n) (normalizePanel cfg.sortGroups p) = .ok p' := by
  obtain ⟨-, -, -, -, -, panels, hv, -, -, -, rfl⟩ := Iff.mp validateAndNormalize_eq_ok h
  rw [normalizePanels_eq] at hv
  obtain ⟨q, hq, n, hn⟩ := each_mem hv hp
  obtain ⟨p, hp, rfl⟩ := List.mem_map.mp hq
  exact ⟨p, hp, n, inPanel_eq_ok.1 hn⟩

theorem validate_follows : ∀ p ∈ cfg'.panels, ∀ g ∈ cfg'.groups, p.groupId = some g.id →
    p.Follows g := by
  intro p' hp' g hg he
  have ⟨p, _, n, hv⟩ := validate_panel h hp'
  have ⟨hf, hm, _⟩ := validatePanel_frame hv
  have ⟨hgi, _, hs, _⟩ := normalizePanel_spec cfg.sortGroups p
  have hn := validate_groupIds h
  rw [validate_groups h] at hg hn
  have hid : p.groupId = some g.id := hgi.symm.trans ((Prod.mk.inj hf).1.symm.trans he)
  exact hm g (hs g ((groupOf_eq_some_iff hn).mpr ⟨hg, hid⟩))

theorem validate_bound : ∀ p ∈ cfg'.panels, ∀ step ∈ p.stepId, p.Bound step := by
  intro p' hp' step he
  have ⟨p, _, n, hv⟩ := validate_panel h hp'
  have ⟨hf, _, hm⟩ := validatePanel_frame hv
  have ⟨_, hst, _, hs⟩ := normalizePanel_spec cfg.sortGroups p
  exact hm step (hs step (hst.symm.trans ((Prod.mk.inj hf).2.symm.trans he)))

theorem validate_pairwise : cfg'.groups.Pairwise (cfg'.first · ≤ cfg'.first ·) := by
  have hf : cfg'.first = cfg.first := funext (first_congr (validate_groupKeys h))
  rw [hf, validate_groups h]
  exact sortGroups_pairwise

theorem validate_ordered : cfg'.groups.Pairwise (cfg'.first · < cfg'.first ·) := by
  have hn : cfg'.groups.Pairwise fun g g' => g.id ≠ g'.id := List.pairwise_map.mp (validate_groupIds h)
  refine ((validate_pairwise h).and hn).imp_of_mem fun hg hg' ⟨hle, hne⟩ => ?_
  exact hle.lt_of_ne (first_ne (validate_members h _ hg) hne (validate_members h _ hg'))

-- The result is in the normal form.
theorem validate_normal : cfg'.Normal := by
  have ⟨_, _, _, hp, _, panels, _, hnd, _, _, he⟩ := Iff.mp validateAndNormalize_eq_ok h
  have ⟨hc, _, hex, hst⟩ := checkPlacement_spec (by simp) hp
  have hk := validate_groupKeys h
  constructor
  case toGrouped =>
    constructor
    case existing =>
      intro p hp gid hg
      have hm : some gid ∈ cfg.groupKeys := hk ▸ List.mem_map.mpr ⟨p, hp, hg⟩
      have ⟨q, hq, he⟩ := List.mem_map.mp hm
      exact validate_groups h ▸ hex q hq gid he
    case nonempty   => exact fun g hg => List.mem_map.mp (validate_members h g hg)
    case contiguous => exact hk ▸ hc.sublist (List.sublist_cons_self ..)
    case mirrored   => exact validate_follows h
  case panelIds => exact he ▸ hnd
  case groupIds => exact validate_groupIds h
  case stepped =>
    intro p hp hg
    have hm : (p.groupId, p.stepId) ∈ cfg.panels.map fun p => (p.groupId, p.stepId) :=
      validate_pairs h ▸ List.mem_map_of_mem hp
    have ⟨q, hq, he⟩ := List.mem_map.mp hm
    have ⟨hg', hs'⟩ := Prod.mk.inj he
    exact hs' ▸ hst q hq (hg' ▸ hg)
  case ordered => exact validate_ordered h
  case bound   => exact validate_bound h

theorem validate_checkStepId (hp : p' ∈ cfg'.panels) : checkStepId lib p' = .ok () := by
  have ⟨_, _, _, _, ⟨us, hs⟩, _⟩ := Iff.mp validateAndNormalize_eq_ok h
  have hm : (p'.groupId, p'.stepId) ∈ cfg.panels.map fun p => (p.groupId, p.stepId) :=
    validate_pairs h ▸ List.mem_map_of_mem hp
  have ⟨p, hp, he⟩ := List.mem_map.mp hm
  have ⟨n, (), hc⟩ := each_of_mem hs hp
  have hid : checkStepId lib p' = checkStepId lib p := by
    simp only [checkStepId, (Prod.mk.inj he).2]
  exact hid.trans (inPanel_eq_ok.1 hc)

-- The result passes, and nothing of it is changed.
theorem validate_self {new' : ℕ → String} (hn : ∀ n, lib.isUlid (new n)) (he : ¬lib.isUlid "") :
    validateAndNormalize lib new' name' cfg' = .ok (name', cfg') := by
  have hk := validate_groupKeys h
  have hgs := validate_groups h
  have hsort : cfg'.sortGroups = cfg' := sortGroups_eq_self (validate_pairwise h)
  have hnorm : normalizePanels cfg' = cfg' := normalizePanels_eq_self
    (fun p hp g hg => have ⟨hm, hid⟩ := (groupOf_eq_some_iff (validate_groupIds h)).mp hg
      validate_follows h p hp g hm hid)
    (validate_bound h)
  have ⟨hname, hc, hg, hp, _, panels, hv, hnd, hr, hname', hcfg⟩ :=
    Iff.mp validateAndNormalize_eq_ok h
  have hpanels : cfg'.panels = panels := by rw [← hcfg]
  have hlimit : cfg'.recordLimitKb = cfg.recordLimitKb := by rw [← hcfg]; rfl
  rw [validateAndNormalize_eq_ok, hsort, hnorm]
  refine ⟨?_, ?_, ?_, ?_, ?_, cfg'.panels, ?_, hpanels ▸ hnd, hlimit ▸ hr, ?_, rfl⟩
  case refine_1 =>
    rw [← hname', trim_trim]
    exact hname
  case refine_2 =>
    have hl : cfg'.panels.length = cfg.panels.length := by
      simpa using congrArg List.length (validate_pairs h)
    have hgl : cfg'.groups.length = cfg.groups.length := hgs ▸ sortGroups_perm.length_eq
    have hcc : checkCounts cfg' = checkCounts cfg := by simp only [checkCounts, hl, hgl]
    exact hcc.trans hc
  case refine_3 =>
    have hk : cfg'.groupKeys = cfg.sortGroups.groupKeys := hk
    rw [hgs, checkGroups_congr hk]
    exact hg
  case refine_4 =>
    rw [hgs, checkPlacement_congr (validate_pairs h)]
    exact hp
  case refine_5 =>
    exact each_exists fun p hp n => ⟨(), inPanel_eq_ok.2 (validate_checkStepId h hp)⟩
  case refine_6 =>
    rw [hpanels]
    exact each_eq_self hv fun n p p' hv =>
      inPanel_eq_ok.2 (validatePanel_self (hn n) he (inPanel_eq_ok.1 hv))
  case refine_7 => rw [← hname', trim_trim]

end

section


open Contiguous

variable {cfg : BoardConfig}

-- The panels of a unit run what the unit does.
def UnitPlan.Shared (u : UnitPlan) : Prop :=
  ∀ p ∈ u.panels, p.scenarioId = u.scenarioId ∧ p.environmentId = u.environmentId ∧
    p.intervalSeconds = u.intervalSeconds

-- The group of the panel, if it has one, has not been planned.
def PanelConfig.unplanned (seen : List String) (p : PanelConfig) : Bool :=
  p.groupId.all (· ∉ seen)

theorem unplanned_cons {seen : List String} {gid : String} {p : PanelConfig} :
    p.unplanned (gid :: seen) = (p.unplanned seen && decide (p.groupId ≠ some gid)) := by
  cases hp : p.groupId <;> simp [PanelConfig.unplanned, hp, Bool.and_comm]

-- The panels of a group whose panels come first are split off.
theorem filter_unplanned {seen : List String} {gid : String} {ps : List PanelConfig}
    (hm : gid ∉ seen) (h : Contiguous (some gid :: ps.map (·.groupId))) :
    ps.filter (·.unplanned seen) =
      ps.filter (·.groupId = some gid) ++ ps.filter (·.unplanned (gid :: seen)) := by
  have hg : (ps.filter (·.groupId = some gid)).filter (·.unplanned seen) =
      ps.filter (·.groupId = some gid) := by
    refine List.filter_eq_self.mpr fun p hp => ?_
    have hid : p.groupId = some gid := by simpa using (List.mem_filter.mp hp).2
    simp [PanelConfig.unplanned, hid, hm]
  have ho : (ps.filter (·.groupId ≠ some gid)).filter (·.unplanned seen) =
      ps.filter (·.unplanned (gid :: seen)) := by
    rw [List.filter_filter]
    exact List.filter_congr fun p _ => unplanned_cons.symm
  rw [← hg, ← ho, ← List.filter_append, h.filter_append_filter]

namespace BoardConfig.Grouped

variable (h : cfg.Grouped) (hn : (cfg.groups.map (·.id)).Nodup)

include h

theorem groupOf_eq_none {p : PanelConfig} (hp : p ∈ cfg.panels) (hg : cfg.groupOf p = none) :
    p.groupId = none := by
  refine Option.eq_none_iff_forall_ne_some.mpr fun gid he => ?_
  have ⟨g, hm, hid⟩ := h.existing p hp gid he
  rw [BoardConfig.groupOf, he] at hg
  exact List.find?_eq_none.mp hg g hm (by simpa using hid)

include hn

-- The units that are planned from a panel on have the panels from there on whose groups have not
-- been planned before. The groups of the panels before it have.
theorem planFrom_panels {pre suf : List PanelConfig} {seen : List String}
    (hc : cfg.panels = pre ++ suf) (hs : ∀ p ∈ pre, ∀ gid ∈ p.groupId, gid ∈ seen) :
    (planFrom cfg seen suf).flatMap UnitPlan.panels = suf.filter (·.unplanned seen) := by
  induction suf generalizing pre seen
  case nil => rfl
  case cons p ps ih =>
    have hp : p ∈ cfg.panels := by simp [hc]
    have hc' : cfg.panels = (pre ++ [p]) ++ ps := by simp [hc]
    have ih {seen' : List String} (hsub : seen ⊆ seen') (hps : ∀ gid ∈ p.groupId, gid ∈ seen') :=
      ih hc' (List.forall_mem_append.mpr
        ⟨fun q hq gid hg => hsub (hs q hq gid hg), List.forall_mem_singleton.mpr hps⟩)
    cases hg : cfg.groupOf p
    case none =>
      have hid := h.groupOf_eq_none hp hg
      have hu : p.unplanned seen := by simp [PanelConfig.unplanned, hid]
      have hpl : (if p.stepId.isSome then UnitPlan.steps p.unit else .whole p).panels = [p] := by
        split <;> rfl
      simp only [planFrom, hg, List.flatMap_cons, hpl, List.filter_cons_of_pos hu,
        ih (List.Subset.refl _) (by simp [hid]), List.singleton_append]
    case some g =>
      have hid := ((groupOf_eq_some_iff hn).mp hg).2
      by_cases hm : g.id ∈ seen
      case pos =>
        have hu : ¬p.unplanned seen := by simp [PanelConfig.unplanned, hid, hm]
        simp only [planFrom, hg, if_pos hm, List.filter_cons_of_neg hu,
          ih (List.Subset.refl _) (by simpa [hid] using hm)]
      case neg =>
        have hpre : pre.filter (·.groupId = some g.id) = [] := by
          simpa using fun q hq he => hm (hs q hq g.id he)
        have hu : ¬p.unplanned (g.id :: seen) := by simp [PanelConfig.unplanned, hid]
        have hct : Contiguous (some g.id :: (p :: ps).map (·.groupId)) := by
          have ht : Contiguous ((p :: ps).map (·.groupId)) :=
            h.contiguous.sublist (by simp [BoardConfig.groupKeys, hc])
          simpa [hid] using Contiguous.cons_dup ht
        rw [filter_unplanned hm hct, List.filter_cons_of_neg hu,
          ← ih (List.subset_cons_self ..) (by simp [hid])]
        simp only [planFrom, hg, if_neg hm, List.flatMap_cons, UnitPlan.panels, CheckGroup.unit, hc,
          List.filter_append, hpre, List.nil_append]

-- Every panel is in one unit, and the units are in the order of the panels.
theorem planUnits_panels : (planUnits cfg).flatMap UnitPlan.panels = cfg.panels := by
  rw [planUnits, h.planFrom_panels hn (List.nil_append _).symm (by simp)]
  refine List.filter_eq_self.mpr fun p _ => ?_
  cases hp : p.groupId <;> simp [PanelConfig.unplanned, hp]

omit hn in
theorem planFrom_shared {seen : List String} {ps : List PanelConfig} :
    ∀ u ∈ planFrom cfg seen ps, u.Shared := by
  induction ps generalizing seen
  case nil => simp [planFrom]
  case cons p ps ih =>
    simp only [planFrom]
    split
    case h_1 g hg =>
      split
      case isTrue  => exact ih
      case isFalse =>
        refine List.forall_mem_cons.mpr ⟨fun q hq => ?_, ih⟩
        have ⟨hq, hid⟩ := List.mem_filter.mp hq
        have ⟨gid, _, hf⟩ := Option.bind_eq_some_iff.mp hg
        exact h.mirrored q hq g (List.mem_of_find?_eq_some hf) (by simpa using hid)
    case h_2 =>
      refine List.forall_mem_cons.mpr ⟨?_, ih⟩
      split
      case isTrue  => exact fun q hq => List.mem_singleton.mp hq ▸ ⟨rfl, rfl, rfl⟩
      case isFalse => exact fun q hq => List.mem_singleton.mp hq ▸ ⟨rfl, rfl, rfl⟩

end BoardConfig.Grouped

end

end Monitor
