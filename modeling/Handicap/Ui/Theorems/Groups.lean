import Handicap.Monitor.Theorems.Config
import Handicap.Ui.Groups

namespace Ui

open Monitor Contiguous

variable {cfg : BoardConfig} {groupId panelId : String} {p : PanelConfig} {g : CheckGroup}

-- The groups and the panels that an edit is about are there, and the id of a new group is new.
def GroupEdit.Applies (cfg : BoardConfig) : GroupEdit → Prop
  | .addGroup groupId _        => groupId ≠ "" ∧ groupId ∉ cfg.groups.map (·.id)
  | .addPanelToGroup groupId _ => groupId ∈ cfg.groups.map (·.id)
  | .updateGroup next          => next.id ∈ cfg.groups.map (·.id)
  | .setPanelStep index _      => index < cfg.panels.length
  | .removePanel index         => index < cfg.panels.length
  | .removeGroup groupId       => groupId ∈ cfg.groups.map (·.id)

instance {e : GroupEdit} : Decidable (e.Applies cfg) :=
  match e with
  | .addGroup ..        => inferInstanceAs (Decidable (_ ∧ _))
  | .addPanelToGroup .. => inferInstanceAs (Decidable (_ ∈ _))
  | .updateGroup _      => inferInstanceAs (Decidable (_ ∈ _))
  | .setPanelStep ..    => inferInstanceAs (Decidable (_ < _))
  | .removePanel _      => inferInstanceAs (Decidable (_ < _))
  | .removeGroup _      => inferInstanceAs (Decidable (_ ∈ _))

-- What the editor maintains.
structure Editable (cfg : BoardConfig) : Prop extends cfg.Grouped where
  groupIds : (cfg.groups.map (·.id)).Nodup
  named    : ∀ g ∈ cfg.groups, g.id ≠ ""

theorem Editable.mem_groupKeys (h : Editable cfg) (hg : g ∈ cfg.groups) :
    some g.id ∈ cfg.groupKeys :=
  List.mem_map.mpr (h.nonempty g hg)

theorem addGroup_editable (h : Editable cfg) (hne : groupId ≠ "")
    (hnew : groupId ∉ cfg.groups.map (·.id)) : Editable (addGroup cfg groupId panelId) := by
  have hk : some groupId ∉ cfg.groupKeys := by
    intro hm
    have ⟨p, hp, hid⟩ := List.mem_map.mp hm
    have ⟨g, hg, he⟩ := h.existing p hp groupId hid
    exact hnew (List.mem_map.mpr ⟨g, hg, he⟩)
  constructor
  case toGrouped =>
    constructor
    case existing =>
      refine List.forall_mem_append.mpr ⟨fun p hp gid hid => ?_, ?_⟩
      · have ⟨g, hg, he⟩ := h.existing p hp gid hid
        exact ⟨g, List.mem_append_left _ hg, he⟩
      · simp [newPanel, addGroup]
    case nonempty =>
      refine List.forall_mem_append.mpr ⟨fun g hg => ?_, ?_⟩
      · have ⟨p, hp, hid⟩ := h.nonempty g hg
        exact ⟨p, List.mem_append_left _ hp, hid⟩
      · simp [addGroup]
    case contiguous =>
      have hc : Contiguous (cfg.groupKeys ++ [some groupId]) :=
        h.contiguous.concat fun g hg => hg ▸ hk
      simpa [BoardConfig.groupKeys, addGroup] using hc
    case mirrored =>
      refine List.forall_mem_append.mpr ⟨fun p hp => List.forall_mem_append.mpr ⟨?_, ?_⟩, ?_⟩
      · exact h.mirrored p hp
      · simp only [List.mem_singleton, forall_eq]
        exact fun hid => absurd (List.mem_map.mpr ⟨p, hp, hid⟩) hk
      · simp only [List.mem_singleton, forall_eq]
        refine List.forall_mem_append.mpr ⟨fun g hg hid => ?_, ?_⟩
        · exact absurd (List.mem_map.mpr ⟨g, hg, (Option.some.inj hid).symm⟩) hnew
        · simp [PanelConfig.Follows]
  case groupIds => simpa [addGroup, List.nodup_append] using ⟨h.groupIds, by simpa using hnew⟩
  case named    => exact List.forall_mem_append.mpr ⟨h.named, by simpa using hne⟩

-- What stands behind the last panel of a group stands next to it.
theorem insertIdx_behind {ps : List PanelConfig} {n : ℕ} (h : behind groupId ps = some n) :
    ∃ l₁ q l₂, ps = l₁ ++ q :: l₂ ∧ q.groupId = some groupId ∧
      ∀ p, ps.insertIdx n p = l₁ ++ q :: p :: l₂ := by
  induction ps generalizing n
  case nil => simp [behind] at h
  case cons q ps ih =>
    simp only [behind] at h
    split at h
    case h_1 m hm =>
      obtain rfl := Option.some.inj h
      obtain ⟨l₁, r, l₂, rfl, hr, hi⟩ := ih hm
      exact ⟨q :: l₁, r, l₂, rfl, hr, fun p => by simp [hi]⟩
    case h_2 =>
      obtain ⟨hq, rfl⟩ : q.groupId = some groupId ∧ 1 = n := by simpa using h
      exact ⟨[], q, ps, rfl, hq, fun p => rfl⟩

theorem behind_isSome {ps : List PanelConfig} (h : some groupId ∈ ps.map (·.groupId)) :
    ∃ n, behind groupId ps = some n := by
  induction ps
  case nil => simp at h
  case cons q ps ih =>
    simp only [behind]
    cases hb : behind groupId ps
    case some n => exact ⟨n + 1, rfl⟩
    case none   =>
      cases List.mem_cons.mp h
      case inl hq => exact ⟨1, by simp [hq]⟩
      case inr hm => simpa [hb] using ih hm

theorem addPanelToGroup_editable (h : Editable cfg) (hm : groupId ∈ cfg.groups.map (·.id)) :
    Editable (addPanelToGroup cfg groupId panelId) := by
  obtain ⟨g, hg, rfl⟩ := List.mem_map.mp hm
  obtain ⟨n, hn⟩ := behind_isSome (h.mem_groupKeys hg)
  obtain ⟨l₁, q, l₂, hps, hq, hi⟩ := insertIdx_behind hn
  have hf : cfg.groups.find? (·.id = g.id) = some g := by
    have he := (groupOf_eq_some_iff h.groupIds (p := { groupId := some g.id })).mpr ⟨hg, rfl⟩
    simpa [BoardConfig.groupOf] using he
  let panel := mirrored { newPanel panelId with groupId := some g.id } g
  have hcfg : addPanelToGroup cfg g.id panelId =
      { cfg with panels := l₁ ++ q :: panel :: l₂ } := by
    simp only [addPanelToGroup, hn, hf, Option.getD_some, hi, panel]
  have hmem (p : PanelConfig) (hp : p ∈ l₁ ++ q :: panel :: l₂) : p = panel ∨ p ∈ cfg.panels := by
    rw [hps]
    simp only [List.mem_append, List.mem_cons] at hp ⊢
    tauto
  have hsub (p : PanelConfig) (hp : p ∈ cfg.panels) : p ∈ l₁ ++ q :: panel :: l₂ := by
    rw [hps] at hp
    simp only [List.mem_append, List.mem_cons] at hp ⊢
    tauto
  rw [hcfg]
  constructor
  case toGrouped =>
    constructor
    case existing =>
      intro p hp gid hid
      cases hmem p hp
      case inl hp => exact ⟨g, hg, by simpa [hp, panel, mirrored] using hid⟩
      case inr hp => exact h.existing p hp gid hid
    case nonempty =>
      intro g' hg'
      obtain ⟨p, hp, hid⟩ := h.nonempty g' hg'
      exact ⟨p, hsub p hp, hid⟩
    case contiguous =>
      have hc : Contiguous (l₁.map (·.groupId) ++ some g.id :: l₂.map (·.groupId)) := by
        simpa [BoardConfig.groupKeys, hps, hq] using h.contiguous
      simpa [BoardConfig.groupKeys, hq, panel, mirrored] using hc.dup
    case mirrored =>
      intro p hp g' hg' hid
      cases hmem p hp
      case inl hp =>
        have he : g.id = g'.id := by simpa [hp, panel, mirrored] using hid
        obtain rfl := List.inj_on_of_nodup_map h.groupIds hg hg' he
        exact hp ▸ ⟨rfl, rfl, rfl⟩
      case inr hp => exact h.mirrored p hp g' hg' hid
  case groupIds => exact h.groupIds
  case named    => exact h.named

-- An edit that leaves the groups of the panels and the ids of the groups as they are.
theorem Editable.of_groupKeys (h : Editable cfg) {panels : List PanelConfig}
    {k : CheckGroup → CheckGroup} (hp : panels.map (·.groupId) = cfg.groupKeys)
    (hk : ∀ g, (k g).id = g.id)
    (hm : ∀ p ∈ panels, ∀ g ∈ cfg.groups, p.groupId = some g.id → p.Follows (k g)) :
    Editable { cfg with panels, groups := cfg.groups.map k } := by
  constructor
  case toGrouped =>
    constructor
    case existing =>
      intro p hpm gid hid
      have hgid : some gid ∈ cfg.groupKeys := hp ▸ List.mem_map.mpr ⟨p, hpm, hid⟩
      have ⟨q, hq, hqid⟩ := List.mem_map.mp hgid
      have ⟨g, hg, he⟩ := h.existing q hq gid hqid
      exact ⟨k g, List.mem_map_of_mem hg, (hk g).trans he⟩
    case nonempty =>
      refine List.forall_mem_map.mpr fun g hg => ?_
      have hgid : some g.id ∈ panels.map (·.groupId) := hp ▸ h.mem_groupKeys hg
      exact hk g ▸ List.mem_map.mp hgid
    case contiguous =>
      have hc : Contiguous (panels.map (·.groupId)) := hp ▸ h.contiguous
      exact hc
    case mirrored =>
      refine fun p hpm => List.forall_mem_map.mpr fun g hg hid => ?_
      exact hm p hpm g hg (hk g ▸ hid)
  case groupIds => simpa [Function.comp_def, hk] using h.groupIds
  case named    => exact List.forall_mem_map.mpr fun g hg => hk g ▸ h.named g hg

theorem updateGroup_editable {next : CheckGroup} (h : Editable cfg) :
    Editable (updateGroup cfg next) := by
  refine h.of_groupKeys ?_ (fun g => ?_) (List.forall_mem_map.mpr fun p hp g hg hid => ?_)
  case refine_1 =>
    refine (List.map_map ..).trans (List.map_congr_left fun p _ => ?_)
    simp only [Function.comp_apply]
    split <;> rfl
  case refine_2 => split <;> simp_all
  case refine_3 =>
    have hid : p.groupId = some g.id := by
      split at hid
      case isTrue  => exact hid
      case isFalse => exact hid
    by_cases he : g.id = next.id
    case pos => simp [hid, he, mirrored, PanelConfig.Follows]
    case neg => simpa [hid, he] using h.mirrored p hp g hg hid

theorem setPanelStep_editable {index : ℕ} {stepId : String} (h : Editable cfg) :
    Editable (editGroups cfg (.setPanelStep index stepId)) := by
  have he : editGroups cfg (.setPanelStep index stepId) =
      { cfg with
        panels := cfg.panels.modify index (setPanelStep · stepId), groups := cfg.groups.map id } := by
    simp [editGroups]
  rw [he]
  refine h.of_groupKeys ?_ (fun _ => rfl) fun p hp g hg hid => ?_
  case refine_1 =>
    refine List.ext_getElem (by simp [BoardConfig.groupKeys]) fun i _ _ => ?_
    simp only [List.getElem_map, List.getElem_modify, BoardConfig.groupKeys]
    split <;> rfl
  case refine_2 =>
    obtain ⟨i, hi, hp⟩ := List.mem_iff_getElem.mp hp
    rw [List.getElem_modify] at hp
    have hf := h.mirrored _ (List.getElem_mem (by simpa using hi)) g hg
    split at hp
    case isTrue =>
      subst hp
      exact hf hid
    case isFalse =>
      subst hp
      exact hf hid

-- Some of the panels, and those of the groups that have panels among them.
theorem Editable.restrict (h : Editable cfg) {panels : List PanelConfig} {groups : List CheckGroup}
    (hp : panels.Sublist cfg.panels) (hg : groups.Sublist cfg.groups)
    (hm : ∀ g ∈ cfg.groups, g ∈ groups ↔ some g.id ∈ panels.map (·.groupId)) :
    Editable { cfg with panels, groups } := by
  constructor
  case toGrouped =>
    constructor
    case existing =>
      intro p hpm gid hid
      have ⟨g, hgm, he⟩ := h.existing p (hp.subset hpm) gid hid
      exact ⟨g, (hm g hgm).mpr (List.mem_map.mpr ⟨p, hpm, he ▸ hid⟩), he⟩
    case nonempty   => exact fun g hgm => List.mem_map.mp ((hm g (hg.subset hgm)).mp hgm)
    case contiguous => exact h.contiguous.sublist (hp.map _)
    case mirrored   => exact fun p hpm g hgm => h.mirrored p (hp.subset hpm) g (hg.subset hgm)
  case groupIds => exact h.groupIds.sublist (hg.map _)
  case named    => exact fun g hgm => h.named g (hg.subset hgm)

theorem removeGroup_editable (h : Editable cfg) : Editable (removeGroup cfg groupId) := by
  refine h.restrict List.filter_sublist List.filter_sublist fun g hg => ?_
  have ⟨p, hp, hid⟩ := h.nonempty g hg
  simp only [List.mem_filter, hg, true_and, decide_eq_true_eq, List.mem_map]
  constructor
  case mp  => exact fun hne => ⟨p, ⟨hp, by simpa [hid] using hne⟩, hid⟩
  case mpr =>
    rintro ⟨q, ⟨-, hq⟩, hqid⟩ he
    exact hq (he ▸ hqid)

-- The panels of the other groups stay.
theorem mem_eraseIdx_groupId {index : ℕ} (h : Editable cfg) (hg : g ∈ cfg.groups)
    (hn : (cfg.panels[index]?).bind (·.groupId) ≠ some g.id) :
    some g.id ∈ (cfg.panels.eraseIdx index).map (·.groupId) := by
  have ⟨p, hp, hid⟩ := h.nonempty g hg
  have ⟨i, hi⟩ := List.mem_iff_getElem?.mp hp
  refine List.mem_map.mpr ⟨p, List.mem_eraseIdx_iff_getElem?.mpr ⟨i, fun he => ?_, hi⟩, hid⟩
  exact hn (by simp [← he, hi, hid])

theorem removePanel_editable {index : ℕ} (h : Editable cfg) :
    Editable (removePanel cfg index) := by
  have hp : (cfg.panels.eraseIdx index).Sublist cfg.panels := List.eraseIdx_sublist ..
  simp only [removePanel]
  split
  case h_2 hn =>
    exact h.restrict hp (List.Sublist.refl _) fun g hg =>
      iff_of_true hg (mem_eraseIdx_groupId h hg (by simp [hn]))
  case h_1 gid hgid =>
    have hany : (cfg.panels.eraseIdx index).any (·.groupId = some gid) ↔
        some gid ∈ (cfg.panels.eraseIdx index).map (·.groupId) := by
      simp
    split
    case isTrue hc =>
      refine h.restrict hp List.filter_sublist fun g hg => ?_
      simp only [List.mem_filter, hg, true_and, decide_eq_true_eq]
      constructor
      case mp  => exact fun hne => mem_eraseIdx_groupId h hg (by simpa [hgid] using Ne.symm hne)
      case mpr => exact fun hm he => hc.2 (hany.mpr (he ▸ hm))
    case isFalse hc =>
      refine h.restrict hp (List.Sublist.refl _) fun g hg => iff_of_true hg ?_
      by_cases he : gid = g.id
      case neg => exact mem_eraseIdx_groupId h hg (by simpa [hgid] using he)
      case pos =>
        subst he
        refine hany.mp ?_
        by_contra hn
        exact hc ⟨h.named g hg, hn⟩

theorem editGroups_editable {e : GroupEdit} (h : Editable cfg) (ha : e.Applies cfg) :
    Editable (editGroups cfg e) := by
  cases e
  case addGroup        => exact addGroup_editable h ha.1 ha.2
  case addPanelToGroup => exact addPanelToGroup_editable h ha
  case updateGroup     => exact updateGroup_editable h
  case setPanelStep    => exact setPanelStep_editable h
  case removePanel     => exact removePanel_editable h
  case removeGroup     => exact removeGroup_editable h

-- A board whose checks have been passed is in its form, passes again as it is, is planned panel by
-- panel, and keeps what its groups promise however it is edited.
theorem board_normal {lib : ConfigLib} {new : ℕ → String} {name name' : String}
    {cfg cfg' : BoardConfig} (hn : ∀ n, lib.isUlid (new n)) (he : ¬lib.isUlid "")
    (h : validateAndNormalize lib new name cfg = .ok (name', cfg')) :
    cfg'.Normal ∧
    (∀ new', validateAndNormalize lib new' name' cfg' = .ok (name', cfg')) ∧
    (planUnits cfg').flatMap UnitPlan.panels = cfg'.panels ∧
    (∀ u ∈ planUnits cfg', u.Shared) ∧
    ∀ edits, Trace.Meets editGroups GroupEdit.Applies cfg' edits →
      (Trace.run editGroups cfg' edits).Grouped := by
  have hnormal := validate_normal h
  refine ⟨hnormal, fun new' => validate_self h hn he, hnormal.planUnits_panels hnormal.groupIds,
    hnormal.planFrom_shared, fun edits hm => ?_⟩
  have heditable : Editable cfg' :=
    { hnormal with
      named := fun g hg hid => he (hid ▸ validate_ulids h g hg) }
  have hrun : Editable (Trace.run editGroups cfg' edits) :=
    hm.invariant heditable fun _ _ => editGroups_editable
  exact hrun.toGrouped

-- Ids of 26 characters of the alphabet of ids.
def ulidLib : ConfigLib where
  isUlid s :=
    s.length = 26 && s.toList.all fun c => c.isDigit || (c.isUpper && c ∉ ['I', 'L', 'O', 'U'])
  jsonpathIsValid := jsonpathIsSimple

def groupUlid := "01J0000000000000000000000G"
def stepUlid  := "01J0000000000000000000000S"
def newUlid   := "01J0000000000000000000000N"

-- A group of two panels, of which one has no id, and a panel on its own.
def pairBoard : BoardConfig where
  panels :=
    [{ id := "01J0000000000000000000000A", title := " login ", groupId := groupUlid,
       stepId := stepUlid },
     { title := "pay", groupId := groupUlid, stepId := stepUlid,
       conditions := [⟨"", .status, "", .eq, "200", false, true⟩] },
     { id := "01J0000000000000000000000B", title := "home", scenarioId := "S2" }]
  groups := [{ id := groupUlid, scenarioId := "S1" }]

def pairNormal : BoardConfig where
  panels :=
    [{ id := "01J0000000000000000000000A", title := "login", scenarioId := "S1",
       groupId := groupUlid, stepId := stepUlid, latencySource := .step stepUlid },
     { id := newUlid, title := "pay", scenarioId := "S1", groupId := groupUlid, stepId := stepUlid,
       latencySource := .step stepUlid,
       conditions := [⟨stepUlid, .status, "", .eq, "200", false, true⟩] },
     { id := "01J0000000000000000000000B", title := "home", scenarioId := "S2" }]
  groups := [{ id := groupUlid, scenarioId := "S1" }]

theorem board_normal_pair :
    pairNormal.Normal ∧
    (∀ new', validateAndNormalize ulidLib new' "shop" pairNormal = .ok ("shop", pairNormal)) ∧
    (planUnits pairNormal).flatMap UnitPlan.panels = pairNormal.panels ∧
    (Trace.run editGroups pairNormal
      [.addPanelToGroup groupUlid "P", .removePanel 0, .addGroup "H" "Q"]).Grouped := by
  have ⟨hn, hv, hp, _, hr⟩ := @board_normal ulidLib (fun _ => newUlid) " shop " "shop" pairBoard
    pairNormal (fun _ => by decide +kernel) (by decide +kernel) (by decide +kernel)
  exact ⟨hn, hv, hp, hr _ (by decide +kernel)⟩

end Ui
