import Handicap.Monitor.Supervisor
import Handicap.Monitor.Theorems.Config
import Mathlib.Data.List.Forall2

namespace Monitor

variable {Body : Type}

namespace PanelBuf

variable {b : PanelBuf Body} {result : CheckResult} {record : CheckRecord Body}
  {barCount budgetSecs : ℕ}

-- The records are those of the newest results.
structure Aligned (b : PanelBuf Body) : Prop where
  capped : b.results.length ≤ bufferCap
  newest : b.records.map (·.result) <:+ b.results
  times  : ∀ r ∈ b.records, r.atMs = r.result.atMs

-- The results that are left when others come after them.
def Keeps (results results' : List CheckResult) : Prop :=
  ∃ new, results' = (results ++ new).rtake bufferCap

theorem rtake_of_length_le {α : Type} {l : List α} {n : ℕ} (h : l.length ≤ n) : l.rtake n = l := by
  rw [List.rtake, Nat.sub_eq_zero_of_le h, List.drop_zero]

theorem length_rtake {α : Type} {l : List α} {n : ℕ} : (l.rtake n).length = min n l.length := by
  rw [List.rtake, List.length_drop]
  omega

theorem rtake_suffix_rtake {α : Type} {l l' : List α} {n n' : ℕ} (h : l <:+ l') (hn : n ≤ n') :
    l.rtake n <:+ l'.rtake n' := by
  refine List.suffix_of_suffix_length_le ((List.drop_suffix _ l).trans h) (List.drop_suffix _ l') ?_
  have hl := h.length_le
  rw [length_rtake, length_rtake]
  omega

theorem rtake_rtake_append {α : Type} {l l' : List α} {n : ℕ} :
    (l.rtake n ++ l').rtake n = (l ++ l').rtake n := by
  have hs : (l.rtake n ++ l').rtake n <:+ (l ++ l').rtake n :=
    rtake_suffix_rtake (List.suffix_append_self_iff.mpr (List.drop_suffix _ l)) le_rfl
  refine hs.eq_of_length ?_
  simp only [length_rtake, List.length_append]
  omega

theorem Keeps.refl {results : List CheckResult} (h : results.length ≤ bufferCap) :
    Keeps results results :=
  ⟨[], by simp only [List.append_nil, rtake_of_length_le h]⟩

theorem Keeps.trans {r₁ r₂ r₃ : List CheckResult} (h₁ : Keeps r₁ r₂) (h₂ : Keeps r₂ r₃) :
    Keeps r₁ r₃ := by
  have ⟨n₁, h₁⟩ := h₁
  have ⟨n₂, h₂⟩ := h₂
  exact ⟨n₁ ++ n₂, by rw [h₂, h₁, rtake_rtake_append, List.append_assoc]⟩

theorem finishRound_results (h : b.results.length ≤ bufferCap) :
    (b.finishRound result record barCount budgetSecs).results =
      (b.results ++ [result]).rtake bufferCap := by
  simp only [finishRound]
  split
  case isFalse hc =>
    rw [rtake_of_length_le]
    rw [List.length_append]
    exact Nat.lt_of_not_le hc
  case isTrue hc =>
    have hl : b.results.length = bufferCap := h.antisymm hc
    have hn : b.results ≠ [] := by
      rintro hn
      simp [hn, bufferCap] at hl
    rw [List.rtake, List.length_append, hl, List.length_singleton, Nat.add_sub_cancel_left,
      List.drop_one, List.tail_append_of_ne_nil hn]

theorem finishRound_aligned (h : b.Aligned) (hc : barCount ≤ bufferCap) {body : Body} :
    (b.finishRound result (buildRecord body result) barCount budgetSecs).Aligned := by
  have hr : (b.finishRound result (buildRecord body result) barCount budgetSecs).results =
      (b.results ++ [result]).rtake bufferCap := finishRound_results h.capped
  refine ⟨?_, ?_, ?_⟩
  case refine_1 =>
    rw [hr, List.rtake, List.length_drop]
    omega
  case refine_2 =>
    have hm : (b.finishRound result (buildRecord body result) barCount budgetSecs).records.map
        (·.result) = (b.records.map (·.result) ++ [result]).rtake barCount := by
      simp [finishRound, List.rtake, buildRecord, List.map_drop]
    rw [hm, hr]
    exact rtake_suffix_rtake (List.suffix_append_self_iff.mpr h.newest) hc
  case refine_3 =>
    intro r hm
    have hm : r ∈ b.records ++ [buildRecord body result] := List.mem_of_mem_drop hm
    cases List.mem_append.mp hm
    case inl hm => exact h.times r hm
    case inr hm => exact List.mem_singleton.mp hm ▸ rfl

end PanelBuf

-- The buffers of a board after a while: none is lost, and each keeps its results.
def Grows (bufs bufs' : List (PanelBuf Body)) : Prop :=
  ∀ (i : ℕ) (buf : PanelBuf Body), bufs[i]? = some buf →
    ∃ buf', bufs'[i]? = some buf' ∧ PanelBuf.Keeps buf.results buf'.results

section

open PanelBuf

variable {bufs bufs' : List (PanelBuf Body)}

theorem Grows.refl (h : ∀ buf ∈ bufs, buf.Aligned) : Grows bufs bufs :=
  fun _ buf hb => ⟨buf, hb, .refl (h buf (List.mem_of_getElem? hb)).capped⟩

theorem Grows.trans {bufs₁ bufs₂ bufs₃ : List (PanelBuf Body)} (h₁ : Grows bufs₁ bufs₂)
    (h₂ : Grows bufs₂ bufs₃) : Grows bufs₁ bufs₃ := by
  intro i buf hb
  have ⟨buf₂, hb₂, hk₂⟩ := h₁ i buf hb
  have ⟨buf₃, hb₃, hk₃⟩ := h₂ i buf₂ hb₂
  exact ⟨buf₃, hb₃, hk₂.trans hk₃⟩

theorem mem_modify {α : Type} {l : List α} {i : ℕ} {f : α → α} {a : α} (h : a ∈ l.modify i f) :
    ∃ b ∈ l, a = b ∨ a = f b := by
  obtain ⟨j, hj⟩ := List.mem_iff_getElem?.mp h
  rw [List.getElem?_modify] at hj
  obtain ⟨b, hb, he⟩ := Option.map_eq_some_iff.mp hj
  refine ⟨b, List.mem_of_getElem? hb, ?_⟩
  split at he
  case isTrue  => exact .inr he.symm
  case isFalse => exact .inl he.symm

theorem Grows.modify {i : ℕ} {f : PanelBuf Body → PanelBuf Body} (h : ∀ buf ∈ bufs, buf.Aligned)
    (hf : ∀ buf ∈ bufs, Keeps buf.results (f buf).results) : Grows bufs (bufs.modify i f) := by
  intro j buf hb
  have hm := List.mem_of_getElem? hb
  rw [List.getElem?_modify, hb]
  by_cases hj : i = j
  case pos => exact ⟨f buf, by simp [hj], hf buf hm⟩
  case neg => exact ⟨buf, by simp [hj], .refl (h buf hm).capped⟩

theorem aligned_setRunning (running : Bool) (h : ∀ buf ∈ bufs, buf.Aligned) {i : ℕ} :
    (∀ buf ∈ bufs.modify i ({ · with running }), buf.Aligned) ∧
      Grows bufs (bufs.modify i ({ · with running })) := by
  refine ⟨fun buf hb => ?_, .modify h fun buf hb => .refl (h buf hb).capped⟩
  obtain ⟨buf', hb', rfl | rfl⟩ := mem_modify hb
  case inl => exact h buf hb'
  case inr => exact ⟨(h buf' hb').capped, (h buf' hb').newest, (h buf' hb').times⟩

theorem aligned_foldl {running : Bool} {members : List Member} (h : ∀ buf ∈ bufs, buf.Aligned) :
    (∀ buf ∈ members.foldl (fun bufs m => bufs.modify m.buf ({ · with running })) bufs,
        buf.Aligned) ∧
      Grows bufs (members.foldl (fun bufs m => bufs.modify m.buf ({ · with running })) bufs) := by
  induction members generalizing bufs
  case nil => exact ⟨h, .refl h⟩
  case cons m members ih =>
    have ⟨h₁, hg₁⟩ := aligned_setRunning running h (i := m.buf)
    have ⟨h₂, hg₂⟩ := ih h₁
    exact ⟨h₂, hg₁.trans hg₂⟩

end

-- The member of a panel has its buffer and its number of bars.
def Attached (view : Table String ℕ) (p : PanelConfig) (m : Member) : Prop :=
  view.lookup p.id = some m.buf ∧ m.barCount = p.barCount

-- The buffers are handed over to panels with the ids. One that was there is kept.
structure Handover.HandsOver (h h' : Handover Body) (ids : List String) : Prop where
  view    : ∀ id ∉ ids, h'.view.lookup id = h.view.lookup id
  old     : ∀ id ∉ ids, h'.old.lookup id = h.old.lookup id
  kept    : ∀ id ∈ ids, ∀ i, h.old.lookup id = some i → h'.view.lookup id = some i
  aligned : ∀ buf ∈ h'.bufs, buf.Aligned
  grows   : Grows h.bufs h'.bufs

namespace Handover

variable {h h' h'' : Handover Body} {p : PanelConfig} {ps : List PanelConfig} {ids ids' : List String}

theorem HandsOver.refl (ha : ∀ buf ∈ h.bufs, buf.Aligned) : h.HandsOver h [] :=
  ⟨fun _ _ => rfl, fun _ _ => rfl, by simp, ha, .refl ha⟩

theorem HandsOver.trans (h₁ : h.HandsOver h' ids) (h₂ : h'.HandsOver h'' ids')
    (hd : ids.Disjoint ids') : h.HandsOver h'' (ids ++ ids') where
  view id hid := by
    have hn := List.mem_append.not.mp hid
    rw [h₂.view id fun h => hn (.inr h), h₁.view id fun h => hn (.inl h)]
  old id hid := by
    have hn := List.mem_append.not.mp hid
    rw [h₂.old id fun h => hn (.inr h), h₁.old id fun h => hn (.inl h)]
  kept id hid i hi := by
    by_cases hm : id ∈ ids
    case pos => rw [h₂.view id (hd hm), h₁.kept id hm i hi]
    case neg =>
      refine h₂.kept id ((List.mem_append.mp hid).resolve_left hm) i ?_
      rw [h₁.old id hm, hi]
  aligned := h₂.aligned
  grows   := h₁.grows.trans h₂.grows

theorem panel_spec (ha : ∀ buf ∈ h.bufs, buf.Aligned) :
    h.HandsOver (h.panel p).1 [p.id] ∧ Attached (h.panel p).1.view p (h.panel p).2 := by
  rw [panel]
  split
  case h_1 i hi =>
    refine ⟨⟨?_, ?_, ?_, ?_, ?_⟩, AList.lookup_insert _, rfl⟩
    case refine_1 =>
      exact fun id hid => AList.lookup_insert_ne (List.mem_singleton.not.mp hid)
    case refine_2 =>
      exact fun id hid => AList.lookup_erase_ne (List.mem_singleton.not.mp hid)
    case refine_3 =>
      intro id hid j hj
      obtain rfl := List.mem_singleton.mp hid
      obtain rfl : i = j := Option.some.inj (hi.symm.trans hj)
      exact AList.lookup_insert _
    case refine_4 =>
      intro buf hb
      obtain ⟨buf', hb', rfl | rfl⟩ := mem_modify hb
      case inl => exact ha buf hb'
      case inr => exact ⟨(ha buf' hb').capped, (ha buf' hb').newest, (ha buf' hb').times⟩
    case refine_5 => exact .modify ha fun buf hb => .refl (ha buf hb).capped
  case h_2 hi =>
    refine ⟨⟨?_, ?_, ?_, ?_, ?_⟩, AList.lookup_insert _, rfl⟩
    case refine_1 =>
      exact fun id hid => AList.lookup_insert_ne (List.mem_singleton.not.mp hid)
    case refine_2 => exact fun id _ => rfl
    case refine_3 =>
      intro id hid j hj
      obtain rfl := List.mem_singleton.mp hid
      exact absurd (hi.symm.trans hj) (by simp)
    case refine_4 =>
      intro buf hb
      cases List.mem_append.mp hb
      case inl hb => exact ha buf hb
      case inr hb =>
        obtain rfl := List.mem_singleton.mp hb
        exact ⟨Nat.zero_le _, List.suffix_rfl, by simp⟩
    case refine_5 =>
      intro i buf hb
      have hm := List.mem_of_getElem? hb
      exact ⟨buf, List.getElem?_append_left (List.getElem?_eq_some_iff.mp hb).1 ▸ hb,
        .refl (ha buf hm).capped⟩

theorem panels_spec (ha : ∀ buf ∈ h.bufs, buf.Aligned) (hn : (ps.map (·.id)).Nodup) :
    h.HandsOver (h.panels ps).1 (ps.map (·.id)) ∧
      List.Forall₂ (Attached (h.panels ps).1.view) ps (h.panels ps).2 := by
  induction ps generalizing h
  case nil => exact ⟨.refl ha, .nil⟩
  case cons p ps ih =>
    have ⟨hp, hn⟩ := List.nodup_cons.mp hn
    have ⟨h₁, ha₁⟩ := panel_spec (p := p) ha
    have ⟨h₂, ha₂⟩ := ih h₁.aligned hn
    refine ⟨h₁.trans h₂ (List.singleton_disjoint.mpr hp), .cons ⟨?_, ha₁.2⟩ ha₂⟩
    exact (h₂.view p.id hp).trans ha₁.1

variable {limit token : ℕ} {plans : List UnitPlan}

-- A loop that has not started.
structure Spawned (token : ℕ) (view : Table String ℕ) (l : UnitLoop Body) : Prop where
  token   : l.token = token
  aborted : l.aborted = false
  stage   : l.stage = .ready
  members : List.Forall₂ (Attached view) l.plan.panels l.members

theorem units_spec (limit token : ℕ) (ha : ∀ buf ∈ h.bufs, buf.Aligned)
    (hn : ((plans.flatMap UnitPlan.panels).map (·.id)).Nodup) :
    h.HandsOver (h.units limit token plans).1 ((plans.flatMap UnitPlan.panels).map (·.id)) ∧
      (h.units limit token plans).2.map (·.plan) = plans ∧
      ∀ l ∈ (h.units limit token plans).2, Spawned token (h.units limit token plans).1.view l := by
  induction plans generalizing h
  case nil => exact ⟨.refl ha, rfl, by simp [units]⟩
  case cons plan plans ih =>
    rw [List.flatMap_cons, List.map_append] at hn ⊢
    have ⟨hp, hn, hd⟩ := List.nodup_append'.mp hn
    have ⟨h₁, ha₁⟩ := panels_spec ha hp
    have ⟨h₂, he, hs⟩ := ih h₁.aligned hn
    refine ⟨h₁.trans h₂ hd, congrArg (plan :: ·) he, List.forall_mem_cons.mpr ⟨?_, hs⟩⟩
    have ⟨hl, hz⟩ := List.forall₂_iff_zip.mp ha₁
    refine ⟨rfl, rfl, rfl, List.forall₂_iff_zip.mpr ⟨hl, fun {p m} hm => ?_⟩⟩
    have hid : p.id ∈ plan.panels.map (·.id) := List.mem_map_of_mem (List.of_mem_zip hm).1
    exact ⟨(h₂.view p.id (hd hid)).trans (hz hm).1, (hz hm).2⟩

end Handover

theorem forall₂_modify {α : Type} {R : α → α → Prop} {l : List α} {i : ℕ} {f : α → α}
    (hr : ∀ a ∈ l, R a a) (hf : ∀ a, l[i]? = some a → R a (f a)) :
    List.Forall₂ R l (l.modify i f) := by
  induction l generalizing i
  case nil => simp
  case cons a l ih =>
    have ⟨ha, hr⟩ := List.forall_mem_cons.mp hr
    cases i
    case zero =>
      rw [List.modify_zero_cons]
      exact .cons (hf a rfl) (List.forall₂_same.mpr hr)
    case succ i =>
      rw [List.modify_succ_cons]
      exact .cons ha (ih hr fun a h => hf a (by simpa using h))

theorem getElem?_of_forall₂ {α β : Type} {R : α → β → Prop} {l : List α} {l' : List β} {i : ℕ}
    {a' : β} (h : List.Forall₂ R l l') (ha : l'[i]? = some a') : ∃ a, l[i]? = some a ∧ R a a' := by
  induction h generalizing i
  case nil => simp at ha
  case cons a a' l l' hr h ih =>
    cases i
    case zero =>
      obtain rfl : a' = _ := by simpa using ha
      exact ⟨a, rfl, hr⟩
    case succ i => exact ih (by simpa using ha)

theorem getElem?_of_forall₂_left {α : Type} {R : α → α → Prop} {l l' : List α} {i : ℕ} {a : α}
    (h : List.Forall₂ R l l') (ha : l[i]? = some a) : ∃ a', l'[i]? = some a' ∧ R a a' :=
  getElem?_of_forall₂ (R := fun a' a => R a a') h.flip ha

-- The panels whose buffers a loop has yet to change in its round.
def LoopStage.members : LoopStage Body → List Member
  | .finishing rest left _ _ => rest.map Prod.fst ++ left
  | _                        => []

-- What a loop does: it ends only if it is told to.
structure UnitLoop.Moves (root : Bool) (b : Board Body) (l l' : UnitLoop Body) : Prop where
  plan    : l'.plan = l.plan
  members : l'.members = l.members
  token   : l'.token = l.token
  aborted : l'.aborted = l.aborted
  alive   : l'.alive → l.alive
  ends    : l.alive → l'.alive ∨ l.aborted ∨ b.isCancelled root l.token
  fits    : (∀ m ∈ l.stage.members, m ∈ l.members) → ∀ m ∈ l'.stage.members, m ∈ l.members

theorem UnitLoop.Moves.refl {root : Bool} {b : Board Body} (l : UnitLoop Body) : l.Moves root b l :=
  ⟨rfl, rfl, rfl, rfl, id, .inl, id⟩

theorem UnitLoop.alive_iff {l : UnitLoop Body} : l.alive ↔ l.stage ≠ .ended := by
  rw [alive]
  cases l.stage <;> simp

theorem UnitLoop.Moves.goOn {root : Bool} {b : Board Body} {l : UnitLoop Body}
    {stage : LoopStage Body} (h : l.stage ≠ .ended) (hs : stage ≠ .ended)
    (hf : (∀ m ∈ l.stage.members, m ∈ l.members) → ∀ m ∈ stage.members, m ∈ l.members) :
    l.Moves root b { l with stage } :=
  ⟨rfl, rfl, rfl, rfl, fun _ => alive_iff.2 h, fun _ => .inl (alive_iff.2 hs), hf⟩

theorem UnitLoop.Moves.stop {root : Bool} {b : Board Body} {l : UnitLoop Body}
    (h : l.stage ≠ .ended) (ht : l.aborted ∨ b.isCancelled root l.token) :
    l.Moves root b { l with stage := .ended } :=
  ⟨rfl, rfl, rfl, rfl, fun _ => alive_iff.2 h, fun _ => .inr ht, fun _ => by simp [LoopStage.members]⟩

-- What the loops of a board do.
structure Board.Moves (root : Bool) (b b' : Board Body) : Prop where
  frame : b' = { b with loops := b'.loops, bufs := b'.bufs }
  loops : List.Forall₂ (UnitLoop.Moves root b) b.loops b'.loops

namespace Board

variable {lib : ConfigLib} {root : Bool} {b b' : Board Body} {i : ℕ} {l : UnitLoop Body}
  {a : BoardAction Body}

theorem Moves.refl : b.Moves root b :=
  ⟨rfl, List.forall₂_same.mpr fun l _ => .refl l⟩

theorem goto_moves {bufs : List (PanelBuf Body)} {stage : LoopStage Body}
    (hl : b.loops[i]? = some l) (hm : l.Moves root b { l with stage }) :
    b.Moves root ({ b with bufs }.goto i stage) := by
  refine ⟨rfl, forall₂_modify (fun l _ => .refl l) fun l' hl' => ?_⟩
  obtain rfl : l = l' := Option.some.inj (hl.symm.trans hl')
  exact hm

theorem exit_moves (hl : b.loops[i]? = some l) : b.Moves root (b.exit root i l) := by
  unfold exit
  split
  case h_4 => exact .refl
  case h_1 hs =>
    split
    case isTrue ha  => exact goto_moves hl (.stop (by simp [hs]) (.inl ha))
    case isFalse    => exact .refl
  case h_2 hs =>
    split
    case isTrue ha  => exact goto_moves hl (.stop (by simp [hs]) ha)
    case isFalse    => exact .refl
  case h_3 hs =>
    split
    case isTrue ha  => exact goto_moves hl (.stop (by simp [hs]) ha)
    case isFalse    => exact .refl

theorem loopStep_moves (hl : b.loops[i]? = some l) : b.Moves root (b.loopStep root i l a) := by
  unfold loopStep
  split
  case h_1 =>
    split
    case h_1 hs =>
      exact goto_moves hl (.goOn (by simp [hs]) (by simp) fun _ => by simp [LoopStage.members])
    case h_2 => exact .refl
  case h_2 results body budget =>
    split
    case h_1 hs =>
      refine goto_moves hl (.goOn (by simp [hs]) (by simp) fun _ m hm => ?_)
      cases List.mem_append.mp hm
      case inl hm =>
        have ⟨x, hx, he⟩ := List.mem_map.mp hm
        exact he ▸ (List.of_mem_zip hx).1
      case inr hm => exact List.mem_of_mem_drop hm
    case h_2 => exact .refl
  case h_3 =>
    split
    case h_1 m result rest left body budget hs =>
      refine goto_moves hl (.goOn (by simp [hs]) (by simp) fun hf m' hm => ?_)
      rw [hs] at hf
      exact hf m' (List.mem_cons_of_mem _ hm)
    case h_2 hs =>
      exact goto_moves hl (.goOn (by simp [hs]) (by simp) fun _ => by simp [LoopStage.members])
    case h_3 => exact .refl
  case h_4 =>
    split
    case h_1 hs =>
      exact goto_moves hl (.goOn (by simp [hs]) (by simp) fun _ => by simp [LoopStage.members])
    case h_2 => exact .refl
  case h_5 => exact exit_moves hl
  case h_6 => exact .refl

theorem withLoop_moves : b.Moves root (b.withLoop root i a) := by
  unfold withLoop
  split
  case h_1 l hl => exact loopStep_moves hl
  case h_2      => exact .refl

-- The buffers hold what they are to hold, and the loops have the numbers of bars of panels.
structure Filled (b : Board Body) : Prop where
  aligned : ∀ buf ∈ b.bufs, buf.Aligned
  capped  : ∀ l ∈ b.loops, ∀ m ∈ l.members, m.barCount ≤ bufferCap
  fits    : ∀ l ∈ b.loops, ∀ m ∈ l.stage.members, m ∈ l.members

-- Nothing but the loops and the buffers is needed for it.
theorem Filled.congr (h : b.Filled) (hb : b'.bufs = b.bufs) (hl : b'.loops = b.loops) : b'.Filled :=
  ⟨hb ▸ h.aligned, hl ▸ h.capped, hl ▸ h.fits⟩

theorem Filled.moves (h : b.Filled) (hm : b.Moves root b') (ha : ∀ buf ∈ b'.bufs, buf.Aligned) :
    b'.Filled := by
  refine ⟨ha, fun l' hl' => ?_, fun l' hl' => ?_⟩
  all_goals
    obtain ⟨j, hj⟩ := List.mem_iff_getElem?.mp hl'
    have ⟨l, hl, hml⟩ := getElem?_of_forall₂ hm.loops hj
    have hl := List.mem_of_getElem? hl
    rw [hml.members]
  case refine_1 => exact h.capped l hl
  case refine_2 => exact hml.fits (h.fits l hl)

theorem setRunning_bufs (h : b.Filled) {running : Bool} {members : List Member} :
    (∀ buf ∈ (b.setRunning running members).bufs, buf.Aligned) ∧
      Grows b.bufs (b.setRunning running members).bufs :=
  aligned_foldl h.aligned

theorem push_bufs (h : b.Filled) {m : Member} (hm : m.barCount ≤ bufferCap) {result : CheckResult}
    {body : Body} {budgetSecs : ℕ} :
    (∀ buf ∈ (b.push m result body budgetSecs).bufs, buf.Aligned) ∧
      Grows b.bufs (b.push m result body budgetSecs).bufs := by
  refine ⟨fun buf hb => ?_, .modify h.aligned fun buf hb => ?_⟩
  case refine_1 =>
    obtain ⟨buf', hb', rfl | rfl⟩ := mem_modify hb
    case inl => exact h.aligned buf hb'
    case inr => exact PanelBuf.finishRound_aligned (h.aligned buf' hb') hm
  case refine_2 => exact ⟨[result], PanelBuf.finishRound_results (h.aligned buf hb).capped⟩

theorem exit_bufs (h : b.Filled) : (∀ buf ∈ (b.exit root i l).bufs, buf.Aligned) ∧
    Grows b.bufs (b.exit root i l).bufs := by
  unfold exit
  split
  case h_1 => split <;> exact ⟨h.aligned, .refl h.aligned⟩
  case h_2 =>
    split
    case isTrue  => exact setRunning_bufs h
    case isFalse => exact ⟨h.aligned, .refl h.aligned⟩
  case h_3 => split <;> exact ⟨h.aligned, .refl h.aligned⟩
  case h_4 => exact ⟨h.aligned, .refl h.aligned⟩

theorem loopStep_bufs (h : b.Filled) (hl : b.loops[i]? = some l) :
    (∀ buf ∈ (b.loopStep root i l a).bufs, buf.Aligned) ∧
      Grows b.bufs (b.loopStep root i l a).bufs := by
  have hself : (∀ buf ∈ b.bufs, buf.Aligned) ∧ Grows b.bufs b.bufs := ⟨h.aligned, .refl h.aligned⟩
  unfold loopStep
  split
  case h_1 =>
    split
    case h_1 => exact setRunning_bufs h
    case h_2 => exact hself
  case h_2 => split <;> exact hself
  case h_3 =>
    split
    case h_1 m result rest left body budget hs =>
      have hl := List.mem_of_getElem? hl
      have hm : m ∈ l.stage.members := by simp [hs, LoopStage.members]
      exact push_bufs h (h.capped l hl m (h.fits l hl m hm))
    case h_2 => exact setRunning_bufs h
    case h_3 => exact hself
  case h_4 => split <;> exact hself
  case h_5 => exact exit_bufs h
  case h_6 => exact hself

theorem withLoop_filled (h : b.Filled) :
    (b.withLoop root i a).Filled ∧ Grows b.bufs (b.withLoop root i a).bufs := by
  have hm : b.Moves root (b.withLoop root i a) := withLoop_moves
  have hb : (∀ buf ∈ (b.withLoop root i a).bufs, buf.Aligned) ∧
      Grows b.bufs (b.withLoop root i a).bufs := by
    unfold withLoop
    split
    case h_1 l hl => exact loopStep_bufs h hl
    case h_2      => exact ⟨h.aligned, .refl h.aligned⟩
  exact ⟨h.moves hm hb.1, hb.2⟩

end Board

-- What the loops need of a board that is stored: its panels have ids of their own, and there are
-- not more bars than results.
structure Plannable (cfg : BoardConfig) : Prop where
  ids  : (((planUnits cfg).flatMap UnitPlan.panels).map (·.id)).Nodup
  bars : ∀ p ∈ (planUnits cfg).flatMap UnitPlan.panels, p.barCount ≤ bufferCap

-- A board that is stored has been accepted, or cannot be read and is taken to be empty.
def Accepted (lib : ConfigLib) (cfg : BoardConfig) : Prop :=
  cfg = {} ∨ ∃ new name cfg₀ name', validateAndNormalize lib new name cfg₀ = .ok (name', cfg)

theorem Accepted.plannable {lib : ConfigLib} {cfg : BoardConfig} (h : Accepted lib cfg) :
    Plannable cfg := by
  obtain rfl | ⟨new, name, cfg₀, name', h⟩ := h
  case inl => exact ⟨List.nodup_nil, by simp [planUnits, planFrom]⟩
  case inr =>
    have hn := validate_normal h
    have hp := hn.toGrouped.planUnits_panels hn.groupIds
    refine ⟨hp ▸ hn.panelIds, hp ▸ fun p hm => ?_⟩
    obtain ⟨q, -, n, hv⟩ := validate_panel h hm
    obtain ⟨-, id, -, hr, cs, -, ds, -, rfl⟩ := validatePanel_eq_ok.mp hv
    have hb : inRange (normalizePanel cfg₀.sortGroups q).barCount 10 300 := by
      simp only [checkRanges, Guard.bind_eq_ok, Guard.refuse_eq_ok] at hr
      obtain ⟨-, -, -, -, -, -, -, -, -, -, -, hb, -⟩ := hr
      simpa using hb
    simp only [inRange, Bool.and_eq_true, decide_eq_true_eq] at hb
    exact hb.2

namespace Board

variable {lib : ConfigLib} {root : Bool} {known : Prop} {b b' : Board Body}

-- What can happen to a board. A reconcile enters only a board that has a slot then.
inductive Steps (lib : ConfigLib) (root : Bool) (known : Prop) (b : Board Body) : Board Body → Prop
  | idle : Steps lib root known b b
  | write (row : Option BoardRow)
      (h : (∀ r ∈ b.row, Accepted lib r.config) → ∀ r ∈ row, Accepted lib r.config) :
      Steps lib root known b (b.write row)
  | insert (config : BoardConfig) (hn : b.row = none) (ha : Accepted lib config) :
      Steps lib root known b { b with row := some ⟨config, false⟩ }
  | resume : Steps lib root known b { b with requests := b.requests + 1 }
  | reconcile (h : 0 < b.requests) :
      Steps lib root known b
        { b with requests := b.requests - 1, callers := b.callers + 1, spawned := b.spawned + 1 }
  | leave (callers : ℕ) : Steps lib root known b { b with callers }
  | enter (hk : known) (h : 0 < b.spawned) :
      Steps lib root known b { b with spawned := b.spawned - 1, waiting := b.waiting + 1 }
  | acquire (hn : b.op = none) (h : 0 < b.waiting) :
      Steps lib root known b { b with op := some .read, waiting := b.waiting - 1 }
  | read (h : b.op = some .read) : Steps lib root known b (b.take (.stop b.row))
  | joined (op : Section) (h : b.op = some op) : Steps lib root known b (b.joined op)
  | abort (op : Section) (h : b.op = some op) : Steps lib root known b (b.abort op)
  | decide (row : Option BoardRow) (h : b.op = some (.stop row [])) :
      Steps lib root known b (b.decide root row)
  | install (config : BoardConfig) (h : b.op = some (.install config)) :
      Steps lib root known b (b.install config)
  | loop (i : ℕ) (a : BoardAction Body) : Steps lib root known b (b.withLoop root i a)
  | drain (call : ℕ) (hr : root) (hn : b.op = none) : Steps lib root known b (b.take (.drain call))
  | release (call : ℕ) (hr : root) (h : b.op = some (.drain call [])) :
      Steps lib root known b { b with op := none, view := none }

theorem opStep_steps {op : Section} (h : b.op = some op) (a : BoardAction Body) :
    Steps lib root known b (b.opStep root op a) := by
  unfold opStep
  split
  case h_1 => exact .read h
  case h_2 => exact .decide _ h
  case h_3 => exact .install _ h
  case h_4 => exact .joined op h
  case h_5 => exact .abort op h
  case h_6 => exact .idle

theorem insert_steps (hn : b.row = none) (new : ℕ → String) (name : String) (cfg : BoardConfig) :
    Steps lib root known b (b.insert lib new name cfg) := by
  unfold insert
  split
  case h_1 h => exact .insert _ hn (.inr ⟨_, _, _, _, h⟩)
  case h_2   => exact .idle

theorem edit_steps {row : BoardRow} (new : ℕ → String) (name : String) (cfg : BoardConfig) :
    Steps lib root known b (b.edit lib new name cfg row) := by
  unfold edit
  split
  case h_2 => exact .idle
  case h_1 h =>
    refine .write _ fun _ r he => ?_
    obtain rfl := Option.some.inj he
    exact .inr ⟨_, _, _, _, h⟩

theorem step_steps (a : BoardAction Body) : Steps lib root known b (b.step lib root a) := by
  have hop (a : BoardAction Body) : Steps lib root known b (b.op.elim b (b.opStep root · a)) := by
    cases h : b.op
    case none    => exact .idle
    case some op => exact opStep_steps h a
  cases a
  case insert new name config =>
    rw [step]
    split_ifs with hn
    case neg => exact .idle
    case pos => exact insert_steps hn ..
  case edit new name config =>
    cases hr : b.row
    case none => simpa [step, hr] using Steps.idle
    case some row =>
      rw [step, hr, Option.elim_some]
      exact edit_steps ..
  case setEnabled enabled =>
    cases hr : b.row
    case none => simpa [step, hr] using Steps.idle
    case some row =>
      simp only [step, hr, Option.elim_some]
      refine .write _ fun ha r he => ?_
      obtain rfl := Option.some.inj he
      exact ha row hr
  case delete =>
    cases hr : b.row
    case none => simpa [step, hr] using Steps.idle
    case some row =>
      simp only [step, hr, Option.elim_some]
      exact .write none fun _ => by simp
  case resume => exact .resume
  case reconcile =>
    simp only [step]
    split_ifs with h
    case pos => exact .reconcile h
    case neg => exact .idle
  case leave => exact .leave _
  case acquire =>
    simp only [step]
    split_ifs with h
    case pos => exact .acquire (Option.isNone_iff_eq_none.mp h.1) h.2
    case neg => exact .idle
  case read    => exact hop .read
  case joined  => exact hop .joined
  case abort   => exact hop .abort
  case decide  => exact hop .decide
  case install => exact hop .install
  case begin i => exact .loop i _
  case checked i results body budgetSecs => exact .loop i _
  case finish i => exact .loop i _
  case wake i   => exact .loop i _
  case exit i   => exact .loop i _

theorem joined_spec (b : Board Body) (op : Section) : b.joined op = b ∨
    ∃ i handles, op.handles = i :: handles ∧ b.hasEnded i ∧
      b.joined op = { b with op := some (op.setHandles handles) } := by
  unfold joined
  split
  case h_2 => exact .inl rfl
  case h_1 i handles h =>
    split_ifs with he
    case pos => exact .inr ⟨i, handles, h, he, rfl⟩
    case neg => exact .inl rfl

theorem abort_spec (b : Board Body) (op : Section) : b.abort op = b ∨ ∃ i ∈ op.handles,
    b.abort op = { b with loops := b.loops.modify i ({ · with aborted := true }) } := by
  unfold abort
  split
  case h_2 => exact .inl rfl
  case h_1 i handles h => exact .inr ⟨i, by simp [h], rfl⟩

theorem decide_spec (b : Board Body) (root : Bool) (row : Option BoardRow) :
    (∃ r, row = some r ∧ r.enabled ∧ root = false ∧
      b.decide root row = { b with op := some (.install r.config) }) ∨
    (∀ r ∈ row, r.enabled → root = true) ∧
      b.decide root row = { b with op := none, view := none } := by
  unfold decide
  cases row
  case none => exact .inr ⟨by simp, rfl⟩
  case some r =>
    by_cases h : r.enabled ∧ root = false
    case pos => exact .inl ⟨r, rfl, h.1, h.2, by simp [Option.filter, h]⟩
    case neg =>
      refine .inr ⟨fun r' hr he => ?_, by simp [Option.filter, h]⟩
      obtain rfl : r = r' := Option.some.inj hr
      simpa [he] using h

theorem take_spec (b : Board Body) (op : List ℕ → Section) :
    (b.running = none ∧ b.take op = { b with op := some (op []) }) ∨
    ∃ r, b.running = some r ∧ b.take op =
      { b with op := some (op r.handles), running := none, cancelled := r.token :: b.cancelled } := by
  unfold take
  cases hr : b.running
  case none   => exact .inl ⟨rfl, rfl⟩
  case some r => exact .inr ⟨r, rfl, rfl⟩

-- The loops that are installed.
structure Installed (config : BoardConfig) (b b' : Board Body) : Prop where
  frame   : b' = { b with
    op := none, running := b'.running, view := b'.view, bufs := b'.bufs, loops := b'.loops
    tokens := b.tokens + 1 }
  loops   : ∃ loops view, b'.loops = b.loops ++ loops ∧ b'.view = some view ∧
    b'.running = some ⟨b.tokens, List.range' b.loops.length loops.length⟩ ∧
    loops.map (·.plan) = planUnits config ∧ ∀ l ∈ loops, Handover.Spawned b.tokens view l
  kept    : ∀ view ∈ b.view, ∀ view' ∈ b'.view, ∀ id i i', view.lookup id = some i →
    view'.lookup id = some i' → i' = i
  aligned : ∀ buf ∈ b'.bufs, buf.Aligned
  grows   : Grows b.bufs b'.bufs

theorem install_spec {config : BoardConfig} (hb : ∀ buf ∈ b.bufs, buf.Aligned)
    (hp : Plannable config) : Installed config b (b.install config) := by
  have ⟨ho, he, hs⟩ := Handover.units_spec config.recordLimitKb b.tokens
    (h := { old := b.view.getD ∅, bufs := b.bufs, view := ∅ }) hb hp.ids
  refine ⟨rfl, ⟨_, _, rfl, rfl, rfl, he, hs⟩, ?_, ho.aligned, ho.grows⟩
  intro view hv view' hv' id i i' hi hi'
  obtain rfl := Option.some.inj hv'
  have hold : (b.view.getD ∅).lookup id = some i := by
    rw [Option.mem_def.mp hv]
    exact hi
  by_cases hid : id ∈ ((planUnits config).flatMap UnitPlan.panels).map (·.id)
  case pos => exact Option.some.inj (hi'.symm.trans (ho.kept id hid i hold))
  case neg =>
    rw [ho.view id hid] at hi'
    simp at hi'

-- The configurations have been accepted, wherever they are.
structure Stored (lib : ConfigLib) (b : Board Body) : Prop where
  row     : ∀ r ∈ b.row, Accepted lib r.config
  stop    : ∀ row handles, b.op = some (.stop row handles) → ∀ r ∈ row, Accepted lib r.config
  install : ∀ config, b.op = some (.install config) → Accepted lib config

theorem Steps.stored (hs : b.Steps lib root known b') (h : b.Stored lib) : b'.Stored lib := by
  cases hs
  case idle      => exact h
  case write row hr => exact ⟨hr h.row, h.stop, h.install⟩
  case insert config hn ha =>
    refine ⟨fun r hr => ?_, h.stop, h.install⟩
    obtain rfl := Option.some.inj hr
    exact ha
  case resume      => exact ⟨h.row, h.stop, h.install⟩
  case reconcile   => exact ⟨h.row, h.stop, h.install⟩
  case leave       => exact ⟨h.row, h.stop, h.install⟩
  case enter       => exact ⟨h.row, h.stop, h.install⟩
  case acquire     => exact ⟨h.row, by simp, by simp⟩
  case read ho =>
    obtain ⟨-, ht⟩ | ⟨r, -, ht⟩ := take_spec b (.stop b.row)
    all_goals
      rw [ht]
      refine ⟨h.row, fun row handles he => ?_, by simp⟩
      obtain ⟨rfl, -⟩ := Section.stop.inj (Option.some.inj he)
      exact h.row
  case joined op ho =>
    obtain ht | ⟨i, handles, hh, -, ht⟩ := joined_spec b op
    case inl =>
      rw [ht]
      exact h
    case inr =>
      rw [ht]
      refine ⟨h.row, fun row handles he => ?_, fun config he => ?_⟩
      all_goals cases op <;> simp [Section.setHandles] at he
      case refine_1.stop row' _ => exact he.1 ▸ h.stop row' _ ho
      case refine_2.install => simp [Section.handles] at hh
  case abort op ho =>
    obtain ht | ⟨i, -, ht⟩ := abort_spec b op
    case inl =>
      rw [ht]
      exact h
    case inr =>
      rw [ht]
      exact ⟨h.row, h.stop, h.install⟩
  case decide row ho =>
    obtain ⟨r, hr, -, -, ht⟩ | ⟨-, ht⟩ := decide_spec b root row
    case inr => exact ht ▸ ⟨h.row, by simp, by simp⟩
    case inl =>
      rw [ht]
      refine ⟨h.row, by simp, fun config he => ?_⟩
      obtain rfl := Section.install.inj (Option.some.inj he)
      exact h.stop row [] ho r hr
  case install config ho => exact ⟨h.row, by simp [Board.install], by simp [Board.install]⟩
  case loop i a =>
    rw [(withLoop_moves : b.Moves root (b.withLoop root i a)).frame]
    exact ⟨h.row, h.stop, h.install⟩
  case drain call hr hn =>
    obtain ⟨-, ht⟩ | ⟨r, -, ht⟩ := take_spec b (.drain call)
    all_goals exact ht ▸ ⟨h.row, by simp, by simp⟩
  case release => exact ⟨h.row, by simp, by simp⟩

theorem Filled.install {config : BoardConfig} (h : b.Filled) (hp : Plannable config) :
    (b.install config).Filled := by
  have hi := install_spec h.aligned hp
  obtain ⟨loops, view, hl, -, -, hplans, hs⟩ := hi.loops
  refine ⟨hi.aligned, ?_, ?_⟩
  all_goals
    rw [hl]
    intro l hm
  case refine_1 =>
    cases List.mem_append.mp hm
    case inl hm => exact h.capped l hm
    case inr hm =>
      intro m hmm
      obtain ⟨j, hj⟩ := List.mem_iff_getElem?.mp hmm
      obtain ⟨p, hpj, ha⟩ := getElem?_of_forall₂ (hs l hm).members hj
      have hu : l.plan ∈ planUnits config := hplans ▸ List.mem_map_of_mem hm
      have hp' := hp.bars p (List.mem_flatMap.mpr ⟨l.plan, hu, List.mem_of_getElem? hpj⟩)
      exact ha.2 ▸ hp'
  case refine_2 =>
    cases List.mem_append.mp hm
    case inl hm => exact h.fits l hm
    case inr hm => simp [(hs l hm).stage, LoopStage.members]

theorem Steps.filled (hs : b.Steps lib root known b') (h : b.Filled) (hst : b.Stored lib) :
    b'.Filled ∧ Grows b.bufs b'.bufs := by
  have hg : Grows b.bufs b.bufs := .refl h.aligned
  cases hs
  case idle      => exact ⟨h, hg⟩
  case write     => exact ⟨h.congr rfl rfl, hg⟩
  case insert    => exact ⟨h.congr rfl rfl, hg⟩
  case resume    => exact ⟨h.congr rfl rfl, hg⟩
  case reconcile => exact ⟨h.congr rfl rfl, hg⟩
  case leave     => exact ⟨h.congr rfl rfl, hg⟩
  case enter     => exact ⟨h.congr rfl rfl, hg⟩
  case acquire   => exact ⟨h.congr rfl rfl, hg⟩
  case release   => exact ⟨h.congr rfl rfl, hg⟩
  case read =>
    obtain ⟨-, ht⟩ | ⟨r, -, ht⟩ := take_spec b (.stop b.row)
    all_goals exact ht ▸ ⟨h.congr rfl rfl, hg⟩
  case drain call hr hn =>
    obtain ⟨-, ht⟩ | ⟨r, -, ht⟩ := take_spec b (.drain call)
    all_goals exact ht ▸ ⟨h.congr rfl rfl, hg⟩
  case joined op ho =>
    obtain ht | ⟨i, handles, -, -, ht⟩ := joined_spec b op
    all_goals
      rw [ht]
      exact ⟨h.congr rfl rfl, hg⟩
  case abort op ho =>
    obtain ht | ⟨i, -, ht⟩ := abort_spec b op
    all_goals rw [ht]
    case inl => exact ⟨h, hg⟩
    case inr =>
      refine ⟨⟨h.aligned, fun l hl => ?_, fun l hl => ?_⟩, hg⟩
      all_goals obtain ⟨l', hl', rfl | rfl⟩ := mem_modify hl
      case refine_1.inl => exact h.capped l hl'
      case refine_1.inr => exact h.capped l' hl'
      case refine_2.inl => exact h.fits l hl'
      case refine_2.inr => exact h.fits l' hl'
  case decide row ho =>
    obtain ⟨r, -, -, -, ht⟩ | ⟨-, ht⟩ := decide_spec b root row
    all_goals exact ht ▸ ⟨h.congr rfl rfl, hg⟩
  case install config ho =>
    have hp := (hst.install config ho).plannable
    exact ⟨h.install hp, (install_spec h.aligned hp).grows⟩
  case loop i a => exact withLoop_filled h

-- Every loop that is alive is one of those that are running or of those that are waited for. There
-- are not both, and those that are running have not been told to end.
structure Owned (root : Bool) (b : Board Body) : Prop where
  alive    : ∀ i l, b.loops[i]? = some l → l.alive →
    (∃ r ∈ b.running, i ∈ r.handles) ∨ ∃ op ∈ b.op, i ∈ op.handles
  idle     : ∀ r ∈ b.running, ∀ op ∈ b.op, op = .read
  running  : ∀ r ∈ b.running, ∀ i ∈ r.handles, ∃ l, b.loops[i]? = some l ∧ l.token = r.token ∧
    l.aborted = false ∧ (root = false → l.alive)
  fresh    : ∀ r ∈ b.running, r.token ∉ b.cancelled ∧ r.token < b.tokens
  stopping : ∀ op ∈ b.op, ∃ t, ∀ i ∈ op.handles, t ∈ b.cancelled ∧
    ∃ l, b.loops[i]? = some l ∧ l.token = t
  tokens   : ∀ t ∈ b.cancelled, t < b.tokens

theorem Owned.congr (h : b.Owned root) (hl : b'.loops = b.loops) (hr : b'.running = b.running)
    (ho : b'.op = b.op) (hc : b'.cancelled = b.cancelled) (ht : b'.tokens = b.tokens) :
    b'.Owned root := by
  constructor
  case alive    => rw [hl, hr, ho]; exact h.alive
  case idle     => rw [hr, ho]; exact h.idle
  case running  => rw [hr, hl]; exact h.running
  case fresh    => rw [hr, hc, ht]; exact h.fresh
  case stopping => rw [ho, hc, hl]; exact h.stopping
  case tokens   => rw [hc, ht]; exact h.tokens

-- Nothing is running while the lock is held for something else than the reading of the row.
theorem Owned.running_eq_none (h : b.Owned root) {op : Section} (ho : b.op = some op)
    (hn : op ≠ .read) : b.running = none :=
  Option.eq_none_iff_forall_ne_some.mpr fun r hr => hn (h.idle r hr op ho)

theorem Owned.not_alive (h : b.Owned root) (hr : b.running = none)
    (ho : ∀ op ∈ b.op, op.handles = []) : ∀ l ∈ b.loops, ¬l.alive := by
  intro l hl ha
  obtain ⟨i, hi⟩ := List.mem_iff_getElem?.mp hl
  obtain ⟨r, hm, -⟩ | ⟨op, hm, hh⟩ := h.alive i l hi ha
  case inl => simp [hr] at hm
  case inr => simp [ho op hm] at hh

theorem handles_setHandles {op : Section} (handles : List ℕ) (h : op.handles ≠ []) :
    (op.setHandles handles).handles = handles ∧ op.setHandles handles ≠ .read := by
  cases op <;> simp_all [Section.handles, Section.setHandles]

theorem Owned.take (h : b.Owned root) {op : List ℕ → Section} (hop : ∀ o ∈ b.op, o = .read)
    (hh : ∀ handles, (op handles).handles = handles) : (b.take op).Owned root := by
  have hno : ∀ o ∈ b.op, o.handles = [] := fun o ho => hop o ho ▸ rfl
  obtain ⟨hr, ht⟩ | ⟨r, hr, ht⟩ := take_spec b op
  all_goals rw [ht]
  case inl =>
    refine ⟨fun i l hl ha => ?_, by simp [hr], by simp [hr], by simp [hr], ?_, h.tokens⟩
    case refine_1 => exact absurd ha (h.not_alive hr hno l (List.mem_of_getElem? hl))
    case refine_2 => simp [hh]
  case inr =>
    refine ⟨fun i l hl ha => .inr ⟨op r.handles, rfl, ?_⟩, by simp, by simp, by simp, ?_, ?_⟩
    case refine_1 =>
      rw [hh]
      obtain ⟨r', hr', hi⟩ | ⟨o, ho, hi⟩ := h.alive i l hl ha
      case inl => exact Option.some.inj (hr.symm.trans hr') ▸ hi
      case inr => simp [hno o ho] at hi
    case refine_2 =>
      intro o ho
      obtain rfl := Option.some.inj ho
      refine ⟨r.token, fun i hi => ⟨List.mem_cons_self, ?_⟩⟩
      obtain ⟨l, hl, ht, -⟩ := h.running r hr i (hh r.handles ▸ hi)
      exact ⟨l, hl, ht⟩
    case refine_3 => exact List.forall_mem_cons.mpr ⟨(h.fresh r hr).2, h.tokens⟩

-- The lock changes hands, or is released, while nothing runs.
theorem Owned.ofNone (h : b.Owned root) (hr : b.running = none) (ho : ∀ op ∈ b.op, op.handles = [])
    (hl : b'.loops = b.loops) (hr' : b'.running = none) (ho' : ∀ op ∈ b'.op, op.handles = [])
    (hc : b'.cancelled = b.cancelled) (ht : b'.tokens = b.tokens) : b'.Owned root := by
  refine ⟨fun i l hi ha => ?_, by simp [hr'], by simp [hr'], by simp [hr'], fun op hm => ?_, ?_⟩
  case refine_1 => exact absurd ha (h.not_alive hr ho l (List.mem_of_getElem? (hl ▸ hi)))
  case refine_2 => exact ⟨0, by simp [ho' op hm]⟩
  case refine_3 => rw [hc, ht]; exact h.tokens

-- A loop that has ended is not waited for any more.
theorem Owned.joined (h : b.Owned root) {op : Section} (ho : b.op = some op) :
    (b.joined op).Owned root := by
  obtain ht | ⟨i, handles, hh, he, ht⟩ := joined_spec b op
  all_goals rw [ht]
  case inl => exact h
  case inr =>
    have hne : op.handles ≠ [] := by simp [hh]
    have ⟨hset, hread⟩ := handles_setHandles handles hne
    have hr : b.running = none := h.running_eq_none ho fun hc => hne (hc ▸ rfl)
    refine ⟨fun j l hl ha => .inr ⟨_, rfl, ?_⟩, by simp [hr], by simp [hr], by simp [hr], ?_, h.tokens⟩
    case refine_1 =>
      rw [hset]
      obtain ⟨r, hm, -⟩ | ⟨o, hm, hj⟩ := h.alive j l hl ha
      case inl => simp [hr] at hm
      case inr =>
        obtain rfl : op = o := Option.some.inj (ho.symm.trans hm)
        rw [hh] at hj
        refine (List.mem_cons.mp hj).resolve_left ?_
        rintro rfl
        simp [hasEnded, show b.loops[j]? = some l from hl, ha] at he
    case refine_2 =>
      intro o hm
      obtain rfl := Option.some.inj hm
      have ⟨t, ht⟩ := h.stopping op ho
      exact ⟨t, fun j hj => ht j (hh ▸ List.mem_cons_of_mem i (hset ▸ hj))⟩

theorem Owned.abort (h : b.Owned root) {op : Section} (ho : b.op = some op) :
    (b.abort op).Owned root := by
  obtain ht | ⟨i, hi, ht⟩ := abort_spec b op
  all_goals rw [ht]
  case inl => exact h
  case inr =>
    have hr : b.running = none := by
      refine h.running_eq_none ho fun hc => ?_
      simp [hc, Section.handles] at hi
    have hf : List.Forall₂ (fun l l' : UnitLoop Body => l'.token = l.token ∧ (l'.alive → l.alive))
        b.loops (b.loops.modify i ({ · with aborted := true })) :=
      forall₂_modify (fun _ _ => ⟨rfl, id⟩) fun _ _ => ⟨rfl, id⟩
    refine ⟨fun j l' hl' ha => ?_, by simp [hr], by simp [hr], by simp [hr], fun o hm => ?_, h.tokens⟩
    case refine_1 =>
      obtain ⟨l, hl, -, hal⟩ := getElem?_of_forall₂ hf hl'
      exact h.alive j l hl (hal ha)
    case refine_2 =>
      have ⟨t, ht⟩ := h.stopping o hm
      refine ⟨t, fun j hj => ⟨(ht j hj).1, ?_⟩⟩
      obtain ⟨l, hl, htok⟩ := (ht j hj).2
      obtain ⟨l', hl', he, -⟩ := getElem?_of_forall₂_left hf hl
      exact ⟨l', hl', he.trans htok⟩

theorem Owned.moves (h : b.Owned root) (hm : b.Moves root b') : b'.Owned root := by
  rw [hm.frame]
  refine ⟨fun i l' hl' ha => ?_, h.idle, fun r hr i hi => ?_, h.fresh, fun op ho => ?_, h.tokens⟩
  case refine_1 =>
    obtain ⟨l, hl, hml⟩ := getElem?_of_forall₂ hm.loops hl'
    exact h.alive i l hl (hml.alive ha)
  case refine_2 =>
    obtain ⟨l, hl, ht, hab, ha⟩ := h.running r hr i hi
    obtain ⟨l', hl', hml⟩ := getElem?_of_forall₂_left hm.loops hl
    refine ⟨l', hl', hml.token.trans ht, hml.aborted.trans hab, fun hroot => ?_⟩
    obtain ha' | ha' | ha' := hml.ends (ha hroot)
    case inl     => exact ha'
    case inr.inl => simp [hab] at ha'
    case inr.inr =>
      have hc : l.token ∈ b.cancelled := by simpa [isCancelled, hroot] using ha'
      exact absurd (ht ▸ hc) (h.fresh r hr).1
  case refine_3 =>
    have ⟨t, ht⟩ := h.stopping op ho
    refine ⟨t, fun j hj => ⟨(ht j hj).1, ?_⟩⟩
    obtain ⟨l, hl, htok⟩ := (ht j hj).2
    obtain ⟨l', hl', hml⟩ := getElem?_of_forall₂_left hm.loops hl
    exact ⟨l', hl', hml.token.trans htok⟩

-- The new loops are the only ones that are alive.
theorem Owned.install {config : BoardConfig} (h : b.Owned root) (hi : Installed config b b')
    (ho : b.op = some (.install config)) : b'.Owned root := by
  have hr : b.running = none := h.running_eq_none ho (by simp)
  have hdead : ∀ l ∈ b.loops, ¬l.alive := h.not_alive hr fun op hm => by
    obtain rfl := Option.some.inj (ho.symm.trans hm)
    rfl
  obtain ⟨loops, view, hl, -, hrun, -, hs⟩ := hi.loops
  have htok : b'.tokens = b.tokens + 1 := by rw [hi.frame]
  have hcan : b'.cancelled = b.cancelled := by rw [hi.frame]
  have hop : b'.op = none := by rw [hi.frame]
  have hlt : ∀ t ∈ b.cancelled, t < b.tokens + 1 := fun t ht =>
    (h.tokens t ht).trans (Nat.lt_succ_self _)
  refine ⟨fun i l hil ha => .inl ⟨_, hrun, ?_⟩, by simp [hop], fun r hm i him => ?_, fun r hm => ?_,
    by simp [hop], htok ▸ hcan ▸ hlt⟩
  case refine_1 =>
    rw [hl] at hil
    by_cases hlen : i < b.loops.length
    case pos =>
      rw [List.getElem?_append_left hlen] at hil
      exact absurd ha (hdead l (List.mem_of_getElem? hil))
    case neg =>
      rw [List.getElem?_append_right (not_lt.mp hlen)] at hil
      have hlt := (List.getElem?_eq_some_iff.mp hil).1
      rw [List.mem_range'_1]
      omega
  case refine_2 =>
    obtain rfl := Option.some.inj (hrun.symm.trans hm)
    rw [List.mem_range'_1] at him
    have hlt : i - b.loops.length < loops.length := by omega
    refine ⟨loops[i - b.loops.length], ?_, ?_⟩
    case refine_1 => rw [hl, List.getElem?_append_right him.1, List.getElem?_eq_getElem hlt]
    case refine_2 =>
      have hsp := hs _ (List.getElem_mem hlt)
      exact ⟨hsp.token, hsp.aborted, fun _ => UnitLoop.alive_iff.2 (by simp [hsp.stage])⟩
  case refine_3 =>
    obtain rfl := Option.some.inj (hrun.symm.trans hm)
    rw [hcan, htok]
    exact ⟨fun hc => (h.tokens _ hc).false, Nat.lt_succ_self _⟩

theorem Steps.owned (hs : b.Steps lib root known b') (h : b.Owned root) (hf : b.Filled)
    (hst : b.Stored lib) : b'.Owned root := by
  cases hs
  case idle      => exact h
  case write     => exact h.congr rfl rfl rfl rfl rfl
  case insert    => exact h.congr rfl rfl rfl rfl rfl
  case resume    => exact h.congr rfl rfl rfl rfl rfl
  case reconcile => exact h.congr rfl rfl rfl rfl rfl
  case leave     => exact h.congr rfl rfl rfl rfl rfl
  case enter     => exact h.congr rfl rfl rfl rfl rfl
  case acquire hn hw =>
    refine ⟨fun i l hl ha => ?_, by simp, h.running, h.fresh, by simp [Section.handles], h.tokens⟩
    obtain hr | ⟨op, ho, -⟩ := h.alive i l hl ha
    case inl => exact .inl hr
    case inr => simp [hn] at ho
  case read ho =>
    refine h.take (fun o hm => ?_) fun _ => rfl
    exact (Option.some.inj (ho.symm.trans hm)).symm
  case drain call hr hn => exact h.take (by simp [hn]) fun _ => rfl
  case joined op ho => exact h.joined ho
  case abort op ho  => exact h.abort ho
  case decide row ho =>
    have hr : b.running = none := h.running_eq_none ho (by simp)
    have hh : ∀ op ∈ b.op, op.handles = [] := by simp [ho, Section.handles]
    obtain ⟨r, -, -, -, ht⟩ | ⟨-, ht⟩ := decide_spec b root row
    all_goals
      rw [ht]
      exact h.ofNone hr hh rfl hr (by simp [Section.handles]) rfl rfl
  case install config ho =>
    exact h.install (install_spec hf.aligned (hst.install config ho).plannable) ho
  case loop i a => exact h.moves withLoop_moves
  case release call hroot ho =>
    have hr : b.running = none := h.running_eq_none ho (by simp)
    exact h.ofNone hr (by simp [ho, Section.handles]) rfl hr (by simp) rfl rfl

-- The units that a row asks for.
def unitsOf (row : Option BoardRow) : List UnitPlan :=
  (row.filter (·.enabled)).elim [] (planUnits ·.config)

-- The units whose loops are alive.
def livePlans (b : Board Body) : List UnitPlan :=
  (b.loops.filter (·.alive)).map (·.plan)

-- What the holder of the lock has read is what is stored.
def Fresh (row : Option BoardRow) : Section → Prop
  | .read        => True
  | .stop r _    => r.filter (·.enabled) = row.filter (·.enabled)
  | .install cfg => row.filter (·.enabled) = some ⟨cfg, true⟩
  | .drain _ _   => True

-- When no reconcile is left to come, the last one has read or reads what is stored.
def Synced (b : Board Body) : Prop :=
  b.requests = 0 → b.spawned = 0 → b.waiting = 0 →
    (∀ op ∈ b.op, Fresh b.row op) ∧ (b.op = none → b.livePlans = unitsOf b.row)

theorem livePlans_eq_nil (h : ∀ l ∈ b.loops, ¬l.alive) : b.livePlans = [] := by
  rw [livePlans, List.filter_eq_nil_iff.mpr h, List.map_nil]

theorem livePlans_congr {loops loops' : List (UnitLoop Body)}
    (h : List.Forall₂ (fun l l' => l'.plan = l.plan ∧ l'.alive = l.alive) loops loops') :
    (loops'.filter (·.alive)).map (·.plan) = (loops.filter (·.alive)).map (·.plan) := by
  induction h
  case nil => rfl
  case cons l l' loops loops' hl _ ih =>
    obtain ⟨hp, ha⟩ := hl
    cases hc : l.alive <;> simp [ha, hc, hp, ih]

theorem livePlans_moves (h : b.Owned false) (hm : b.Moves false b') (hn : b.op = none) :
    b'.livePlans = b.livePlans := by
  have hkeep : ∀ l ∈ b.loops, l.alive → ¬(l.aborted ∨ b.isCancelled false l.token) := by
    intro l hl ha
    obtain ⟨i, hi⟩ := List.mem_iff_getElem?.mp hl
    obtain ⟨r, hr, him⟩ | ⟨op, ho, -⟩ := h.alive i l hi ha
    case inr => simp [hn] at ho
    case inl =>
      obtain ⟨l', hl', ht, hab, -⟩ := h.running r hr i him
      obtain rfl : l = l' := Option.some.inj (hi.symm.trans hl')
      have hc := (h.fresh r hr).1
      simp [hab, isCancelled, ht, hc]
  refine livePlans_congr ((List.forall₂_and_left ..).mpr ⟨hkeep, hm.loops⟩ |>.imp ?_)
  intro l l' ⟨hk, hl⟩
  refine ⟨hl.plan, Bool.eq_iff_iff.mpr ⟨hl.alive, fun ha => ?_⟩⟩
  exact (hl.ends ha).resolve_right (hk ha)

theorem livePlans_install {config : BoardConfig} (hd : ∀ l ∈ b.loops, ¬l.alive)
    (hi : Installed config b b') : b'.livePlans = planUnits config := by
  obtain ⟨loops, view, hl, -, -, hp, hs⟩ := hi.loops
  have ha : ∀ l ∈ loops, l.alive := fun l hm =>
    UnitLoop.alive_iff.2 (by simp [(hs l hm).stage])
  rw [livePlans, hl, List.filter_append, List.filter_eq_nil_iff.mpr hd,
    List.filter_eq_self.mpr ha, List.nil_append, hp]

theorem unitsOf_congr {row row' : Option BoardRow}
    (h : row.filter (·.enabled) = row'.filter (·.enabled)) : unitsOf row = unitsOf row' := by
  rw [unitsOf, h, unitsOf]

theorem Fresh.congr {row row' : Option BoardRow} {op : Section} (h : Fresh row op)
    (he : row.filter (·.enabled) = row'.filter (·.enabled)) : Fresh row' op := by
  cases op
  case read    => exact h
  case stop    => exact h.trans he
  case install => exact he.symm.trans h
  case drain   => exact h

theorem Steps.synced (hs : b.Steps lib false known b') (h : b.Synced) (ho : b.Owned false)
    (hf : b.Filled) (hst : b.Stored lib) : b'.Synced := by
  intro hrq hsp hw
  cases hs
  case idle      => exact h hrq hsp hw
  case write     => exact absurd hrq (Nat.succ_ne_zero _)
  case resume    => exact absurd hrq (Nat.succ_ne_zero _)
  case reconcile => exact absurd hsp (Nat.succ_ne_zero _)
  case enter     => exact absurd hw (Nat.succ_ne_zero _)
  case leave     => exact h hrq hsp hw
  case drain call hr hn   => exact absurd hr Bool.false_ne_true
  case release call hr hn => exact absurd hr Bool.false_ne_true
  case acquire => exact ⟨by simp [Fresh], by simp⟩
  case insert config hn ha =>
    have ⟨h₁, h₂⟩ := h hrq hsp hw
    have he : (some (⟨config, false⟩ : BoardRow)).filter (·.enabled) = b.row.filter (·.enabled) := by
      simp [hn, Option.filter]
    exact ⟨fun op hm => (h₁ op hm).congr he.symm, fun hm => (h₂ hm).trans (unitsOf_congr he.symm)⟩
  case read hm =>
    obtain ⟨-, ht⟩ | ⟨r, -, ht⟩ := take_spec b (.stop b.row)
    all_goals exact ht ▸ ⟨by simp [Fresh], by simp⟩
  case joined op hm =>
    obtain ht | ⟨i, handles, hh, -, ht⟩ := joined_spec b op
    all_goals rw [ht] at hrq hsp hw ⊢
    case inl => exact h hrq hsp hw
    case inr =>
      have hfr := (h hrq hsp hw).1 op hm
      refine ⟨fun o ho' => ?_, by simp⟩
      obtain rfl := Option.some.inj ho'
      cases op <;> simp_all [Fresh, Section.setHandles, Section.handles]
  case abort op hm =>
    obtain ht | ⟨i, -, ht⟩ := abort_spec b op
    all_goals rw [ht] at hrq hsp hw ⊢
    case inl => exact h hrq hsp hw
    case inr => exact ⟨(h hrq hsp hw).1, fun hn => by simp [hm] at hn⟩
  case decide row hm =>
    have hd := ho.not_alive (ho.running_eq_none hm (by simp)) (by simp [hm, Section.handles])
    obtain ⟨r, hr, he, -, ht⟩ | ⟨hn, ht⟩ := decide_spec b false row
    all_goals
      rw [ht] at hrq hsp hw ⊢
      have hfr : row.filter (·.enabled) = b.row.filter (·.enabled) := (h hrq hsp hw).1 _ hm
    case inl =>
      refine ⟨fun o ho' => ?_, by simp⟩
      obtain rfl := Option.some.inj ho'
      obtain rfl := hr
      obtain ⟨cfg, enabled⟩ := r
      obtain rfl : enabled = true := he
      exact hfr.symm.trans (by simp [Option.filter])
    case inr =>
      refine ⟨by simp, fun _ => ?_⟩
      have hnone : row.filter (·.enabled) = none := by
        cases row
        case none   => rfl
        case some r => simpa [Option.filter] using hn r rfl
      refine (livePlans_eq_nil hd).trans ?_
      exact (congrArg (·.elim [] (planUnits ·.config)) (hfr.symm.trans hnone)).symm
  case install config hm =>
    have hd := ho.not_alive (ho.running_eq_none hm (by simp)) (by simp [hm, Section.handles])
    have hi := install_spec hf.aligned (hst.install config hm).plannable
    have hfr : b.row.filter (·.enabled) = some ⟨config, true⟩ := (h hrq hsp hw).1 _ hm
    refine ⟨by simp [Board.install], fun _ => ?_⟩
    rw [livePlans_install hd hi]
    exact (congrArg (·.elim [] (planUnits ·.config)) hfr).symm
  case loop i a =>
    have hmv : b.Moves false (b.withLoop false i a) := withLoop_moves
    rw [hmv.frame] at hrq hsp hw
    have ⟨h₁, h₂⟩ := h hrq hsp hw
    have hrow : (b.withLoop false i a).row = b.row := by rw [hmv.frame]
    have hop : (b.withLoop false i a).op = b.op := by rw [hmv.frame]
    rw [hrow, hop]
    exact ⟨h₁, fun hn => (livePlans_moves ho hmv hn).trans (h₂ hn)⟩

-- Nothing is alive, and nothing is started any more if the root is cancelled.
structure Settled (b : Board Body) : Prop where
  running : b.running = none
  dead    : ∀ l ∈ b.loops, ¬l.alive
  op      : ∀ config, b.op ≠ some (.install config)

theorem Steps.settled (hs : b.Steps lib true known b') (h : b.Settled) : b'.Settled := by
  cases hs
  case idle      => exact h
  case write     => exact ⟨h.running, h.dead, h.op⟩
  case insert    => exact ⟨h.running, h.dead, h.op⟩
  case resume    => exact ⟨h.running, h.dead, h.op⟩
  case reconcile => exact ⟨h.running, h.dead, h.op⟩
  case leave     => exact ⟨h.running, h.dead, h.op⟩
  case enter     => exact ⟨h.running, h.dead, h.op⟩
  case acquire   => exact ⟨h.running, h.dead, by simp⟩
  case release   => exact ⟨h.running, h.dead, by simp⟩
  case read =>
    obtain ⟨-, ht⟩ | ⟨r, -, ht⟩ := take_spec b (.stop b.row)
    all_goals
      rw [ht]
      exact ⟨by simp [h.running], h.dead, by simp⟩
  case drain call _ _ =>
    obtain ⟨-, ht⟩ | ⟨r, -, ht⟩ := take_spec b (.drain call)
    all_goals
      rw [ht]
      exact ⟨by simp [h.running], h.dead, by simp⟩
  case joined op ho =>
    obtain ht | ⟨i, handles, hh, -, ht⟩ := joined_spec b op
    all_goals rw [ht]
    case inl => exact h
    case inr =>
      refine ⟨h.running, h.dead, fun config he => ?_⟩
      cases op <;> simp [Section.setHandles, Section.handles] at he hh
  case abort op ho =>
    obtain ht | ⟨i, -, ht⟩ := abort_spec b op
    all_goals rw [ht]
    case inl => exact h
    case inr =>
      refine ⟨h.running, fun l hl => ?_, h.op⟩
      obtain ⟨l', hl', rfl | rfl⟩ := mem_modify hl
      case inl => exact h.dead l hl'
      case inr => exact h.dead l' hl'
  case decide row ho =>
    obtain ⟨r, -, -, hr, -⟩ | ⟨-, ht⟩ := decide_spec b true row
    case inl => exact absurd hr.symm Bool.false_ne_true
    case inr =>
      rw [ht]
      exact ⟨h.running, h.dead, by simp⟩
  case install config ho => exact absurd ho (h.op config)
  case loop i a =>
    have hmv : b.Moves true (b.withLoop true i a) := withLoop_moves
    refine ⟨by rw [hmv.frame]; exact h.running, fun l' hl' ha => ?_, by rw [hmv.frame]; exact h.op⟩
    obtain ⟨j, hj⟩ := List.mem_iff_getElem?.mp hl'
    obtain ⟨l, hl, hml⟩ := getElem?_of_forall₂ hmv.loops hj
    exact h.dead l (List.mem_of_getElem? hl) (hml.alive ha)

-- A board whose slot is yet to be made.
structure Untouched (b : Board Body) : Prop where
  waiting : b.waiting = 0
  running : b.running = none
  loops   : b.loops = []
  op      : ∀ op ∈ b.op, ∃ call, op = .drain call []

theorem Untouched.settled (h : b.Untouched) : b.Settled := by
  refine ⟨h.running, by simp [h.loops], fun config ho => ?_⟩
  have ⟨call, he⟩ := h.op _ ho
  exact absurd he (by simp)

theorem Steps.untouched (hs : b.Steps lib root False b') (h : b.Untouched) : b'.Untouched := by
  have hop {op : Section} (ho : b.op = some op) : ∃ call, op = .drain call [] := h.op op ho
  cases hs
  case idle      => exact h
  case write     => exact ⟨h.waiting, h.running, h.loops, h.op⟩
  case insert    => exact ⟨h.waiting, h.running, h.loops, h.op⟩
  case resume    => exact ⟨h.waiting, h.running, h.loops, h.op⟩
  case reconcile => exact ⟨h.waiting, h.running, h.loops, h.op⟩
  case leave     => exact ⟨h.waiting, h.running, h.loops, h.op⟩
  case release   => exact ⟨h.waiting, h.running, h.loops, by simp⟩
  case acquire hn hw => exact absurd hw (by simp [h.waiting])
  case enter hk _    => exact absurd hk id
  case read ho       => exact absurd (hop ho) (by simp)
  case decide ho     => exact absurd (hop ho) (by simp)
  case install ho    => exact absurd (hop ho) (by simp)
  case joined op ho =>
    obtain ⟨call, rfl⟩ := hop ho
    have hn : b.joined (.drain call []) = b := rfl
    exact hn.symm ▸ h
  case abort op ho =>
    obtain ⟨call, rfl⟩ := hop ho
    have hn : b.abort (.drain call []) = b := rfl
    exact hn.symm ▸ h
  case loop i a =>
    have hn : b.withLoop root i a = b := by simp [withLoop, h.loops]
    exact hn.symm ▸ h
  case drain call _ _ =>
    have ht : b.take (.drain call) = { b with op := some (.drain call []) } := by
      simp [take, h.running]
    rw [ht]
    exact ⟨h.waiting, h.running, h.loops, by simp⟩

-- A panel that is shown before and after has the buffer that it had. What is shown changes only
-- when the lock is released.
theorem Steps.view (hs : b.Steps lib root known b') (hf : b.Filled) (hst : b.Stored lib) :
    (∀ view ∈ b.view, ∀ view' ∈ b'.view, ∀ id i i', view.lookup id = some i →
      view'.lookup id = some i' → i' = i) ∧ (b'.view = b.view ∨ b'.op = none) := by
  have hself (he : b'.view = b.view) : (∀ view ∈ b.view, ∀ view' ∈ b'.view, ∀ id i i',
      view.lookup id = some i → view'.lookup id = some i' → i' = i) ∧
        (b'.view = b.view ∨ b'.op = none) := by
    refine ⟨fun view hv view' hv' id i i' hi hi' => ?_, .inl he⟩
    obtain rfl : view' = view := Option.some.inj ((he ▸ hv' : b.view = some view').symm.trans hv)
    exact Option.some.inj (hi'.symm.trans hi)
  cases hs
  case idle      => exact hself rfl
  case write     => exact hself rfl
  case insert    => exact hself rfl
  case resume    => exact hself rfl
  case reconcile => exact hself rfl
  case leave     => exact hself rfl
  case enter     => exact hself rfl
  case acquire   => exact hself rfl
  case release   => exact ⟨by simp, .inr rfl⟩
  case read ho =>
    obtain ⟨-, ht⟩ | ⟨r, -, ht⟩ := take_spec b (.stop b.row)
    all_goals exact hself (by rw [ht])
  case drain call _ _ =>
    obtain ⟨-, ht⟩ | ⟨r, -, ht⟩ := take_spec b (.drain call)
    all_goals exact hself (by rw [ht])
  case joined op ho =>
    obtain ht | ⟨i, handles, -, -, ht⟩ := joined_spec b op
    all_goals exact hself (by rw [ht])
  case abort op ho =>
    obtain ht | ⟨i, -, ht⟩ := abort_spec b op
    all_goals exact hself (by rw [ht])
  case decide row ho =>
    obtain ⟨r, -, -, -, ht⟩ | ⟨-, ht⟩ := decide_spec b root row
    case inl => exact hself (by rw [ht])
    case inr => exact ht ▸ ⟨by simp, .inr rfl⟩
  case install config ho =>
    exact ⟨(install_spec hf.aligned (hst.install config ho).plannable).kept, .inr rfl⟩
  case loop i a =>
    refine hself ?_
    rw [(withLoop_moves : b.Moves root (b.withLoop root i a)).frame]

-- The results that are shown for a panel.
def resultsOf (b : Board Body) (id : String) : Option (List CheckResult) :=
  (b.view.bind (·.lookup id)).bind fun i => b.bufs[i]?.map (·.results)

theorem resultsOf_eq_some {id : String} {results : List CheckResult} :
    b.resultsOf id = some results ↔ ∃ view i buf, b.view = some view ∧ view.lookup id = some i ∧
      b.bufs[i]? = some buf ∧ buf.results = results := by
  simp only [resultsOf, Option.bind_eq_some_iff, Option.map_eq_some_iff]
  constructor
  case mp  => exact fun ⟨i, ⟨view, hv, hi⟩, buf, hb, hr⟩ => ⟨view, i, buf, hv, hi, hb, hr⟩
  case mpr => exact fun ⟨view, i, buf, hv, hi, hb, hr⟩ => ⟨i, ⟨view, hv, hi⟩, buf, hb, hr⟩

-- What the later board keeps of the earlier one. The panels that both show have the same buffers.
structure Retains (b b' : Board Body) : Prop where
  bufs : Grows b.bufs b'.bufs
  kept : ∀ view ∈ b.view, ∀ view' ∈ b'.view, ∀ id i i', view.lookup id = some i →
    view'.lookup id = some i' → i' = i
  view : b'.view = b.view ∨ b'.op = none

theorem Steps.retains (hs : b.Steps lib root known b') (hf : b.Filled) (hst : b.Stored lib) :
    b.Retains b' :=
  ⟨(hs.filled hf hst).2, (hs.view hf hst).1, (hs.view hf hst).2⟩

-- Nothing is lost while the lock is held.
theorem Retains.trans {b₁ : Board Body} (h : b.Retains b₁) (h' : b₁.Retains b')
    (hv : b₁.view = b.view) : b.Retains b' :=
  ⟨h.bufs.trans h'.bufs, hv ▸ h'.kept, hv ▸ h'.view⟩

theorem Retains.keeps (h : b.Retains b') {id : String} {results results' : List CheckResult}
    (hr : b.resultsOf id = some results) (hr' : b'.resultsOf id = some results') :
    PanelBuf.Keeps results results' := by
  obtain ⟨view, i, buf, hv, hi, hb, rfl⟩ := resultsOf_eq_some.1 hr
  obtain ⟨view', i', buf', hv', hi', hb', rfl⟩ := resultsOf_eq_some.1 hr'
  obtain rfl := h.kept view hv view' hv' id i i' hi hi'
  obtain ⟨buf'', hb'', hk⟩ := h.bufs i' buf hb
  obtain rfl := Option.some.inj (hb''.symm.trans hb')
  exact hk

-- The panels of the loops that are alive are those that are shown.
def Shown (b : Board Body) : Prop :=
  ∀ l ∈ b.loops, l.alive → ∃ view ∈ b.view, List.Forall₂ (Attached view) l.plan.panels l.members

theorem Shown.moves (h : b.Shown) (hm : b.Moves root b') : b'.Shown := by
  intro l' hl' ha
  obtain ⟨j, hj⟩ := List.mem_iff_getElem?.mp hl'
  obtain ⟨l, hl, hml⟩ := getElem?_of_forall₂ hm.loops hj
  have hv : b'.view = b.view := by rw [hm.frame]
  rw [hv, hml.plan, hml.members]
  exact h l (List.mem_of_getElem? hl) (hml.alive ha)

theorem Steps.shown (hs : b.Steps lib root known b') (h : b.Shown) (ho : b.Owned root)
    (hf : b.Filled) (hst : b.Stored lib) : b'.Shown := by
  cases hs
  case idle      => exact h
  case write     => exact h
  case insert    => exact h
  case resume    => exact h
  case reconcile => exact h
  case leave     => exact h
  case enter     => exact h
  case acquire   => exact h
  case release call _ hm =>
    have hd := ho.not_alive (ho.running_eq_none hm (by simp)) (by simp [hm, Section.handles])
    exact fun l hl ha => absurd ha (hd l hl)
  case read =>
    obtain ⟨-, ht⟩ | ⟨r, -, ht⟩ := take_spec b (.stop b.row)
    all_goals exact ht ▸ h
  case drain call _ _ =>
    obtain ⟨-, ht⟩ | ⟨r, -, ht⟩ := take_spec b (.drain call)
    all_goals exact ht ▸ h
  case joined op _ =>
    obtain ht | ⟨i, handles, -, -, ht⟩ := joined_spec b op
    all_goals
      rw [ht]
      exact h
  case abort op _ =>
    obtain ht | ⟨i, -, ht⟩ := abort_spec b op
    all_goals rw [ht]
    case inl => exact h
    case inr =>
      intro l hl ha
      obtain ⟨l', hl', rfl | rfl⟩ := mem_modify hl
      case inl => exact h l hl' ha
      case inr => exact h l' hl' ha
  case decide row hm =>
    have hd := ho.not_alive (ho.running_eq_none hm (by simp)) (by simp [hm, Section.handles])
    obtain ⟨r, -, -, -, ht⟩ | ⟨-, ht⟩ := decide_spec b root row
    all_goals exact ht ▸ fun l hl ha => absurd ha (hd l hl)
  case install config hm =>
    have hd := ho.not_alive (ho.running_eq_none hm (by simp)) (by simp [hm, Section.handles])
    obtain ⟨loops, view, hl, hv, -, -, hsp⟩ :=
      (install_spec hf.aligned (hst.install config hm).plannable).loops
    intro l hlm ha
    rw [hl] at hlm
    cases List.mem_append.mp hlm
    case inl hlm => exact absurd ha (hd l hlm)
    case inr hlm => exact ⟨view, hv, (hsp l hlm).members⟩
  case loop i a => exact h.moves withLoop_moves

-- The result of a panel that a round pushes leaves no more records than the panel has bars.
theorem push_records {i : ℕ} {l : UnitLoop Body} {m : Member} {result : CheckResult}
    {rest : List (Member × CheckResult)} {left : List Member} {body : Body} {budgetSecs : ℕ}
    (hf : b.Filled) (hsh : b.Shown) (hl : b.loops[i]? = some l)
    (hs : l.stage = .finishing ((m, result) :: rest) left body budgetSecs) :
    ∃ p ∈ l.plan.panels, (∃ view ∈ b.view, view.lookup p.id = some m.buf) ∧
      ∀ buf, (b.step lib root (.finish i)).bufs[m.buf]? = some buf →
        buf.records.length ≤ p.barCount := by
  have hm : m ∈ l.members :=
    hf.fits l (List.mem_of_getElem? hl) m (by simp [hs, LoopStage.members])
  obtain ⟨view, hv, ha⟩ := hsh l (List.mem_of_getElem? hl) (UnitLoop.alive_iff.2 (by simp [hs]))
  obtain ⟨j, hj⟩ := List.mem_iff_getElem?.mp hm
  obtain ⟨p, hp, hat⟩ := getElem?_of_forall₂ ha hj
  refine ⟨p, List.mem_of_getElem? hp, ⟨view, hv, hat.1⟩, fun buf hb => ?_⟩
  have hbufs : (b.step lib root (.finish i)).bufs = b.bufs.modify m.buf
      (·.finishRound result (buildRecord body result) m.barCount budgetSecs) := by
    simp [step, withLoop, hl, loopStep, hs, push, goto]
  rw [hbufs, List.getElem?_modify] at hb
  obtain ⟨buf', -, rfl⟩ := Option.map_eq_some_iff.mp hb
  simp only [if_true, PanelBuf.finishRound, PanelBuf.length_rtake]
  exact (Nat.min_le_left ..).trans hat.2.le

end Board

end Monitor
