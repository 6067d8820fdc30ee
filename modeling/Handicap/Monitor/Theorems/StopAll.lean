import Handicap.Monitor.Theorems.Supervisor

-- What the supervisor keeps of its boards over whole runs, and what a call that stops everything
-- leaves behind.
namespace Monitor

variable {Body : Type} {lib : ConfigLib}

namespace Board

variable {root : Bool} {known : Prop} {b b' : Board Body}

-- What holds of a board at every time.
structure Sound (lib : ConfigLib) (root : Bool) (b : Board Body) : Prop where
  stored : b.Stored lib
  filled : b.Filled
  owned  : b.Owned root
  shown  : b.Shown
  synced : root = false → b.Synced

theorem Steps.sound (hs : b.Steps lib root known b') (h : b.Sound lib root) : b'.Sound lib root where
  stored := hs.stored h.stored
  filled := (hs.filled h.filled h.stored).1
  owned  := hs.owned h.owned h.filled h.stored
  shown  := hs.shown h.shown h.owned h.filled h.stored
  synced := by
    rintro rfl
    exact hs.synced (h.synced rfl) h.owned h.filled h.stored

theorem Sound.cancel (h : b.Sound lib root) : b.Sound lib true where
  stored := h.stored
  filled := h.filled
  shown  := h.shown
  synced := by simp
  owned  :=
    { h.owned with
      running := fun r hr i hi =>
        have ⟨l, hl, ht, ha, _⟩ := h.owned.running r hr i hi
        ⟨l, hl, ht, ha, by simp⟩ }

theorem boot_sound {row : Option BoardRow} (h : ∀ r ∈ row, Accepted lib r.config) :
    (boot row : Board Body).Sound lib false where
  stored := ⟨h, by simp [boot], by simp [boot]⟩
  filled := ⟨by simp [boot], by simp [boot], by simp [boot]⟩
  shown  := by simp [Shown, boot]
  owned  := by constructor <;> simp [boot]
  synced := by
    -- A board that is enabled is yet to be resumed.
    rintro - hr - -
    cases row
    case none => exact ⟨by simp [boot], fun _ => rfl⟩
    case some r =>
      cases he : r.enabled
      case true  => simp [boot, he] at hr
      case false =>
        exact ⟨by simp [boot], fun _ => by simp [boot, unitsOf, livePlans, Option.filter, he]⟩

-- When the last of the loops that are waited for has ended, nothing is alive.
theorem Owned.settled (h : b.Owned root) {call : ℕ} (ho : b.op = some (.drain call [])) :
    ({ b with op := none, view := none } : Board Body).Settled :=
  have hr := h.running_eq_none ho (by simp)
  ⟨hr, h.not_alive hr (by simp [ho, Section.handles]), by simp⟩

-- The loops that are alive share a token. They are those that are running, or they have been told
-- to end and are waited for.
structure OneGeneration (b : Board Body) : Prop where
  tokens : ∀ l ∈ b.loops, ∀ l' ∈ b.loops, l.alive → l'.alive → l.token = l'.token
  owned  : ∀ i l, b.loops[i]? = some l → l.alive →
    (∃ r ∈ b.running, i ∈ r.handles ∧ l.token = r.token) ∨
      l.token ∈ b.cancelled ∧ ∃ op ∈ b.op, i ∈ op.handles

theorem Owned.oneGeneration (h : b.Owned root) : b.OneGeneration := by
  -- Where the loop is, with the token that goes with it.
  have hown (i : ℕ) (l : UnitLoop Body) (hl : b.loops[i]? = some l) (ha : l.alive) :
      (∃ r ∈ b.running, i ∈ r.handles ∧ l.token = r.token) ∨
        l.token ∈ b.cancelled ∧ ∃ op ∈ b.op, i ∈ op.handles := by
    obtain ⟨r, hr, hi⟩ | ⟨op, ho, hi⟩ := h.alive i l hl ha
    case inl =>
      obtain ⟨l', hl', ht, -⟩ := h.running r hr i hi
      obtain rfl := Option.some.inj (hl.symm.trans hl')
      exact .inl ⟨r, hr, hi, ht⟩
    case inr =>
      obtain ⟨t, ht⟩ := h.stopping op ho
      obtain ⟨hc, l', hl', rfl⟩ := ht i hi
      obtain rfl := Option.some.inj (hl.symm.trans hl')
      exact .inr ⟨hc, op, ho, hi⟩
  refine ⟨fun l hm l' hm' ha ha' => ?_, hown⟩
  obtain ⟨i, hl⟩ := List.mem_iff_getElem?.mp hm
  obtain ⟨j, hl'⟩ := List.mem_iff_getElem?.mp hm'
  -- The holder of the lock waits for nothing while loops are running.
  have hidle (r : Running) (hr : r ∈ b.running) (op : Section) (ho : op ∈ b.op) : op.handles = [] :=
    h.idle r hr op ho ▸ rfl
  obtain ⟨r, hr, hi, ht⟩ | ⟨-, op, ho, hi⟩ := hown i l hl ha <;>
    obtain ⟨r', hr', hj, ht'⟩ | ⟨-, op', ho', hj⟩ := hown j l' hl' ha'
  case inl.inl =>
    obtain rfl := Option.some.inj (hr.symm.trans hr')
    exact ht.trans ht'.symm
  case inl.inr => simp [hidle r hr op' ho'] at hj
  case inr.inl => simp [hidle r' hr' op ho] at hi
  case inr.inr =>
    obtain rfl := Option.some.inj (ho.symm.trans ho')
    obtain ⟨t, hst⟩ := h.stopping op ho
    obtain ⟨-, l₁, hl₁, rfl⟩ := hst i hi
    obtain ⟨-, l₂, hl₂, ht⟩ := hst j hj
    obtain rfl := Option.some.inj (hl.symm.trans hl₁)
    obtain rfl := Option.some.inj (hl'.symm.trans hl₂)
    exact ht.symm

end Board

namespace Supervisor

open Trace (along_concat run_concat)

variable {s : Supervisor Body} {a : Action Body} {call : ℕ} {c : StopCall}

-- What a call that stops everything has established.
def Covers (s : Supervisor Body) : StopCall → Prop
  | .listing          => True
  | .waiting todo     => ∀ id ∉ todo, (s.boards id).Settled
  | .draining id todo => ∀ id' ∉ todo, id' ≠ id → (s.boards id').Settled
  | .returned         => ∀ id, (s.boards id).Settled

structure Sound (lib : ConfigLib) (s : Supervisor Body) : Prop where
  boards : ∀ id, (s.boards id).Sound lib s.root
  fresh  : ∀ id, id ∉ s.known → (s.boards id).Untouched
  root   : s.calls ≠ [] → s.root = true
  calls  : ∀ c ∈ s.calls, s.Covers c

theorem Covers.mono {s' : Supervisor Body} (h : s.Covers c)
    (hs : ∀ id, (s.boards id).Settled → (s'.boards id).Settled) : s'.Covers c := by
  cases c
  case listing  => trivial
  case waiting  => exact fun id hid => hs id (h id hid)
  case draining => exact fun id hid hne => hs id (h id hid hne)
  case returned => exact fun id => hs id (h id)

theorem setBoard_steps {id : String} {b : Board Body} {root : Bool} {known : String → Prop}
    (hb : (s.boards id).Steps lib root (known id) b) (id' : String) :
    (s.boards id').Steps lib root (known id') ((s.setBoard id b).boards id') := by
  by_cases hid : id' = id
  case pos =>
    subst hid
    simpa only [setBoard, Function.update_self] using hb
  case neg =>
    simp only [setBoard, Function.update_of_ne hid]
    exact .idle

-- What the step of a call does.
inductive CallSteps (s : Supervisor Body) (call : ℕ) : StopCall → Supervisor Body → Prop
  | idle (c : StopCall) : CallSteps s call c s
  | list : CallSteps s call .listing (s.setCall call (.waiting s.known))
  | take (id : String) (todo : List String) (h : id ∈ todo) (ho : (s.boards id).op = none) :
      CallSteps s call (.waiting todo)
        ((s.setBoard id ((s.boards id).take (.drain call))).setCall call
          (.draining id (todo.erase id)))
  | release (id : String) (todo : List String) (holder : ℕ)
      (ho : (s.boards id).op = some (.drain holder [])) :
      CallSteps s call (.draining id todo)
        ((s.setBoard id { s.boards id with op := none, view := none }).setCall call (.waiting todo))
  | finish : CallSteps s call (.waiting []) (s.setCall call .returned)

theorem callStep_steps : s.CallSteps call c (s.callStep call c a) := by
  unfold callStep
  split
  case h_1 => exact .list
  case h_2 todo _ id =>
    split
    case isTrue h  => exact .take id todo h.1 (Option.isNone_iff_eq_none.mp h.2)
    case isFalse _ => exact .idle _
  case h_3 id todo _ =>
    split
    case h_1 holder ho => exact .release id todo holder ho
    case h_2           => exact .idle _
  case h_4 => exact .finish
  case h_5 => exact .idle _

theorem CallSteps.frame {s' : Supervisor Body} (hs : s.CallSteps call c s') :
    s'.root = s.root ∧ s'.known = s.known := by
  cases hs <;> exact ⟨rfl, rfl⟩

theorem CallSteps.steps {s' : Supervisor Body} (hs : s.CallSteps call c s') (hr : s.root = true)
    (id : String) : (s.boards id).Steps lib s.root (id ∈ s.known) (s'.boards id) := by
  cases hs
  case idle   => exact .idle
  case list   => exact .idle
  case finish => exact .idle
  case take id' todo _ ho       => exact setBoard_steps (.drain call hr ho) id
  case release id' todo holder ho => exact setBoard_steps (.release holder hr ho) id

-- Where a call is after a step, and what it has established there.
theorem CallSteps.covers {s' : Supervisor Body} (hs : s.CallSteps call c s') (h : s.Sound lib)
    (hc : s.Covers c) (hset : ∀ id, (s.boards id).Settled → (s'.boards id).Settled) :
    ∀ c' ∈ s'.calls, c' ∈ s.calls ∨ s'.Covers c' := by
  have hmem {todo : StopCall} (hn : s'.calls = s.calls.set call todo) (hcov : s'.Covers todo) :
      ∀ c' ∈ s'.calls, c' ∈ s.calls ∨ s'.Covers c' := by
    intro c' hc'
    cases List.mem_or_eq_of_mem_set (hn ▸ hc')
    case inl hm => exact .inl hm
    case inr he => exact .inr (he ▸ hcov)
  cases hs
  case idle   => exact fun c' hc' => .inl hc'
  case list   => exact hmem rfl fun id hid => (h.fresh id hid).settled
  case finish => exact hmem rfl fun id => hc id List.not_mem_nil
  case take id todo _ _ =>
    refine hmem rfl fun id' hid hne => hset id' (hc id' fun hm => hid ?_)
    exact (List.mem_erase_of_ne hne).mpr hm
  case release id todo holder ho =>
    refine hmem rfl fun id' hid => ?_
    by_cases he : id' = id
    case neg => exact hset id' (hc id' hid he)
    case pos =>
      subst he
      have hset' := (h.boards id').owned.settled ho
      simpa only [setCall, setBoard, Function.update_self] using hset'

-- What is known of a step: what it does to each board, and that it neither forgets a slot nor takes
-- the cancellation of the root back.
structure Advances (lib : ConfigLib) (s s' : Supervisor Body) : Prop where
  boards : ∀ id, (s.boards id).Steps lib s.root (id ∈ s'.known) (s'.boards id)
  known  : ∀ id ∈ s.known, id ∈ s'.known
  root   : s'.root = s.root ∨ s'.root = true

theorem enter_advances (id : String) : s.Advances lib (s.enter id) := by
  simp only [enter]
  split
  case isFalse => exact ⟨fun _ => .idle, fun _ h => h, .inl rfl⟩
  case isTrue h =>
    refine ⟨?_, fun id' hid => ?_, .inl rfl⟩
    case refine_1 =>
      refine setBoard_steps (.enter ?_ h)
      simp only
      split <;> simp_all
    case refine_2 =>
      simp only
      split
      case isTrue  => exact hid
      case isFalse => exact List.mem_append_left _ hid

theorem call_advances (hr : s.calls ≠ [] → s.root = true) :
    s.Advances lib (s.calls[call]?.elim s (s.callStep call · a)) := by
  cases hc : s.calls[call]?
  case none => exact ⟨fun _ => .idle, fun _ h => h, .inl rfl⟩
  case some c =>
    have hs : s.CallSteps call c (s.callStep call c a) := callStep_steps
    have hroot : s.root = true := hr (List.ne_nil_of_mem (List.mem_of_getElem? hc))
    exact ⟨fun id => hs.frame.2 ▸ hs.steps hroot id, fun id h => hs.frame.2 ▸ h, .inl hs.frame.1⟩

theorem step_advances (hr : s.calls ≠ [] → s.root = true) : s.Advances lib (s.step lib a) := by
  cases a
  case board id a => exact ⟨setBoard_steps (Board.step_steps a), fun _ h => h, .inl rfl⟩
  case enter id   => exact enter_advances id
  case cancelRoot => exact ⟨fun _ => .idle, fun _ h => h, .inr rfl⟩
  case stopAll    => exact ⟨fun _ => .idle, fun _ h => h, .inr rfl⟩
  case list       => exact call_advances hr
  case take       => exact call_advances hr
  case release    => exact call_advances hr
  case finish     => exact call_advances hr

-- The calls are those that there were, or they are new, or the one that has taken a step.
theorem step_calls (h : s.Sound lib)
    (hset : s.root = true → ∀ id, (s.boards id).Settled → ((s.step lib a).boards id).Settled) :
    ∀ c ∈ (s.step lib a).calls,
      (c ∈ s.calls ∨ (s.step lib a).Covers c) ∧ (s.step lib a).root = true := by
  have hcall (call : ℕ) (ha : s.step lib a = s.calls[call]?.elim s (s.callStep call · a)) :
      ∀ c ∈ (s.step lib a).calls,
        (c ∈ s.calls ∨ (s.step lib a).Covers c) ∧ (s.step lib a).root = true := by
    cases hc : s.calls[call]?
    case none =>
      intro c hm
      rw [ha, hc] at hm ⊢
      exact ⟨.inl hm, h.root (List.ne_nil_of_mem hm)⟩
    case some c₀ =>
      have hm₀ : c₀ ∈ s.calls := List.mem_of_getElem? hc
      have hroot : s.root = true := h.root (List.ne_nil_of_mem hm₀)
      have hset := hset hroot
      rw [ha, hc] at hset ⊢
      have hs : s.CallSteps call c₀ (s.callStep call c₀ a) := callStep_steps
      exact fun c hm => ⟨hs.covers h (h.calls c₀ hm₀) hset c hm, hs.frame.1.trans hroot⟩
  cases a
  case board id a => exact fun c hm => ⟨.inl hm, h.root (List.ne_nil_of_mem hm)⟩
  case enter id =>
    have hc : (s.step lib (.enter id)).calls = s.calls ∧ (s.step lib (.enter id)).root = s.root := by
      simp only [step, enter]
      split <;> exact ⟨rfl, rfl⟩
    intro c hm
    rw [hc.1] at hm
    exact ⟨.inl hm, hc.2.trans (h.root (List.ne_nil_of_mem hm))⟩
  case cancelRoot => exact fun c hm => ⟨.inl hm, rfl⟩
  case stopAll =>
    intro c hm
    cases List.mem_append.mp hm
    case inl hm => exact ⟨.inl hm, rfl⟩
    case inr hm =>
      obtain rfl := List.mem_singleton.mp hm
      exact ⟨.inr trivial, rfl⟩
  case list call    => exact hcall call rfl
  case take call _  => exact hcall call rfl
  case release call => exact hcall call rfl
  case finish call  => exact hcall call rfl

theorem Sound.step (h : s.Sound lib) (a : Action Body) : (s.step lib a).Sound lib := by
  have hadv : s.Advances lib (s.step lib a) := step_advances h.root
  have hset (hroot : s.root = true) (id : String) (hs : (s.boards id).Settled) :
      ((s.step lib a).boards id).Settled := by
    have hst := hadv.boards id
    rw [hroot] at hst
    exact hst.settled hs
  have hcalls := step_calls h hset
  refine ⟨fun id => ?_, fun id hid => ?_, fun hne => ?_, fun c hc => ?_⟩
  case refine_1 =>
    have hb := (hadv.boards id).sound (h.boards id)
    obtain hr | hr := hadv.root <;> rw [hr]
    case inl => exact hb
    case inr => exact hb.cancel
  case refine_2 =>
    have hs := hadv.boards id
    rw [eq_false hid] at hs
    exact hs.untouched (h.fresh id fun hk => hid (hadv.known id hk))
  case refine_3 =>
    obtain ⟨c, hc⟩ := List.exists_mem_of_ne_nil _ hne
    exact (hcalls c hc).2
  case refine_4 =>
    obtain hm | hcov := (hcalls c hc).1
    case inl => exact (h.calls c hm).mono (hset (h.root (List.ne_nil_of_mem hm)))
    case inr => exact hcov

section

variable {rows : String → Option BoardRow} {actions actions' : List (Action Body)}

theorem boot_sound (h : ∀ id, ∀ row ∈ rows id, Accepted lib row.config) :
    (boot rows : Supervisor Body).Sound lib where
  boards := fun id => Board.boot_sound (h id)
  fresh  := fun id _ => ⟨rfl, rfl, rfl, by simp [boot, Board.boot]⟩
  root   := by simp [boot]
  calls  := by simp [boot]

theorem Sound.run (h : s.Sound lib) (actions : List (Action Body)) :
    (Trace.run (Supervisor.step lib) s actions).Sound lib :=
  Trace.invariant h fun _ a h => h.step a

theorem run_sound (h : ∀ id, ∀ row ∈ rows id, Accepted lib row.config) :
    (run lib rows actions).Sound lib :=
  (boot_sound h).run actions

-- A stretch of a run in which the lock of the board is taken by the first action, if at all, and is
-- held before each of the others. A reconcile is one.
def Reconciling (lib : ConfigLib) (s : Supervisor Body) (id : String) :
    List (Action Body) → Prop :=
  Trace.Along fun pre _ => pre = [] ∨ ((Trace.run (step lib) s pre).boards id).op ≠ none

theorem Sound.retains (h : s.Sound lib) {id : String} (hr : Reconciling lib s id actions) :
    (s.boards id).Retains ((Trace.run (Supervisor.step lib) s actions).boards id) := by
  induction actions using List.reverseRecOn
  case nil =>
    have hb := h.boards id
    have hs : (s.boards id).Steps lib s.root True (s.boards id) := .idle
    exact hs.retains hb.filled hb.stored
  case append_singleton actions a ih =>
    obtain ⟨hp, ha⟩ := along_concat.mp hr
    have ih := ih hp
    have hs := h.run actions
    have hv : ((Trace.run (Supervisor.step lib) s actions).boards id).view = (s.boards id).view := by
      obtain rfl | ho := ha
      case inl => rfl
      case inr => exact ih.view.resolve_right ho
    have hadv : (Trace.run (Supervisor.step lib) s actions).Advances lib
        ((Trace.run (Supervisor.step lib) s actions).step lib a) := step_advances hs.root
    rw [run_concat]
    exact ih.trans ((hadv.boards id).retains (hs.boards id).filled (hs.boards id).stored) hv

theorem Sound.stopped (h : s.Sound lib) (hc : .returned ∈ s.calls) (actions : List (Action Body))
    (id : String) : ((Trace.run (Supervisor.step lib) s actions).boards id).Settled := by
  -- Once the root is cancelled it stays so, and a board that is settled stays so then.
  have hinv : (Trace.run (Supervisor.step lib) s actions).Sound lib ∧
      (Trace.run (Supervisor.step lib) s actions).root = true ∧
      ((Trace.run (Supervisor.step lib) s actions).boards id).Settled := by
    refine Trace.invariant
      (I := fun s : Supervisor Body => s.Sound lib ∧ s.root = true ∧ (s.boards id).Settled)
      ⟨h, h.root (List.ne_nil_of_mem hc), h.calls _ hc id⟩ fun (s : Supervisor Body) a hi => ?_
    obtain ⟨hs, hroot, hset⟩ := hi
    have hadv : s.Advances lib (s.step lib a) := step_advances hs.root
    have hst := hadv.boards id
    rw [hroot] at hst
    have hroot' : (s.step lib a).root = true := by
      obtain hr | hr := hadv.root
      case inl => exact hr.trans hroot
      case inr => exact hr
    exact ⟨hs.step a, hroot', hst.settled hset⟩
  exact hinv.2.2

-- What the supervisor promises of a board.
structure Supervises (lib : ConfigLib) (s : Supervisor Body) (id : String) : Prop where
  generation : (s.boards id).OneGeneration
  running    : s.root = false → (s.boards id).requests = 0 → (s.boards id).spawned = 0 →
    (s.boards id).waiting = 0 → (s.boards id).op = none →
      (s.boards id).livePlans = Board.unitsOf (s.boards id).row
  stopped    : .returned ∈ s.calls → ∀ actions,
    ∀ l ∈ ((Trace.run (step lib) s actions).boards id).loops, ¬l.alive
  keeps      : ∀ actions, Reconciling lib s id actions → ∀ panel results results',
    (s.boards id).resultsOf panel = some results →
    ((Trace.run (step lib) s actions).boards id).resultsOf panel = some results' →
      PanelBuf.Keeps results results'
  buffers    : ∀ buf ∈ (s.boards id).bufs, buf.Aligned
  records    : ∀ i l m result rest left body budgetSecs, (s.boards id).loops[i]? = some l →
    l.stage = .finishing ((m, result) :: rest) left body budgetSecs →
      ∃ p ∈ l.plan.panels, (∃ view ∈ (s.boards id).view, view.lookup p.id = some m.buf) ∧
        ∀ buf, ((s.step lib (.board id (.finish i))).boards id).bufs[m.buf]? = some buf →
          buf.records.length ≤ p.barCount

theorem Sound.supervised (h : s.Sound lib) (id : String) : s.Supervises lib id where
  generation := (h.boards id).owned.oneGeneration
  running    := fun hr hrq hsp hw ho => (((h.boards id).synced hr) hrq hsp hw).2 ho
  stopped    := fun hc actions => (h.stopped hc actions id).dead
  keeps      := fun _ hr _ _ _ hp hp' => (h.retains hr).keeps hp hp'
  buffers    := (h.boards id).filled.aligned
  records    := fun i l m result rest left body budgetSecs hl hs => by
    have hb : (s.step lib (.board id (.finish i))).boards id =
        (s.boards id).step lib s.root (.finish i) := Function.update_self ..
    exact hb ▸ Board.push_records (h.boards id).filled (h.boards id).shown hl hs

-- Whatever the requests, the reconciles, the loops and the calls that stop everything do.
theorem supervises (h : ∀ id, ∀ row ∈ rows id, Accepted lib row.config)
    (actions : List (Action Body)) (id : String) : (run lib rows actions).Supervises lib id :=
  (run_sound h).supervised id

end

-- Ids of 26 characters.
def lengthLib : ConfigLib where
  isUlid s        := s.length = 26
  jsonpathIsValid := jsonpathIsSimple

def homePanel : PanelConfig :=
  { id := "01J0000000000000000000000A", title := "home", scenarioId := "S" }

def orderGroup : CheckGroup :=
  { id := "01J0000000000000000000000G", scenarioId := "T" }

def orderPanel (id title step : String) : PanelConfig :=
  { id, title, scenarioId := "T", latencySource := .step step, groupId := some orderGroup.id
    stepId := some step }

def cartPanel : PanelConfig :=
  orderPanel "01J0000000000000000000000B" "cart" "01J0000000000000000000000S"

def payPanel : PanelConfig :=
  orderPanel "01J0000000000000000000000C" "pay" "01J0000000000000000000000T"

def homeConfig (panels : List PanelConfig) : BoardConfig :=
  { panels, groups := [orderGroup] }

-- A board with a panel and a group of two panels, which is enabled at the start.
def homeRows (id : String) : Option BoardRow :=
  if id = "home" then some ⟨homeConfig [homePanel, cartPanel, payPanel], true⟩ else none

-- The board is edited while its loops are checking, and again while the reconcile of the first edit
-- waits for them. The caller of the second reconcile does not wait.
def homeEdits : List (Action Unit) :=
  [.board "home" .reconcile, .enter "home", .board "home" .acquire, .board "home" .read,
   .board "home" .decide, .board "home" .install, .board "home" (.begin 0),
   .board "home" (.begin 1),
   .board "home" (.edit (fun _ => "") "home" (homeConfig [cartPanel, payPanel])),
   .board "home" .reconcile, .enter "home", .board "home" .acquire, .board "home" .read,
   .board "home" (.edit (fun _ => "") "home" (homeConfig [payPanel, homePanel])),
   .board "home" .reconcile, .board "home" .leave, .enter "home", .board "home" (.exit 1),
   .board "home" (.exit 0), .board "home" .joined, .board "home" .joined, .board "home" .decide,
   .board "home" .install, .board "home" (.begin 2), .board "home" .acquire, .board "home" .read,
   .board "home" (.exit 2), .board "home" .joined, .board "home" .decide, .board "home" .install,
   .board "home" (.begin 3)]

-- One loop is stopped in the middle of its check, the other one is aborted before it.
def homeStop : List (Action Unit) :=
  [.stopAll, .list 0, .take 0 "home", .board "home" (.exit 3), .board "home" .joined,
   .board "home" .abort, .board "home" (.exit 4), .board "home" .joined, .release 0, .finish 0]

theorem supervises_home :
    ((run lengthLib homeRows homeEdits).boards "home").livePlans.map UnitPlan.scenarioId =
      ["T", "S"] ∧
    ∀ actions, ∀ l ∈ ((Trace.run (step lengthLib)
      (run lengthLib homeRows (homeEdits ++ homeStop)) actions).boards "home").loops, ¬l.alive := by
  have hrows : ∀ id, ∀ row ∈ homeRows id, Accepted lengthLib row.config := by
    intro id row hr
    simp only [homeRows, Option.mem_ite_none_right, Option.mem_some_iff] at hr
    obtain ⟨-, rfl⟩ := hr
    exact .inr ⟨fun _ => "", "home", homeConfig [homePanel, cartPanel, payPanel], "home",
      by decide +kernel⟩
  have hedits := supervises hrows homeEdits "home"
  have hstop := supervises hrows (homeEdits ++ homeStop) "home"
  have hlive := hedits.running rfl rfl rfl rfl rfl
  exact ⟨(congrArg (List.map UnitPlan.scenarioId) hlive).trans (by decide +kernel),
    hstop.stopped (by decide +kernel)⟩

end Supervisor

end Monitor
