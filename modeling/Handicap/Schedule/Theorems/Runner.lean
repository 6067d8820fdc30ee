import Handicap.Schedule.Runner

open Store

namespace Schedule

def Firing.isOnce (f : Firing) : Bool :=
  f.entry.row.trigger.isOnce

-- A row has what its user has set, unless that has been used up.
def Entry.Kept (cron : Cron) (e : Entry) : Prop :=
  if e.used then
    e.row.enabled = false ∧ e.row.nextRunAt = none
  else
    e.row.enabled = e.wanted ∧ ∃ now, e.row.nextRunAt = nextFireAfter cron e.row.trigger now

namespace Tick

variable (t : Tick)

def taken : List Entry :=
  t.entry :: t.rest

def marked : Bool :=
  match t.stage with
  | .event _ => true
  | _        => false

-- Those that the scheduler has yet to write into.
def unmarked : List Entry :=
  if t.marked then t.rest else t.taken

-- Those that may still be fired.
def unfired : List Entry :=
  match t.stage with
  | .overlap _ | .scenario | .validate | .spawn => t.taken
  | _                                           => t.rest

theorem unmarked_sub : t.unmarked ⊆ t.taken := by
  unfold unmarked
  split_ifs
  case pos => exact List.subset_cons_self _ _
  case neg => exact List.Subset.refl _

theorem unfired_sub : t.unfired ⊆ t.taken := by
  unfold unfired
  split
  case h_5 => exact List.subset_cons_self _ _
  all_goals exact List.Subset.refl _

theorem rest_sub_unfired : t.rest ⊆ t.unfired := by
  unfold unfired
  split
  case h_5 => exact List.Subset.refl _
  all_goals exact List.subset_cons_self _ _

theorem begin_taken {now : ℤ} {entries : List Entry} {t : Tick} (h : t ∈ Tick.begin now entries) :
    t.taken = entries ∧ t.marked = false := by
  cases entries
  case nil => simp [Tick.begin] at h
  case cons e rest =>
    cases h
    refine ⟨rfl, ?_⟩
    simp only [marked, enter]
    split_ifs
    case pos => rfl
    case neg => cases e.row.lastRunId <;> rfl

end Tick

namespace Scheduling

-- No setting is fired twice where its trigger fires once.
def FiresOnce (s : Scheduling) : Prop :=
  ((s.firings.filter Firing.isOnce).map (·.entry.setting)).Nodup

structure Sound (cron : Cron) (s : Scheduling) : Prop where
  once    : s.FiresOnce
  overlap : ∀ f ∈ s.firings, ∀ g ∈ s.firings, f.entry.row.id = g.entry.row.id →
    s.isActive f.runId → s.isActive g.runId → f = g
  kept    : ∀ e ∈ s.entries, e.Kept cron

-- The row before is read, no run that has ended becomes active again, none that could not be
-- started stays active, and no user has set a schedule between the scheduler's query and its write,
-- unless the setting comes to the same.
def Careful (cron : Cron) (s : Scheduling) : Action → Prop
  | .overlap read          => read
  | .writeRun runId w now  => ∀ f ∈ s.firings, f.runId = runId →
    ∀ row ∈ s.runs.lookup runId, (w.apply now row).status.isActive → row.status.isActive
  | .spawned (.error _)    => ∀ t ∈ s.tick, ∀ f ∈ s.firings, t.stage = .spawning f.runId →
    ¬s.isActive f.runId
  | .mark                  => ∀ t ∈ s.tick, ∀ e ∈ s.entries, e.row.id = t.entry.row.id →
    e.setting = t.entry.setting ∨ ¬t.entry.row.trigger.isOnce ∧ e.wanted ∧
      nextFireAfter cron e.row.trigger t.now = nextFireAfter cron t.entry.row.trigger t.now
  | _                      => True

-- What the tick has taken is as it was in the table, apart from what users have set since.
structure Taken (entries : List Entry) (firings : List Firing) (settings : ℕ) (t : Tick) :
    Prop where
  ids     : (t.taken.map (·.row.id)).Nodup
  numbers : ∀ q ∈ t.taken, q.setting < settings
  same    : ∀ q ∈ t.taken, ∀ e ∈ entries, e.setting = q.setting →
    e.row.id = q.row.id ∧ e.row.trigger = q.row.trigger ∧ e.wanted = q.wanted
  alone   : ∀ q ∈ t.taken, ∀ q' ∈ t.taken, q.setting = q'.setting → q.row.id = q'.row.id
  last    : ∀ q ∈ t.unmarked, ∀ e ∈ entries, e.row.id = q.row.id →
    e.row.lastRunId = q.row.lastRunId ∧ e.used = false
  unfired : ∀ q ∈ t.unfired, ∀ f ∈ firings, f.isOnce → f.entry.setting ≠ q.setting

theorem Taken.entry_ne {entries : List Entry} {firings : List Firing} {settings : ℕ} {t : Tick}
    {q : Entry} (tk : Taken entries firings settings t) (hq : q ∈ t.rest) :
    t.entry.row.id ≠ q.row.id :=
  fun he => (List.nodup_cons.mp tk.ids).left (List.mem_map.mpr ⟨q, hq, he.symm⟩)

structure Invariant (s : Scheduling) : Prop where
  ids     : (s.entries.map (·.row.id)).Nodup
  numbers : ∀ e ∈ s.entries, e.setting < s.settings
  alone   : ∀ e ∈ s.entries, ∀ e' ∈ s.entries, e.setting = e'.setting → e.row.id = e'.row.id
  fired   : ∀ f ∈ s.firings, f.entry.setting < s.settings
  quiet   : ∀ e ∈ s.entries, e.used → e.row.enabled = false
  once    : s.FiresOnce
  used    : ∀ f ∈ s.firings, f.isOnce → ∀ e ∈ s.entries, e.setting = f.entry.setting →
    e.used ∨ ∃ t ∈ s.tick, t.marked = false ∧ t.entry = f.entry
  taken   : ∀ t ∈ s.tick, Taken s.entries s.firings s.settings t

variable {cron : Cron} {s : Scheduling} {t : Tick} {stage : Stage} {id : String} {e : Entry}
  {f : Entry → Entry} {a : Action}

theorem mem_modify (h : e ∈ (s.modify id f).entries) :
    (∃ e₀ ∈ s.entries, e₀.row.id = id ∧ f e₀ = e) ∨ e ∈ s.entries ∧ e.row.id ≠ id := by
  have ⟨e₀, he₀, he⟩ := List.mem_map.mp h
  split_ifs at he
  case pos hi => exact .inl ⟨e₀, he₀, hi, he⟩
  case neg hi => exact .inr ⟨he ▸ he₀, he ▸ hi⟩

theorem ids_modify (h : (s.entries.map (·.row.id)).Nodup) (hf : ∀ e, (f e).row.id = e.row.id) :
    ((s.modify id f).entries.map (·.row.id)).Nodup := by
  have he : (s.modify id f).entries.map (·.row.id) = s.entries.map (·.row.id) := by
    rw [modify, List.map_map]
    refine List.map_congr_left fun e _ => ?_
    simp only [Function.comp_apply]
    split_ifs
    case pos => exact hf e
    case neg => rfl
  rwa [he]

theorem trigger_update {row : ScheduleRow} {tr : Trigger} {enabled : Bool} {next : Option ℤ} :
    (row.update tr enabled next).trigger = tr := by
  cases tr <;> rfl

theorem trigger_inserted {tr : Trigger} {enabled : Bool} {next : Option ℤ} :
    (ScheduleRow.inserted id tr enabled next).trigger = tr := by
  cases tr <;> rfl

theorem trigger_markOutcome {row : ScheduleRow} {next : Option ℤ} {enabled : Bool} {o : Outcome}
    {firedAt : Option ℤ} : (row.markOutcome next enabled o firedAt).trigger = row.trigger :=
  rfl

namespace Invariant

theorem new : Scheduling.new.Invariant where
  ids     := List.nodup_nil
  numbers := by simp [Scheduling.new]
  alone   := by simp [Scheduling.new]
  fired   := by simp [Scheduling.new]
  quiet   := by simp [Scheduling.new]
  once    := List.nodup_nil
  used    := by simp [Scheduling.new]
  taken   := by simp [Scheduling.new]

theorem runs (i : s.Invariant) (runs : Table String RunRow) : { s with runs }.Invariant :=
  ⟨i.ids, i.numbers, i.alone, i.fired, i.quiet, i.once, i.used, i.taken⟩

-- The scheduler goes on with the schedule in hand.
theorem goto (i : s.Invariant) (ht : s.tick = some t) (hm : t.marked = false)
    (hs : { t with stage }.marked = false) (hu : { t with stage }.unfired ⊆ t.unfired) :
    (s.goto t stage).Invariant := by
  have tk := i.taken t ht
  refine ⟨i.ids, i.numbers, i.alone, i.fired, i.quiet, i.once, fun f hf ho e he hn => ?_,
    fun t' ht' => ?_⟩
  case refine_1 =>
    refine (i.used f hf ho e he hn).imp_right fun ⟨t', ht', hp⟩ => ?_
    cases ht.symm.trans ht'
    exact ⟨_, rfl, hs, hp.right⟩
  case refine_2 =>
    cases ht'
    have hl : { t with stage }.unmarked = t.unmarked := by
      simp only [Tick.unmarked, hm, hs]
      rfl
    exact ⟨tk.ids, tk.numbers, tk.same, tk.alone, hl ▸ tk.last, fun q hq => tk.unfired q (hu hq)⟩

-- A new setting gets a number that nobody has. It keeps the last run of the row.
theorem set (i : s.Invariant) (id : String) {entries : List Entry}
    (ids : (entries.map (·.row.id)).Nodup)
    (h : ∀ e ∈ entries, e ∈ s.entries ∨
      e.setting = s.settings ∧ e.row.id = id ∧ e.used = false ∧
        ∀ t ∈ s.tick, ∀ q ∈ t.taken, q.row.id = id →
          ∃ e₀ ∈ s.entries, e₀.row.id = id ∧ e.row.lastRunId = e₀.row.lastRunId) :
    { s with entries, settings := s.settings + 1 }.Invariant := by
  refine ⟨ids, fun e he => ?numbers, fun e he e' he' hn => ?alone,
    fun f hf => (i.fired f hf).trans (Nat.lt_succ_self _), fun e he hu => ?quiet, i.once,
    fun f hf ho e he hn => ?used, fun t ht => ?taken⟩
  case numbers =>
    cases h e he
    case inl he => exact (i.numbers e he).trans (Nat.lt_succ_self _)
    case inr he => exact he.left ▸ Nat.lt_succ_self _
  case alone =>
    cases h e he
    case inl he =>
      cases h e' he'
      case inl he' => exact i.alone e he e' he' hn
      case inr he' => exact absurd (hn.trans he'.left) (i.numbers e he).ne
    case inr he =>
      cases h e' he'
      case inl he' => exact absurd (hn.symm.trans he.left) (i.numbers e' he').ne
      case inr he' => exact he.right.left.trans he'.right.left.symm
  case quiet =>
    cases h e he
    case inl he => exact i.quiet e he hu
    case inr he => exact absurd hu (by simp [he.right.right])
  case used =>
    cases h e he
    case inl he => exact i.used f hf ho e he hn
    case inr he => exact absurd (hn.symm.trans he.left) (i.fired f hf).ne
  case taken =>
    have tk := i.taken t ht
    refine ⟨tk.ids, fun q hq => (tk.numbers q hq).trans (Nat.lt_succ_self _),
      fun q hq e he hn => ?same, tk.alone, fun q hq e he hn => ?last, tk.unfired⟩
    case same =>
      cases h e he
      case inl he => exact tk.same q hq e he hn
      case inr he => exact absurd (hn.symm.trans he.left) (tk.numbers q hq).ne
    case last =>
      cases h e he
      case inl he => exact tk.last q hq e he hn
      case inr he =>
        have ⟨_, hi, hu, hl⟩ := he
        have ⟨e₀, he₀, hi₀, hl⟩ := hl t ht q (t.unmarked_sub hq) (hn.symm.trans hi)
        have hq := tk.last q hq e₀ he₀ (hi₀.trans (hi.symm.trans hn))
        exact ⟨hl.trans hq.left, hu⟩

theorem create (i : s.Invariant) (tr : Trigger) (enabled : Bool) (now : ℤ) :
    (s.create cron id tr enabled now).Invariant := by
  unfold Scheduling.create
  split_ifs
  case neg => exact i
  case pos h =>
    refine i.set id ?_ fun e he => ?_
    case refine_1 =>
      rw [List.map_append, List.nodup_append]
      refine ⟨i.ids, List.nodup_singleton _, fun x hx y hy hxy => ?_⟩
      have ⟨e, he, hx⟩ := List.mem_map.mp hx
      cases List.mem_singleton.mp hy
      exact h.2.1 e he (hx.trans hxy)
    case refine_2 =>
      cases List.mem_append.mp he
      case inl he => exact .inl he
      case inr he =>
        cases List.mem_singleton.mp he
        refine .inr ⟨rfl, rfl, rfl, fun t ht q hq hn => ?_⟩
        have hk := h.2.2.2 t ht
        cases List.mem_cons.mp hq
        case inl he => exact absurd hn (he ▸ hk.left)
        case inr hr => exact absurd hn (hk.right q hr)

theorem update (i : s.Invariant) (tr : Trigger) (enabled : Bool) (now : ℤ) :
    (s.update cron id tr enabled now).Invariant := by
  unfold Scheduling.update
  split_ifs
  case neg => exact i
  case pos h =>
    refine i.set id ?_ fun e he => ?_
    case refine_1 => exact ids_modify i.ids fun _ => rfl
    case refine_2 =>
      cases mem_modify he
      case inr he => exact .inl he.left
      case inl he =>
        have ⟨e₀, he₀, hi, he⟩ := he
        subst he
        exact .inr ⟨rfl, hi, rfl, fun _ _ _ _ _ => ⟨e₀, he₀, hi, rfl⟩⟩

theorem delete (i : s.Invariant) (id : String) :
    { s with entries := s.entries.filter (·.row.id ≠ id) }.Invariant := by
  have hs : s.entries.filter (·.row.id ≠ id) ⊆ s.entries := List.filter_subset_self _
  refine ⟨i.ids.sublist (List.filter_sublist.map _), fun e he => i.numbers e (hs he),
    fun e he e' he' => i.alone e (hs he) e' (hs he'), i.fired, fun e he => i.quiet e (hs he),
    i.once, fun f hf ho e he => i.used f hf ho e (hs he), fun t ht => ?_⟩
  have tk := i.taken t ht
  exact ⟨tk.ids, tk.numbers, fun q hq e he => tk.same q hq e (hs he), tk.alone,
    fun q hq e he => tk.last q hq e (hs he), tk.unfired⟩

-- What has been fired is no longer among those that may be.
theorem insertRun (i : s.Invariant) (ht : s.tick = some t) (hs : t.stage = .spawn)
    (runId : String) : (s.insertRun t runId).Invariant := by
  have tk := i.taken t ht
  have hu : t.unfired = t.taken := by rw [Tick.unfired, hs]
  have hm : t.marked = false := by rw [Tick.marked, hs]
  have hentry : t.entry ∈ t.taken := List.mem_cons_self
  unfold Scheduling.insertRun
  split_ifs
  case neg => exact i
  case pos =>
    refine ⟨i.ids, i.numbers, i.alone, fun f hf => ?fired, i.quiet, ?once,
      fun f hf ho e he hn => ?used, fun t' ht' => ?taken⟩
    case fired =>
      cases List.mem_append.mp hf
      case inl hf => exact i.fired f hf
      case inr hf =>
        cases List.mem_singleton.mp hf
        exact tk.numbers _ hentry
    case once =>
      rw [FiresOnce, List.filter_append, List.map_append, List.nodup_append]
      refine ⟨i.once, ((List.nodup_singleton _).filter _).map_on (by simp), fun x hx y hy hxy => ?_⟩
      have ⟨f, hf, hx⟩ := List.mem_map.mp hx
      have ⟨hf, ho⟩ := List.mem_filter.mp hf
      have ⟨g, hg, hy⟩ := List.mem_map.mp hy
      cases List.mem_singleton.mp (List.mem_of_mem_filter hg)
      exact tk.unfired _ (hu ▸ hentry) f hf ho (hx.trans (hxy.trans hy.symm))
    case used =>
      cases List.mem_append.mp hf
      case inl hf =>
        refine (i.used f hf ho e he hn).imp_right fun ⟨t', ht', hp⟩ => ?_
        cases ht.symm.trans ht'
        exact ⟨_, rfl, rfl, hp.right⟩
      case inr hf =>
        cases List.mem_singleton.mp hf
        exact .inr ⟨_, rfl, rfl, rfl⟩
    case taken =>
      cases ht'
      have hl : { t with stage := .spawning runId }.unmarked = t.unmarked := by
        rw [Tick.unmarked, Tick.unmarked, hm]
        rfl
      refine ⟨tk.ids, tk.numbers, tk.same, tk.alone, hl ▸ tk.last, fun q hq f hf ho hn => ?_⟩
      have hq : q ∈ t.rest := hq
      cases List.mem_append.mp hf
      case inl hf => exact tk.unfired q (hu ▸ List.mem_cons_of_mem _ hq) f hf ho hn
      case inr hf =>
        cases List.mem_singleton.mp hf
        exact tk.entry_ne hq (tk.alone _ hentry _ (List.mem_cons_of_mem _ hq) hn)

-- The row that is written is the one of the schedule in hand, in whatever setting it is by then.
theorem mark (i : s.Invariant) (ht : s.tick = some t) (hs : t.marked = false) (o : Outcome) :
    (s.mark cron t o).Invariant := by
  have tk := i.taken t ht
  have hu : t.unmarked = t.taken := by
    rw [Tick.unmarked, hs]
    rfl
  have hentry : t.entry ∈ t.taken := List.mem_cons_self
  have hsame {e : Entry} (he : e ∈ (s.mark cron t o).entries) : ∃ e₀ ∈ s.entries,
      e.setting = e₀.setting ∧ e.row.id = e₀.row.id ∧ e.row.trigger = e₀.row.trigger ∧
      e.wanted = e₀.wanted := by
    cases mem_modify he
    case inr he => exact ⟨e, he.left, rfl, rfl, rfl, rfl⟩
    case inl he =>
      have ⟨e₀, he₀, _, he⟩ := he
      subst he
      exact ⟨e₀, he₀, rfl, rfl, rfl, rfl⟩
  refine ⟨ids_modify i.ids fun _ => rfl, fun e he => ?numbers, fun e he e' he' hn => ?alone, i.fired,
    fun e he hu => ?quiet, i.once, fun f hf ho e he hn => ?used, fun t' ht' => ?taken⟩
  case numbers =>
    have ⟨e₀, he₀, hn, _⟩ := hsame he
    exact hn ▸ i.numbers e₀ he₀
  case alone =>
    have ⟨e₀, he₀, hn₀, hi₀, _⟩ := hsame he
    have ⟨e₁, he₁, hn₁, hi₁, _⟩ := hsame he'
    exact hi₀.trans ((i.alone e₀ he₀ e₁ he₁ (hn₀.symm.trans (hn.trans hn₁))).trans hi₁.symm)
  case quiet =>
    cases mem_modify he
    case inr he => exact i.quiet e he.left hu
    case inl he =>
      have ⟨e₀, _, _, he⟩ := he
      subst he
      have ho : t.entry.row.trigger.isOnce := (Bool.and_eq_true_iff.mp hu).right
      simp [Tick.write, ScheduleRow.markOutcome, advance, ho]
  case used =>
    cases mem_modify he
    case inr he =>
      have hne : t.entry.setting ≠ f.entry.setting := fun heq =>
        he.right (tk.same _ hentry e he.left (hn.trans heq.symm)).left
      refine .inl ((i.used f hf ho e he.left hn).resolve_right fun ⟨t', ht', hp⟩ => ?_)
      cases ht.symm.trans ht'
      exact hne (congrArg Entry.setting hp.right)
    case inl he =>
      have ⟨e₀, he₀, hi, he⟩ := he
      subst he
      have hl := tk.last _ (hu ▸ hentry) e₀ he₀ hi
      have hd := (i.used f hf ho e₀ he₀ hn).resolve_left (by simp [hl.right])
      have ⟨t', ht', _, hf⟩ := hd
      cases ht.symm.trans ht'
      have hn : e₀.setting = t.entry.setting := hn.trans (congrArg Entry.setting hf.symm)
      have ho : t.entry.row.trigger.isOnce := hf ▸ ho
      exact .inl (by simp [Tick.write, hn, ho])
  case taken =>
    cases ht'
    have hrest : ({ t with stage := .event o }.unmarked) = t.rest := rfl
    refine ⟨tk.ids, tk.numbers, fun q hq e he hn => ?_, tk.alone, fun q hq e he hn => ?_, ?_⟩
    case refine_1 =>
      have ⟨e₀, he₀, hn₀, hi₀, ht₀, hw₀⟩ := hsame he
      have ⟨hi, htr, hw⟩ := tk.same q hq e₀ he₀ (hn₀.symm.trans hn)
      exact ⟨hi₀.trans hi, ht₀.trans htr, hw₀.trans hw⟩
    case refine_2 =>
      have hq : q ∈ t.rest := hq
      cases mem_modify he
      case inr he => exact tk.last q (hu ▸ List.mem_cons_of_mem _ hq) e he.left hn
      case inl he =>
        have ⟨e₀, _, hi, he⟩ := he
        subst he
        exact absurd (hi.symm.trans hn) (tk.entry_ne hq)
    case refine_3 => exact fun q hq => tk.unfired q (t.rest_sub_unfired hq)

-- The next schedule is in hand.
theorem event (i : s.Invariant) (ht : s.tick = some t) (hs : t.marked) (o : Outcome) :
    (s.event t o).Invariant := by
  have tk := i.taken t ht
  have hu : t.unmarked = t.rest := by
    rw [Tick.unmarked, hs]
    rfl
  refine ⟨i.ids, i.numbers, i.alone, i.fired, i.quiet, i.once, fun f hf ho e he hn => ?used,
    fun t' ht' => ?taken⟩
  case used =>
    refine .inl ((i.used f hf ho e he hn).resolve_right fun ⟨t', ht', hp⟩ => ?_)
    cases ht.symm.trans ht'
    exact absurd hs (by simp [hp.left])
  case taken =>
    have ⟨ht', hm⟩ := Tick.begin_taken ht'
    have hs : t'.taken ⊆ t.taken := fun q hq => List.mem_cons_of_mem _ (ht' ▸ hq)
    refine ⟨ht' ▸ (List.nodup_cons.mp tk.ids).right, fun q hq => tk.numbers q (hs hq),
      fun q hq => tk.same q (hs hq), fun q hq q' hq' => tk.alone q (hs hq) q' (hs hq'),
      fun q hq => tk.last q ?_, fun q hq => tk.unfired q (t.rest_sub_unfired ?_)⟩
    case refine_1 => exact hu ▸ ht' ▸ t'.unmarked_sub hq
    case refine_2 => exact ht' ▸ t'.unfired_sub hq

-- What is due is enabled, and has not been used up.
theorem startTick (i : s.Invariant) (ht : s.tick = none) (now : ℤ) :
    { s with tick := Tick.begin now (due now s.entries) }.Invariant := by
  refine ⟨i.ids, i.numbers, i.alone, i.fired, i.quiet, i.once, fun f hf ho e he hn => ?used,
    fun t' ht' => ?taken⟩
  case used =>
    exact .inl ((i.used f hf ho e he hn).resolve_right fun ⟨t', ht', _⟩ => by simp [ht] at ht')
  case taken =>
    have ⟨ht', hm⟩ := Tick.begin_taken ht'
    have hd {q : Entry} (hq : q ∈ t'.taken) : q ∈ s.entries ∧ q.row.isDue now := by
      rw [ht'] at hq
      exact List.mem_filter.mp ((List.mem_insertionSort _).mp hq)
    have heq {q e : Entry} (hq : q ∈ t'.taken) (he : e ∈ s.entries) (hi : e.row.id = q.row.id) :
        e = q := List.inj_on_of_nodup_map i.ids he (hd hq).left hi
    have hused {q : Entry} (hq : q ∈ t'.taken) : q.used = false := by
      by_contra hu
      have he := i.quiet q (hd hq).left (by simpa using hu)
      have hdue := (hd hq).right
      simp [ScheduleRow.isDue, he] at hdue
    refine ⟨?_, fun q hq => i.numbers q (hd hq).left, fun q hq e he hn => ?_,
      fun q hq q' hq' => i.alone q (hd hq).left q' (hd hq').left, fun q hq e he hi => ?_,
      fun q hq f hf ho hn => ?_⟩
    case refine_1 =>
      rw [ht']
      have hp := (List.perm_insertionSort (fun a b : Entry =>
        a.row.nextRunAt.getD now ≤ b.row.nextRunAt.getD now)
          (s.entries.filter (·.row.isDue now))).map (·.row.id)
      exact hp.nodup_iff.mpr (i.ids.sublist (List.filter_sublist.map _))
    case refine_2 =>
      cases heq hq he (i.alone e he q (hd hq).left hn)
      exact ⟨rfl, rfl, rfl⟩
    case refine_3 =>
      have hq := t'.unmarked_sub hq
      cases heq hq he hi
      exact ⟨rfl, hused hq⟩
    case refine_4 =>
      have hq := t'.unfired_sub hq
      have h := (i.used f hf ho q (hd hq).left hn.symm).resolve_left (by simp [hused hq])
      have ⟨t', ht', _⟩ := h
      simp [ht] at ht'

theorem proceed (i : s.Invariant) (ht : s.tick = some t) :
    (s.proceed cron t t.stage a).Invariant := by
  have hg {g g' : Stage} (hs : t.stage = g) (hm : { t with stage := g }.marked = false)
      (hm' : { t with stage := g' }.marked = false)
      (hu : { t with stage := g' }.unfired ⊆ { t with stage := g }.unfired) :
      (s.goto t g').Invariant := by
    subst hs
    exact i.goto ht hm hm' hu
  generalize hs : t.stage = g
  unfold Scheduling.proceed
  split
  case h_1 =>
    split_ifs
    case pos => exact hg hs rfl rfl (List.subset_cons_self _ _)
    case neg => exact hg hs rfl rfl (List.Subset.refl _)
  case h_2 => exact hg hs rfl rfl (List.subset_cons_self _ _)
  case h_3 => exact hg hs rfl rfl (List.subset_cons_self _ _)
  case h_4 => exact hg hs rfl rfl (List.Subset.refl _)
  case h_5 => exact hg hs rfl rfl (List.subset_cons_self _ _)
  case h_6 => exact hg hs rfl rfl (List.Subset.refl _)
  case h_7 => exact i.insertRun ht hs _
  case h_8 => exact hg hs rfl rfl (List.subset_cons_self _ _)
  case h_9 => exact hg hs rfl rfl (List.Subset.refl _)
  case h_10 => exact hg hs rfl rfl (List.Subset.refl _)
  case h_11 => exact i.mark ht (by rw [Tick.marked, hs]) _
  case h_12 => exact i.event ht (by rw [Tick.marked, hs]) _
  case h_13 => exact i

theorem step (i : s.Invariant) (a : Action) : (s.step cron a).Invariant := by
  have hp : (s.resume cron a).Invariant := by
    unfold resume
    split
    case h_1 t ht => exact i.proceed ht
    case h_2 => exact i
  cases a
  case create id tr enabled now => exact i.create tr enabled now
  case update id tr enabled now => exact i.update tr enabled now
  case delete id => exact i.delete id
  case createRun runId =>
    simp only [Scheduling.step, Scheduling.createRun]
    split_ifs
    case pos => exact i.runs _
    case neg => exact i
  case writeRun runId w now =>
    simp only [Scheduling.step]
    split
    case h_1 => exact i.runs _
    case h_2 => exact i
  case deleteRun runId =>
    simp only [Scheduling.step]
    split_ifs
    case pos => exact i
    case neg => exact i.runs _
  case startTick now =>
    simp only [Scheduling.step]
    split
    case h_1 => exact i
    case h_2 ht => exact i.startTick ht now
  all_goals exact hp

end Invariant

-- Every row has what its user has set, and the scheduler has only taken what is wanted.
structure Settled (cron : Cron) (s : Scheduling) : Prop where
  kept   : ∀ e ∈ s.entries, e.Kept cron
  wanted : ∀ t ∈ s.tick, ∀ q ∈ t.unmarked, q.wanted

namespace Settled

theorem goto (g : s.Settled cron) (ht : s.tick = some t) (hm : t.marked = false) :
    (s.goto t stage).Settled cron := by
  refine ⟨g.kept, fun t' ht' q hq => ?_⟩
  cases ht'
  refine g.wanted t ht q ?_
  rw [Tick.unmarked, hm]
  exact { t with stage }.unmarked_sub hq

theorem set (g : s.Settled cron) {entries : List Entry}
    (h : ∀ e ∈ entries, e ∈ s.entries ∨ e.used = false ∧ e.row.enabled = e.wanted ∧
      ∃ now, e.row.nextRunAt = nextFireAfter cron e.row.trigger now) (settings : ℕ) :
    { s with entries, settings }.Settled cron := by
  refine ⟨fun e he => ?_, g.wanted⟩
  cases h e he
  case inl he => exact g.kept e he
  case inr he =>
    rw [Entry.Kept, he.left]
    exact he.right

theorem create (g : s.Settled cron) (tr : Trigger) (enabled : Bool) (now : ℤ) :
    (s.create cron id tr enabled now).Settled cron := by
  unfold Scheduling.create
  split_ifs
  case neg => exact g
  case pos h =>
    refine g.set (fun e he => ?_) _
    cases List.mem_append.mp he
    case inl he => exact .inl he
    case inr he =>
      cases List.mem_singleton.mp he
      exact .inr ⟨rfl, rfl, now, trigger_inserted ▸ rfl⟩

theorem update (g : s.Settled cron) (tr : Trigger) (enabled : Bool) (now : ℤ) :
    (s.update cron id tr enabled now).Settled cron := by
  unfold Scheduling.update
  split_ifs
  case neg => exact g
  case pos h =>
    refine g.set (fun e he => ?_) _
    cases mem_modify he
    case inr he => exact .inl he.left
    case inl he =>
      have ⟨e₀, _, _, he⟩ := he
      subst he
      exact .inr ⟨rfl, rfl, now, trigger_update ▸ rfl⟩

-- What is written comes to what the user has set, if that is still the setting that was read.
theorem mark (g : s.Settled cron) (i : s.Invariant) (ht : s.tick = some t) (hm : t.marked = false)
    (hc : s.Careful cron .mark) (o : Outcome) : (s.mark cron t o).Settled cron := by
  have tk := i.taken t ht
  have hu : t.unmarked = t.taken := by
    rw [Tick.unmarked, hm]
    rfl
  have hw : t.entry.wanted := g.wanted t ht _ (hu ▸ List.mem_cons_self)
  refine ⟨fun e he => ?_, fun t' ht' q hq => ?_⟩
  case refine_1 =>
    cases mem_modify he
    case inr he => exact g.kept e he.left
    case inl he =>
      have ⟨e₀, he₀, hi, he⟩ := he
      subst he
      cases hc t ht e₀ he₀ hi
      case inl hn =>
        have ⟨_, htr, hwant⟩ := tk.same _ List.mem_cons_self e₀ he₀ hn
        cases ho : t.entry.row.trigger.isOnce
        case true => simp [Entry.Kept, Tick.write, hn, ho, ScheduleRow.markOutcome, advance]
        case false =>
          simp only [Entry.Kept, Tick.write, ho, Bool.and_false, advance, trigger_markOutcome, htr]
          exact ⟨(hwant.trans hw).symm, t.now, rfl⟩
      case inr hn =>
        have ⟨ho, hwant, hnext⟩ := hn
        have ho : t.entry.row.trigger.isOnce = false := by simpa using ho
        simp only [Entry.Kept, Tick.write, ho, Bool.and_false, advance, trigger_markOutcome]
        exact ⟨hwant.symm, t.now, hnext.symm⟩
  case refine_2 =>
    cases ht'
    exact g.wanted t ht q (hu ▸ List.mem_cons_of_mem _ hq)

theorem event (g : s.Settled cron) (ht : s.tick = some t) (hs : t.marked) (o : Outcome) :
    (s.event t o).Settled cron := by
  refine ⟨g.kept, fun t' ht' q hq => g.wanted t ht q ?_⟩
  have ⟨ht', _⟩ := Tick.begin_taken ht'
  have hu : t.unmarked = t.rest := by
    rw [Tick.unmarked, hs]
    rfl
  exact hu ▸ ht' ▸ t'.unmarked_sub hq

theorem startTick (g : s.Settled cron) (now : ℤ) :
    { s with tick := Tick.begin now (due now s.entries) }.Settled cron := by
  refine ⟨g.kept, fun t' ht' q hq => ?_⟩
  have ⟨ht', _⟩ := Tick.begin_taken ht'
  have hq := t'.unmarked_sub hq
  rw [ht'] at hq
  have ⟨hq, hd⟩ := List.mem_filter.mp ((List.mem_insertionSort _).mp hq)
  have he : q.row.enabled := (Bool.and_eq_true_iff.mp hd).left
  have hk := g.kept q hq
  rw [Entry.Kept] at hk
  split_ifs at hk
  case pos => exact absurd he (by simp [hk.left])
  case neg => exact hk.left ▸ he

end Settled

-- The scheduler holds a run that the row does not know yet.
def InHand (s : Scheduling) (f : Firing) : Prop :=
  ∃ t ∈ s.tick, t.entry = f.entry ∧
    (t.stage = .spawning f.runId ∨ t.stage = .mark (fired f.runId))

-- The only run of the schedule in hand that may be active.
def Only (s : Scheduling) (t : Tick) (runId : Option String) : Prop :=
  ∀ f ∈ s.firings, f.entry.row.id = t.entry.row.id → s.isActive f.runId → runId = some f.runId

def Clear (s : Scheduling) (t : Tick) : Prop :=
  match t.stage with
  | .overlap lastRunId             => t.entry.row.lastRunId = some lastRunId
  | .scenario | .validate | .spawn => s.Only t none
  | .spawning runId                => s.Only t (some runId)
  | .mark o                        => o.runId.isSome → s.Only t o.runId
  | .event _                       => True

-- At most one run of a schedule is active. Its row and the scheduler know it as the last one.
structure Single (s : Scheduling) : Prop where
  sole  : ∀ f ∈ s.firings, ∀ g ∈ s.firings, f.entry.row.id = g.entry.row.id →
    s.isActive f.runId → s.isActive g.runId → f = g
  last  : ∀ f ∈ s.firings, s.isActive f.runId → ∀ e ∈ s.entries, e.row.id = f.entry.row.id →
    e.row.lastRunId = some f.runId ∨ s.InHand f
  taken : ∀ f ∈ s.firings, s.isActive f.runId → ∀ t ∈ s.tick, ∀ q ∈ t.unmarked,
    q.row.id = f.entry.row.id → q.row.lastRunId = some f.runId ∨ s.InHand f
  clear : ∀ t ∈ s.tick, s.Clear t

theorem only_of_active {s' : Scheduling} {runId : Option String} (hf : s'.firings = s.firings)
    (ha : ∀ f ∈ s.firings, s'.isActive f.runId → s.isActive f.runId) (h : s.Only t runId) :
    s'.Only t runId :=
  fun f hm hi hact => h f (hf ▸ hm) hi (ha f (hf ▸ hm) hact)

namespace Single

-- Runs of the schedules end, and other runs come and go.
theorem runs (g : s.Single) {runs : Table String RunRow}
    (h : ∀ f ∈ s.firings, { s with runs }.isActive f.runId → s.isActive f.runId) :
    { s with runs }.Single := by
  refine ⟨fun f hf f' hf' hi ha ha' => g.sole f hf f' hf' hi (h f hf ha) (h f' hf' ha'),
    fun f hf ha => g.last f hf (h f hf ha), fun f hf ha => g.taken f hf (h f hf ha),
    fun t ht => ?_⟩
  have hc := g.clear t ht
  have ho {runId : Option String} : s.Only t runId → { s with runs }.Only t runId :=
    only_of_active rfl h
  unfold Clear at hc ⊢
  split at hc
  case h_1 => exact hc
  case h_6 => exact fun hr => ho (hc hr)
  case h_7 => trivial
  all_goals exact ho hc

-- The rows of a schedule keep their last run.
theorem entries (g : s.Single) {entries : List Entry} (settings : ℕ)
    (h : ∀ e ∈ entries, (∃ e₀ ∈ s.entries, e₀.row.id = e.row.id ∧
      e.row.lastRunId = e₀.row.lastRunId) ∨ ∀ f ∈ s.firings, f.entry.row.id ≠ e.row.id) :
    { s with entries, settings }.Single := by
  refine ⟨g.sole, fun f hf ha e he hi => ?_, g.taken, g.clear⟩
  cases h e he
  case inl h =>
    have ⟨e₀, he₀, hi₀, hl⟩ := h
    exact hl ▸ g.last f hf ha e₀ he₀ (hi₀.trans hi)
  case inr h => exact absurd hi.symm (h f hf)

theorem create (g : s.Single) (tr : Trigger) (enabled : Bool) (now : ℤ) :
    (s.create cron id tr enabled now).Single := by
  unfold Scheduling.create
  split_ifs
  case neg => exact g
  case pos h =>
    refine g.entries _ fun e he => ?_
    cases List.mem_append.mp he
    case inl he => exact .inl ⟨e, he, rfl, rfl⟩
    case inr he =>
      cases List.mem_singleton.mp he
      exact .inr h.2.2.1

theorem update (g : s.Single) (tr : Trigger) (enabled : Bool) (now : ℤ) :
    (s.update cron id tr enabled now).Single := by
  unfold Scheduling.update
  split_ifs
  case neg => exact g
  case pos h =>
    refine g.entries _ fun e he => .inl ?_
    cases mem_modify he
    case inr he => exact ⟨e, he.left, rfl, rfl⟩
    case inl he =>
      have ⟨e₀, he₀, _, he⟩ := he
      subst he
      exact ⟨e₀, he₀, rfl, rfl⟩

theorem delete (g : s.Single) (id : String) :
    { s with entries := s.entries.filter (·.row.id ≠ id) }.Single :=
  g.entries _ fun e he => .inl ⟨e, List.mem_of_mem_filter he, rfl, rfl⟩

theorem goto (g : s.Single) (ht : s.tick = some t) (hm : t.marked = false)
    (hh : ∀ f ∈ s.firings, s.isActive f.runId → s.InHand f → (s.goto t stage).InHand f)
    (hc : s.Clear { t with stage }) : (s.goto t stage).Single := by
  refine ⟨g.sole, fun f hf ha e he hi => (g.last f hf ha e he hi).imp_right (hh f hf ha),
    fun f hf ha t' ht' q hq hi => ?taken, fun t' ht' => ?clear⟩
  case taken =>
    cases ht'
    refine (g.taken f hf ha t ht q ?_ hi).imp_right (hh f hf ha)
    rw [Tick.unmarked, hm]
    exact { t with stage }.unmarked_sub hq
  case clear =>
    cases ht'
    unfold Clear at hc ⊢
    cases stage
    all_goals exact hc

-- Before the run is inserted, nothing is in hand.
theorem not_inHand {f : Firing} (ht : s.tick = some t)
    (hs : t.stage ≠ .spawning f.runId ∧ t.stage ≠ .mark (fired f.runId)) : ¬s.InHand f := by
  rintro ⟨t', ht', _, h⟩
  cases ht.symm.trans ht'
  exact h.elim hs.left hs.right

theorem goto_before (g : s.Single) (ht : s.tick = some t) (hm : t.marked = false)
    (hs : ∀ runId, t.stage ≠ .spawning runId ∧ t.stage ≠ .mark (fired runId))
    (hc : s.Clear { t with stage }) : (s.goto t stage).Single :=
  g.goto ht hm (fun f _ _ hin => absurd hin (not_inHand ht (hs f.runId))) hc

-- The run before is over, if there is one.
theorem overlap (g : s.Single) {lastRunId : String} (ht : s.tick = some t)
    (hs : t.stage = .overlap lastRunId) (hl : ¬s.isActive lastRunId) : s.Only t none := by
  intro f hf hi ha
  have hc := g.clear t ht
  rw [Clear, hs] at hc
  have hq : t.entry ∈ t.unmarked := by
    rw [Tick.unmarked, Tick.marked, hs]
    exact List.mem_cons_self
  have h := (g.taken f hf ha t ht _ hq hi.symm).resolve_right (not_inHand ht (by simp [hs]))
  cases hc.symm.trans h
  exact absurd ha hl

theorem insertRun (g : s.Single) (ht : s.tick = some t) (hs : t.stage = .spawn) (runId : String) :
    (s.insertRun t runId).Single := by
  have hc := g.clear t ht
  rw [Clear, hs] at hc
  unfold Scheduling.insertRun
  split_ifs
  case neg => exact g
  case pos hnew =>
    have hact {f : Firing} (hf : f ∈ s.firings)
        (ha : { s with runs := s.runs.insert runId .inserted }.isActive f.runId) :
        s.isActive f.runId := by
      rwa [isActive, AList.lookup_insert_ne (hnew.right f hf)] at ha
    have hno {f : Firing} : ¬s.InHand f := not_inHand ht (by simp [hs])
    have hold {f : Firing} (hf : f ∈ s.firings) (hi : f.entry.row.id = t.entry.row.id)
        (ha : { s with runs := s.runs.insert runId .inserted }.isActive f.runId) : False := by
      simpa using hc f hf hi (hact hf ha)
    refine ⟨fun f hf f' hf' hi ha ha' => ?sole, fun f hf ha e he hi => ?last,
      fun f hf ha t' ht' q hq hi => ?taken, fun t' ht' => ?clear⟩
    case sole =>
      cases List.mem_append.mp hf
      case inl hf =>
        cases List.mem_append.mp hf'
        case inl hf' => exact g.sole f hf f' hf' hi (hact hf ha) (hact hf' ha')
        case inr hf' =>
          cases List.mem_singleton.mp hf'
          exact (hold hf hi ha).elim
      case inr hf =>
        cases List.mem_singleton.mp hf
        cases List.mem_append.mp hf'
        case inl hf' => exact (hold hf' hi.symm ha').elim
        case inr hf' => exact (List.mem_singleton.mp hf').symm
    case last =>
      cases List.mem_append.mp hf
      case inl hf => exact .inl ((g.last f hf (hact hf ha) e he hi).resolve_right hno)
      case inr hf =>
        cases List.mem_singleton.mp hf
        exact .inr ⟨_, rfl, rfl, .inl rfl⟩
    case taken =>
      cases ht'
      have hq : q ∈ t.unmarked := by
        rw [Tick.unmarked, Tick.marked, hs]
        exact hq
      cases List.mem_append.mp hf
      case inl hf => exact .inl ((g.taken f hf (hact hf ha) t ht q hq hi).resolve_right hno)
      case inr hf =>
        cases List.mem_singleton.mp hf
        exact .inr ⟨_, rfl, rfl, .inl rfl⟩
    case clear =>
      cases ht'
      intro f hf hi ha
      cases List.mem_append.mp hf
      case inl hf => exact (hold hf hi ha).elim
      case inr hf =>
        cases List.mem_singleton.mp hf
        rfl

-- The run in hand becomes the last one of its row.
theorem mark (g : s.Single) (i : s.Invariant) (ht : s.tick = some t) {o : Outcome}
    (hs : t.stage = .mark o) : (s.mark cron t o).Single := by
  have tk := i.taken t ht
  have hc := g.clear t ht
  rw [Clear, hs] at hc
  have hu : t.unmarked = t.taken := by
    rw [Tick.unmarked, Tick.marked, hs]
    rfl
  have hin {f : Firing} (h : s.InHand f) : t.entry = f.entry ∧ o = fired f.runId := by
    have ⟨t', ht', he, h⟩ := h
    cases ht.symm.trans ht'
    exact ⟨he, by simpa [hs] using h⟩
  refine ⟨g.sole, fun f hf ha e he hi => .inl ?last, fun f hf ha t' ht' q hq hi => .inl ?taken,
    fun t' ht' => ?clear⟩
  case last =>
    cases mem_modify he
    case inr he =>
      refine (g.last f hf ha e he.left hi).resolve_right fun h => he.right ?_
      rw [hi, (hin h).left]
    case inl he =>
      have ⟨e₀, he₀, hi₀, he⟩ := he
      subst he
      have hi : e₀.row.id = f.entry.row.id := hi
      have hlast : (t.write cron o e₀).row.lastRunId = (o.runId <|> e₀.row.lastRunId) := rfl
      rw [hlast]
      cases hr : o.runId
      case none =>
        refine (g.last f hf ha e₀ he₀ hi).resolve_right fun h => ?_
        rw [(hin h).right] at hr
        cases hr
      case some runId =>
        rw [← hc (by simp [hr]) f hf (hi.symm.trans hi₀) ha, hr]
        rfl
  case taken =>
    cases ht'
    have hq : q ∈ t.rest := hq
    refine (g.taken f hf ha t ht q (hu ▸ List.mem_cons_of_mem _ hq) hi).resolve_right fun h => ?_
    exact tk.entry_ne hq ((hin h).left ▸ hi.symm)
  case clear =>
    cases ht'
    trivial

-- What the scheduler does first with a schedule is safe if the schedule's run is known.
theorem clear_enter {now : ℤ} {entries : List Entry} (ht : t ∈ Tick.begin now entries)
    (h : ∀ f ∈ s.firings, s.isActive f.runId → t.entry.row.id = f.entry.row.id →
      t.entry.row.lastRunId = some f.runId) : s.Clear t := by
  cases entries
  case nil => simp [Tick.begin] at ht
  case cons e rest =>
    cases ht
    simp only [Clear, enter]
    split_ifs
    case pos => exact fun hr => by simp [missed] at hr
    case neg =>
      cases hl : e.row.lastRunId
      case some => rfl
      case none =>
        intro f hf hi ha
        exact absurd (hl.symm.trans (h f hf ha hi.symm)) (by simp)

theorem event (g : s.Single) (ht : s.tick = some t) {o : Outcome} (hs : t.stage = .event o) :
    (s.event t o).Single := by
  have hu : t.unmarked = t.rest := by
    rw [Tick.unmarked, Tick.marked, hs]
    rfl
  have hno {f : Firing} : ¬s.InHand f := not_inHand ht (by simp [hs])
  have hrest {f : Firing} (hf : f ∈ s.firings) (ha : s.isActive f.runId) {q : Entry}
      (hq : q ∈ t.rest) (hi : q.row.id = f.entry.row.id) : q.row.lastRunId = some f.runId :=
    (g.taken f hf ha t ht q (hu ▸ hq) hi).resolve_right hno
  refine ⟨g.sole, fun f hf ha e he hi => .inl ((g.last f hf ha e he hi).resolve_right hno),
    fun f hf ha t' ht' q hq hi => .inl (hrest hf ha ?_ hi), fun t' ht' => ?_⟩
  case refine_1 =>
    have ⟨ht', _⟩ := Tick.begin_taken ht'
    exact ht' ▸ t'.unmarked_sub hq
  case refine_2 =>
    have hent : t'.entry ∈ t.rest := (Tick.begin_taken ht').left ▸ List.mem_cons_self
    have hc : s.Clear t' := clear_enter ht' fun f hf ha hi => hrest hf ha hent hi
    unfold Clear at hc ⊢
    exact hc

theorem startTick (g : s.Single) (ht : s.tick = none) (now : ℤ) :
    { s with tick := Tick.begin now (due now s.entries) }.Single := by
  have hno {f : Firing} : ¬s.InHand f := fun ⟨t, h, _⟩ => by simp [ht] at h
  have hlast {f : Firing} (hf : f ∈ s.firings) (ha : s.isActive f.runId) {q : Entry}
      (hq : q ∈ due now s.entries) (hi : q.row.id = f.entry.row.id) :
      q.row.lastRunId = some f.runId :=
    (g.last f hf ha q (List.mem_of_mem_filter ((List.mem_insertionSort _).mp hq)) hi).resolve_right
      hno
  refine ⟨g.sole, fun f hf ha e he hi => .inl ((g.last f hf ha e he hi).resolve_right hno),
    fun f hf ha t' ht' q hq hi => .inl (hlast hf ha ?_ hi), fun t' ht' => ?_⟩
  case refine_1 =>
    have ⟨ht', _⟩ := Tick.begin_taken ht'
    exact ht' ▸ t'.unmarked_sub hq
  case refine_2 =>
    have hent : t'.entry ∈ due now s.entries := (Tick.begin_taken ht').left ▸ List.mem_cons_self
    have hc : s.Clear t' := clear_enter ht' fun f hf ha hi => hlast hf ha hent hi
    unfold Clear at hc ⊢
    exact hc

end Single

theorem activity_writeRun {f : Firing} {runId : String} {w : Write} {now : ℤ} {row : RunRow}
    (hr : s.runs.lookup runId = some row)
    (hc : f.runId = runId → (w.apply now row).status.isActive → row.status.isActive)
    (ha : { s with runs := s.runs.insert runId (w.apply now row) }.isActive f.runId) :
    s.isActive f.runId := by
  cases Decidable.em (f.runId = runId)
  case inl he =>
    rw [isActive, he, AList.lookup_insert] at ha
    rw [isActive, he, hr]
    exact hc he ha
  case inr he => rwa [isActive, AList.lookup_insert_ne he] at ha

theorem activity_erase {f : Firing} {runId : String}
    (ha : { s with runs := s.runs.erase runId }.isActive f.runId) : s.isActive f.runId := by
  cases Decidable.em (f.runId = runId)
  case inl he =>
    rw [isActive, he, AList.lookup_erase] at ha
    cases ha
  case inr he => rwa [isActive, AList.lookup_erase_ne he] at ha

theorem Settled.proceed (g : s.Settled cron) (i : s.Invariant) (ht : s.tick = some t)
    (hc : s.Careful cron a) : (s.proceed cron t t.stage a).Settled cron := by
  generalize hs : t.stage = stage
  have hg {stage : Stage} (hm : t.marked = false) : (s.goto t stage).Settled cron := g.goto ht hm
  have hm (h : ∀ o, stage ≠ .event o) : t.marked = false := by
    unfold Tick.marked
    split
    case h_1 o ho => exact absurd (hs.symm.trans ho) (h o)
    case h_2 => rfl
  unfold Scheduling.proceed
  split
  case h_1 =>
    split_ifs
    case pos => exact hg (hm (by simp))
    case neg => exact hg (hm (by simp))
  case h_7 =>
    unfold Scheduling.insertRun
    split_ifs
    case pos => exact ⟨g.kept, (hg (hm (by simp))).wanted⟩
    case neg => exact g
  case h_11 => exact g.mark i ht (hm (by simp)) hc _
  case h_12 => exact g.event ht (by rw [Tick.marked, hs]) _
  case h_13 => exact g
  all_goals exact hg (hm (by simp))

theorem Single.proceed (g : s.Single) (i : s.Invariant) (ht : s.tick = some t)
    (hc : s.Careful cron a) : (s.proceed cron t t.stage a).Single := by
  generalize hs : t.stage = stage
  have hm (h : ∀ o, stage ≠ .event o) : t.marked = false := by
    unfold Tick.marked
    split
    case h_1 o ho => exact absurd (hs.symm.trans ho) (h o)
    case h_2 => rfl
  have hclear := g.clear t ht
  rw [Clear, hs] at hclear
  unfold Scheduling.proceed
  split
  case h_1 read =>
    split_ifs
    case pos => exact g.goto_before ht (hm (by simp)) (by simp [hs]) (by simp [Clear, skippedOverlap])
    case neg h =>
      have hl := g.overlap ht hs fun ha => h ⟨hc, ha⟩
      exact g.goto_before ht (hm (by simp)) (by simp [hs]) hl
  case h_2 => exact g.goto_before ht (hm (by simp)) (by simp [hs]) (by simp [Clear, failed])
  case h_3 => exact g.goto_before ht (hm (by simp)) (by simp [hs]) (by simp [Clear, failed])
  case h_4 => exact g.goto_before ht (hm (by simp)) (by simp [hs]) hclear
  case h_5 => exact g.goto_before ht (hm (by simp)) (by simp [hs]) (by simp [Clear, failed])
  case h_6 => exact g.goto_before ht (hm (by simp)) (by simp [hs]) hclear
  case h_7 => exact g.insertRun ht hs _
  case h_8 => exact g.goto_before ht (hm (by simp)) (by simp [hs]) (by simp [Clear, failed])
  case h_9 runId e =>
    refine g.goto ht (hm (by simp)) (fun f hf ha hin => ?_) (by simp [Clear, failed])
    have ⟨t', ht', _, h⟩ := hin
    cases ht.symm.trans ht'
    have h := h.resolve_right (by simp [hs])
    exact absurd ha (hc t ht f hf h)
  case h_10 runId _ =>
    refine g.goto ht (hm (by simp)) (fun f hf ha hin => ?_) fun _ => hclear
    have ⟨t', ht', he, h⟩ := hin
    cases ht.symm.trans ht'
    cases hs.symm.trans (h.resolve_right (by simp [hs]))
    exact ⟨_, rfl, he, .inr rfl⟩
  case h_11 => exact g.mark i ht hs
  case h_12 => exact g.event ht hs
  case h_13 => exact g

theorem Settled.step (g : s.Settled cron) (i : s.Invariant) (hc : s.Careful cron a) :
    (s.step cron a).Settled cron := by
  have hp : (s.resume cron a).Settled cron := by
    unfold resume
    split
    case h_1 t ht => exact g.proceed i ht hc
    case h_2 => exact g
  cases a
  case create id tr enabled now => exact g.create tr enabled now
  case update id tr enabled now => exact g.update tr enabled now
  case delete id => exact ⟨fun e he => g.kept e (List.mem_of_mem_filter he), g.wanted⟩
  case createRun runId =>
    simp only [Scheduling.step, Scheduling.createRun]
    split_ifs
    case pos => exact ⟨g.kept, g.wanted⟩
    case neg => exact g
  case writeRun runId w now =>
    simp only [Scheduling.step]
    split
    case h_1 => exact ⟨g.kept, g.wanted⟩
    case h_2 => exact g
  case deleteRun runId =>
    simp only [Scheduling.step]
    split_ifs
    case pos => exact g
    case neg => exact ⟨g.kept, g.wanted⟩
  case startTick now =>
    simp only [Scheduling.step]
    split
    case h_1 => exact g
    case h_2 ht => exact g.startTick now
  all_goals exact hp

theorem Single.step (g : s.Single) (i : s.Invariant) (hc : s.Careful cron a) :
    (s.step cron a).Single := by
  have hp : (s.resume cron a).Single := by
    unfold resume
    split
    case h_1 t ht => exact g.proceed i ht hc
    case h_2 => exact g
  cases a
  case create id tr enabled now => exact g.create tr enabled now
  case update id tr enabled now => exact g.update tr enabled now
  case delete id => exact g.delete id
  case createRun runId =>
    simp only [Scheduling.step, Scheduling.createRun]
    split_ifs
    case neg => exact g
    case pos hn =>
      refine g.runs fun f hf ha => ?_
      rwa [isActive, AList.lookup_insert_ne (hn.right f hf)] at ha
  case writeRun runId w now =>
    simp only [Scheduling.step]
    split
    case h_1 row hr => exact g.runs fun f hf => activity_writeRun hr fun he => hc f hf he row hr
    case h_2 => exact g
  case deleteRun runId =>
    simp only [Scheduling.step]
    split_ifs
    case pos => exact g
    case neg => exact g.runs fun f hf => activity_erase
  case startTick now =>
    simp only [Scheduling.step]
    split
    case h_1 => exact g
    case h_2 ht => exact g.startTick ht now
  all_goals exact hp

structure Good (cron : Cron) (s : Scheduling) : Prop where
  invariant : s.Invariant
  settled   : s.Settled cron
  single    : s.Single

theorem Good.new : Scheduling.new.Good cron where
  invariant := .new
  settled   := ⟨by simp [Scheduling.new], by simp [Scheduling.new]⟩
  single    := ⟨by simp [Scheduling.new], by simp [Scheduling.new], by simp [Scheduling.new],
    by simp [Scheduling.new]⟩

theorem Good.step (g : s.Good cron) (hc : s.Careful cron a) : (s.step cron a).Good cron where
  invariant := g.invariant.step a
  settled   := g.settled.step g.invariant hc
  single    := g.single.step g.invariant hc

-- Whatever users do meanwhile, a trigger that fires once fires at most once for each setting of it.
theorem fires_once (cron : Cron) (actions : List Action) : (run cron actions).FiresOnce :=
  (Trace.invariant (I := Invariant) .new fun _ a i => i.step a : (run cron actions).Invariant).once

-- In every run in which nobody sets a schedule while the scheduler has it in hand, the settings of
-- the users are kept, and the runs of a schedule do not overlap.
theorem scheduler_sound (cron : Cron) (actions : List Action)
    (h : Trace.Meets (step cron) (Careful cron) new actions) : (run cron actions).Sound cron := by
  have g : (run cron actions).Good cron := h.invariant .new fun _ _ g hc => g.step hc
  exact ⟨g.invariant.once, g.single.sole, g.settled.kept⟩

instance : DecidablePred (s.Careful cron)
  | .overlap _          => inferInstanceAs (Decidable (_ = true))
  | .writeRun _ _ _     =>
    inferInstanceAs (Decidable (∀ f ∈ s.firings, _ → ∀ row ∈ s.runs.lookup _, _ → _))
  | .spawned (.error _) => inferInstanceAs (Decidable (∀ t ∈ s.tick, ∀ f ∈ s.firings, _ → ¬_))
  | .mark               =>
    inferInstanceAs (Decidable (∀ t ∈ s.tick, ∀ e ∈ s.entries, _ → _ ∨ ¬_ ∧ _ ∧ _))
  | .spawned (.ok _) | .create .. | .update .. | .delete _ | .createRun _ | .deleteRun _
  | .startTick _ | .scenario _ | .validate _ | .insertRun _ | .event =>
    inferInstanceAs (Decidable True)

-- An expression that occurs every minute.
def everyMinute : Cron where
  parse _                    := .ok ()
  findNextOccurrence _ nowMs := some ((nowMs / 60000 + 1) * 60000)

theorem scheduler_sound_fired :
    let s := run everyMinute
      [.create "a" (.cron "* * * * *") true 0, .startTick 60000, .scenario (.ok true),
        .validate (.ok ()), .insertRun "r", .spawned (.ok ()), .mark, .event,
        .update "a" (.cron "* * * * *") false 70000]
    s.firings.map (·.runId) = ["r"] ∧ s.entries.map (·.row.enabled) = [false] ∧
    s.Sound everyMinute :=
  ⟨by decide, by decide, scheduler_sound _ _ (by decide)⟩

-- A user disables a schedule while the scheduler fires it. The scheduler enables it again.
theorem scheduler_sound_counterexample :
    let s := run everyMinute
      [.create "a" (.cron "* * * * *") true 0, .startTick 60000, .scenario (.ok true),
        .validate (.ok ()), .update "a" (.cron "* * * * *") false 60001, .insertRun "r",
        .spawned (.ok ()), .mark, .event]
    s.tick = none ∧ s.entries.map (·.wanted) = [false] ∧ s.entries.map (·.row.enabled) = [true] ∧
    ¬s.Sound everyMinute := by
  refine ⟨by decide, by decide, by decide, fun g => ?_⟩
  have h : ∃ e ∈ (run everyMinute
      [.create "a" (.cron "* * * * *") true 0, .startTick 60000, .scenario (.ok true),
        .validate (.ok ()), .update "a" (.cron "* * * * *") false 60001, .insertRun "r",
        .spawned (.ok ()), .mark, .event]).entries, e.used = false ∧ e.row.enabled ≠ e.wanted := by
    decide
  have ⟨e, he, hu, hne⟩ := h
  have hk := g.kept e he
  rw [Entry.Kept, hu] at hk
  exact hne hk.left

end Scheduling

end Schedule
