import Handicap.Monitor.Record

open Engine (TracedRequest)

namespace Monitor

-- A body of a trace, by its step and its side.
structure TracedBody where
  step : ℕ
  side : ClipSide
  text : String

def TracedBody.size (b : TracedBody) : ℕ :=
  Utf8.size b.text.toList

def requestBodies (i : ℕ) (req : Option TracedRequest) : List TracedBody :=
  (req.bind (·.body)).toList.map fun body => ⟨i, .request, body⟩

def responseBodies (i : ℕ) (resp : Option TracedResponse) : List TracedBody :=
  resp.toList.map fun resp => ⟨i, .response, resp.body⟩

def StepTrace.bodies (i : ℕ) (s : StepTrace) : List TracedBody :=
  requestBodies i s.request ++ responseBodies i s.response

def stepBodies : ℕ → List StepTrace → List TracedBody
  | _, []     => []
  | i, s :: l => s.bodies i ++ stepBodies (i + 1) l

-- All bodies in the order in which they take from the budget.
def traceBodies (trace : Option ScenarioTrace) : List TracedBody :=
  stepBodies 0 (trace.elim [] ScenarioTrace.steps)

-- The bodies that have not been kept whole.
def shortened (l l' : List TracedBody) : List TracedBody :=
  ((l.zip l').filter fun e => e.2.text ≠ e.1.text).map Prod.fst

theorem mem_of_shortened {l l' : List TracedBody} {b : TracedBody} (h : b ∈ shortened l l') :
    b ∈ l := by
  obtain ⟨e, he, rfl⟩ := List.mem_map.mp h
  exact (List.of_mem_zip (List.mem_filter.mp he).1).1

-- How a body that has been cut is named.
def TracedBody.clipped (b : TracedBody) : Clipped :=
  ⟨min b.step (2 ^ 32 - 1), b.side⟩

theorem stepBodies_step {l : List StepTrace} {i : ℕ} {b : TracedBody} (h : b ∈ stepBodies i l) :
    b.step < i + l.length := by
  induction l generalizing i
  case nil => cases h
  case cons s l ih =>
    rw [List.length_cons]
    cases List.mem_append.mp h
    case inl h =>
      have hb : b.step = i := by
        cases List.mem_append.mp h
        case inl h => obtain ⟨_, -, rfl⟩ := List.mem_map.mp h; rfl
        case inr h => obtain ⟨_, -, rfl⟩ := List.mem_map.mp h; rfl
      omega
    case inr h =>
      have hb := ih h
      omega

-- As long as the number of a step has 32 bits, a body is named by its step and its side.
theorem TracedBody.clipped_eq {trace : Option ScenarioTrace} {b : TracedBody}
    (hs : (trace.elim [] ScenarioTrace.steps).length ≤ 2 ^ 32) (h : b ∈ traceBodies trace) :
    b.clipped = ⟨b.step, b.side⟩ := by
  have hb := stepBodies_step h
  rw [clipped, min_eq_left (by omega)]

-- As much of a body as fits, up to the end of a character.
structure KeptWithin (budget : ℕ) (body kept : String) : Prop where
  isPrefix : kept.toList <+: body.toList
  fits     : Utf8.size kept.toList ≤ budget
  most     : ∀ m, m <+: body.toList → Utf8.size m ≤ budget → m <+: kept.toList

theorem KeptWithin.whole {budget : ℕ} {body kept : String} (h : KeptWithin budget body kept)
    (hb : Utf8.size body.toList ≤ budget) : kept = body :=
  String.toList_inj.mp (h.isPrefix.eq_of_length_le (h.most _ (List.prefix_refl _) hb).length_le)

section

variable {bytes : List UInt8} {l m : List Char} {n budget : ℕ}

theorem size_eq_zero (h : Utf8.size m = 0) : m = [] := by
  cases m
  case nil => rfl
  case cons => exact absurd h Utf8.size_cons_pos.ne'

-- A prefix that is no shorter than the other one in bytes is no shorter in characters.
theorem prefix_of_size_le {m m' : List Char} (h : m <+: l) (h' : m' <+: l)
    (hs : Utf8.size m ≤ Utf8.size m') : m <+: m' := by
  cases List.prefix_or_prefix_of_prefix h h'
  case inl hp => exact hp
  case inr hp =>
    obtain ⟨r, rfl⟩ := hp
    have hr : r = [] := size_eq_zero (by rw [Utf8.size_append] at hs; omega)
    rw [hr, List.append_nil]

theorem walkBack_spec (l : List Char) (n : ℕ) :
    ∃ m, m <+: l ∧ Utf8.size m ≤ n ∧ walkBack (Utf8.encode l) n = some (Utf8.size m) ∧
      ∀ p, p <+: l → Utf8.size p ≤ n → p <+: m := by
  induction n
  case zero =>
    refine ⟨[], List.nil_prefix, le_rfl, ?_, ?_⟩
    case refine_1 =>
      exact if_pos (Utf8.isBoundary_iff.mpr ⟨[], List.nil_prefix, rfl⟩)
    case refine_2 =>
      intro p _ hp
      rw [size_eq_zero (Nat.le_zero.mp hp)]
  case succ n ih =>
    by_cases hb : Utf8.isBoundary (Utf8.encode l) (n + 1)
    case pos =>
      obtain ⟨m, hm, hs⟩ := Utf8.isBoundary_iff.mp hb
      refine ⟨m, hm, hs.le, ?_, fun p hp hn => prefix_of_size_le hp hm (hn.trans hs.ge)⟩
      rw [walkBack, if_pos hb, hs]
    case neg =>
      obtain ⟨m, hm, hs, hw, hmost⟩ := ih
      refine ⟨m, hm, Nat.le_succ_of_le hs, ?_, fun p hp hn => hmost p hp ?_⟩
      case refine_1 => rw [walkBack, if_neg hb, hw]
      case refine_2 =>
        have hne : Utf8.size p ≠ n + 1 := fun he => hb (Utf8.isBoundary_iff.mpr ⟨p, hp, he⟩)
        omega

-- The budget goes down by what is kept, and neither the cut nor the budget goes below zero.
theorem clipBody_spec (body : String) (budget : ℕ) :
    ∃ kept left, clipBody body budget = some (kept, left, decide (kept ≠ body)) ∧
      KeptWithin budget body kept ∧ Utf8.size kept.toList + left = budget := by
  by_cases hb : (Utf8.encode body.toList).length ≤ budget
  case pos =>
    refine ⟨body, budget - Utf8.size body.toList, ?_, ?_, Nat.add_sub_cancel' hb⟩
    case refine_1 =>
      simp only [clipBody, if_pos hb, Word.checkedSub_eq hb, ne_eq, not_true, decide_false]
      rfl
    case refine_2 => exact ⟨List.prefix_refl _, hb, fun _ h _ => h⟩
  case neg =>
    obtain ⟨m, ⟨r, hr⟩, hs, hw, hmost⟩ := walkBack_spec body.toList budget
    have hsl : Utf8.slice (Utf8.encode body.toList) 0 (Utf8.size m) = some m := by
      have h := @Utf8.slice_encode [] r m
      rwa [List.nil_append, hr, Utf8.size_nil, Nat.zero_add] at h
    have hne : String.ofList m ≠ body := by
      rintro rfl
      exact hb (by simpa [Utf8.size] using hs)
    refine ⟨.ofList m, budget - Utf8.size m, ?_, ?_, ?_⟩
    case refine_1 =>
      simp only [clipBody, if_neg hb, hw, hsl, Word.checkedSub_eq hs, hne, ne_eq, not_false_iff,
        decide_true, Option.bind_eq_bind, Option.bind_some]
      rfl
    case refine_2 => exact ⟨by simpa using ⟨r, hr⟩, by simpa using hs, by simpa using hmost⟩
    case refine_3 => simpa using Nat.add_sub_cancel' hs

end

-- The bodies before and after, in order, with those that have been cut and with the budget that is
-- left of the first one.
inductive Clips : ℕ → List TracedBody → List TracedBody → List Clipped → ℕ → Prop
  | nil {budget} : Clips budget [] [] [] budget
  | cons {i side body kept budget left l l' clipped} (hk : KeptWithin budget body kept)
      (hb : Utf8.size kept.toList + left = budget) {after} (h : Clips left l l' clipped after) :
      Clips budget (⟨i, side, body⟩ :: l) (⟨i, side, kept⟩ :: l')
        ((if kept ≠ body then [⟨min i (2 ^ 32 - 1), side⟩] else []) ++ clipped) after

namespace Clips

variable {a b c n i : ℕ} {l l' m m' : List TracedBody} {clipped rest : List Clipped}

theorem append (h : Clips a l l' clipped b) (hm : Clips b m m' rest c) :
    Clips a (l ++ m) (l' ++ m') (clipped ++ rest) c := by
  induction h
  case nil => exact hm
  case cons hk hb _ _ ih =>
    rw [List.append_assoc]
    exact .cons hk hb (ih hm)

theorem keys (h : Clips a l l' clipped b) :
    l'.map (fun b => (b.step, b.side)) = l.map fun b => (b.step, b.side) := by
  induction h
  case nil => rfl
  case cons ih => rw [List.map_cons, List.map_cons, ih]

theorem sum (h : Clips a l l' clipped b) : (l'.map TracedBody.size).sum + b = a := by
  induction h
  case nil => rw [List.map_nil, List.sum_nil, Nat.zero_add]
  case cons hb _ _ ih =>
    rw [List.map_cons, List.sum_cons, Nat.add_assoc, ih]
    exact hb

-- Every body takes from what the bodies before it have left.
theorem keeps (h : Clips a l l' clipped b) {body kept : TracedBody} (hl : l[n]? = some body)
    (hl' : l'[n]? = some kept) :
    KeptWithin (a - ((l'.take n).map TracedBody.size).sum) body.text kept.text := by
  induction h generalizing n
  case nil => simp at hl
  case cons hk hb _ _ ih =>
    cases n
    case zero =>
      obtain rfl := Option.some.inj hl
      obtain rfl := Option.some.inj hl'
      simpa using hk
    case succ n =>
      have h := ih hl hl'
      rw [List.take_succ_cons, List.map_cons, List.sum_cons, Nat.sub_add_eq]
      have ht : ∀ {s t u : ℕ}, s + t = u → u - s = t := by omega
      rwa [TracedBody.size, ht hb]

theorem clipped_eq (h : Clips a l l' clipped b) :
    clipped = (shortened l l').map TracedBody.clipped := by
  induction h
  case nil => rfl
  case cons body kept _ _ _ _ _ _ _ _ _ ih =>
    rw [shortened, List.zip_cons_cons, List.filter_cons, ih]
    by_cases hc : kept = body
    case pos => simp [hc, shortened]
    case neg => simp [hc, shortened, TracedBody.clipped]

end Clips

section

variable {parseUrl : String → Option ParsedUrl} {i budget : ℕ}

theorem cap_eq (i : ℕ) : (Word.checkedCast 32 i).getD (2 ^ 32 - 1) = min i (2 ^ 32 - 1) := by
  by_cases hi : i < 2 ^ 32
  case pos => rw [Word.checkedCast_eq hi, Option.getD_some, min_eq_left (by omega)]
  case neg => rw [Word.checkedCast, if_neg hi, Option.getD_none, min_eq_right (by omega)]

theorem single {side : ClipSide} {body kept : String} {left : ℕ} (hk : KeptWithin budget body kept)
    (hb : Utf8.size kept.toList + left = budget) :
    Clips budget [⟨i, side, body⟩] [⟨i, side, kept⟩]
      (if decide (kept ≠ body) then [⟨min i (2 ^ 32 - 1), side⟩] else []) left := by
  have h : Clips budget [⟨i, side, body⟩] [⟨i, side, kept⟩] _ left := .cons hk hb .nil
  simpa using h

theorem clipRequest_clips (i : ℕ) (req : Option TracedRequest) (budget : ℕ) :
    ∃ req' left cut, clipOption (clipRequest parseUrl) req budget = some (req', left, cut) ∧
      Clips budget (requestBodies i req) (requestBodies i req')
        (if cut then [⟨min i (2 ^ 32 - 1), .request⟩] else []) left := by
  obtain _ | ⟨method, url, headers, body⟩ := req
  case none => exact ⟨none, budget, false, rfl, .nil⟩
  case some =>
    cases body
    case none => exact ⟨_, budget, false, rfl, .nil⟩
    case some body =>
      obtain ⟨kept, left, hc, hk, hb⟩ := clipBody_spec body budget
      let masked := maskRequest parseUrl ⟨method, url, headers, some body⟩
      refine ⟨some { masked with body := some kept }, left, _, ?_, single hk hb⟩
      simp only [clipOption, clipRequest, hc]
      rfl

theorem clipResponse_clips (i : ℕ) (resp : Option TracedResponse) (budget : ℕ) :
    ∃ resp' left cut, clipOption clipResponse resp budget = some (resp', left, cut) ∧
      Clips budget (responseBodies i resp) (responseBodies i resp')
        (if cut then [⟨min i (2 ^ 32 - 1), .response⟩] else []) left := by
  obtain _ | resp := resp
  case none => exact ⟨none, budget, false, rfl, .nil⟩
  case some =>
    obtain ⟨kept, left, hc, hk, hb⟩ := clipBody_spec resp.body budget
    refine ⟨some { maskResponse resp with body := kept }, left, _, ?_, single hk hb⟩
    simp only [clipOption, clipResponse, hc]
    rfl

theorem recordStep_clips (i : ℕ) (s : StepTrace) (budget : ℕ) :
    ∃ s' left clipped, recordStep parseUrl i s budget = some (s', left, clipped) ∧
      Clips budget (s.bodies i) (s'.bodies i) clipped left := by
  obtain ⟨req, left, cut, hr, hc⟩ := @clipRequest_clips parseUrl i s.request budget
  obtain ⟨resp, left', cut', hr', hc'⟩ := clipResponse_clips i s.response left
  refine ⟨{ s with request := req, response := resp, extracted := ∅, branchEval := [] }, left', _,
    ?_, hc.append hc'⟩
  simp only [recordStep, cap_eq, hr, hr', Option.bind_eq_bind, Option.bind_some]
  rfl

theorem recordSteps_clips (i : ℕ) (l : List StepTrace) (budget : ℕ) :
    ∃ l' clipped left, recordSteps parseUrl i l budget = some (l', clipped) ∧
      Clips budget (stepBodies i l) (stepBodies i l') clipped left := by
  induction l generalizing i budget
  case nil => exact ⟨[], [], budget, rfl, .nil⟩
  case cons s l ih =>
    obtain ⟨s', left, clipped, hs, hc⟩ := @recordStep_clips parseUrl i s budget
    obtain ⟨l', rest, after, hl, hc'⟩ := ih (i + 1) left
    refine ⟨s' :: l', clipped ++ rest, after, ?_, hc.append hc'⟩
    simp only [recordSteps, hs, hl, Option.bind_eq_bind, Option.bind_some]
    rfl

theorem buildRecordBody_spec (parseUrl : String → Option ParsedUrl)
    (trace : Option ScenarioTrace) (limitKb : UInt32) :
    ∃ r left, buildRecordBody parseUrl trace limitKb = some r ∧
      Clips (limitKb.toNat * 1024) (traceBodies trace) (traceBodies r.trace) r.clipped left := by
  obtain _ | t := trace
  case none => exact ⟨⟨limitKb, none, []⟩, _, rfl, .nil⟩
  case some =>
    have hlt : limitKb.toNat * 1024 < 2 ^ 64 := by
      have h := limitKb.toNat_lt
      omega
    obtain ⟨steps, clipped, left, hs, hc⟩ :=
      @recordSteps_clips parseUrl 0 t.steps (limitKb.toNat * 1024)
    refine ⟨⟨limitKb, some { t with steps, finalVars := ∅ }, clipped⟩, left, ?_, hc⟩
    simp only [buildRecordBody, Word.checkedMul_eq hlt, hs, Option.bind_eq_bind, Option.bind_some]
    rfl

-- The bodies that are kept are within the limit. Each is as much of the one before as the budget
-- has left, and so all of it where it fits. Those that have been cut are named in order.
theorem buildRecordBody_clips (parseUrl : String → Option ParsedUrl)
    (trace : Option ScenarioTrace) (limitKb : UInt32) :
    ∃ r, buildRecordBody parseUrl trace limitKb = some r ∧
      (traceBodies r.trace).map (fun b => (b.step, b.side)) =
        (traceBodies trace).map (fun b => (b.step, b.side)) ∧
      ((traceBodies r.trace).map TracedBody.size).sum ≤ limitKb.toNat * 1024 ∧
      (∀ (n : ℕ) (body kept : TracedBody), (traceBodies trace)[n]? = some body →
        (traceBodies r.trace)[n]? = some kept →
          let left := limitKb.toNat * 1024 -
            (((traceBodies r.trace).take n).map TracedBody.size).sum
          KeptWithin left body.text kept.text ∧ (body.size ≤ left → kept.text = body.text)) ∧
      r.clipped = (shortened (traceBodies trace) (traceBodies r.trace)).map TracedBody.clipped ∧
      ((trace.elim [] ScenarioTrace.steps).length ≤ 2 ^ 32 →
        r.clipped = (shortened (traceBodies trace) (traceBodies r.trace)).map
          fun b => ⟨b.step, b.side⟩) := by
  obtain ⟨r, left, hr, hc⟩ := buildRecordBody_spec parseUrl trace limitKb
  refine ⟨r, hr, hc.keys, Nat.le.intro hc.sum, ?_, hc.clipped_eq, ?_⟩
  case refine_1 =>
    intro n body kept hl hl'
    have hk := hc.keeps hl hl'
    exact ⟨hk, hk.whole⟩
  case refine_2 =>
    intro hs
    rw [hc.clipped_eq]
    exact List.map_congr_left fun b hb => b.clipped_eq hs (mem_of_shortened hb)

end

-- A step that sends a body and gets one back.
def wordyStep (sent got : String) : StepTrace where
  stepId      := "h1"
  kind        := .http
  loopIndex   := none
  branch      := none
  request     := some ⟨.post, "u", ∅, some sent⟩
  response    := some ⟨200, 1, none, ∅, [], got, false⟩
  extracted   := ∅
  unboundVars := []
  error       := none
  branchEval  := []
  timedOut    := false

def wordyTrace : ScenarioTrace where
  ok        := true
  totalMs   := 1
  steps     := [wordyStep "a" "", wordyStep "" "é"]
  finalVars := ∅
  truncated := false
  error     := none

example : (buildRecordBody (fun _ => none) (some wordyTrace) 0).map RecordBody.clipped =
    some [⟨0, .request⟩, ⟨1, .response⟩] := by
  decide +kernel

theorem buildRecordBody_clips_two :
    ∃ r, buildRecordBody (fun _ => none) (some wordyTrace) 0 = some r ∧
      r.clipped = (shortened (traceBodies (some wordyTrace)) (traceBodies r.trace)).map
        fun b => ⟨b.step, b.side⟩ := by
  obtain ⟨r, hr, -, -, -, -, hc⟩ := buildRecordBody_clips (fun _ => none) (some wordyTrace) 0
  exact ⟨r, hr, hc (by decide)⟩

end Monitor
