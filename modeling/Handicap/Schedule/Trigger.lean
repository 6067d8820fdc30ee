import Handicap.Store.Profile

-- When a schedule fires: at one time, or whenever a cron expression says so.
namespace Schedule

inductive Trigger
  | once (runAt : ℤ)
  | cron (expr : String)
  deriving DecidableEq

def Trigger.isOnce : Trigger → Bool
  | once _ => true
  | cron _ => false

-- The cron library in the time zone of the scheduler: whether an expression can be read, and when
-- it occurs after a given time.
structure Cron where
  parse              : String → Except String Unit
  findNextOccurrence : String → ℤ → Option ℤ

variable (cron : Cron)

def nextFireAfter (t : Trigger) (nowMs : ℤ) : Option ℤ :=
  match t with
  | .once runAt => some runAt
  | .cron expr  =>
    match cron.parse expr with
    | .error _ => none
    | .ok _    => cron.findNextOccurrence expr nowMs

def splitWhitespace (s : String) : List (List Char) :=
  (s.toList.splitOnP Store.isWhiteSpace).filter (!·.isEmpty)

def validateTrigger (t : Trigger) (nowMs : ℤ) : Except String Unit :=
  match t with
  | .once runAt =>
    if runAt ≤ nowMs then .error "예약 시각은 미래여야 합니다" else .ok ()
  | .cron expr =>
    let fields := (splitWhitespace expr).length
    if fields ≠ 5 then
      .error s!"cron 표현식은 5개 필드(분 시 일 월 요일)여야 합니다: {fields}개 발견"
    else
      (cron.parse expr).mapError fun e => s!"cron 표현식이 올바르지 않습니다: {e}"

end Schedule
