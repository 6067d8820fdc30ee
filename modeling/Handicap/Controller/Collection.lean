import Handicap.Controller.Delivery
import Handicap.Engine.Flush

open Coordinator Engine Worker

-- A run as a whole: what the VUs of its workers record, on its way through the flushers, the
-- streams and the handlers into the database.
namespace Controller

-- Every worker has a clock of its own.
structure Collection where
  delivery : Delivery
  engines  : WorkerId → Flushing
  clocks   : WorkerId → ℤ

inductive CollectionEvent
  | engine (worker : WorkerId) (now : ℤ) (e : FlushEvent)
  | forward (worker : WorkerId)
  | engineReturned (worker : WorkerId) (message : String)
  | delivery (e : DeliveryEvent)

-- The events of a worker that its engine has a part in.
def DeliveryEvent.ofEngine : DeliveryEvent → Bool
  | .worker _ (.flush _) | .worker _ .close | .worker _ (.finish _) | .worker _ .forward => true
  | _                                                                                   => false

def engineResult (message : String) : Engine.Outcome → EngineResult
  | .ok           => .ok
  | .aborted      => .aborted
  | .allVusFailed => .failed message

namespace Collection

def init (driver : Driver) (loopBreakdownCap : ℕ) (clocks : WorkerId → ℤ) (run : RunWorkers) :
    Collection where
  delivery := .init run
  engines  := fun _ => .new driver loopBreakdownCap flushCapacity
  clocks   := clocks

variable (driver : Driver) (wr : Writers) (s : Collection)

-- The engine of a worker runs after the datasets have been loaded, and its clock does not go back.
def engineStep (worker : WorkerId) (now : ℤ) (e : FlushEvent) : Collection :=
  if (s.delivery.executions worker).stage = .running ∧ s.clocks worker ≤ now ∧
      e.happensAt now ∧ e ≠ .receive then
    { s with
      engines := Function.update s.engines worker ((s.engines worker).step driver e)
      clocks  := Function.update s.clocks worker now }
  else
    s

-- The forwarder receives what the engine has sent. The channel is closed when the engine has
-- returned and everything has been received.
def forward (worker : WorkerId) : Collection :=
  if (s.delivery.executions worker).stage = .running then
    match (s.delivery.executions worker).forwarder with
    | .receiving =>
      match (s.engines worker).channel.recv, (s.engines worker).main with
      | some (f, _), _     =>
        { s with
          engines  := Function.update s.engines worker ((s.engines worker).step driver .receive)
          delivery :=
            (s.delivery.step wr (.worker worker (.flush f))).step wr (.worker worker .forward) }
      | none, .returned _  =>
        { s with
          delivery := (s.delivery.step wr (.worker worker .close)).step wr (.worker worker .forward) }
      | none, _            => s
    | _          => { s with delivery := s.delivery.step wr (.worker worker .forward) }
  else
    s

-- An event that cannot happen leaves the state as it is.
def step (s : Collection) : CollectionEvent → Collection
  | .engine worker now e            => s.engineStep driver worker now e
  | .forward worker                 => s.forward driver wr worker
  | .engineReturned worker message  =>
    match (s.engines worker).main with
    | .returned outcome =>
      { s with
        delivery := s.delivery.step wr (.worker worker (.finish (engineResult message outcome))) }
    | _                 => s
  | .delivery e => if e.ofEngine then s else { s with delivery := s.delivery.step wr e }

def after (events : List CollectionEvent) : Collection :=
  Trace.run (step driver wr) s events

end Collection

end Controller
