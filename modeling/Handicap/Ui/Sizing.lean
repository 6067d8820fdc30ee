import Handicap.Engine.Scenario

open Engine (Condition Scenario Step)

-- How many requests an iteration is said to send.
namespace Ui

structure RequestRange where
  min : ℕ
  max : ℕ
  deriving DecidableEq

namespace RequestRange

def add (a b : RequestRange) : RequestRange :=
  ⟨a.min + b.min, a.max + b.max⟩

-- The range of either of two.
def either (a b : RequestRange) : RequestRange :=
  ⟨Min.min a.min b.min, Max.max a.max b.max⟩

end RequestRange

mutual

def requestRange : Step → RequestRange
  | .http _                                    => ⟨1, 1⟩
  | .loop _ _ repeats body                     =>
    let r := iterationRequestRange body
    ⟨repeats * r.min, repeats * r.max⟩
  | .parallel _ _ branches                     => branchesRequestRange branches
  | .ifStep _ _ _ thenSteps elifs elseSteps    =>
    (elifsRequestRange elifs (iterationRequestRange thenSteps)).either
      (iterationRequestRange elseSteps)

def iterationRequestRange : List Step → RequestRange
  | []            => ⟨0, 0⟩
  | step :: steps => (requestRange step).add (iterationRequestRange steps)

-- The range of the branches of an if step so far, and of its elifs.
def elifsRequestRange : List (Condition × List Step) → RequestRange → RequestRange
  | [], range                  => range
  | (_, steps) :: elifs, range =>
    elifsRequestRange elifs (range.either (iterationRequestRange steps))

def branchesRequestRange : List (String × List Step) → RequestRange
  | []                     => ⟨0, 0⟩
  | (_, steps) :: branches => (iterationRequestRange steps).add (branchesRequestRange branches)

end

end Ui
