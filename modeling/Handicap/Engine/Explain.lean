import Handicap.Engine.Condition

-- How a trace explains which branch of an if step is taken.
namespace Engine

structure LeafEval where
  left        : String
  op          : CompareOp
  right       : Option String
  leftValue   : Option String
  rightValue  : Option String
  leftUnbound : Bool
  deriving DecidableEq

structure BranchEval where
  branch : String
  passed : Bool
  leaf   : Option LeafEval
  deriving DecidableEq

def evalValueCap : ℕ :=
  200

section

variable (lib : Libraries) (ctx : TemplateContext)

-- An operand that refers to the environment is not captured.
def captured (raw : String) : Option String :=
  if contains ['$', '{'] raw.toList then none
  else some (.ofList ((renderLenient raw ctx).toList.take evalValueCap))

def leafEval (left : String) (op : CompareOp) (right : Option String) : LeafEval :=
  let usesRight := op ≠ .exists ∧ op ≠ .empty
  { left, op, right
    leftValue   := captured ctx left
    rightValue  := if usesRight then right.bind (captured ctx) else none
    leftUnbound := !(renderCollecting left ctx []).2.isEmpty }

mutual

-- The leaf that decides a condition. In a group it is that of the first condition that decides, or
-- of the first one.
def decidingLeaf : Condition → Option LeafEval
  | .compare left op right => some (leafEval ctx left op right)
  | .all []                => none
  | .all (c :: rest)       => (decidingIn false (c :: rest)).getD (decidingLeaf c)
  | .any []                => none
  | .any (c :: rest)       => (decidingIn true (c :: rest)).getD (decidingLeaf c)

def decidingIn (want : Bool) : List Condition → Option (Option LeafEval)
  | []        => none
  | c :: rest => if evalCondition lib ctx c = want then some (decidingLeaf c) else decidingIn want rest

end

-- The conditions are evaluated up to the first one that holds.
def explainFrom : List (String × Condition) → List BranchEval
  | []                  => []
  | (branch, c) :: conds =>
    let passed := evalCondition lib ctx c
    ⟨branch, passed, decidingLeaf lib ctx c⟩ :: if passed then [] else explainFrom conds

def explainBranches (cond : Condition) (elifs : List (Condition × List Step)) : List BranchEval :=
  explainFrom lib ctx (("then", cond) :: elifs.zipIdx.map fun e => (s!"elif_{e.2}", e.1.1))

end

end Engine
