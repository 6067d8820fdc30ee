import Handicap.Engine.Explain
import Handicap.Engine.Theorems.Executor

-- What the explanation of a branch says about its condition.
namespace Engine

variable {lib : Libraries} {ctx : TemplateContext}

theorem evalAll_eq_true {l : List Condition} :
    evalAll lib ctx l = true ↔ ∀ c ∈ l, evalCondition lib ctx c = true := by
  induction l
  case nil         => simp [evalAll]
  case cons c l ih => simp [evalAll, ih]

theorem evalAny_eq_true {l : List Condition} :
    evalAny lib ctx l = true ↔ ∃ c ∈ l, evalCondition lib ctx c = true := by
  induction l
  case nil         => simp [evalAny]
  case cons c l ih => simp [evalAny, ih]

mutual

-- The comparisons of a condition.
def Condition.comparisons : Condition → List (String × CompareOp × Option String)
  | .compare left op right => [(left, op, right)]
  | .all conditions        => comparisonsOf conditions
  | .any conditions        => comparisonsOf conditions

def comparisonsOf : List Condition → List (String × CompareOp × Option String)
  | []        => []
  | c :: rest => c.comparisons ++ comparisonsOf rest

end

theorem mem_comparisonsOf {l : List Condition} {c : Condition} (h : c ∈ l) :
    c.comparisons ⊆ comparisonsOf l := by
  induction l
  case nil => cases h
  case cons d l ih =>
    cases List.mem_cons.mp h
    case inl h => exact h ▸ List.subset_append_left _ _
    case inr h => exact List.Subset.trans (ih h) (List.subset_append_right _ _)

section

variable (lib ctx)

def LeafEval.truth (leaf : LeafEval) : Bool :=
  evalCompare lib ctx leaf.left leaf.op leaf.right

-- An empty group decides a condition, by itself or in a condition of a group that has its value.
inductive EmptyDecides : Condition → Prop
  | all : EmptyDecides (.all [])
  | any : EmptyDecides (.any [])
  | ofAll (l : List Condition) (c : Condition) (h : c ∈ l)
    (hv : evalCondition lib ctx c = evalCondition lib ctx (.all l)) (hc : EmptyDecides c) :
    EmptyDecides (.all l)
  | ofAny (l : List Condition) (c : Condition) (h : c ∈ l)
    (hv : evalCondition lib ctx c = evalCondition lib ctx (.any l)) (hc : EmptyDecides c) :
    EmptyDecides (.any l)

structure Decides (c : Condition) : Prop where
  truth : ∀ leaf, decidingLeaf lib ctx c = some leaf →
    leaf.truth lib ctx = evalCondition lib ctx c ∧ (leaf.left, leaf.op, leaf.right) ∈ c.comparisons
  eval  : ∀ leaf, decidingLeaf lib ctx c = some leaf →
    leaf = leafEval ctx leaf.left leaf.op leaf.right
  empty : decidingLeaf lib ctx c = none → EmptyDecides lib ctx c

end

theorem decidingIn_some {want : Bool} {l : List Condition} {leaf : Option LeafEval}
    (h : decidingIn lib ctx want l = some leaf) :
    ∃ c ∈ l, evalCondition lib ctx c = want ∧ decidingLeaf lib ctx c = leaf := by
  induction l
  case nil => cases h
  case cons c l ih =>
    rw [decidingIn] at h
    split_ifs at h with hc
    case pos => exact ⟨c, List.mem_cons_self, hc, Option.some.inj h⟩
    case neg =>
      have ⟨d, hd, hv⟩ := ih h
      exact ⟨d, List.mem_cons_of_mem c hd, hv⟩

theorem decidingIn_none {want : Bool} {l : List Condition}
    (h : decidingIn lib ctx want l = none) : ∀ c ∈ l, evalCondition lib ctx c ≠ want := by
  induction l
  case nil => simp
  case cons c l ih =>
    rw [decidingIn] at h
    split_ifs at h with hc
    exact List.forall_mem_cons.mpr ⟨hc, ih h⟩

-- A group that is not empty is decided by a condition with its value.
theorem all_picks {c : Condition} {rest : List Condition} :
    ∃ d ∈ c :: rest, evalCondition lib ctx d = evalCondition lib ctx (.all (c :: rest)) ∧
      decidingLeaf lib ctx (.all (c :: rest)) = decidingLeaf lib ctx d := by
  rw [decidingLeaf, evalCondition]
  cases h : decidingIn lib ctx false (c :: rest)
  case none =>
    have hall := decidingIn_none h
    have htrue : evalAll lib ctx (c :: rest) = true :=
      evalAll_eq_true.2 fun d hd => Bool.eq_true_of_not_eq_false (hall d hd)
    refine ⟨c, List.mem_cons_self, ?_, rfl⟩
    rw [htrue]
    exact Bool.eq_true_of_not_eq_false (hall c List.mem_cons_self)
  case some leaf =>
    have ⟨d, hd, hv, hl⟩ := decidingIn_some h
    refine ⟨d, hd, ?_, hl.symm⟩
    rw [hv]
    refine (Bool.eq_false_of_not_eq_true fun ht => ?_).symm
    exact absurd (evalAll_eq_true.1 ht d hd) (by simp [hv])

theorem any_picks {c : Condition} {rest : List Condition} :
    ∃ d ∈ c :: rest, evalCondition lib ctx d = evalCondition lib ctx (.any (c :: rest)) ∧
      decidingLeaf lib ctx (.any (c :: rest)) = decidingLeaf lib ctx d := by
  rw [decidingLeaf, evalCondition]
  cases h : decidingIn lib ctx true (c :: rest)
  case none =>
    have hall := decidingIn_none h
    have hfalse : evalAny lib ctx (c :: rest) = false := by
      refine Bool.eq_false_of_not_eq_true fun ht => ?_
      have ⟨d, hd, hv⟩ := evalAny_eq_true.1 ht
      exact hall d hd hv
    refine ⟨c, List.mem_cons_self, ?_, rfl⟩
    rw [hfalse]
    exact Bool.eq_false_of_not_eq_true (hall c List.mem_cons_self)
  case some leaf =>
    have ⟨d, hd, hv, hl⟩ := decidingIn_some h
    refine ⟨d, hd, ?_, hl.symm⟩
    rw [hv]
    exact (evalAny_eq_true.2 ⟨d, hd, hv⟩).symm

mutual

theorem decides (c : Condition) : Decides lib ctx c := by
  cases c
  case compare left op right =>
    refine ⟨fun leaf h => ?_, fun leaf h => ?_, fun h => (by cases h)⟩
    case refine_1 =>
      cases h
      exact ⟨rfl, List.mem_singleton_self _⟩
    case refine_2 =>
      cases h
      rfl
  case all l =>
    have hall := decidesAll l
    cases l
    case nil => exact ⟨fun leaf h => (by cases h), fun leaf h => (by cases h), fun _ => .all⟩
    case cons c rest =>
      have ⟨d, hd, hv, hl⟩ := @all_picks lib ctx c rest
      refine ⟨fun leaf h => ?_, fun leaf h => (hall d hd).eval leaf (hl ▸ h),
        fun h => .ofAll _ d hd hv ((hall d hd).empty (hl ▸ h))⟩
      have ⟨ht, hm⟩ := (hall d hd).truth leaf (hl ▸ h)
      exact ⟨ht.trans hv, mem_comparisonsOf hd hm⟩
  case any l =>
    have hall := decidesAll l
    cases l
    case nil => exact ⟨fun leaf h => (by cases h), fun leaf h => (by cases h), fun _ => .any⟩
    case cons c rest =>
      have ⟨d, hd, hv, hl⟩ := @any_picks lib ctx c rest
      refine ⟨fun leaf h => ?_, fun leaf h => (hall d hd).eval leaf (hl ▸ h),
        fun h => .ofAny _ d hd hv ((hall d hd).empty (hl ▸ h))⟩
      have ⟨ht, hm⟩ := (hall d hd).truth leaf (hl ▸ h)
      exact ⟨ht.trans hv, mem_comparisonsOf hd hm⟩

theorem decidesAll (l : List Condition) : ∀ c ∈ l, Decides lib ctx c := by
  cases l
  case nil         => simp
  case cons c rest => exact List.forall_mem_cons.mpr ⟨decides c, decidesAll rest⟩

end

theorem explainFrom_find (conds : List (String × Condition)) :
    ((explainFrom lib ctx conds).find? (·.passed)).map (·.branch) =
      (conds.find? fun c => evalCondition lib ctx c.2).map Prod.fst := by
  induction conds
  case nil => rfl
  case cons c conds ih =>
    simp only [explainFrom, List.find?_cons]
    cases evalCondition lib ctx c.2
    case true  => rfl
    case false => exact ih

theorem explainFrom_getElem? {conds : List (String × Condition)} {k : ℕ} {e : BranchEval}
    (h : (explainFrom lib ctx conds)[k]? = some e) :
    ∃ c, conds[k]? = some (e.branch, c) ∧ e.passed = evalCondition lib ctx c ∧
      e.leaf = decidingLeaf lib ctx c := by
  induction conds generalizing k
  case nil => simp [explainFrom] at h
  case cons c conds ih =>
    rw [explainFrom] at h
    cases k
    case zero =>
      cases h
      exact ⟨c.2, rfl, rfl, rfl⟩
    case succ k =>
      simp only [List.getElem?_cons_succ] at h ⊢
      split_ifs at h
      case pos => simp at h
      case neg => exact ih h

-- The branch of a condition, where one of them has been taken.
def Taken.ofCondition : Taken → Option String
  | thenBranch => some thenBranch.label
  | elif j     => some (elif j).label
  | elseBranch => Option.none
  | none       => Option.none

def branchConditions (cond : Condition) (elifs : List (Condition × List Step)) :
    List (String × Condition) :=
  ("then", cond) :: elifs.zipIdx.map fun e => (s!"elif_{e.2}", e.1.1)

theorem find_elifs (elifs : List (Condition × List Step)) (n : ℕ) :
    (((elifs.zipIdx n).map fun e => (s!"elif_{e.2}", e.1.1)).find? fun c =>
        evalCondition lib ctx c.2).map Prod.fst =
      (elifs.findIdx? fun e => evalCondition lib ctx e.1).map fun j => (Taken.elif (j + n)).label := by
  induction elifs generalizing n
  case nil => rfl
  case cons e elifs ih =>
    rw [List.zipIdx_cons, List.map_cons, List.find?_cons, List.findIdx?_cons]
    cases evalCondition lib ctx e.1
    case true => simp [Taken.label]
    case false =>
      simp only [ih, Bool.false_eq_true, if_false, Option.map_map]
      refine congrArg (Option.map · _) (funext fun j => ?_)
      simp only [Function.comp_apply, Nat.add_right_comm, Nat.add_assoc]

theorem explain_taken (cond : Condition) (elifs : List (Condition × List Step))
    (elseSteps : List Step) :
    ((explainBranches lib ctx cond elifs).find? (·.passed)).map (·.branch) =
      (selectBranch lib ctx cond elifs elseSteps).ofCondition := by
  rw [explainBranches, explainFrom_find, List.find?_cons]
  unfold selectBranch
  cases evalCondition lib ctx cond
  case true => rfl
  case false =>
    simp only [Bool.false_eq_true, if_false]
    rw [find_elifs]
    cases elifs.findIdx? fun e => evalCondition lib ctx e.1
    case some j => rfl
    case none   => cases elseSteps <;> rfl

-- An explanation of the conditions of an if step.
structure ExplainsBranch (lib : Libraries) (ctx : TemplateContext) (cond : Condition)
    (elifs : List (Condition × List Step)) (elseSteps : List Step) : Prop where
  taken    : ((explainBranches lib ctx cond elifs).find? (·.passed)).map (·.branch) =
    (selectBranch lib ctx cond elifs elseSteps).ofCondition
  verdicts : ∀ (k : ℕ) e, (explainBranches lib ctx cond elifs)[k]? = some e →
    ∃ c, (branchConditions cond elifs)[k]? = some (e.branch, c) ∧
      e.passed = evalCondition lib ctx c ∧
      (∀ leaf, e.leaf = some leaf → leaf.truth lib ctx = e.passed ∧
        (leaf.left, leaf.op, leaf.right) ∈ c.comparisons) ∧
      (e.leaf = none → EmptyDecides lib ctx c)

theorem explanations_hold (lib : Libraries) (ctx : TemplateContext) (cond : Condition)
    (elifs : List (Condition × List Step)) (elseSteps : List Step) :
    ExplainsBranch lib ctx cond elifs elseSteps where
  taken := explain_taken cond elifs elseSteps
  verdicts k e h := by
    have ⟨c, hc, hp, hl⟩ := explainFrom_getElem? h
    have hd := @decides lib ctx c
    refine ⟨c, hc, hp, fun leaf he => ?_, fun he => hd.empty (hl ▸ he)⟩
    rw [hp]
    exact hd.truth leaf (hl ▸ he)

section Captured

variable {env : Table String String} {raw : String}

-- A text without the start of a reference to the environment has no such reference.
theorem not_system {pos : ℕ} {l : List Char} (h : ¬['$', '{'] <:+: l) (name : String)
    (default : Option String) : .system name default ∉ pieces pos l := by
  fun_induction pieces pos l
  case case1 => simp
  case case2 => simp
  case case3 pos c l hc name' rest hcut ih =>
    have hrest : rest <:+: c :: l := by
      have hl : rest <:+: l.tail := ⟨name' ++ ['}', '}'], [], by simp [Text.cut_eq_some hcut]⟩
      exact hl.trans ((List.tail_suffix l).isInfix.trans (List.suffix_cons c l).isInfix)
    simpa using ih fun hi => h (hi.trans hrest)
  case case4 pos c l hc hd hcut =>
    obtain ⟨l, rfl⟩ := List.head?_eq_some_iff.mp hd.2
    exact absurd ⟨[], l, by simp [hd.1]⟩ h
  case case5 pos c l hc hd inner rest hcut ih =>
    obtain ⟨l, rfl⟩ := List.head?_eq_some_iff.mp hd.2
    exact absurd ⟨[], l, by simp [hd.1]⟩ h
  case case6 pos c l hc hd ih =>
    simpa using ih fun hi => h (hi.trans (List.suffix_cons c l).isInfix)

theorem renderPieces_env {ps : List Piece} {r : Rendering}
    (h : ∀ name default, .system name default ∉ ps) :
    renderPieces { ctx with env := env } true ps r = renderPieces ctx true ps r := by
  induction ps generalizing r
  case nil => rfl
  case cons p ps ih =>
    have hp : p.render { ctx with env := env } true r = p.render ctx true r := by
      cases p
      case system name default => exact absurd List.mem_cons_self (h name default)
      all_goals rfl
    rw [renderPieces, List.foldlM_cons, hp, renderPieces, List.foldlM_cons]
    refine congrArg _ (funext fun r => ?_)
    exact ih fun name default hm => h name default (List.mem_cons_of_mem p hm)

-- What is captured of an operand does not depend on the environment.
theorem captured_env : captured { ctx with env := env } raw = captured ctx raw := by
  by_cases hc : contains ['$', '{'] raw.toList
  case pos => rw [captured, captured, if_pos hc, if_pos hc]
  case neg =>
    have hcut : Text.cut ['$', '{'] raw.toList = none := by simpa [contains] using hc
    have hp := @not_system 0 raw.toList (Text.cut_eq_none hcut (by simp))
    have hr : renderLenient raw { ctx with env := env } = renderLenient raw ctx := by
      rw [renderLenient, renderLenient, rendered_eq, rendered_eq, renderPieces_env hp]
    rw [captured, captured, if_neg hc, if_neg hc, hr]

theorem leafEval_env {left : String} {op : CompareOp} {right : Option String} :
    (leafEval { ctx with env := env } left op right).leftValue =
        (leafEval ctx left op right).leftValue ∧
      (leafEval { ctx with env := env } left op right).rightValue =
        (leafEval ctx left op right).rightValue := by
  have hr : captured { ctx with env := env } = captured ctx := funext fun raw => captured_env
  exact ⟨captured_env, by simp only [leafEval, hr]⟩

-- What an explanation captures of an operand is what is captured of it in any other environment.
theorem captures_ignore_environment (lib : Libraries) (ctx : TemplateContext)
    (env : Table String String) :
    (∀ left op right,
      (leafEval { ctx with env := env } left op right).leftValue =
        (leafEval ctx left op right).leftValue ∧
      (leafEval { ctx with env := env } left op right).rightValue =
        (leafEval ctx left op right).rightValue) ∧
    ∀ cond elifs, ∀ e ∈ explainBranches lib { ctx with env := env } cond elifs,
      ∀ leaf, e.leaf = some leaf →
        leaf.leftValue = (leafEval ctx leaf.left leaf.op leaf.right).leftValue ∧
          leaf.rightValue = (leafEval ctx leaf.left leaf.op leaf.right).rightValue := by
  refine ⟨fun _ _ _ => leafEval_env, fun cond elifs e he leaf hleaf => ?_⟩
  obtain ⟨k, hk⟩ := List.mem_iff_getElem?.mp he
  have ⟨c, _, _, hl⟩ := explainFrom_getElem? hk
  have hd := decides c |>.eval leaf (hl ▸ hleaf)
  have hv := @leafEval_env ctx env leaf.left leaf.op leaf.right
  exact ⟨(congrArg LeafEval.leftValue hd).trans hv.1, (congrArg LeafEval.rightValue hd).trans hv.2⟩

def secretCondition : Condition :=
  .all [.compare "{{v}}" .eq (some "1"), .compare "${A}" .eq (some "x")]

def secretContext (secret : String) : TemplateContext :=
  ⟨(∅ : Table String String).insert "v" "1", (∅ : Table String String).insert "A" secret, 0, 0, none⟩

-- Which comparison decides may depend on the environment, and with it what is captured.
theorem deciding_leaf_depends :
    (explainBranches plainLibraries (secretContext "x") secretCondition []).map
        (fun e => e.leaf.map LeafEval.leftValue) = [some (some "1")] ∧
      (explainBranches plainLibraries (secretContext "y") secretCondition []).map
        (fun e => e.leaf.map LeafEval.leftValue) = [some none] :=
  ⟨rfl, rfl⟩

end Captured

end Engine
