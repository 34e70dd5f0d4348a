import Mathlib.Data.List.Basic
/-! `quil-rs` expressions (src/expression.rs): the `Expression` tree, `calculate_infix`,
`calculate_function`, `Expression::evaluate` and `evaluate_to_complex`. The `f64` and
`num_complex` operations are outside the sources, so `Arithmetic R` carries them, `R` standing
for `f64`. The variants `Infix`, `Prefix` and `Variable` are `infixOp`, `prefixOp` and `var` here. -/
namespace QuilRs

/-- `num_complex::Complex64` over a scalar type `R`. -/
structure Complex64 (R : Type) where
  re : R
  im : R
  deriving DecidableEq, Repr

structure Arithmetic (R : Type) where
  zero : R
  one : R
  pi : R
  neg : R → R
  add : Complex64 R → Complex64 R → Complex64 R
  sub : Complex64 R → Complex64 R → Complex64 R
  mul : Complex64 R → Complex64 R → Complex64 R
  div : Complex64 R → Complex64 R → Complex64 R
  powc : Complex64 R → Complex64 R → Complex64 R
  sin : Complex64 R → Complex64 R
  cos : Complex64 R → Complex64 R
  exp : Complex64 R → Complex64 R
  sqrt : Complex64 R → Complex64 R

/-- The sign of an `f64`, its two zeros kept apart; `unknown` stands for every value, NaN
included. -/
inductive Sign
  | negative | negZero | posZero | positive | unknown
  deriving DecidableEq, Repr

namespace Sign

/-- IEEE negation flips the sign, the zeros' included. -/
def neg : Sign → Sign
  | negative => positive
  | negZero => posZero
  | posZero => negZero
  | positive => negative
  | unknown => unknown

/-- `Complex::sqrt` of a negative real part over a zero imaginary part is `±i√(-re)`, with the
sign of that zero: `num_complex` branches on it, and its polar form, through
`atan2(±0, re) = ±π`, gives the same signs. The real part is `0`, or a tiny positive number from
`cos(π/2)`, and is left unknown, as is every other case. -/
def sqrt : Complex64 Sign → Complex64 Sign
  | ⟨negative,posZero⟩ => ⟨unknown,positive⟩
  | ⟨negative,negZero⟩ => ⟨unknown,negative⟩
  | _ => ⟨unknown,unknown⟩

end Sign

namespace Arithmetic
variable {R : Type} (A : Arithmetic R)

/-- `real!(x)`, that is `Complex64::new(x, 0f64)`. -/
def real (x : R) : Complex64 R := ⟨x,A.zero⟩

/-- `imag!(x)`, that is `Complex64::new(0f64, x)`. -/
def imag (x : R) : Complex64 R := ⟨A.zero,x⟩

/-- `impl Neg for Complex`: both parts negated. -/
def negate (z : Complex64 R) : Complex64 R := ⟨A.neg z.re,A.neg z.im⟩

/-- Gaussian integers standing in for `f64` on small integral values, where `f64` negation,
addition, subtraction and multiplication are exact. Quotients, powers, the analytic functions and
`PI` have no integral counterpart and are left at zero: runs that use them say nothing. -/
def gaussian : Arithmetic Int where
  zero := 0
  one := 1
  pi := 0
  neg := Int.neg
  add a b := ⟨a.re + b.re,a.im + b.im⟩
  sub a b := ⟨a.re - b.re,a.im - b.im⟩
  mul a b := ⟨a.re * b.re - a.im * b.im,a.re * b.im + a.im * b.re⟩
  div _ _ := ⟨0,0⟩
  powc _ _ := ⟨0,0⟩
  sin _ := ⟨0,0⟩
  cos _ := ⟨0,0⟩
  exp _ := ⟨0,0⟩
  sqrt _ := ⟨0,0⟩

end Arithmetic

structure MemoryReference where
  name : String
  index : Nat
  deriving DecidableEq, Repr

inductive ExpressionFunction
  | cis | cosine | exponent | sine | squareRoot
  deriving DecidableEq, Repr

inductive PrefixOperator
  | plus | minus
  deriving DecidableEq, Repr

inductive InfixOperator
  | caret | plus | minus | slash | star
  deriving DecidableEq, Repr

inductive Expression (R : Type)
  | address (memoryReference : MemoryReference)
  | functionCall (function : ExpressionFunction) (expression : Expression R)
  | infixOp (left : Expression R) (operator : InfixOperator) (right : Expression R)
  | number (value : Complex64 R)
  | piConstant
  | prefixOp (operator : PrefixOperator) (expression : Expression R)
  | var (identifier : String)
  deriving DecidableEq, Repr

inductive EvaluationError
  | incomplete
  deriving DecidableEq, Repr

abbrev EvaluationEnvironment (R : Type) := String → Option (Complex64 R)

/-- `HashMap<&str, Vec<f64>>`: region name to its values. -/
abbrev PatchValues (R : Type) := String → Option (List R)

variable {R : Type} (A : Arithmetic R)

def calculateInfix (left : Complex64 R) (operator : InfixOperator) (right : Complex64 R) : Complex64 R :=
  match operator with
  | .caret => A.powc left right
  | .plus => A.add left right
  | .minus => A.sub left right
  | .slash => A.div left right
  | .star => A.mul left right

def calculateFunction (function : ExpressionFunction) (argument : Complex64 R) : Complex64 R :=
  match function with
  | .sine => A.sin argument
  | .cis => A.add (A.cos argument) (A.mul (A.imag A.one) (A.sin argument))
  | .cosine => A.cos argument
  | .exponent => A.exp argument
  | .squareRoot => A.sqrt argument

/-- `patch_values.and_then(|p| p.get(name)?.get(index))` of the `Address` arm. -/
def patchValue (patchValues : Option (PatchValues R)) (memoryReference : MemoryReference) : Option R :=
  patchValues.bind fun table => (table memoryReference.name).bind fun values => values[memoryReference.index]?

namespace Expression

/-- The `FunctionCall` arm of `evaluate`, applied to the evaluated argument. -/
def evaluateFunctionCall (function : ExpressionFunction) : Expression R → Expression R
  | number value => number (calculateFunction A function value)
  | piConstant => number (calculateFunction A function (A.real A.pi))
  | evaluated => functionCall function evaluated

/-- The `Infix` arm of `evaluate`, applied to both evaluated operands. -/
def evaluateInfix (operator : InfixOperator) : Expression R → Expression R → Expression R
  | number valueLeft, number valueRight => number (calculateInfix A valueLeft operator valueRight)
  | piConstant, number value => number (calculateInfix A (A.real A.pi) operator value)
  | number value, piConstant => number (calculateInfix A value operator (A.real A.pi))
  | leftEvaluated, rightEvaluated => infixOp leftEvaluated operator rightEvaluated

/-- The `Prefix` arm of `evaluate`. It matches its operand as it stands: unlike the two arms
above it never evaluates it first. -/
def evaluatePrefix : PrefixOperator → Expression R → Expression R
  | .minus, number value => number (A.negate value)
  | .minus, piConstant => number (A.real (A.neg A.pi))
  | .minus, expr => prefixOp .minus expr
  | .plus, expr => expr

def evaluate (environment : EvaluationEnvironment R) (patchValues : Option (PatchValues R)) :
    Expression R → Expression R
  | functionCall function expression =>
      evaluateFunctionCall A function (evaluate environment patchValues expression)
  | infixOp left operator right =>
      evaluateInfix A operator (evaluate environment patchValues left) (evaluate environment patchValues right)
  | prefixOp operator expression => evaluatePrefix A operator expression
  | var identifier =>
      match environment identifier with
      | some value => number value
      | none => var identifier
  | address memoryReference =>
      match patchValue patchValues memoryReference with
      | some value => number (A.real value)
      | none => address memoryReference
  | piConstant => piConstant
  | number value => number value

def prefixFree : Expression R → Bool
  | functionCall _ expression => prefixFree expression
  | infixOp left _ right => prefixFree left && prefixFree right
  | prefixOp .. => false
  | _ => true

/-- Whether `evaluate` folds every node once the leaves are bound: no `Prefix` node and no
operator between two `pi`s. -/
def foldable : Expression R → Bool
  | functionCall _ expression => foldable expression
  | infixOp piConstant _ piConstant => false
  | infixOp left _ right => foldable left && foldable right
  | prefixOp .. => false
  | _ => true

def evaluateToComplex (environment : EvaluationEnvironment R) (patchValues : Option (PatchValues R))
    (expression : Expression R) : Except EvaluationError (Complex64 R) :=
  match evaluate A environment patchValues expression with
  | number value => .ok value
  | piConstant => .ok (A.real A.pi)
  | _ => .error .incomplete

/- Two shapes `evaluate` leaves reducible: a negated variable the environment
binds (the `Prefix` arm does not evaluate its operand) and an operator between two `pi`s
(no arm of `evaluateInfix` folds that pair). -/
theorem evaluateLeavesReducibleTerms (environment : EvaluationEnvironment R)
    (patchValues : Option (PatchValues R)) (identifier : String) (value : Complex64 R)
    (operator : InfixOperator) :
    evaluate A (fun _ => some value) patchValues (prefixOp .minus (var identifier)) =
        prefixOp .minus (var identifier) ∧
      evaluateToComplex A (fun _ => some value) patchValues (prefixOp .minus (var identifier)) =
        .error .incomplete ∧
      evaluateToComplex A environment patchValues (infixOp piConstant operator piConstant) =
        .error .incomplete :=
  ⟨rfl,rfl,rfl⟩

theorem evaluateNotIdempotent (patchValues : Option (PatchValues R)) (identifier : String)
    (value c : Complex64 R) :
    evaluate A (fun _ => some value) patchValues
        (evaluate A (fun _ => some value) patchValues (prefixOp .plus (infixOp (var identifier) .plus (number c)))) ≠
      evaluate A (fun _ => some value) patchValues (prefixOp .plus (infixOp (var identifier) .plus (number c))) :=
  fun same => Expression.noConfusion same

end Expression
end QuilRs
