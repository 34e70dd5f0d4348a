import QuilRs.Expression.Meaning
import QuilRs.Expression.Reading
/-! `impl Display for Expression` and the `format_complex!` macro it writes numbers with
(src/expression.rs), against the value of the expression and the reading of its text. Every
compound expression is written in parentheses, so the text reads back as the value wherever
each number is written as one whole-number literal: `n`, `ni`, or `-n`, which reads as
`-(n + 0i)` and so stands for `(-n, -0)` only (`fmtReadsBack`). A negative imaginary part, a
number with both parts inside an operator, or `(-n, +0)`, which `sqrt` and `powc` tell from
`(-n, -0)`, reads as another number. -/
namespace QuilRs

/-- What `format_complex!` reads of `f64` besides `Arithmetic`: `<` and `==` against `0f64`,
and `{:.}`. -/
structure Formatting (R : Type) where
  lt : R → R → Bool
  beq : R → R → Bool
  display : R → String

/-- Integers, displayed as `f64` displays an integral value. -/
def Formatting.integer : Formatting Int := ⟨fun a b => decide (a < b),fun a b => decide (a = b),toString⟩

variable {R : Type} (A : Arithmetic R) (F : Formatting R)

/-- `format_complex!`: the imaginary part, when it is not zero, after the operator `+` when it
is positive and after a `-` written in front of its own display when it is negative. -/
def formatComplex (value : Complex64 R) : String :=
  let (operator,imaginaryComponent) :=
    if F.lt A.zero value.im then ("+",F.display value.im ++ "i")
    else if F.lt value.im A.zero then ("","-" ++ F.display value.im ++ "i")
    else ("","")
  if imaginaryComponent == "" then F.display value.re
  else if F.beq value.re A.zero then imaginaryComponent
  else F.display value.re ++ operator ++ imaginaryComponent

def MemoryReference.fmt (memoryReference : MemoryReference) : String :=
  memoryReference.name ++ "[" ++ toString memoryReference.index ++ "]"

def ExpressionFunction.fmt : ExpressionFunction → String
  | .cis => "cis"
  | .cosine => "cos"
  | .exponent => "exp"
  | .sine => "sin"
  | .squareRoot => "sqrt"

def PrefixOperator.fmt : PrefixOperator → String
  | .plus => "+"
  | .minus => "-"

def InfixOperator.fmt : InfixOperator → String
  | .caret => "^"
  | .plus => "+"
  | .minus => "-"
  | .slash => "/"
  | .star => "*"

namespace Expression

def fmt : Expression R → String
  | address memoryReference => memoryReference.fmt
  | functionCall function expression => function.fmt ++ "(" ++ fmt expression ++ ")"
  | infixOp left operator right => "(" ++ fmt left ++ operator.fmt ++ fmt right ++ ")"
  | number value => formatComplex A F value
  | piConstant => "pi"
  | prefixOp operator expression => "(" ++ operator.fmt ++ fmt expression ++ ")"
  | var identifier => "%" ++ identifier

/-! ### Reading back what is written -/

theorem fmtFunctionCallData (function : ExpressionFunction) (e : Expression R) :
    (fmt A F (functionCall function e)).data = function.fmt.data ++ '(' :: ((fmt A F e).data ++ [')']) := by
  simp [fmt, show ("(" : String).data = ['('] from rfl, show (")" : String).data = [')'] from rfl]

theorem fmtInfixData (l : Expression R) (operator : InfixOperator) (r : Expression R) :
    (fmt A F (infixOp l operator r)).data =
      '(' :: ((fmt A F l).data ++ operator.fmt.data ++ (fmt A F r).data ++ [')']) := by
  simp [fmt, show ("(" : String).data = ['('] from rfl, show (")" : String).data = [')'] from rfl]

theorem fmtPrefixData (operator : PrefixOperator) (e : Expression R) :
    (fmt A F (prefixOp operator e)).data = '(' :: (operator.fmt.data ++ (fmt A F e).data ++ [')']) := by
  simp [fmt, show ("(" : String).data = ['('] from rfl, show (")" : String).data = [')'] from rfl]

theorem functionWord (function : ExpressionFunction) : ∃ c l, function.fmt.data = c :: l ∧
    (∀ d ∈ c :: l, d.isAlpha = true ∧ d.isDigit = false) ∧ Token.word (c :: l) = some (.function function) := by
  cases function <;> exact ⟨_,_,rfl,by decide,rfl⟩

theorem infixSymbol (operator : InfixOperator) :
    ∃ c, operator.fmt.data = [c] ∧ Token.symbol c = some operator.token := by
  cases operator <;> exact ⟨_,rfl,rfl⟩

section RoundTrip
variable (ofNat : Nat → R) (exact : Nat)

/-- What `format_complex!` and `{}` give the whole numbers below `exact` that `ofNat` reads,
as `f64` has them for `exact = 2^53`: their digits, with a `-` before a negated one; a nonzero one
is above `0`, and neither zero is below the other. -/
structure WholeNumbers : Prop where
  display : ∀ n < exact, F.display (ofNat n) = toString n
  displayNeg : ∀ n < exact, 0 < n → F.display (A.neg (ofNat n)) = "-" ++ toString n
  positive : ∀ n < exact, 0 < n → F.lt A.zero (ofNat n) = true
  zeros : F.lt A.zero A.zero = false ∧ F.lt A.zero (A.neg A.zero) = false ∧ F.lt (A.neg A.zero) A.zero = false
  zeroEq : F.beq A.zero A.zero = true

/-- The expressions whose text reads back as their value: no variable or address, every number
one whole-number literal, and no sign over a negative one, as the parser takes one sign before
an operand. -/
inductive Readable : Expression R → Prop
  | real {n : Nat} : n < exact → Readable (number ⟨ofNat n,A.zero⟩)
  | imaginary {n : Nat} : n < exact → 0 < n → Readable (number ⟨A.zero,ofNat n⟩)
  | negative {n : Nat} : n < exact → 0 < n → Readable (number ⟨A.neg (ofNat n),A.neg A.zero⟩)
  | piConstant : Readable piConstant
  | functionCall (function : ExpressionFunction) {e : Expression R} : Readable e →
      Readable (functionCall function e)
  | infixOp {l : Expression R} (operator : InfixOperator) {r : Expression R} : Readable l → Readable r →
      Readable (infixOp l operator r)
  | prefixOp (operator : PrefixOperator) {e : Expression R} : Readable e →
      (∀ n, e ≠ number ⟨A.neg (ofNat n),A.neg A.zero⟩) → Readable (prefixOp operator e)

variable {A F ofNat exact}

theorem readsOfAtom {ts : List Token} {v : Complex64 R} {unsigned : Prop}
    (reads : ReadsAtom A ofNat ts v (8 * ts.length)) :
    ReadsAs A ofNat ts v (8 * ts.length + 1) ∧ (unsigned → ReadsAtom A ofNat ts v (8 * ts.length)) :=
  ⟨reads.unsigned,fun _ => reads⟩

theorem readsParenthesized {ts : List Token} {v : Complex64 R} (reads : ReadsAs A ofNat ts v (8 * ts.length + 1)) :
    ReadsAtom A ofNat (.leftParen :: ts ++ [.rightParen]) v (8 * (Token.leftParen :: ts ++ [Token.rightParen]).length) :=
  (readParens fun _ _ enough => readSum reads enough (by simp)).mono (by simp; omega)

variable (laws : WholeNumbers A F ofNat exact)
include laws

theorem formatReal {n : Nat} (small : n < exact) : formatComplex A F ⟨ofNat n,A.zero⟩ = toString n := by
  simp [formatComplex, laws.zeros.1, laws.display n small]

theorem formatImaginary {n : Nat} (small : n < exact) (pos : 0 < n) :
    formatComplex A F ⟨A.zero,ofNat n⟩ = toString n ++ "i" := by
  have nonempty : toString n ++ "i" ≠ "" := fun empty => by simpa using congrArg String.data empty
  simp [formatComplex, laws.positive n small pos, laws.display n small, laws.zeroEq, nonempty]

theorem formatNegative {n : Nat} (small : n < exact) (pos : 0 < n) :
    formatComplex A F ⟨A.neg (ofNat n),A.neg A.zero⟩ = "-" ++ toString n := by
  simp [formatComplex, laws.zeros.2.1, laws.zeros.2.2, laws.displayNeg n small pos]

theorem fmtReads {e : Expression R} (readable : Readable A ofNat exact e) :
    ∃ ts v, value A (fun _ => none) none e = some v ∧ Token.Lexes (fmt A F e).data ts ∧
      ReadsAs A ofNat ts v (8 * ts.length + 1) ∧
      ((∀ n, e ≠ number ⟨A.neg (ofNat n),A.neg A.zero⟩) → ReadsAtom A ofNat ts v (8 * ts.length)) := by
  induction readable with
  | @real n small =>
      refine ⟨[.number n],_,rfl,?_,readsOfAtom ((readNumber n).mono (by simp))⟩
      rw [fmt, formatReal laws small]
      exact Token.lexesNat n
  | @imaginary n small pos =>
      refine ⟨[.imaginary n],_,rfl,?_,readsOfAtom ((readImaginary n).mono (by simp))⟩
      rw [fmt, formatImaginary laws small pos, String.data_append]
      exact Token.lexesImaginary n
  | @negative n small pos =>
      refine ⟨[.minus,.number n],A.negate (A.real (ofNat n)),rfl,?_,(readNegate (readNumber n)).mono (by simp),
        fun unsigned => absurd rfl (unsigned n)⟩
      rw [fmt, formatNegative laws small pos]
      exact (Token.lexesNat n).symbolThen (c := '-') rfl
  | piConstant =>
      exact ⟨[.piConstant],_,rfl,Token.lexesWord (c := 'p') (l := ['i']) (by decide) rfl,
        readsOfAtom (readPi.mono (by simp))⟩
  | functionCall function _ ih =>
      obtain ⟨ts,v,val,lexes,reads,-⟩ := ih
      obtain ⟨c,l,text,letters,named⟩ := functionWord function
      refine ⟨.function function :: .leftParen :: ts ++ [.rightParen],calculateFunction A function v,
        by simp [value, val],?_,readsOfAtom ?_⟩
      · rw [fmtFunctionCallData, text]
        exact (Token.lexesWord letters named).append (c := '(') rfl lexes.parens
      · refine (readCall function fun fuel rest enough => readSum reads enough (by simp)).mono ?_
        simp
        omega
  | infixOp operator _ _ ihl ihr =>
      obtain ⟨tl,vl,vall,lexesl,readsl,-⟩ := ihl
      obtain ⟨tr,vr,valr,lexesr,readsr,-⟩ := ihr
      obtain ⟨c,text,symbol⟩ := infixSymbol operator
      refine ⟨.leftParen :: (tl ++ operator.token :: tr) ++ [.rightParen],calculateInfix A vl operator vr,
        by simp [value, vall, valr],?_,readsOfAtom ?_⟩
      · rw [fmtInfixData, text, List.append_assoc _ [c], List.singleton_append]
        exact (lexesl.append symbol (lexesr.symbolThen symbol)).parens
      · refine (readParens fun fuel rest enough => ?_).mono (n := 8 * tl.length + 1 + (8 * tr.length + 1) + 5 + 1) ?_
        · simpa using readInfix readsl readsr operator enough rest
        · simp
          omega
  | prefixOp operator _ unsigned ih =>
      obtain ⟨ts,v,val,lexes,-,reads⟩ := ih
      cases operator with
      | minus =>
          refine ⟨.leftParen :: (.minus :: ts) ++ [.rightParen],A.negate v,by simp [value, val],?_,
            readsOfAtom (readsParenthesized ((readNegate (reads unsigned)).mono (by simp)))⟩
          rw [fmtPrefixData]
          exact (lexes.symbolThen (c := '-') rfl).parens
      | plus =>
          refine ⟨.leftParen :: (.plus :: ts) ++ [.rightParen],v,by simp [value, val],?_,
            readsOfAtom (readsParenthesized ((readPlus (reads unsigned)).mono (by simp)))⟩
          rw [fmtPrefixData]
          exact (lexes.symbolThen (c := '+') rfl).parens

theorem fmtReadsBack (e : Expression R) (readable : Readable A ofNat exact e) :
    read A ofNat (fmt A F e) = value A (fun _ => none) none e := by
  obtain ⟨ts,v,val,lexes,reads,-⟩ := fmtReads laws readable
  have lexed : Token.lex (fmt A F e) = some ts := by
    simpa [Token.lexWith, Token.finish] using lexes [] (.inl rfl)
  have whole : readAt A ofNat (8 * ts.length + 8) .sum (ts ++ []) = some (v,[]) :=
    readSum reads (by omega) (by simp)
  rw [List.append_nil] at whole
  simp [read, lexed, whole, val]

end RoundTrip

theorem gaussianWholeNumbers (exact : Nat) :
    WholeNumbers Arithmetic.gaussian Formatting.integer Int.ofNat exact where
  display _ _ := rfl
  displayNeg n _ pos := by
    obtain ⟨m,rfl⟩ := Nat.exists_eq_add_of_lt pos
    rfl
  positive n _ pos := by simpa [Formatting.integer, Arithmetic.gaussian] using pos
  zeros := ⟨rfl,rfl,rfl⟩
  zeroEq := rfl

theorem fmtReadsBackSample :
    WholeNumbers Arithmetic.gaussian Formatting.integer Int.ofNat 10 ∧
      Readable Arithmetic.gaussian Int.ofNat 10 (infixOp (number ⟨-3,0⟩) .star (prefixOp .minus (number ⟨0,2⟩))) ∧
      read Arithmetic.gaussian Int.ofNat
          (fmt Arithmetic.gaussian Formatting.integer (infixOp (number ⟨-3,0⟩) .star (prefixOp .minus (number ⟨0,2⟩)))) =
        value Arithmetic.gaussian (fun _ => none) none (infixOp (number ⟨-3,0⟩) .star (prefixOp .minus (number ⟨0,2⟩))) := by
  have readable : Readable Arithmetic.gaussian Int.ofNat 10
      (infixOp (number ⟨-3,0⟩) .star (prefixOp .minus (number ⟨0,2⟩))) :=
    .infixOp _ (.negative (n := 3) (by decide) (by decide))
      (.prefixOp _ (.imaginary (n := 2) (by decide) (by decide)) fun _ same => by
        simp only [number.injEq, Complex64.mk.injEq] at same
        exact absurd same.2 (by decide))
  exact ⟨gaussianWholeNumbers 10,readable,fmtReadsBack (gaussianWholeNumbers 10) _ readable⟩

/- `1-2i` is written `1--2i`, which reads as `1+2i`; and `1+2i` is not parenthesized inside
a product, so `(1+2i)*3` is written `(1+2i*3)`, which reads as `1+6i`. -/
theorem fmtMisreadsNumbers :
    fmt Arithmetic.gaussian Formatting.integer (number ⟨1,-2⟩) = "1--2i" ∧
      read Arithmetic.gaussian Int.ofNat "1--2i" = some ⟨1,2⟩ ∧
      value Arithmetic.gaussian (fun _ => none) none (number ⟨1,-2⟩) = some ⟨1,-2⟩ ∧
      fmt Arithmetic.gaussian Formatting.integer (infixOp (number ⟨1,2⟩) .star (number ⟨3,0⟩)) = "(1+2i*3)" ∧
      read Arithmetic.gaussian Int.ofNat "(1+2i*3)" = some ⟨1,6⟩ ∧
      value Arithmetic.gaussian (fun _ => none) none (infixOp (number ⟨1,2⟩) .star (number ⟨3,0⟩)) = some ⟨3,6⟩ := by
  decide

end Expression
end QuilRs
