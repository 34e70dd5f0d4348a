import QuilRs.Expression.Evaluate
import Mathlib.Data.Nat.Digits
/-! Reading text back as a Quil arithmetic expression. The lexer and parser are outside the
sources; this reader follows the reading the round-trip law of `Display` refers to: parentheses
group, a literal ending in `i` is imaginary, `pi` is `pi`, `sin`, `cos`, `cis`, `exp` and
`sqrt` are `calculate_function`'s functions, and one unary sign may stand before an atom, as
`quil-rs`'s parser takes an optional prefix before each operand, binding tighter than `^`,
which binds tighter than `*` and `/`, which bind tighter than binary `+` and `-`. Literals are
whole numbers, as `f64` displays them when they are integral. -/
namespace QuilRs

/-- Modelled from the spec: the tokens of a Quil arithmetic expression. -/
inductive Token
  | number (value : Nat)
  | imaginary (value : Nat)
  | piConstant
  | function (function : ExpressionFunction)
  | plus | minus | star | slash | caret | leftParen | rightParen
  deriving DecidableEq, Repr

/-- Modelled from the spec: what the lexer holds between characters, a literal or a word it is
still reading. -/
inductive LexState
  | start
  | digits (value : Nat)
  | letters (word : List Char)
  deriving DecidableEq, Repr

namespace Token

def symbol : Char → Option Token
  | '+' => some plus
  | '-' => some minus
  | '*' => some star
  | '/' => some slash
  | '^' => some caret
  | '(' => some leftParen
  | ')' => some rightParen
  | _ => none

def word : List Char → Option Token
  | ['p','i'] => some piConstant
  | ['s','i','n'] => some (function .sine)
  | ['c','o','s'] => some (function .cosine)
  | ['c','i','s'] => some (function .cis)
  | ['e','x','p'] => some (function .exponent)
  | ['s','q','r','t'] => some (function .squareRoot)
  | _ => none

/-- A character read from the start state: the tokens it ends and the state after it. -/
def startWith (c : Char) : Option (List Token × LexState) :=
  if c.isDigit then some ([],.digits (c.toNat - 48))
  else if c.isAlpha then some ([],.letters [c])
  else if c = ' ' then some ([],.start)
  else (symbol c).map fun t => ([t],.start)

def step : LexState → Char → Option (List Token × LexState)
  | .start, c => startWith c
  | .digits n, c =>
      if c.isDigit then some ([],.digits (10 * n + (c.toNat - 48)))
      else if c = 'i' then some ([imaginary n],.start)
      else (startWith c).map fun r => (number n :: r.1,r.2)
  | .letters w, c =>
      if c.isAlpha then some ([],.letters (w ++ [c]))
      else (word w).bind fun t => (startWith c).map fun r => (t :: r.1,r.2)

def finish : LexState → Option (List Token)
  | .start => some []
  | .digits n => some [number n]
  | .letters w => (word w).map ([·])

def lexWith (state : LexState) : List Char → Option (List Token)
  | [] => finish state
  | c :: cs => (step state c).bind fun r => (lexWith r.2 cs).map (r.1 ++ ·)

def lex (text : String) : Option (List Token) := lexWith .start text.toList

/-! ### Lexing runs of digits and letters -/

/-- The text after a literal or a word: its end, or a character that is a token of its own. -/
def Stop (rest : List Char) : Prop := rest = [] ∨ ∃ c cs t, rest = c :: cs ∧ symbol c = some t

theorem lexWithCons (state : LexState) (c : Char) (cs : List Char) :
    lexWith state (c :: cs) = (step state c).bind fun r => (lexWith r.2 cs).map (r.1 ++ ·) := rfl

theorem symbolChar {c : Char} {t : Token} (h : symbol c = some t) :
    c.isDigit = false ∧ c.isAlpha = false ∧ c ≠ 'i' ∧ c ≠ ' ' := by
  unfold symbol at h
  split at h <;> first | decide | cases h

theorem lexSymbol {c : Char} {t : Token} (h : symbol c = some t) (cs : List Char) :
    lexWith .start (c :: cs) = (lexWith .start cs).map (t :: ·) := by
  obtain ⟨digit,alpha,-,space⟩ := symbolChar h
  simp [lexWithCons, step, startWith, digit, alpha, space, h]

theorem lexDigits : ∀ (l : List Char) (n : Nat) (rest : List Char), (∀ c ∈ l, c.isDigit = true) →
    lexWith (.digits n) (l ++ rest) = lexWith (.digits (l.foldl (fun n c => 10 * n + (c.toNat - 48)) n)) rest
  | [], _, _, _ => rfl
  | c :: l, n, rest, digits => by
      have rest := lexDigits l (10 * n + (c.toNat - 48)) rest fun d hd => digits d (List.mem_cons_of_mem _ hd)
      simp [lexWithCons, step, digits c (List.mem_cons_self _ _), rest]

theorem lexLetters : ∀ (l w : List Char) (rest : List Char), (∀ c ∈ l, c.isAlpha = true) →
    lexWith (.letters w) (l ++ rest) = lexWith (.letters (w ++ l)) rest
  | [], _, _, _ => by simp
  | c :: l, w, rest, letters => by
      have rest := lexLetters l (w ++ [c]) rest fun d hd => letters d (List.mem_cons_of_mem _ hd)
      simp [lexWithCons, step, letters c (List.mem_cons_self _ _), rest]

theorem lexDigitsStop {rest : List Char} (stop : Stop rest) (n : Nat) :
    lexWith (.digits n) rest = (lexWith .start rest).map (number n :: ·) := by
  rcases stop with rfl | ⟨c,cs,t,rfl,h⟩
  · rfl
  · obtain ⟨digit,alpha,notI,space⟩ := symbolChar h
    simp [lexWithCons, step, startWith, digit, alpha, notI, space, h, Option.map_map, Function.comp_def]

theorem lexLettersStop {rest : List Char} (stop : Stop rest) (w : List Char) :
    lexWith (.letters w) rest = (word w).bind fun t => (lexWith .start rest).map (t :: ·) := by
  rcases stop with rfl | ⟨c,cs,t,rfl,h⟩
  · show (word w).map ([·]) = _
    cases word w <;> rfl
  · obtain ⟨digit,alpha,notI,space⟩ := symbolChar h
    cases found : word w <;>
      simp [lexWithCons, step, startWith, digit, alpha, space, h, found, Option.map_map, Function.comp_def]

theorem lexWord {c : Char} {l : List Char} (letters : ∀ d ∈ c :: l, d.isAlpha = true ∧ d.isDigit = false)
    {rest : List Char} (stop : Stop rest) :
    lexWith .start (c :: l ++ rest) = (word (c :: l)).bind fun t => (lexWith .start rest).map (t :: ·) := by
  obtain ⟨alpha,digit⟩ := letters c (List.mem_cons_self _ _)
  rw [List.cons_append, lexWithCons]
  simp only [step, startWith, digit, alpha, Bool.false_eq_true, if_false, if_true, Option.some_bind,
    List.nil_append, Option.map_id']
  rw [lexLetters l [c] rest fun d hd => (letters d (List.mem_cons_of_mem _ hd)).1, lexLettersStop stop]
  rfl

theorem digitCharDigit {m : Nat} (small : m < 10) :
    (Nat.digitChar m).isDigit = true ∧ (Nat.digitChar m).toNat - 48 = m := by
  have : ∀ m < 10, (Nat.digitChar m).isDigit = true ∧ (Nat.digitChar m).toNat - 48 = m := by decide
  exact this m small

theorem toDigitsCoreDigits : ∀ (fuel n : Nat) (ds : List Char), n < fuel →
    ∃ l, Nat.toDigitsCore 10 fuel n ds = l ++ ds ∧ l ≠ [] ∧ (∀ c ∈ l, c.isDigit = true) ∧
      l.foldl (fun n c => 10 * n + (c.toNat - 48)) 0 = n
  | 0, _, _, h => absurd h (Nat.not_lt_zero _)
  | fuel+1, n, ds, h => by
      have digit := digitCharDigit (Nat.mod_lt n (by decide : 10 > 0))
      simp only [Nat.toDigitsCore]
      split
      · exact ⟨[Nat.digitChar (n % 10)],rfl,by simp,by simp [digit.1],by simp [digit.2]; omega⟩
      · obtain ⟨l,eq,-,digits,value⟩ := toDigitsCoreDigits fuel (n / 10) (Nat.digitChar (n % 10) :: ds) (by omega)
        refine ⟨l ++ [Nat.digitChar (n % 10)],by simp [eq],by simp,fun c hc => ?_,?_⟩
        · rcases List.mem_append.mp hc with inside | last
          · exact digits c inside
          · simp only [List.mem_singleton] at last; exact last ▸ digit.1
        · rw [List.foldl_append, value]
          simp [digit.2]
          omega

theorem lexNat (n : Nat) (rest : List Char) : lexWith .start ((toString n).data ++ rest) = lexWith (.digits n) rest := by
  obtain ⟨l,eq,nonempty,digits,value⟩ := toDigitsCoreDigits (n + 1) n [] (by omega)
  have text : (toString n).data = l := by simpa using eq
  obtain ⟨c,l,rfl⟩ := List.exists_cons_of_ne_nil nonempty
  have first := digits c (List.mem_cons_self _ _)
  rw [text, List.cons_append, lexWithCons]
  simp only [step, startWith, first, if_true, Option.some_bind, List.nil_append, Option.map_id']
  rw [lexDigits l _ rest fun d hd => digits d (List.mem_cons_of_mem _ hd)]
  simp only [List.foldl_cons, Nat.mul_zero, Nat.zero_add] at value
  rw [value]

/-! ### Lexing texts put together -/

/-- `text` lexes to `ts` in front of any text that starts with a token of its own. -/
def Lexes (text : List Char) (ts : List Token) : Prop :=
  ∀ rest, Stop rest → lexWith .start (text ++ rest) = (lexWith .start rest).map (ts ++ ·)

theorem lexesNil : Lexes [] [] := fun _ _ => by simp

theorem Lexes.symbolThen {c : Char} {t : Token} (h : symbol c = some t) {text : List Char} {ts : List Token}
    (lexes : Lexes text ts) : Lexes (c :: text) (t :: ts) := fun rest stop => by
  rw [List.cons_append, lexSymbol h, lexes rest stop]
  simp [Option.map_map, Function.comp_def]

theorem Lexes.append {text : List Char} {ts : List Token} (lexes : Lexes text ts) {c : Char} {t : Token}
    (h : symbol c = some t) {text' : List Char} {ts' : List Token} (lexes' : Lexes (c :: text') ts') :
    Lexes (text ++ c :: text') (ts ++ ts') := fun rest stop => by
  rw [List.append_assoc, lexes (c :: text' ++ rest) (.inr ⟨c,text' ++ rest,t,rfl,h⟩), lexes' rest stop]
  simp [Option.map_map, Function.comp_def]

theorem Lexes.parens {text : List Char} {ts : List Token} (lexes : Lexes text ts) :
    Lexes ('(' :: (text ++ [')'])) (.leftParen :: ts ++ [.rightParen]) :=
  (lexes.append (c := ')') rfl (lexesNil.symbolThen (c := ')') rfl)).symbolThen (c := '(') rfl

theorem lexesNat (n : Nat) : Lexes (toString n).data [number n] := fun rest stop => by
  rw [lexNat, lexDigitsStop stop]
  rfl

theorem lexesImaginary (n : Nat) : Lexes ((toString n).data ++ ['i']) [imaginary n] := fun rest _ => by
  rw [List.append_assoc, lexNat]
  simp [lexWithCons, step]

theorem lexesWord {c : Char} {l : List Char} (letters : ∀ d ∈ c :: l, d.isAlpha = true ∧ d.isDigit = false)
    {t : Token} (named : word (c :: l) = some t) : Lexes (c :: l) [t] := fun rest stop => by
  rw [lexWord letters stop, named]
  rfl

end Token

def InfixOperator.token : InfixOperator → Token
  | .caret => .caret
  | .plus => .plus
  | .minus => .minus
  | .slash => .slash
  | .star => .star

/-- Modelled from the spec: the precedence level the reader is at, with the value read so far
where a level folds a chain of `+`/`-` or `*`/`/`. -/
inductive Stage (R : Type)
  | sum
  | sumTail (acc : Complex64 R)
  | product
  | productTail (acc : Complex64 R)
  | power
  | unary
  | atom

section Reader
variable {R : Type} (A : Arithmetic R) (ofNat : Nat → R)

/-- Reads the longest expression at `stage` from the front of the tokens: its value and the
tokens after it. `fuel` bounds the number of steps. -/
def readAt : Nat → Stage R → List Token → Option (Complex64 R × List Token)
  | 0, _, _ => none
  | fuel+1, .sum, ts => (readAt fuel .product ts).bind fun r => readAt fuel (.sumTail r.1) r.2
  | fuel+1, .sumTail acc, .plus :: ts =>
      (readAt fuel .product ts).bind fun r => readAt fuel (.sumTail (calculateInfix A acc .plus r.1)) r.2
  | fuel+1, .sumTail acc, .minus :: ts =>
      (readAt fuel .product ts).bind fun r => readAt fuel (.sumTail (calculateInfix A acc .minus r.1)) r.2
  | _+1, .sumTail acc, ts => some (acc,ts)
  | fuel+1, .product, ts => (readAt fuel .power ts).bind fun r => readAt fuel (.productTail r.1) r.2
  | fuel+1, .productTail acc, .star :: ts =>
      (readAt fuel .power ts).bind fun r => readAt fuel (.productTail (calculateInfix A acc .star r.1)) r.2
  | fuel+1, .productTail acc, .slash :: ts =>
      (readAt fuel .power ts).bind fun r => readAt fuel (.productTail (calculateInfix A acc .slash r.1)) r.2
  | _+1, .productTail acc, ts => some (acc,ts)
  | fuel+1, .power, ts => (readAt fuel .unary ts).bind fun
      | (a,.caret :: rest) => (readAt fuel .power rest).map fun r => (calculateInfix A a .caret r.1,r.2)
      | r => some r
  | fuel+1, .unary, .minus :: ts => (readAt fuel .atom ts).map fun r => (A.negate r.1,r.2)
  | fuel+1, .unary, .plus :: ts => readAt fuel .atom ts
  | fuel+1, .unary, ts => readAt fuel .atom ts
  | _+1, .atom, .number n :: ts => some (A.real (ofNat n),ts)
  | _+1, .atom, .imaginary n :: ts => some (A.imag (ofNat n),ts)
  | _+1, .atom, .piConstant :: ts => some (A.real A.pi,ts)
  | fuel+1, .atom, .function f :: .leftParen :: ts => (readAt fuel .sum ts).bind fun
      | (a,.rightParen :: rest) => some (calculateFunction A f a,rest)
      | _ => none
  | fuel+1, .atom, .leftParen :: ts => (readAt fuel .sum ts).bind fun
      | (a,.rightParen :: rest) => some (a,rest)
      | _ => none
  | _+1, .atom, _ => none

/-- Modelled from the spec: the value of a text read as a whole expression. -/
def read (text : String) : Option (Complex64 R) :=
  (Token.lex text).bind fun ts =>
    match readAt A ofNat (8 * ts.length + 8) .sum ts with
    | some (value,[]) => some value
    | _ => none

/-! ### Reading what is written unit by unit -/

/-- `ts` reads as `v` at the level of a signed atom, whatever tokens follow it, with any fuel
from `n` on. -/
def ReadsAs (ts : List Token) (v : Complex64 R) (n : Nat) : Prop :=
  ∀ fuel rest, n ≤ fuel → readAt A ofNat fuel .unary (ts ++ rest) = some (v,rest)

def ReadsAtom (ts : List Token) (v : Complex64 R) (n : Nat) : Prop :=
  ∀ fuel rest, n ≤ fuel → readAt A ofNat fuel .atom (ts ++ rest) = some (v,rest)

variable {A ofNat}

theorem ReadsAs.mono {ts : List Token} {v : Complex64 R} {n n' : Nat} (reads : ReadsAs A ofNat ts v n)
    (le : n ≤ n') : ReadsAs A ofNat ts v n' :=
  fun fuel rest enough => reads fuel rest (le.trans enough)

theorem ReadsAtom.mono {ts : List Token} {v : Complex64 R} {n n' : Nat} (reads : ReadsAtom A ofNat ts v n)
    (le : n ≤ n') : ReadsAtom A ofNat ts v n' :=
  fun fuel rest enough => reads fuel rest (le.trans enough)

theorem readAtSum (fuel : Nat) (ts : List Token) : readAt A ofNat (fuel + 1) .sum ts =
    (readAt A ofNat fuel .product ts).bind fun r => readAt A ofNat fuel (.sumTail r.1) r.2 := rfl

theorem readAtProduct (fuel : Nat) (ts : List Token) : readAt A ofNat (fuel + 1) .product ts =
    (readAt A ofNat fuel .power ts).bind fun r => readAt A ofNat fuel (.productTail r.1) r.2 := rfl

theorem readAtPower (fuel : Nat) (ts : List Token) : readAt A ofNat (fuel + 1) .power ts =
    (readAt A ofNat fuel .unary ts).bind fun
      | (a,.caret :: rest) => (readAt A ofNat fuel .power rest).map fun r => (calculateInfix A a .caret r.1,r.2)
      | r => some r := rfl

theorem readAtTail (fuel : Nat) (acc : Complex64 R) (ts : List Token) :
    readAt A ofNat (fuel + 1) (.sumTail acc) (.plus :: ts) =
        (readAt A ofNat fuel .product ts).bind (fun r => readAt A ofNat fuel (.sumTail (calculateInfix A acc .plus r.1)) r.2) ∧
      readAt A ofNat (fuel + 1) (.sumTail acc) (.minus :: ts) =
        (readAt A ofNat fuel .product ts).bind (fun r => readAt A ofNat fuel (.sumTail (calculateInfix A acc .minus r.1)) r.2) ∧
      readAt A ofNat (fuel + 1) (.productTail acc) (.star :: ts) =
        (readAt A ofNat fuel .power ts).bind (fun r => readAt A ofNat fuel (.productTail (calculateInfix A acc .star r.1)) r.2) ∧
      readAt A ofNat (fuel + 1) (.productTail acc) (.slash :: ts) =
        (readAt A ofNat fuel .power ts).bind (fun r => readAt A ofNat fuel (.productTail (calculateInfix A acc .slash r.1)) r.2) :=
  ⟨rfl,rfl,rfl,rfl⟩

theorem readAtUnary (fuel : Nat) (ts : List Token) :
    readAt A ofNat (fuel + 1) .unary (.minus :: ts) = (readAt A ofNat fuel .atom ts).map (fun r => (A.negate r.1,r.2)) ∧
      readAt A ofNat (fuel + 1) .unary (.plus :: ts) = readAt A ofNat fuel .atom ts :=
  ⟨rfl,rfl⟩

theorem readAtUnaryUnsigned (fuel : Nat) {ts : List Token} (unsigned : ∀ tail, ts ≠ .minus :: tail ∧ ts ≠ .plus :: tail) :
    readAt A ofNat (fuel + 1) .unary ts = readAt A ofNat fuel .atom ts := by
  rcases ts with _ | ⟨t,ts⟩
  · rfl
  · cases t <;> first | rfl | exact absurd rfl (unsigned ts).1 | exact absurd rfl (unsigned ts).2

theorem readAtAtomSigned (fuel : Nat) (ts : List Token) :
    readAt A ofNat fuel .atom (.minus :: ts) = none ∧ readAt A ofNat fuel .atom (.plus :: ts) = none := by
  cases fuel <;> exact ⟨rfl,rfl⟩

theorem readAtAtom (fuel : Nat) (ts : List Token) :
    readAt A ofNat (fuel + 1) .atom (.leftParen :: ts) = (readAt A ofNat fuel .sum ts).bind (fun
        | (a,.rightParen :: rest) => some (a,rest)
        | _ => none) ∧
      ∀ function, readAt A ofNat (fuel + 1) .atom (.function function :: .leftParen :: ts) =
        (readAt A ofNat fuel .sum ts).bind (fun
          | (a,.rightParen :: rest) => some (calculateFunction A function a,rest)
          | _ => none) :=
  ⟨rfl,fun _ => rfl⟩

theorem readProductTailStop (acc : Complex64 R) (fuel : Nat) {rest : List Token}
    (next : rest.head? ≠ some .star ∧ rest.head? ≠ some .slash) :
    readAt A ofNat (fuel + 1) (.productTail acc) rest = some (acc,rest) := by
  cases rest with
  | nil => rfl
  | cons t rest => cases t <;> first | rfl | simp at next

theorem readSumTailStop (acc : Complex64 R) (fuel : Nat) {rest : List Token}
    (next : rest.head? ≠ some .plus ∧ rest.head? ≠ some .minus) :
    readAt A ofNat (fuel + 1) (.sumTail acc) rest = some (acc,rest) := by
  cases rest with
  | nil => rfl
  | cons t rest => cases t <;> first | rfl | simp at next

theorem liftProduct {fuel : Nat} {ts rest : List Token} {v : Complex64 R}
    (read : readAt A ofNat (fuel + 1) .power ts = some (v,rest)) (next : rest.head? ≠ some .star ∧ rest.head? ≠ some .slash) :
    readAt A ofNat (fuel + 1 + 1) .product ts = some (v,rest) := by
  rw [readAtProduct, read, Option.some_bind]
  exact readProductTailStop v fuel next

theorem liftSum {fuel : Nat} {ts rest : List Token} {v : Complex64 R}
    (read : readAt A ofNat (fuel + 1) .product ts = some (v,rest)) (next : rest.head? ≠ some .plus ∧ rest.head? ≠ some .minus) :
    readAt A ofNat (fuel + 1 + 1) .sum ts = some (v,rest) := by
  rw [readAtSum, read, Option.some_bind]
  exact readSumTailStop v fuel next

section Units
variable {ts : List Token} {v : Complex64 R} {n : Nat} (reads : ReadsAs A ofNat ts v n)
include reads

theorem readPower {fuel : Nat} (enough : n + 1 ≤ fuel) {rest : List Token} (next : rest.head? ≠ some .caret) :
    readAt A ofNat fuel .power (ts ++ rest) = some (v,rest) := by
  obtain ⟨f,rfl⟩ : ∃ f, fuel = f + 1 := ⟨fuel - 1,by omega⟩
  rw [readAtPower, reads f rest (by omega), Option.some_bind]
  cases rest with
  | nil => rfl
  | cons t rest => cases t <;> first | rfl | simp at next

theorem readProduct {fuel : Nat} (enough : n + 2 ≤ fuel) {rest : List Token}
    (next : rest.head? ≠ some .caret ∧ rest.head? ≠ some .star ∧ rest.head? ≠ some .slash) :
    readAt A ofNat fuel .product (ts ++ rest) = some (v,rest) := by
  obtain ⟨f,rfl⟩ : ∃ f, fuel = f + 1 + 1 := ⟨fuel - 2,by omega⟩
  exact liftProduct (readPower reads (by omega) next.1) next.2

theorem readSum {fuel : Nat} (enough : n + 3 ≤ fuel) {rest : List Token}
    (next : rest.head? ≠ some .caret ∧ rest.head? ≠ some .star ∧ rest.head? ≠ some .slash ∧
      rest.head? ≠ some .plus ∧ rest.head? ≠ some .minus) :
    readAt A ofNat fuel .sum (ts ++ rest) = some (v,rest) := by
  obtain ⟨f,rfl⟩ : ∃ f, fuel = f + 1 + 1 := ⟨fuel - 2,by omega⟩
  exact liftSum (readProduct reads (by omega) ⟨next.1,next.2.1,next.2.2.1⟩) next.2.2.2

end Units

section Atoms
variable {ts : List Token} {v : Complex64 R} {n : Nat} (reads : ReadsAtom A ofNat ts v n)
include reads

theorem ReadsAtom.unsigned : ReadsAs A ofNat ts v (n + 1) := fun fuel rest enough => by
  obtain ⟨f,rfl⟩ : ∃ f, fuel = f + 1 := ⟨fuel - 1,by omega⟩
  have atom := reads f rest (by omega)
  rw [readAtUnaryUnsigned f fun tail => ⟨fun signed => ?_,fun signed => ?_⟩, atom] <;>
    simp only [signed, (readAtAtomSigned f tail).1, (readAtAtomSigned f tail).2, reduceCtorEq] at atom

theorem readNegate : ReadsAs A ofNat (.minus :: ts) (A.negate v) (n + 1) := fun fuel rest enough => by
  obtain ⟨f,rfl⟩ : ∃ f, fuel = f + 1 := ⟨fuel - 1,by omega⟩
  rw [List.cons_append, (readAtUnary f _).1, reads f rest (by omega)]
  rfl

theorem readPlus : ReadsAs A ofNat (.plus :: ts) v (n + 1) := fun fuel rest enough => by
  obtain ⟨f,rfl⟩ : ∃ f, fuel = f + 1 := ⟨fuel - 1,by omega⟩
  rw [List.cons_append, (readAtUnary f _).2, reads f rest (by omega)]

end Atoms

theorem readNumber (m : Nat) : ReadsAtom A ofNat [.number m] (A.real (ofNat m)) 1 := fun fuel rest enough => by
  obtain ⟨f,rfl⟩ : ∃ f, fuel = f + 1 := ⟨fuel - 1,by omega⟩
  rfl

theorem readImaginary (m : Nat) : ReadsAtom A ofNat [.imaginary m] (A.imag (ofNat m)) 1 := fun fuel rest enough => by
  obtain ⟨f,rfl⟩ : ∃ f, fuel = f + 1 := ⟨fuel - 1,by omega⟩
  rfl

theorem readPi : ReadsAtom A ofNat [.piConstant] (A.real A.pi) 1 := fun fuel rest enough => by
  obtain ⟨f,rfl⟩ : ∃ f, fuel = f + 1 := ⟨fuel - 1,by omega⟩
  rfl

theorem readParens {ts : List Token} {v : Complex64 R} {n : Nat}
    (inner : ∀ fuel rest, n ≤ fuel → readAt A ofNat fuel .sum (ts ++ .rightParen :: rest) = some (v,.rightParen :: rest)) :
    ReadsAtom A ofNat (.leftParen :: ts ++ [.rightParen]) v (n + 1) := fun fuel rest enough => by
  obtain ⟨f,rfl⟩ : ∃ f, fuel = f + 1 := ⟨fuel - 1,by omega⟩
  rw [List.append_assoc, List.cons_append, List.singleton_append, (readAtAtom f _).1, inner f rest (by omega)]
  rfl

theorem readCall (function : ExpressionFunction) {ts : List Token} {v : Complex64 R} {n : Nat}
    (inner : ∀ fuel rest, n ≤ fuel → readAt A ofNat fuel .sum (ts ++ .rightParen :: rest) = some (v,.rightParen :: rest)) :
    ReadsAtom A ofNat (.function function :: .leftParen :: ts ++ [.rightParen]) (calculateFunction A function v) (n + 1) :=
  fun fuel rest enough => by
    obtain ⟨f,rfl⟩ : ∃ f, fuel = f + 1 := ⟨fuel - 1,by omega⟩
    rw [List.append_assoc, List.cons_append, List.cons_append, List.singleton_append,
      (readAtAtom f _).2, inner f rest (by omega)]
    rfl

theorem readInfix {tl tr : List Token} {vl vr : Complex64 R} {nl nr : Nat}
    (left : ReadsAs A ofNat tl vl nl) (right : ReadsAs A ofNat tr vr nr) (operator : InfixOperator)
    {fuel : Nat} (enough : nl + nr + 5 ≤ fuel) (rest : List Token) :
    readAt A ofNat fuel .sum (tl ++ operator.token :: (tr ++ .rightParen :: rest)) =
      some (calculateInfix A vl operator vr,.rightParen :: rest) := by
  obtain ⟨f,rfl⟩ : ∃ f, fuel = f + 5 := ⟨fuel - 5,by omega⟩
  cases operator
  case caret =>
    have power : readAt A ofNat (f + 3) .power (tl ++ .caret :: (tr ++ .rightParen :: rest)) =
        some (calculateInfix A vl .caret vr,.rightParen :: rest) := by
      rw [readAtPower, left _ _ (by omega), Option.some_bind]
      dsimp only
      rw [readPower right (by omega) (by simp)]
      rfl
    exact liftSum (liftProduct power ⟨by simp,by simp⟩) ⟨by simp,by simp⟩
  case star | slash =>
    refine liftSum ?_ ⟨by simp,by simp⟩
    simp only [InfixOperator.token]
    rw [readAtProduct, readPower left (by omega) (by simp), Option.some_bind]
    simp only [readAtTail]
    rw [readPower right (by omega) (by simp), Option.some_bind]
    exact readProductTailStop _ _ ⟨by simp,by simp⟩
  case plus | minus =>
    simp only [InfixOperator.token]
    rw [readAtSum, readProduct left (by omega) ⟨by simp,by simp,by simp⟩, Option.some_bind]
    simp only [readAtTail]
    rw [readProduct right (by omega) ⟨by simp,by simp,by simp⟩, Option.some_bind]
    exact readSumTailStop _ _ ⟨by simp,by simp⟩

end Reader
end QuilRs
