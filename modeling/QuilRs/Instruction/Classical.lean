import QuilRs.Expression.Display
import QuilRs.Instruction.Declaration
/-! `Display` for the classical instructions (quil-rs/src/instruction/classical.rs) and for
`PRAGMA` (quil-rs/src/instruction/pragma.rs). Each writes a mnemonic and then its operands, one
space before each, so its text splits at whitespace into the mnemonic and the words of its
operands in the order written (`CONVERT` writes `to` before `from`), and the mnemonic alone reads
back as the instruction's variant and operator. `BinaryLogic` has no `Display` here. -/
namespace QuilRs.Instruction
variable {R : Type} (F : Formatting R)

/-- A mnemonic and its operands, each after one space, as `write!(f, "{} {} {}", ..)` writes
them. -/
def instructionText (mnemonic : String) (operands : List String) : String :=
  mnemonic ++ String.join (operands.map fun operand => " " ++ operand)

/-! ### Operands and operators -/

inductive ArithmeticOperand (R : Type)
  | literalInteger (value : Int)
  | literalReal (value : R)
  | memoryReference (value : MemoryReference)

/-- `i64` and `f64` written with `{}`, and a memory reference with its own `Display`. -/
def ArithmeticOperand.fmt : ArithmeticOperand R → String
  | .literalInteger value => toString value
  | .literalReal value => F.display value
  | .memoryReference value => value.fmt

inductive ArithmeticOperator
  | add | subtract | divide | multiply
  deriving DecidableEq, Repr

def ArithmeticOperator.fmt : ArithmeticOperator → String
  | .add => "ADD"
  | .divide => "DIV"
  | .multiply => "MUL"
  | .subtract => "SUB"

inductive BinaryOperand
  | literalInteger (value : Int)
  | memoryReference (value : MemoryReference)

def BinaryOperand.fmt : BinaryOperand → String
  | .literalInteger value => toString value
  | .memoryReference value => value.fmt

inductive BinaryOperator
  | and | ior | xor
  deriving DecidableEq, Repr

def BinaryOperator.fmt : BinaryOperator → String
  | .and => "AND"
  | .ior => "IOR"
  | .xor => "XOR"

inductive ComparisonOperand (R : Type)
  | literalInteger (value : Int)
  | literalReal (value : R)
  | memoryReference (value : MemoryReference)

def ComparisonOperand.fmt : ComparisonOperand R → String
  | .literalInteger value => toString value
  | .literalReal value => F.display value
  | .memoryReference value => value.fmt

inductive ComparisonOperator
  | equal | greaterThanOrEqual | greaterThan | lessThanOrEqual | lessThan
  deriving DecidableEq, Repr

def ComparisonOperator.fmt : ComparisonOperator → String
  | .equal => "EQ"
  | .greaterThanOrEqual => "GE"
  | .greaterThan => "GT"
  | .lessThanOrEqual => "LE"
  | .lessThan => "LT"

inductive UnaryOperator
  | neg | not
  deriving DecidableEq, Repr

def UnaryOperator.fmt : UnaryOperator → String
  | .neg => "NEG"
  | .not => "NOT"

inductive PragmaArgument
  | identifier (i : String)
  | integer (i : UInt64)

def PragmaArgument.fmt : PragmaArgument → String
  | .identifier i => i
  | .integer i => toString i.toNat

/-! ### Instructions -/

structure Arithmetic (R : Type) where
  operator : ArithmeticOperator
  destination : ArithmeticOperand R
  source : ArithmeticOperand R

def Arithmetic.fmt (a : Arithmetic R) : String :=
  instructionText a.operator.fmt [a.destination.fmt F,a.source.fmt F]

/-- `Convert`; its fields `from` and `to` are named `from'` and `to'`, both being keywords of
Lean. -/
structure Convert where
  from' : MemoryReference
  to' : MemoryReference

def Convert.fmt (c : Convert) : String := instructionText "CONVERT" [c.to'.fmt,c.from'.fmt]

structure Move (R : Type) where
  destination : ArithmeticOperand R
  source : ArithmeticOperand R

def Move.fmt (m : Move R) : String := instructionText "MOVE" [m.destination.fmt F,m.source.fmt F]

structure Exchange (R : Type) where
  left : ArithmeticOperand R
  right : ArithmeticOperand R

def Exchange.fmt (e : Exchange R) : String := instructionText "EXCHANGE" [e.left.fmt F,e.right.fmt F]

structure Comparison (R : Type) where
  operator : ComparisonOperator
  operands : MemoryReference × MemoryReference × ComparisonOperand R

def Comparison.fmt (c : Comparison R) : String :=
  instructionText c.operator.fmt [c.operands.1.fmt,c.operands.2.1.fmt,c.operands.2.2.fmt F]

structure UnaryLogic where
  operator : UnaryOperator
  operand : MemoryReference

def UnaryLogic.fmt (u : UnaryLogic) : String := instructionText u.operator.fmt [u.operand.fmt]

structure Pragma where
  name : String
  arguments : List PragmaArgument
  data : Option String

/-- `Display for Pragma`: the data, when there is some, written last and in quotes, as it is. -/
def Pragma.fmt (p : Pragma) : String :=
  "PRAGMA " ++ p.name ++ String.join (p.arguments.map fun arg => " " ++ arg.fmt) ++
    match p.data with
    | some data => " \"" ++ data ++ "\""
    | none => ""

/-- Modelled from the spec: the variants of `Instruction` that classical.rs and pragma.rs
write, each written by its own `Display`. -/
inductive ClassicalInstruction (R : Type)
  | arithmetic (a : Arithmetic R)
  | comparison (c : Comparison R)
  | convert (c : Convert)
  | exchange (e : Exchange R)
  | move (m : Move R)
  | unaryLogic (u : UnaryLogic)
  | pragma (p : Pragma)

def ClassicalInstruction.fmt : ClassicalInstruction R → String
  | .arithmetic a => a.fmt F
  | .comparison c => c.fmt F
  | .convert c => c.fmt
  | .exchange e => e.fmt F
  | .move m => m.fmt F
  | .unaryLogic u => u.fmt
  | .pragma p => p.fmt

/-! ### Mnemonics -/

/-- What the first word of an instruction's text names: its variant, with the operator of the
variants that have one. -/
inductive Opcode
  | arithmetic (operator : ArithmeticOperator)
  | comparison (operator : ComparisonOperator)
  | unaryLogic (operator : UnaryOperator)
  | convert | exchange | move | pragma
  deriving DecidableEq, Repr

def Opcode.fmt : Opcode → String
  | .arithmetic operator => operator.fmt
  | .comparison operator => operator.fmt
  | .unaryLogic operator => operator.fmt
  | .convert => "CONVERT"
  | .exchange => "EXCHANGE"
  | .move => "MOVE"
  | .pragma => "PRAGMA"

def Opcode.read : String → Option Opcode
  | "ADD" => some (.arithmetic .add)
  | "SUB" => some (.arithmetic .subtract)
  | "DIV" => some (.arithmetic .divide)
  | "MUL" => some (.arithmetic .multiply)
  | "EQ" => some (.comparison .equal)
  | "GE" => some (.comparison .greaterThanOrEqual)
  | "GT" => some (.comparison .greaterThan)
  | "LE" => some (.comparison .lessThanOrEqual)
  | "LT" => some (.comparison .lessThan)
  | "NEG" => some (.unaryLogic .neg)
  | "NOT" => some (.unaryLogic .not)
  | "CONVERT" => some .convert
  | "EXCHANGE" => some .exchange
  | "MOVE" => some .move
  | "PRAGMA" => some .pragma
  | _ => none

def ClassicalInstruction.opcode : ClassicalInstruction R → Opcode
  | .arithmetic a => .arithmetic a.operator
  | .comparison c => .comparison c.operator
  | .convert _ => .convert
  | .exchange _ => .exchange
  | .move _ => .move
  | .unaryLogic u => .unaryLogic u.operator
  | .pragma _ => .pragma

/-- The operands in the order the text writes them, a pragma's data in its quotes. -/
def ClassicalInstruction.operands : ClassicalInstruction R → List String
  | .arithmetic a => [a.destination.fmt F,a.source.fmt F]
  | .comparison c => [c.operands.1.fmt,c.operands.2.1.fmt,c.operands.2.2.fmt F]
  | .convert c => [c.to'.fmt,c.from'.fmt]
  | .exchange e => [e.left.fmt F,e.right.fmt F]
  | .move m => [m.destination.fmt F,m.source.fmt F]
  | .unaryLogic u => [u.operand.fmt]
  | .pragma p => p.name :: p.arguments.map PragmaArgument.fmt ++ p.data.toList.map fun data => "\"" ++ data ++ "\""

theorem Opcode.readFmt (o : Opcode) : Opcode.read o.fmt = some o := by
  rcases o with (_ | _ | _ | _) | (_ | _ | _ | _ | _) | (_ | _) | _ | _ | _ | _ <;> rfl

theorem Opcode.fmtOneWord (o : Opcode) : OneWord o.fmt.data := by
  rcases o with (_ | _ | _ | _) | (_ | _ | _ | _ | _) | (_ | _) | _ | _ | _ | _ <;> exact ⟨by decide,by decide⟩

/-! ### Words -/

theorem wordsFromSpaceAppend (b : List Char) : ∀ word a : List Char,
    wordsFrom word (a ++ ' ' :: b) = wordsFrom word a ++ wordsFrom [] b
  | word, [] => wordsFromSpace word b
  | word, c :: a => by
      rw [List.cons_append, wordsFrom, wordsFrom]
      split
      · rw [wordsFromSpaceAppend b [] a, List.append_assoc]
      · exact wordsFromSpaceAppend b (word ++ [c]) a

theorem instructionTextData (mnemonic : String) (operands : List String) :
    (instructionText mnemonic operands).data = mnemonic.data ++ (operands.map fun operand => ' ' :: operand.data).flatten := by
  simp [instructionText, joinData, Function.comp_def]

theorem wordsFromOperands (operands : List String) : ∀ text : List Char,
    wordsFrom [] (text ++ (operands.map fun operand => ' ' :: operand.data).flatten) =
      wordsFrom [] text ++ operands.flatMap words := by
  induction operands with
  | nil => simp
  | cons operand operands ih =>
      intro text
      rw [List.map_cons, List.flatten_cons, ← List.append_assoc, ih,
        wordsFromSpaceAppend, List.flatMap_cons, List.append_assoc]
      rfl

theorem wordsInstructionText (mnemonic : String) (operands : List String) :
    words (instructionText mnemonic operands) = words mnemonic ++ operands.flatMap words := by
  rw [words, instructionTextData, wordsFromOperands]
  rfl

theorem Pragma.fmtInstructionText (p : Pragma) :
    p.fmt = instructionText "PRAGMA" (p.name :: p.arguments.map PragmaArgument.fmt ++
      p.data.toList.map fun data => "\"" ++ data ++ "\"") := by
  obtain ⟨name,arguments,data⟩ := p
  apply String.ext
  cases data <;> simp [Pragma.fmt, instructionTextData, joinData, Function.comp_def]

theorem ClassicalInstruction.fmtInstructionText (i : ClassicalInstruction R) :
    i.fmt F = instructionText i.opcode.fmt (i.operands F) := by
  cases i with
  | pragma p => exact p.fmtInstructionText
  | _ => rfl

theorem fmtWordsOpcode (i : ClassicalInstruction R) :
    words (i.fmt F) = i.opcode.fmt :: (i.operands F).flatMap words ∧
      (words (i.fmt F)).head?.bind Opcode.read = some i.opcode := by
  have split : words (i.fmt F) = i.opcode.fmt :: (i.operands F).flatMap words := by
    rw [i.fmtInstructionText, wordsInstructionText, words, wordsFromLast i.opcode.fmtOneWord]
    rfl
  rw [split]
  exact ⟨rfl,i.opcode.readFmt⟩

end QuilRs.Instruction
