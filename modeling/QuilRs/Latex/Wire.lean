import Mathlib.Data.List.Basic
/-! The methods of the LaTeX diagram's `Wire` (src/program/latex/diagram/wire.rs) that place
gate modifiers, targets and controls at a column. `extract_daggers` records the `DAGGER`s of a
gate in order and fails at a `FORKED`, but only after recording the `DAGGER`s before it, so a
failed call leaves the wire changed. `set_ctrl` records the row offset from the control to the
target, and nothing when either qubit is a variable or is not in the circuit. -/
namespace QuilRs.Diagram

/-- Modelled from the spec: `GateModifier`. -/
inductive GateModifier
  | controlled
  | dagger
  | forked
  deriving DecidableEq, Repr

/-- Modelled from the spec: `Qubit`, a fixed index or a variable. -/
inductive Qubit
  | fixed (index : UInt64)
  | var (name : String)
  deriving DecidableEq, Repr

/-- `LatexGenError`, in the case these methods return. -/
inductive LatexGenError
  | unsupportedModifierForked
  deriving DecidableEq, Repr

/-- `Wire`, with its `HashMap`s keyed by column as functions of the column; `gates`,
`parameters` and `empty` are not read or written by the methods modelled here. -/
structure Wire where
  ctrl : UInt32 → Option Int
  targ : UInt32 → Option Bool
  daggers : UInt32 → Option (List GateModifier)

namespace Wire

/-- `HashMap::insert` on a map of the wire. -/
def update {V : Type} (map : UInt32 → Option V) (column : UInt32) (value : V) : UInt32 → Option V :=
  fun c => if c = column then some value else map c

/-- `daggers.entry(column).and_modify(|m| m.push(modifier)).or_insert_with(|| vec![modifier])`. -/
def pushDagger (w : Wire) (column : UInt32) (modifier : GateModifier) : Wire :=
  let modifiers := match w.daggers column with
    | some m => m ++ [modifier]
    | none => [modifier]
  { w with daggers := update w.daggers column modifiers }

/-- `extract_daggers`: the result, with the wire as the loop leaves it, also when it returns an
error. -/
def extractDaggers (w : Wire) (column : UInt32) : List GateModifier → Except LatexGenError Unit × Wire
  | [] => (.ok (),w)
  | .forked :: _ => (.error .unsupportedModifierForked,w)
  | .dagger :: rest => (w.pushDagger column .dagger).extractDaggers column rest
  | .controlled :: rest => w.extractDaggers column rest

/-- `set_targ`. -/
def setTarg (w : Wire) (column : UInt32) : Wire := { w with targ := update w.targ column true }

/-- `set_ctrl`: the offset `targ_index - ctrl_index` of the first positions of the two qubits in
`circuit_qubits` (as `i64`, which cannot overflow for positions of a slice). -/
def setCtrl (w : Wire) (column : UInt32) (ctrl targ : Qubit) (circuitQubits : List UInt64) : Wire :=
  match ctrl, targ with
  | .fixed ctrl, .fixed targ =>
      match circuitQubits.findIdx? (· == ctrl), circuitQubits.findIdx? (· == targ) with
      | some ctrlIndex, some targIndex => { w with ctrl := update w.ctrl column ((targIndex : Int) - ctrlIndex) }
      | _, _ => w
  | _, _ => w

theorem updateAt {V : Type} (map : UInt32 → Option V) (column : UInt32) (value : V) :
    update map column value column = some value := if_pos rfl

theorem updateOther {V : Type} (map : UInt32 → Option V) {column c : UInt32} (other : c ≠ column) (value : V) :
    update map column value c = map c := if_neg other

theorem extractDaggersLaw (w : Wire) (column : UInt32) (modifiers : List GateModifier) :
    ((w.extractDaggers column modifiers).1 = .ok () ↔ .forked ∉ modifiers) ∧
      (w.extractDaggers column modifiers).2.daggers column =
        (if (modifiers.takeWhile (· != .forked)).count .dagger = 0 then w.daggers column
         else some ((w.daggers column).getD [] ++
           List.replicate ((modifiers.takeWhile (· != .forked)).count .dagger) .dagger)) ∧
      (∀ c ≠ column, (w.extractDaggers column modifiers).2.daggers c = w.daggers c) ∧
      (w.extractDaggers column modifiers).2.ctrl = w.ctrl ∧ (w.extractDaggers column modifiers).2.targ = w.targ := by
  induction modifiers generalizing w with
  | nil => simp [extractDaggers]
  | cons modifier rest ih =>
      cases modifier with
      | forked => simp [extractDaggers]
      | controlled => simpa [extractDaggers] using ih w
      | dagger =>
          obtain ⟨result,here,others,ctrl,targ⟩ := ih (w.pushDagger column .dagger)
          have pushed : (w.pushDagger column .dagger).daggers column = some ((w.daggers column).getD [] ++ [.dagger]) := by
            unfold pushDagger
            cases w.daggers column <;> simp [updateAt]
          refine ⟨by simpa [extractDaggers] using result,?_,fun c other => ?_,ctrl,targ⟩
          · simp only [extractDaggers, here, pushed, List.takeWhile_cons_of_pos (by decide : (GateModifier.dagger != .forked) = true),
              List.count_cons_self, Nat.add_one_ne_zero, if_false]
            split
            · simp [‹_ = 0›]
            · simp [List.replicate_succ]
          · rw [extractDaggers, others c other]
            exact updateOther _ other _

end Wire
end QuilRs.Diagram
