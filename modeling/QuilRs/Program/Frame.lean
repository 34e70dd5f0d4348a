import Mathlib.Data.Finset.Basic
/-! `FrameSet::get_matching_keys` (quil-rs/src/program/frame.rs): the frames of a set that a
`FrameMatchCondition` selects. It selects what each condition's documentation says, except that
`And` of no condition selects no frame: the `reduce` over no set finds nothing, and
`unwrap_or_default` gives the empty set where "all of these conditions" holds of every frame. -/
namespace QuilRs

/-- Modelled from the spec: `FrameIdentifier`, a frame's name and its qubits. -/
structure FrameIdentifier (Q : Type) where
  name : String
  qubits : List Q
  deriving DecidableEq, Repr

/-- `FrameSet`: its `HashMap` from identifiers to attributes, as entries with distinct
identifiers. -/
structure FrameSet (Q A : Type) where
  frames : List (FrameIdentifier Q × A)
  distinct : (frames.map Prod.fst).Nodup

/-- `FrameMatchCondition`, with `HashSet`s as finite sets. -/
inductive FrameMatchCondition (Q : Type)
  | all
  | anyOfNames (names : Finset String)
  | anyOfQubits (qubits : Finset Q)
  | exactQubits (qubits : Finset Q)
  | specific (frame : FrameIdentifier Q)
  | and (conditions : List (FrameMatchCondition Q))
  | or (conditions : List (FrameMatchCondition Q))

variable {Q A : Type} [DecidableEq Q]

namespace FrameSet

/-- `self.frames.keys()`. -/
def keys (fs : FrameSet Q A) : Finset (FrameIdentifier Q) := (fs.frames.map Prod.fst).toFinset

mutual

def getMatchingKeys (fs : FrameSet Q A) : FrameMatchCondition Q → Finset (FrameIdentifier Q)
  | .all => fs.keys
  | .anyOfNames names => fs.keys.filter fun f => f.name ∈ names
  | .anyOfQubits qubits => fs.keys.filter fun f => f.qubits.any (· ∈ qubits)
  | .exactQubits qubits => fs.keys.filter fun f => f.qubits.toFinset = qubits
  | .specific frame => if frame ∈ fs.keys then {frame} else ∅
  | .and conditions =>
      match getMatchingKeysEach fs conditions with
      | [] => ∅
      | first :: rest => rest.foldl (fun acc el => acc.filter (· ∈ el)) first
  | .or conditions => (getMatchingKeysEach fs conditions).foldr (· ∪ ·) ∅

/-- `conditions.into_iter().map(|c| self.get_matching_keys(c))`. -/
def getMatchingKeysEach (fs : FrameSet Q A) : List (FrameMatchCondition Q) → List (Finset (FrameIdentifier Q))
  | [] => []
  | c :: cs => getMatchingKeys fs c :: getMatchingKeysEach fs cs

end

end FrameSet

namespace FrameMatchCondition

mutual

/-- Whether a frame matches a condition, as the condition's documentation says; `emptyAnd` is
whether `And` of no condition holds. -/
def holds (emptyAnd : Bool) : FrameMatchCondition Q → FrameIdentifier Q → Bool
  | all, _ => true
  | anyOfNames names, k => decide (k.name ∈ names)
  | anyOfQubits qubits, k => k.qubits.any (· ∈ qubits)
  | exactQubits qubits, k => decide (k.qubits.toFinset = qubits)
  | specific frame, k => decide (k = frame)
  | and [], _ => emptyAnd
  | and (c :: cs), k => holdsAll emptyAnd (c :: cs) k
  | or cs, k => holdsAny emptyAnd cs k

def holdsAll (emptyAnd : Bool) : List (FrameMatchCondition Q) → FrameIdentifier Q → Bool
  | [], _ => true
  | c :: cs, k => holds emptyAnd c k && holdsAll emptyAnd cs k

def holdsAny (emptyAnd : Bool) : List (FrameMatchCondition Q) → FrameIdentifier Q → Bool
  | [], _ => false
  | c :: cs, k => holds emptyAnd c k || holdsAny emptyAnd cs k

end

mutual

def hasEmptyAnd : FrameMatchCondition Q → Bool
  | and [] => true
  | and cs => anyHasEmptyAnd cs
  | or cs => anyHasEmptyAnd cs
  | _ => false

def anyHasEmptyAnd : List (FrameMatchCondition Q) → Bool
  | [] => false
  | c :: cs => hasEmptyAnd c || anyHasEmptyAnd cs

end

end FrameMatchCondition

namespace FrameSet
open FrameMatchCondition

/- `And` of no condition: `get_matching_keys` returns no frame, whatever the set, where the
documented semantics matches every frame of it. -/
theorem getMatchingKeysEmptyAnd (fs : FrameSet Q A) :
    fs.getMatchingKeys (.and []) = ∅ ∧ fs.keys.filter (fun k => (and [] : FrameMatchCondition Q).holds true k) = fs.keys :=
  ⟨rfl,by simp [holds]⟩

section Law
variable (fs : FrameSet Q A) (emptyAnd : Bool)

theorem intersectFold (cs : List (FrameMatchCondition Q)) : ∀ P : FrameIdentifier Q → Bool,
    (cs.map fun c => fs.keys.filter (c.holds emptyAnd ·)).foldl (fun acc el => acc.filter (· ∈ el))
        (fs.keys.filter (P ·)) = fs.keys.filter fun k => P k && holdsAll emptyAnd cs k := by
  induction cs with
  | nil => simp [holdsAll]
  | cons c cs ih =>
      intro P
      have step : (fs.keys.filter (P ·)).filter (· ∈ fs.keys.filter (c.holds emptyAnd ·)) =
          fs.keys.filter fun k => P k && c.holds emptyAnd k := by
        ext k
        simp only [Finset.mem_filter, Bool.and_eq_true]
        tauto
      rw [List.map_cons, List.foldl_cons, step, ih]
      simp [holdsAll, Bool.and_assoc]

theorem unionFold (cs : List (FrameMatchCondition Q)) :
    (cs.map fun c => fs.keys.filter (c.holds emptyAnd ·)).foldr (· ∪ ·) ∅ = fs.keys.filter (holdsAny emptyAnd cs ·) := by
  induction cs with
  | nil => simp [holdsAny]
  | cons c cs ih =>
      rw [List.map_cons, List.foldr_cons, ih, ← Finset.filter_or]
      simp [holdsAny]

mutual

theorem getMatchingKeysHolds : ∀ c : FrameMatchCondition Q, fs.getMatchingKeys c = fs.keys.filter (c.holds false ·)
  | .all => by simp [getMatchingKeys, holds]
  | .anyOfNames names => by simp [getMatchingKeys, holds]
  | .anyOfQubits qubits => by simp [getMatchingKeys, holds]
  | .exactQubits qubits => by simp [getMatchingKeys, holds]
  | .specific frame => by simp [getMatchingKeys, holds, Finset.filter_eq']
  | .and [] => by simp [getMatchingKeys, getMatchingKeysEach, holds]
  | .and (c :: cs) => by
      rw [getMatchingKeys, getMatchingKeysEachHolds (c :: cs), List.map_cons]
      exact (intersectFold fs false cs _).trans rfl
  | .or cs => by
      rw [getMatchingKeys, getMatchingKeysEachHolds cs, unionFold]
      rfl

theorem getMatchingKeysEachHolds : ∀ cs : List (FrameMatchCondition Q),
    fs.getMatchingKeysEach cs = cs.map fun c => fs.keys.filter (c.holds false ·)
  | [] => rfl
  | c :: cs => by rw [getMatchingKeysEach, getMatchingKeysHolds c, getMatchingKeysEachHolds cs, List.map_cons]

end

end Law

mutual

theorem holdsWithoutEmptyAnd : ∀ c : FrameMatchCondition Q, c.hasEmptyAnd = false →
    ∀ k, c.holds false k = c.holds true k
  | .and [], clean, _ => by simp [hasEmptyAnd] at clean
  | .and (c :: cs), clean, k => holdsAllWithoutEmptyAnd (c :: cs) clean k
  | .or cs, clean, k => holdsAnyWithoutEmptyAnd cs clean k
  | .all, _, _ => rfl
  | .anyOfNames _, _, _ => rfl
  | .anyOfQubits _, _, _ => rfl
  | .exactQubits _, _, _ => rfl
  | .specific _, _, _ => rfl

theorem holdsAllWithoutEmptyAnd : ∀ cs : List (FrameMatchCondition Q), anyHasEmptyAnd cs = false →
    ∀ k, holdsAll false cs k = holdsAll true cs k
  | [], _, _ => rfl
  | c :: cs, clean, k => by
      simp only [anyHasEmptyAnd, Bool.or_eq_false_iff] at clean
      simp only [holdsAll, holdsWithoutEmptyAnd c clean.1 k, holdsAllWithoutEmptyAnd cs clean.2 k]

theorem holdsAnyWithoutEmptyAnd : ∀ cs : List (FrameMatchCondition Q), anyHasEmptyAnd cs = false →
    ∀ k, holdsAny false cs k = holdsAny true cs k
  | [], _, _ => rfl
  | c :: cs, clean, k => by
      simp only [anyHasEmptyAnd, Bool.or_eq_false_iff] at clean
      simp only [holdsAny, holdsWithoutEmptyAnd c clean.1 k, holdsAnyWithoutEmptyAnd cs clean.2 k]

end

theorem getMatchingKeysLaw (fs : FrameSet Q A) (c : FrameMatchCondition Q) :
    fs.getMatchingKeys c = fs.keys.filter (c.holds false ·) ∧
      (c.hasEmptyAnd = false → fs.getMatchingKeys c = fs.keys.filter (c.holds true ·)) := by
  refine ⟨getMatchingKeysHolds fs c,fun clean => ?_⟩
  rw [getMatchingKeysHolds fs c]
  exact Finset.filter_congr fun k _ => by rw [holdsWithoutEmptyAnd c clean k]

end FrameSet
end QuilRs
