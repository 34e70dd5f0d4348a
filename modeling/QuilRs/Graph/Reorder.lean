import QuilRs.Graph.Depth
import Mathlib.Data.Fintype.Card
/-! Reordering a program without changing the order of any qubit's instructions: `new` builds
the same graph up to the renumbering of its nodes, so both depths are unchanged. The edge
between two positions is counted through `specEdges`, and the last earlier position on a qubit
moves with the renumbering. -/
namespace QuilRs.ExecutionGraph
variable {I Q : Type} (S : InstructionSet I Q)

/-- `s'` holds the instructions of `s`, the one at position `k` moved to `position k`, and the
instructions touching any one qubit keep their relative order. -/
structure Reordering (s s' : List I) where
  position : Fin s.length ≃ Fin s'.length
  get : ∀ k, s'.get (position k) = s.get k
  ordered : ∀ i k : Fin s.length, ∀ q ∈ S.getQubits (s.get i), q ∈ S.getQubits (s.get k) →
    (i < k ↔ position i < position k)

variable {S}

def Reordering.symm {s s' : List I} (r : Reordering S s s') : Reordering S s' s where
  position := r.position.symm
  get k := by rw [← r.get, Equiv.apply_symm_apply]
  ordered i k q hi hk := by
    have hi' : q ∈ S.getQubits (s.get (r.position.symm i)) := by rw [← r.get, Equiv.apply_symm_apply]; exact hi
    have hk' : q ∈ S.getQubits (s.get (r.position.symm k)) := by rw [← r.get, Equiv.apply_symm_apply]; exact hk
    rw [r.ordered _ _ q hi' hk', Equiv.apply_symm_apply, Equiv.apply_symm_apply]

theorem qubitsAtGet (s : List I) (k : Fin s.length) : qubitsAt S s k = S.getQubits (s.get k) := by
  simp [qubitsAt]

theorem countsAtGet (counts : I → Bool) (s : List I) (k : Fin s.length) :
    countsAt counts s k = if counts (s.get k) then 1 else 0 := by
  simp [countsAt]

variable [DecidableEq Q]

theorem touchesAtGet (s : List I) (k : Fin s.length) (q : Q) :
    touchesAt S s k q = decide (q ∈ S.getQubits (s.get k)) := by
  simp [touchesAt]

theorem touchesAtBeyond {s : List I} {m : Nat} (far : s.length ≤ m) (q : Q) : touchesAt S s m q = false := by
  simp [touchesAt, List.getElem?_eq_none far]

namespace Reordering
variable {s s' : List I} (r : Reordering S s s')

theorem touchesAtPosition (k : Fin s.length) (q : Q) : touchesAt S s' (r.position k) q = touchesAt S s k q := by
  rw [touchesAtGet, touchesAtGet, r.get]

omit [DecidableEq Q] in
theorem qubitsAtPosition (k : Fin s.length) : qubitsAt S s' (r.position k) = qubitsAt S s k := by
  rw [qubitsAtGet, qubitsAtGet, r.get]

omit [DecidableEq Q] in
theorem countsAtPosition (counts : I → Bool) (k : Fin s.length) :
    countsAt counts s' (r.position k) = countsAt counts s k := by
  rw [countsAtGet, countsAtGet, r.get]

theorem lastBelowPosition {j k : Fin s.length} {q : Q} (hq : q ∈ S.getQubits (s.get k))
    (found : lastBelow S s q k = some (j : Nat)) : lastBelow S s' q (r.position k) = some (r.position j : Nat) := by
  obtain ⟨below,touch,clear⟩ := (lastBelowSome S).mp found
  have hj : q ∈ S.getQubits (s.get j) := by simpa [touchesAtGet] using touch
  refine (lastBelowSome S).mpr ⟨(r.ordered j k q hj hq).mp below,by rw [touchesAtPosition]; exact touch,
    fun m above under => ?_⟩
  by_cases inside : m < s'.length
  · obtain ⟨n,back⟩ := r.position.surjective ⟨m,inside⟩
    obtain rfl : m = r.position n := by rw [back]
    rw [touchesAtPosition]
    by_contra touchN
    have hn : q ∈ S.getQubits (s.get n) := by simpa [touchesAtGet] using touchN
    have after : j < n := (r.ordered j n q hj hn).mpr above
    have before : n < k := (r.ordered n k q hn hq).mpr under
    exact touchN (clear n after before)
  · exact touchesAtBeyond (by omega) q

theorem carriedPosition (counts : I → Bool) {k : Fin s.length} {q : Q} (hq : q ∈ S.getQubits (s.get k))
    (earlier : ∀ j : Fin s.length, j < k → height S counts s' (r.position j) = height S counts s j) :
    carried S counts s' (r.position k) q = carried S counts s k q := by
  cases found : lastBelow S s q k with
  | some j =>
      have inside : j < s.length := by
        have := lastBelowLt S found
        omega
      rw [carried, carried, found, r.lastBelowPosition (j := ⟨j,inside⟩) hq found]
      exact earlier ⟨j,inside⟩ (lastBelowLt S found)
  | none =>
      cases found' : lastBelow S s' q (r.position k) with
      | none => simp [carried, found, found']
      | some m =>
          have inside : m < s'.length := by
            have := lastBelowLt S found'
            omega
          have back := r.symm.lastBelowPosition (j := ⟨m,inside⟩) (by rw [r.get]; exact hq) found'
          simp only [symm, Equiv.symm_apply_apply] at back
          simp [found] at back

theorem heightPosition (counts : I → Bool) (k : Fin s.length) :
    height S counts s' (r.position k) = height S counts s k := by
  obtain ⟨k,inside⟩ := k
  induction k using Nat.strong_induction_on with
  | _ k ih =>
    rw [heightEq, heightEq, r.qubitsAtPosition, r.countsAtPosition]
    refine congrArg (· + _) (maxDMapCongr fun q hq => ?_)
    rw [qubitsAtGet] at hq
    exact r.carriedPosition counts hq fun j below => ih j below j.2

include r in
theorem depthScanPosition (counts : I → Bool) : depthScan S counts s' = depthScan S counts s := by
  rw [depthScanEq, depthScanEq]
  refine maxDEq fun x => ⟨fun mem => ?_,fun mem => ?_⟩
  · obtain ⟨k,hk,rfl⟩ := List.mem_map.mp mem
    obtain ⟨j,back⟩ := r.position.surjective ⟨k,List.mem_range.mp hk⟩
    obtain rfl : k = r.position j := by rw [back]
    rw [r.heightPosition]
    exact List.mem_map_of_mem _ (List.mem_range.mpr j.2)
  · obtain ⟨k,hk,rfl⟩ := List.mem_map.mp mem
    rw [← r.heightPosition counts ⟨k,List.mem_range.mp hk⟩]
    exact List.mem_map_of_mem _ (List.mem_range.mpr (r.position _).2)

omit [DecidableEq Q] in
include r in
theorem distinctPosition (distinct : ∀ x ∈ s, (S.getQubits x).Nodup) : ∀ x ∈ s', (S.getQubits x).Nodup := by
  intro x mem
  obtain ⟨k,rfl⟩ := List.mem_iff_get.mp mem
  rw [← r.symm.get]
  exact distinct _ (List.get_mem _ _ _)

theorem countSpecEdgesPosition (i k : Fin s.length) :
    (specEdges S s').count ((r.position i : Nat),(r.position k : Nat)) = (specEdges S s).count ((i : Nat),(k : Nat)) := by
  rw [countSpecEdges, countSpecEdges, r.qubitsAtPosition]
  congr 1
  refine List.filter_congr fun q hq => ?_
  rw [qubitsAtGet] at hq
  refine decide_eq_decide.mpr ⟨fun found => ?_,fun found => r.lastBelowPosition hq found⟩
  have back := r.symm.lastBelowPosition (j := r.position i) (by rw [r.get]; exact hq) found
  simpa [symm] using back

end Reordering

theorem reorderKeepsGraph [Inhabited I] {s s' : List I} {g g' : ExecutionGraph I}
    (accepted : new S s = .ok g) (accepted' : new S s' = .ok g') (distinct : ∀ x ∈ s, (S.getQubits x).Nodup)
    (r : Reordering S s s') :
    g'.graph.nodes.length = g.graph.nodes.length ∧
      (∀ k, g'.graph.nodes[(r.position k : Nat)]? = g.graph.nodes[(k : Nat)]?) ∧
      (∀ i k, g'.graph.edges.count ((r.position i : Nat),(r.position k : Nat)) = g.graph.edges.count ((i : Nat),(k : Nat))) ∧
      gateDepth S g' = gateDepth S g ∧ multiQubitGateDepth S g' = multiQubitGateDepth S g := by
  have distinct' := r.distinctPosition distinct
  have graph := newGraph S accepted distinct
  have graph' := newGraph S accepted' distinct'
  refine ⟨?_,fun k => ?_,fun i k => ?_,?_,?_⟩
  · have lengths : s.length = s'.length := by simpa using Fintype.card_congr r.position
    simp [graph, graph', lengths]
  · simp only [graph, graph', List.getElem?_eq_getElem (r.position k).2, List.getElem?_eq_getElem k.2]
    exact congrArg some (r.get k)
  · rw [graph, graph']
    exact r.countSpecEdgesPosition i k
  · rw [gateDepth, gateDepth, depthByNew S _ _ accepted distinct, depthByNew S _ _ accepted' distinct',
      r.depthScanPosition]
  · rw [multiQubitGateDepth, multiQubitGateDepth, depthByNew S _ _ accepted distinct,
      depthByNew S _ _ accepted' distinct', r.depthScanPosition]

/- `X 0` and `H 1` touch different qubits and trade places; `CNOT 0 1` then takes its edges
from the other position of each. -/
theorem reorderKeepsGraphSwap :
    new SampleInstruction.instructionSet [.gate ("X") [0],.gate ("H") [1],.gate ("CNOT") [0,1]] =
        .ok ⟨⟨[.gate ("X") [0],.gate ("H") [1],.gate ("CNOT") [0,1]],[(0,2),(1,2)]⟩⟩ ∧
      new SampleInstruction.instructionSet [.gate ("H") [1],.gate ("X") [0],.gate ("CNOT") [0,1]] =
        .ok ⟨⟨[.gate ("H") [1],.gate ("X") [0],.gate ("CNOT") [0,1]],[(1,2),(0,2)]⟩⟩ ∧
      (∀ x ∈ [SampleInstruction.gate ("X") [0],.gate ("H") [1],.gate ("CNOT") [0,1]],
        (SampleInstruction.instructionSet.getQubits x).Nodup) ∧
      Nonempty (Reordering SampleInstruction.instructionSet
        [.gate ("X") [0],.gate ("H") [1],.gate ("CNOT") [0,1]] [.gate ("H") [1],.gate ("X") [0],.gate ("CNOT") [0,1]]) ∧
      gateDepth SampleInstruction.instructionSet
          ⟨⟨[.gate ("H") [1],.gate ("X") [0],.gate ("CNOT") [0,1]],[(1,2),(0,2)]⟩⟩ =
        gateDepth SampleInstruction.instructionSet
          ⟨⟨[.gate ("X") [0],.gate ("H") [1],.gate ("CNOT") [0,1]],[(0,2),(1,2)]⟩⟩ := by
  have accepted : new SampleInstruction.instructionSet [.gate ("X") [0],.gate ("H") [1],.gate ("CNOT") [0,1]] =
      .ok ⟨⟨[.gate ("X") [0],.gate ("H") [1],.gate ("CNOT") [0,1]],[(0,2),(1,2)]⟩⟩ := rfl
  have accepted' : new SampleInstruction.instructionSet [.gate ("H") [1],.gate ("X") [0],.gate ("CNOT") [0,1]] =
      .ok ⟨⟨[.gate ("H") [1],.gate ("X") [0],.gate ("CNOT") [0,1]],[(1,2),(0,2)]⟩⟩ := rfl
  have distinct : ∀ x ∈ [SampleInstruction.gate ("X") [0],.gate ("H") [1],.gate ("CNOT") [0,1]],
      (SampleInstruction.instructionSet.getQubits x).Nodup := by decide
  let r : Reordering SampleInstruction.instructionSet [.gate ("X") [0],.gate ("H") [1],.gate ("CNOT") [0,1]]
      [.gate ("H") [1],.gate ("X") [0],.gate ("CNOT") [0,1]] := ⟨Equiv.swap ⟨0,by decide⟩ ⟨1,by decide⟩,by decide,by decide⟩
  exact ⟨accepted,accepted',distinct,⟨r⟩,(reorderKeepsGraph accepted accepted' distinct r).2.2.2.1⟩

end QuilRs.ExecutionGraph
