import QuilRs.Graph.PathFold
/-! Last-writer linking against its design (`ExecutionGraph::new`): every two instructions on a
common qubit stay ordered by a path, but the edges are not always their own transitive
reduction. An instruction whose qubits share a last writer gets parallel edges, and one whose
last writers lead one to another gets an edge beside a longer path. Where no instruction
repeats a qubit, these are the only redundant edges. -/
namespace QuilRs

namespace DiGraph
variable {N : Type}

/-- No edge `u → v` has another path beside it: neither a second edge `u → v` nor a path
through a further node. -/
def TransitivelyReduced (g : DiGraph N) : Prop :=
  ∀ u v, (u,v) ∈ g.edges →
    g.edges.count (u,v) = 1 ∧ ∀ w, ¬(Relation.TransGen g.Edge u w ∧ Relation.TransGen g.Edge w v)

theorem Forward.transGenLt {g : DiGraph N} (forward : g.Forward) {u w : Nat}
    (path : Relation.TransGen g.Edge u w) : u < w := by
  induction path with
  | single edge => exact (forward _ edge).1
  | tail _ edge ih => exact ih.trans (forward _ edge).1

end DiGraph

theorem twoLeLength {α : Type} [DecidableEq α] {l : List α} {a b : α} (ha : a ∈ l) (hb : b ∈ l) (ne : a ≠ b) :
    2 ≤ l.length := by
  have rest : b ∈ l.erase a := (List.mem_erase_of_ne (Ne.symm ne)).mpr hb
  have := List.length_pos_of_mem rest
  rw [List.length_erase_of_mem ha] at this
  omega

theorem lengthOfOnly {α : Type} {l : List α} {a : α} (nodup : l.Nodup) (member : a ∈ l)
    (only : ∀ b ∈ l, b = a) : l.length = 1 := by
  have := List.nodup_replicate.mp (List.eq_replicate_iff.mpr ⟨rfl,only⟩ ▸ nodup)
  have := List.length_pos_of_mem member
  omega

namespace ExecutionGraph
variable {I Q : Type} [DecidableEq Q] (S : InstructionSet I Q)

/- `CNOT 0 1; X 0; CNOT 0 1`: the second `CNOT` is linked to the first through qubit 1 and,
through `X 0`, by qubit 0. `CNOT 0 1; CNOT 0 1`: both qubits link the same two nodes. -/
theorem newKeepsRedundantEdges :
    new SampleInstruction.instructionSet [.gate ("CNOT") [0,1],.gate ("X") [0],.gate ("CNOT") [0,1]] =
        .ok ⟨⟨[.gate ("CNOT") [0,1],.gate ("X") [0],.gate ("CNOT") [0,1]],[(0,1),(1,2),(0,2)]⟩⟩ ∧
      ¬(⟨[.gate ("CNOT") [0,1],.gate ("X") [0],.gate ("CNOT") [0,1]],[(0,1),(1,2),(0,2)]⟩ :
        DiGraph SampleInstruction).TransitivelyReduced ∧
      new SampleInstruction.instructionSet [.gate ("CNOT") [0,1],.gate ("CNOT") [0,1]] =
        .ok ⟨⟨[.gate ("CNOT") [0,1],.gate ("CNOT") [0,1]],[(0,1),(0,1)]⟩⟩ ∧
      ¬(⟨[.gate ("CNOT") [0,1],.gate ("CNOT") [0,1]],[(0,1),(0,1)]⟩ :
        DiGraph SampleInstruction).TransitivelyReduced :=
  ⟨rfl,fun reduced => (reduced 0 2 (by decide)).2 1 ⟨.single (by decide),.single (by decide)⟩,
    rfl,fun reduced => absurd (reduced 0 1 (by decide)).1 (by decide)⟩

omit [DecidableEq Q] in
theorem qubitsAtNodup {s : List I} (distinct : ∀ x ∈ s, (S.getQubits x).Nodup) (k : Nat) :
    (qubitsAt S s k).Nodup := by
  unfold qubitsAt
  cases h : s[k]? with
  | none => exact List.nodup_nil
  | some x => exact distinct x (List.mem_iff_getElem?.mpr ⟨k,h⟩)

theorem specEdge {s : List I} {i k : Nat} :
    (⟨s,specEdges S s⟩ : DiGraph I).Edge i k ↔ ∃ q ∈ qubitsAt S s k, lastBelow S s q k = some i :=
  memSpecEdges S

theorem touchesAtIff {s : List I} {k : Nat} {q : Q} : touchesAt S s k q = true ↔ q ∈ qubitsAt S s k := by
  unfold touchesAt qubitsAt
  cases s[k]? <;> simp

theorem lastBelowAbove {s : List I} {q : Q} {i : Nat} (touch : touchesAt S s i q = true) :
    ∀ k, i < k → ∃ j, lastBelow S s q k = some j ∧ i ≤ j
  | 0, below => absurd below (Nat.not_lt_zero i)
  | k+1, below => by
      rw [lastBelow]
      split <;> rename_i here
      · exact ⟨k,rfl,by omega⟩
      · have : i ≠ k := by rintro rfl; simp [touch] at here
        exact lastBelowAbove touch k (by omega)

theorem newOrdersSharedQubits {s : List I} {g : ExecutionGraph I} (accepted : new S s = .ok g)
    (distinct : ∀ x ∈ s, (S.getQubits x).Nodup) {q : Q} {i k : Nat} (before : i < k)
    (first : q ∈ qubitsAt S s i) (second : q ∈ qubitsAt S s k) : Relation.TransGen g.graph.Edge i k := by
  rw [newGraph S accepted distinct]
  induction k using Nat.strong_induction_on with
  | _ k ih =>
      obtain ⟨j,last,above⟩ := lastBelowAbove S ((touchesAtIff S).mpr first) k before
      have edge := (specEdge S).mpr ⟨q,second,last⟩
      rcases Nat.eq_or_lt_of_le above with rfl | below
      · exact .single edge
      · have touch := ((lastBelowSome S).mp last).2.1
        exact .tail (ih j (lastBelowLt S last) below ((touchesAtIff S).mp touch)) edge

theorem newReducedIff {s : List I} {g : ExecutionGraph I} (accepted : new S s = .ok g)
    (distinct : ∀ x ∈ s, (S.getQubits x).Nodup) :
    g.graph.TransitivelyReduced ↔ ∀ k, ∀ q ∈ qubitsAt S s k, ∀ q' ∈ qubitsAt S s k, q ≠ q' →
      ∀ i j, lastBelow S s q k = some i → lastBelow S s q' k = some j →
        i ≠ j ∧ ¬Relation.TransGen g.graph.Edge i j := by
  have forward : (⟨s,specEdges S s⟩ : DiGraph I).Forward := fun _ he => specEdgesForward S he
  rw [newGraph S accepted distinct]
  constructor
  · intro reduced k q hq q' hq' ne i j hi hj
    obtain ⟨once,noDetour⟩ := reduced i k ((specEdge S).mpr ⟨q,hq,hi⟩)
    refine ⟨fun same => ?_,fun path => noDetour j ⟨path,.single ((specEdge S).mpr ⟨q',hq',hj⟩)⟩⟩
    subst same
    have two := twoLeLength (List.mem_filter (p := fun q => decide (lastBelow S s q k = some i)) |>.mpr
      ⟨hq,decide_eq_true hi⟩) (List.mem_filter.mpr ⟨hq',decide_eq_true hj⟩) ne
    rw [countSpecEdges] at once
    omega
  · intro writers u v edge
    obtain ⟨q,hq,hu⟩ := (specEdge S).mp edge
    refine ⟨?_,fun w ⟨first,rest⟩ => ?_⟩
    · rw [countSpecEdges]
      refine lengthOfOnly ((qubitsAtNodup S distinct v).filter _)
        (List.mem_filter.mpr ⟨hq,decide_eq_true hu⟩) fun q' found => ?_
      obtain ⟨hq',hu'⟩ := List.mem_filter.mp found
      by_contra ne
      exact (writers v q' hq' q hq ne u u (of_decide_eq_true hu') hu).1 rfl
    · obtain ⟨j,reach,last⟩ := Relation.TransGen.tail'_iff.mp rest
      have path := first.trans_left reach
      obtain ⟨q',hq',hj⟩ := (specEdge S).mp last
      by_cases same : q = q'
      · subst same
        rw [hu] at hj
        cases hj
        exact absurd (forward.transGenLt path) (Nat.lt_irrefl u)
      · exact (writers v q hq q' hq' same u j hu hj).2 path

theorem newLastWriterEdges {s : List I} {g : ExecutionGraph I} (accepted : new S s = .ok g)
    (distinct : ∀ x ∈ s, (S.getQubits x).Nodup) :
    (∀ q i k, i < k → q ∈ qubitsAt S s i → q ∈ qubitsAt S s k → Relation.TransGen g.graph.Edge i k) ∧
      (g.graph.TransitivelyReduced ↔ ∀ k, ∀ q ∈ qubitsAt S s k, ∀ q' ∈ qubitsAt S s k, q ≠ q' →
        ∀ i j, lastBelow S s q k = some i → lastBelow S s q' k = some j →
          i ≠ j ∧ ¬Relation.TransGen g.graph.Edge i j) :=
  ⟨fun _ _ _ before first second => newOrdersSharedQubits S accepted distinct before first second,
    newReducedIff S accepted distinct⟩

/- `X 0; H 1; CNOT 0 1`: the `CNOT` follows `X 0` on qubit 0, and its two last writers are
different nodes, neither leading to the other. -/
theorem newLastWriterEdgesSwap :
    new SampleInstruction.instructionSet [.gate ("X") [0],.gate ("H") [1],.gate ("CNOT") [0,1]] =
        .ok ⟨⟨[.gate ("X") [0],.gate ("H") [1],.gate ("CNOT") [0,1]],[(0,2),(1,2)]⟩⟩ ∧
      (∀ x ∈ [SampleInstruction.gate ("X") [0],.gate ("H") [1],.gate ("CNOT") [0,1]],
        (SampleInstruction.instructionSet.getQubits x).Nodup) ∧
      Relation.TransGen (⟨[.gate ("X") [0],.gate ("H") [1],.gate ("CNOT") [0,1]],[(0,2),(1,2)]⟩ :
        DiGraph SampleInstruction).Edge 0 2 ∧
      (⟨[.gate ("X") [0],.gate ("H") [1],.gate ("CNOT") [0,1]],[(0,2),(1,2)]⟩ :
        DiGraph SampleInstruction).TransitivelyReduced := by
  have accepted : new SampleInstruction.instructionSet [.gate ("X") [0],.gate ("H") [1],.gate ("CNOT") [0,1]] =
      .ok ⟨⟨[.gate ("X") [0],.gate ("H") [1],.gate ("CNOT") [0,1]],[(0,2),(1,2)]⟩⟩ := rfl
  have distinct : ∀ x ∈ [SampleInstruction.gate ("X") [0],.gate ("H") [1],.gate ("CNOT") [0,1]],
      (SampleInstruction.instructionSet.getQubits x).Nodup := by decide
  have edges := newLastWriterEdges _ accepted distinct
  refine ⟨accepted,distinct,edges.1 0 0 2 (by decide) (by decide) (by decide),edges.2.mpr ?_⟩
  have intoTwo : ∀ i j, Relation.TransGen (⟨[.gate ("X") [0],.gate ("H") [1],.gate ("CNOT") [0,1]],
      [(0,2),(1,2)]⟩ : DiGraph SampleInstruction).Edge i j → j = 2 := fun i j path => by
    obtain ⟨b,-,edge⟩ := Relation.TransGen.tail'_iff.mp path
    simp only [DiGraph.Edge, List.mem_cons, Prod.mk.injEq, List.mem_nil_iff, or_false] at edge
    omega
  intro k q hq q' hq' ne i j hi hj
  match k, hq, hq' with
  | 0, _, _ => simp [lastBelow] at hi
  | 1, hq, hq' =>
      simp [qubitsAt, SampleInstruction.instructionSet, SampleInstruction.getQubits] at hq hq'
      exact absurd (hq.trans hq'.symm) ne
  | 2, hq, hq' =>
      simp [qubitsAt, SampleInstruction.instructionSet, SampleInstruction.getQubits] at hq hq'
      rcases hq with rfl | rfl <;> rcases hq' with rfl | rfl <;> first | exact absurd rfl ne |
        (cases hi; cases hj; exact ⟨by decide,fun path => absurd (intoTwo _ _ path) (by decide)⟩)
  | k+3, hq, _ => simp [qubitsAt] at hq

end ExecutionGraph
end QuilRs
