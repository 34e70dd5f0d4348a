import QuilRs.Graph.PathFold
/-! `gate_depth` and `multi_qubit_gate_depth`: the largest count of (multi-qubit) gates along
a root-to-leaf path. For a sequence in which no instruction repeats a qubit this is the
per-qubit scan `depthScan`, which is linear where the path fold is exponential. Where a root
leads to a cycle, neither metric returns. -/
namespace QuilRs

theorem leMaxD {l : List Nat} {x : Nat} (mem : x ∈ l) : x ≤ l.max?.getD 0 := by
  cases h : l.max? with
  | none => simp_all
  | some m => exact (List.max?_eq_some_iff'.mp h).2 x mem

theorem maxDLe {l : List Nat} {b : Nat} (bound : ∀ x ∈ l, x ≤ b) : l.max?.getD 0 ≤ b := by
  cases h : l.max? with
  | none => simp
  | some m => exact bound m (List.max?_eq_some_iff'.mp h).1

theorem maxDMem {l : List Nat} (nonempty : l ≠ []) : l.max?.getD 0 ∈ l := by
  cases h : l.max? with
  | none => simp_all
  | some m => exact (List.max?_eq_some_iff'.mp h).1

theorem maxDMapCongr {α : Type} {l : List α} {f g : α → Nat} (same : ∀ a ∈ l, f a = g a) :
    (l.map f).max?.getD 0 = (l.map g).max?.getD 0 := by
  rw [List.map_congr_left same]

theorem maxDEq {l l' : List Nat} (same : ∀ x, x ∈ l ↔ x ∈ l') : l.max?.getD 0 = l'.max?.getD 0 :=
  Nat.le_antisymm (maxDLe fun _ mem => leMaxD ((same _).mp mem)) (maxDLe fun _ mem => leMaxD ((same _).mpr mem))

namespace ExecutionGraph
variable {I Q : Type} (S : InstructionSet I Q)

/-- `if let Instruction::Gate(_) = instruction`. -/
def isGate (x : I) : Bool := (S.gateQubits x).isSome

/-- `if let Instruction::Gate(gate) = instruction { if gate.qubits.len() > 1 ... }`. -/
def isMultiQubitGate (x : I) : Bool :=
  match S.gateQubits x with
  | some qubits => decide (qubits.length > 1)
  | none => false

/-- The callback both metrics fold: one more when the instruction counts. -/
def depthStep (E : Type) (counts : I → Bool) (depth : Nat) (instruction : I) : Except E Nat :=
  .ok (if counts instruction then depth + 1 else depth)

/-- `path_lengths.into_iter().max().unwrap_or_default()` over the fold of `depthStep`; `none`
where the loop has not ended or where the `unreachable!` after an error would run. -/
def depthBy [Inhabited I] (E : Type) (counts : I → Bool) (g : ExecutionGraph I) : Option Nat :=
  match g.graph.pathFold 0 (depthStep E counts) with
  | some (.ok pathLengths) => some (pathLengths.max?.getD 0)
  | _ => none

def gateDepth [Inhabited I] (g : ExecutionGraph I) : Option Nat := depthBy Empty (isGate S) g

def multiQubitGateDepth [Inhabited I] (g : ExecutionGraph I) : Option Nat :=
  depthBy (Error I) (isMultiQubitGate S) g

theorem multiQubitGateIsGate (x : I) (multi : isMultiQubitGate S x = true) : isGate S x = true := by
  unfold isMultiQubitGate at multi
  unfold isGate
  split at multi <;> simp_all

theorem pathLengthsBelow [Inhabited I] (E : Type) (counts : I → Bool) {g : ExecutionGraph I} {depth : Nat}
    (metric : depthBy E counts g = some depth) {l : List Nat}
    (run : g.graph.pathFold 0 (depthStep E counts) = some (.ok l)) : ∀ x ∈ l, x ≤ depth := by
  simp only [depthBy, run, Option.some.injEq] at metric
  exact fun x mem => metric ▸ leMaxD mem

variable [DecidableEq Q]

/-- One step of the per-qubit scan: the instruction reaches `h`, the largest depth of
its qubits plus one when it counts; its qubits move to `h`, and the best depth so far grows. -/
def scanStep (counts : I → Bool) (state : (Q → Nat) × Nat) (x : I) : (Q → Nat) × Nat :=
  let h := ((S.getQubits x).map state.1).max?.getD 0 + if counts x then 1 else 0
  (fun q => if q ∈ S.getQubits x then h else state.1 q,max state.2 h)

def depthScan (counts : I → Bool) (s : List I) : Nat :=
  (s.foldl (scanStep S counts) (fun _ => 0,0)).2

def countsAt (counts : I → Bool) (s : List I) (k : Nat) : Nat :=
  if (s[k]?).any counts then 1 else 0

/-- The depth the scan gives the instruction at position `k`. -/
def height (counts : I → Bool) (s : List I) (k : Nat) : Nat :=
  ((qubitsAt S s k).map fun q =>
    match found : lastBelow S s q k with
    | some j => height counts s j
    | none => 0).max?.getD 0 + countsAt counts s k
termination_by k
decreasing_by exact lastBelowLt S found

/-- The depth qubit `q` carries into position `k`: the height of the last earlier position on it. -/
def carried (counts : I → Bool) (s : List I) (k : Nat) (q : Q) : Nat :=
  (lastBelow S s q k).elim 0 (height S counts s)

theorem heightEq (counts : I → Bool) (s : List I) (k : Nat) :
    height S counts s k = ((qubitsAt S s k).map (carried S counts s k)).max?.getD 0 + countsAt counts s k := by
  rw [height]
  refine congrArg (· + countsAt counts s k) (maxDMapCongr fun q _ => ?_)
  split <;> simp_all [carried]

theorem maxDSnoc (l : List Nat) (x : Nat) : (l ++ [x]).max?.getD 0 = max (l.max?.getD 0) x :=
  Nat.le_antisymm
    (maxDLe fun y mem => by
      rcases List.mem_append.mp mem with inside | last
      · exact le_max_of_le_left (leMaxD inside)
      · simp only [List.mem_singleton] at last; exact last ▸ le_max_right _ _)
    (max_le (maxDLe fun y mem => leMaxD (List.mem_append_left _ mem)) (leMaxD (by simp)))

theorem heightAppend (counts : I → Bool) {p : List I} (t : List I) :
    ∀ k, k < p.length → height S counts (p ++ t) k = height S counts p k := by
  intro k
  induction k using Nat.strong_induction_on with
  | _ k ih =>
    intro below
    rw [heightEq, heightEq, qubitsAtAppend S below]
    congr 1
    · refine maxDMapCongr fun q _ => ?_
      simp only [carried, lastBelowAppend S t q below.le]
      cases found : lastBelow S p q k with
      | none => rfl
      | some j => exact ih j (lastBelowLt S found) (by have := lastBelowLt S found; omega)
    · simp [countsAt, List.getElem?_append_left below]

theorem carriedSnoc (counts : I → Bool) (p : List I) (x : I) (q : Q) :
    carried S counts (p ++ [x]) (p.length + 1) q =
      if q ∈ S.getQubits x then height S counts (p ++ [x]) p.length else carried S counts p p.length q := by
  simp only [carried, lastBelow, lastBelowAppend S [x] q (le_refl p.length)]
  by_cases touch : q ∈ S.getQubits x
  · simp [touchesAt, touch]
  · simp only [touchesAt, List.getElem?_append_right (le_refl p.length), Nat.sub_self,
      List.getElem?_cons_zero, Option.any_some, touch, decide_False, Bool.false_eq_true, if_false]
    cases found : lastBelow S p q p.length with
    | none => rfl
    | some j => exact heightAppend S counts [x] j (lastBelowLt S found)

theorem heightSnoc (counts : I → Bool) (p : List I) (x : I) (state : Q → Nat)
    (carry : ∀ q, state q = carried S counts p p.length q) :
    height S counts (p ++ [x]) p.length = ((S.getQubits x).map state).max?.getD 0 + if counts x then 1 else 0 := by
  rw [heightEq]
  have qubits : qubitsAt S (p ++ [x]) p.length = S.getQubits x := by simp [qubitsAt]
  rw [qubits]
  congr 1
  · refine maxDMapCongr fun q _ => ?_
    rw [carry]
    simp only [carried, lastBelowAppend S [x] q (le_refl p.length)]
    cases found : lastBelow S p q p.length with
    | none => rfl
    | some j => exact heightAppend S counts [x] j (lastBelowLt S found)
  · simp [countsAt]

theorem scanFold (counts : I → Bool) : ∀ (s p : List I) (state : (Q → Nat) × Nat),
    (∀ q, state.1 q = carried S counts p p.length q) →
    state.2 = ((List.range p.length).map (height S counts p)).max?.getD 0 →
    (s.foldl (scanStep S counts) state).2 = ((List.range (p ++ s).length).map (height S counts (p ++ s))).max?.getD 0
  | [], p, state, _, best => by simpa using best
  | x :: xs, p, state, carry, best => by
      have step := heightSnoc S counts p x state.1 carry
      rw [List.foldl_cons, ← List.singleton_append, ← List.append_assoc]
      refine scanFold counts xs (p ++ [x]) _ (fun q => ?_) ?_
      · simp only [scanStep, List.length_append, List.length_singleton, carriedSnoc, carry, step]
      · simp only [scanStep, List.length_append, List.length_singleton, List.range_succ, List.map_append,
          List.map_singleton, maxDSnoc, step, best]
        congr 1
        exact maxDMapCongr fun k hk => (heightAppend S counts [x] k (List.mem_range.mp hk)).symm

theorem depthScanEq (counts : I → Bool) (s : List I) :
    depthScan S counts s = ((List.range s.length).map (height S counts s)).max?.getD 0 := by
  simpa using scanFold S counts s [] (fun _ => 0,0) (fun q => by simp [carried, lastBelow]) (by simp)

/-! ### The longest path of the built graph -/

/-- The graph `new` builds from `s` when no instruction repeats a qubit (`newGraph`). -/
def specDag (s : List I) : Dag I := ⟨⟨s,specEdges S s⟩,fun _ he => specEdgesForward S he⟩

theorem successorSpec {s : List I} {v u : Nat} :
    u ∈ (specDag S s).graph.neighborsOutgoing v ↔ ∃ q ∈ qubitsAt S s u, lastBelow S s q u = some v :=
  DiGraph.memNeighborsOutgoing.trans (memSpecEdges S)

theorem rootSpec {s : List I} {r : Nat} :
    r ∈ (specDag S s).graph.externalsIncoming ↔ r < s.length ∧ ∀ q ∈ qubitsAt S s r, lastBelow S s q r = none := by
  simp only [DiGraph.externalsIncoming, List.mem_filter, List.mem_range, List.all_eq_true, bne_iff_ne]
  refine and_congr (by rfl) ⟨fun none q hq => ?_,fun none e he same => ?_⟩
  · cases found : lastBelow S s q r with
    | none => rfl
    | some v => exact absurd rfl (none (v,r) ((memSpecEdges S).mpr ⟨q,hq,found⟩))
  · obtain ⟨v,u⟩ := e
    obtain ⟨q,hq,found⟩ := (memSpecEdges S).mp he
    cases same
    simp [none q hq] at found

theorem heightEdge (counts : I → Bool) {s : List I} {q : Q} {v u : Nat} (hq : q ∈ qubitsAt S s u)
    (found : lastBelow S s q u = some v) : height S counts s v + countsAt counts s u ≤ height S counts s u := by
  rw [heightEq S counts s u]
  have : height S counts s v ∈ (qubitsAt S s u).map (carried S counts s u) :=
    List.mem_map.mpr ⟨q,hq,by simp [carried, found]⟩
  have := leMaxD this
  omega

theorem heightRoot (counts : I → Bool) {s : List I} {r : Nat}
    (root : ∀ q ∈ qubitsAt S s r, lastBelow S s q r = none) : height S counts s r = countsAt counts s r := by
  rw [heightEq]
  have : ((qubitsAt S s r).map (carried S counts s r)).max?.getD 0 ≤ 0 :=
    maxDLe fun x mem => by
      obtain ⟨q,hq,rfl⟩ := List.mem_map.mp mem
      simp [carried, root q hq]
  omega

theorem heightFromPredecessor (counts : I → Bool) {s : List I} {u : Nat}
    (entered : ∃ q ∈ qubitsAt S s u, ∃ v, lastBelow S s q u = some v) :
    ∃ v, (∃ q ∈ qubitsAt S s u, lastBelow S s q u = some v) ∧
      height S counts s u ≤ height S counts s v + countsAt counts s u := by
  obtain ⟨q₀,hq₀,v₀,found₀⟩ := entered
  have nonempty : (qubitsAt S s u).map (carried S counts s u) ≠ [] := by simpa using List.ne_nil_of_mem hq₀
  obtain ⟨q,hq,top⟩ := List.mem_map.mp (maxDMem nonempty)
  rw [heightEq]
  cases found : lastBelow S s q u with
  | some v => exact ⟨v,⟨q,hq,found⟩,by simp [← top, carried, found]⟩
  | none => exact ⟨v₀,⟨q₀,hq₀,found₀⟩,by simp [← top, carried, found]⟩

section Paths
variable [Inhabited I]

/-- The number of counted instructions along a path of nodes. -/
def countAlong (counts : I → Bool) (g : DiGraph I) (path : List Nat) : Nat :=
  (path.map fun v => if counts (g.weight v) then 1 else 0).sum

theorem foldPathDepth (E : Type) (counts : I → Bool) (g : DiGraph I) :
    ∀ (acc : Nat) (path : List Nat), g.foldPath (depthStep E counts) acc path = .ok (acc + countAlong counts g path)
  | acc, [] => by simp [DiGraph.foldPath, countAlong, pure, Except.pure]
  | acc, v :: path => by
      rw [DiGraph.foldPathCons, depthStep]
      simp only [Except.bind, foldPathDepth E counts g _ path, countAlong, List.map_cons, List.sum_cons]
      split <;> simp [Nat.add_assoc, Nat.add_comm]

theorem countsAtWeight (counts : I → Bool) {s : List I} {v : Nat} (inside : v < s.length) :
    (if counts ((specDag S s).graph.weight v) then 1 else 0) = countsAt counts s v := by
  simp [specDag, DiGraph.weight, countsAt, List.getD_eq_getElem?_getD, List.getElem?_eq_getElem inside]

/-- The largest count along the paths from `v` to a leaf. -/
def down (counts : I → Bool) (s : List I) (v : Nat) : Nat :=
  (((specDag S s).pathsFrom v).map (countAlong counts (specDag S s).graph)).max?.getD 0

theorem downAttained (counts : I → Bool) (s : List I) (v : Nat) :
    ∃ p ∈ (specDag S s).pathsFrom v, down S counts s v = countAlong counts (specDag S s).graph p := by
  obtain ⟨p,hp⟩ := (specDag S s).pathsFromHead v
  obtain ⟨path,mem,top⟩ := List.mem_map.mp (maxDMem (l := ((specDag S s).pathsFrom v).map
    (countAlong counts (specDag S s).graph)) (List.ne_nil_of_mem (List.mem_map_of_mem _ hp)))
  exact ⟨path,mem,top.symm⟩

omit [Inhabited I] in
theorem memPathsFrom {s : List I} {v : Nat} {path : List Nat} :
    path ∈ (specDag S s).pathsFrom v ↔ ∃ p ∈ (specDag S s).frontierPaths ((specDag S s).graph.neighborsOutgoing v),
      path = v :: p := by
  rw [Dag.pathsFromEq]
  simp [eq_comm]

theorem downEdge (counts : I → Bool) {s : List I} {v u : Nat}
    (edge : u ∈ (specDag S s).graph.neighborsOutgoing v) :
    (if counts ((specDag S s).graph.weight v) then 1 else 0) + down S counts s u ≤ down S counts s v := by
  obtain ⟨p,hp,top⟩ := downAttained S counts s u
  have : v :: p ∈ (specDag S s).pathsFrom v :=
    (memPathsFrom S).mpr ⟨p,by simpa [Dag.frontierPaths, List.ne_nil_of_mem edge] using ⟨u,edge,hp⟩,rfl⟩
  have longest : countAlong counts (specDag S s).graph (v :: p) ≤ down S counts s v :=
    leMaxD (List.mem_map_of_mem _ this)
  simp only [countAlong, List.map_cons, List.sum_cons] at longest top
  omega

theorem downStep (counts : I → Bool) (s : List I) (v : Nat) :
    ((specDag S s).graph.neighborsOutgoing v = [] →
      down S counts s v = if counts ((specDag S s).graph.weight v) then 1 else 0) ∧
    ((specDag S s).graph.neighborsOutgoing v ≠ [] → ∃ u ∈ (specDag S s).graph.neighborsOutgoing v,
      down S counts s v ≤ (if counts ((specDag S s).graph.weight v) then 1 else 0) + down S counts s u) := by
  obtain ⟨path,hpath,top⟩ := downAttained S counts s v
  obtain ⟨p,hp,rfl⟩ := (memPathsFrom S).mp hpath
  simp only [countAlong, List.map_cons, List.sum_cons] at top
  constructor
  · intro leaf
    simp only [Dag.frontierPaths, leaf, if_true, List.mem_singleton] at hp
    simpa [hp] using top
  · intro branch
    simp only [Dag.frontierPaths, branch, if_false, List.mem_flatMap] at hp
    obtain ⟨u,hu,inner⟩ := hp
    refine ⟨u,hu,?_⟩
    have longest : countAlong counts (specDag S s).graph p ≤ down S counts s u :=
      leMaxD (List.mem_map_of_mem _ inner)
    unfold countAlong at longest
    omega

theorem countsLeDown (counts : I → Bool) (s : List I) (v : Nat) :
    (if counts ((specDag S s).graph.weight v) then 1 else 0) ≤ down S counts s v := by
  obtain ⟨p,hp⟩ := (specDag S s).pathsFromHead v
  have longest : countAlong counts (specDag S s).graph (v :: p) ≤ down S counts s v :=
    leMaxD (List.mem_map_of_mem _ hp)
  simp only [countAlong, List.map_cons, List.sum_cons] at longest
  omega

/- The longest path through `v` climbs to `v` from a root by the predecessor the height
came from, and leaves it by the successor the longest suffix goes to. -/
theorem reachFromRoot (counts : I → Bool) (s : List I) : ∀ v, v < s.length →
    ∃ r ∈ (specDag S s).graph.externalsIncoming,
      height S counts s v + down S counts s v ≤ down S counts s r + countsAt counts s v := by
  intro v
  induction v using Nat.strong_induction_on with
  | _ v ih =>
    intro inside
    by_cases entered : ∃ q ∈ qubitsAt S s v, ∃ w, lastBelow S s q v = some w
    · obtain ⟨u,⟨q,hq,found⟩,climb⟩ := heightFromPredecessor S counts entered
      have below := lastBelowLt S found
      obtain ⟨r,root,reach⟩ := ih u below (by omega)
      have edge := downEdge S counts ((successorSpec S).mpr ⟨q,hq,found⟩)
      rw [countsAtWeight S counts (by omega : u < s.length)] at edge
      exact ⟨r,root,by omega⟩
    · have none : ∀ q ∈ qubitsAt S s v, lastBelow S s q v = none := fun q hq => by
        cases found : lastBelow S s q v with
        | none => rfl
        | some w => exact absurd ⟨q,hq,w,found⟩ entered
      exact ⟨v,(rootSpec S).mpr ⟨inside,none⟩,by rw [heightRoot S counts none]; omega⟩

theorem throughLeaf (counts : I → Bool) (s : List I) (v : Nat) (inside : v < s.length) :
    height S counts s v + down S counts s v ≤
      ((List.range s.length).map (height S counts s)).max?.getD 0 + countsAt counts s v := by
  have top := leMaxD (List.mem_map_of_mem (height S counts s) (List.mem_range.mpr inside))
  obtain ⟨leaf,branch⟩ := downStep S counts s v
  rw [countsAtWeight S counts inside] at leaf branch
  by_cases ends : (specDag S s).graph.neighborsOutgoing v = []
  · rw [leaf ends]; omega
  · obtain ⟨u,hu,descend⟩ := branch ends
    obtain ⟨q,hq,found⟩ := (successorSpec S).mp hu
    have above : v < u ∧ u < s.length := (specDag S s).successorAbove hu
    have edge := heightEdge S counts hq found
    have := throughLeaf counts s u above.2
    omega
termination_by s.length - v

theorem longestPathEq (counts : I → Bool) (s : List I) :
    ((specDag S s).rootLeafPaths.map (countAlong counts (specDag S s).graph)).max?.getD 0 =
      ((List.range s.length).map (height S counts s)).max?.getD 0 := by
  rcases eq_or_ne s [] with rfl | nonempty
  · simp [Dag.rootLeafPaths, Dag.frontierPaths, DiGraph.externalsIncoming, specDag, countAlong]
  have paths := (specDag S s).rootLeafPathsOfNonempty nonempty
  apply Nat.le_antisymm
  · refine maxDLe fun x mem => ?_
    obtain ⟨p,hp,rfl⟩ := List.mem_map.mp mem
    rw [paths] at hp
    obtain ⟨r,hr,hp⟩ := List.mem_flatMap.mp hp
    have along : countAlong counts (specDag S s).graph p ≤ down S counts s r := leMaxD (List.mem_map_of_mem _ hp)
    obtain ⟨inside,none⟩ := (rootSpec S).mp hr
    have := throughLeaf S counts s r inside
    rw [heightRoot S counts none] at this
    omega
  · have ranged : (List.range s.length).map (height S counts s) ≠ [] := by simpa using nonempty
    obtain ⟨k,hk,top⟩ := List.mem_map.mp (maxDMem ranged)
    have inside := List.mem_range.mp hk
    obtain ⟨r,hr,reach⟩ := reachFromRoot S counts s k inside
    have least := countsLeDown S counts s k
    rw [countsAtWeight S counts inside] at least
    obtain ⟨p,hp,attained⟩ := downAttained S counts s r
    have mem : p ∈ (specDag S s).rootLeafPaths := by rw [paths]; exact List.mem_flatMap.mpr ⟨r,hr,hp⟩
    have := leMaxD (List.mem_map_of_mem (countAlong counts (specDag S s).graph) mem)
    omega

theorem depthByNew (E : Type) (counts : I → Bool) {s : List I} {g : ExecutionGraph I}
    (accepted : new S s = .ok g) (distinct : ∀ x ∈ s, (S.getQubits x).Nodup) :
    depthBy E counts g = some (depthScan S counts s) := by
  obtain ⟨graph⟩ := g
  have same : graph = (specDag S s).graph := newGraph S accepted distinct
  subst same
  obtain ⟨r,run,outcome⟩ := (specDag S s).pathFoldOutcome (depthStep E counts) 0
  have results : (specDag S s).rootLeafPaths.map ((specDag S s).graph.foldPath (depthStep E counts) 0) =
      ((specDag S s).rootLeafPaths.map (countAlong counts (specDag S s).graph)).map .ok := by
    simp [List.map_map, Function.comp_def, foldPathDepth]
  rw [results] at outcome
  cases r with
  | error e => simp [Dag.LoopOutcome] at outcome
  | ok l =>
      simp only [depthBy, run, depthScanEq, ← longestPathEq]
      refine congrArg some (maxDEq fun x => ?_)
      have := (outcome : (l.map Except.ok).Perm ([].map Except.ok ++ _)).mem_iff (a := (.ok x : Except E Nat))
      simpa using this

theorem depthsEqualScan {s : List I} {g : ExecutionGraph I} (accepted : new S s = .ok g)
    (distinct : ∀ x ∈ s, (S.getQubits x).Nodup) :
    gateDepth S g = some (depthScan S (isGate S) s) ∧
      multiQubitGateDepth S g = some (depthScan S (isMultiQubitGate S) s) :=
  ⟨depthByNew S Empty (isGate S) accepted distinct,depthByNew S (Error I) (isMultiQubitGate S) accepted distinct⟩

/- A diamond: `CNOT 0 1` fans out to `X 0` and `H 1`, which meet again at `CNOT 1 0`. -/
theorem depthsEqualScanDiamond :
    new SampleInstruction.instructionSet [.gate ("CNOT") [0,1],.gate ("X") [0],.gate ("H") [1],.gate ("CNOT") [1,0]] =
        .ok ⟨⟨[.gate ("CNOT") [0,1],.gate ("X") [0],.gate ("H") [1],.gate ("CNOT") [1,0]],[(0,1),(0,2),(2,3),(1,3)]⟩⟩ ∧
      (∀ x ∈ [SampleInstruction.gate ("CNOT") [0,1],.gate ("X") [0],.gate ("H") [1],.gate ("CNOT") [1,0]],
        (SampleInstruction.instructionSet.getQubits x).Nodup) ∧
      gateDepth SampleInstruction.instructionSet
          ⟨⟨[.gate ("CNOT") [0,1],.gate ("X") [0],.gate ("H") [1],.gate ("CNOT") [1,0]],[(0,1),(0,2),(2,3),(1,3)]⟩⟩ = some 3 ∧
      multiQubitGateDepth SampleInstruction.instructionSet
          ⟨⟨[.gate ("CNOT") [0,1],.gate ("X") [0],.gate ("H") [1],.gate ("CNOT") [1,0]],[(0,1),(0,2),(2,3),(1,3)]⟩⟩ = some 2 := by
  have accepted : new SampleInstruction.instructionSet
      [.gate ("CNOT") [0,1],.gate ("X") [0],.gate ("H") [1],.gate ("CNOT") [1,0]] =
        .ok ⟨⟨[.gate ("CNOT") [0,1],.gate ("X") [0],.gate ("H") [1],.gate ("CNOT") [1,0]],[(0,1),(0,2),(2,3),(1,3)]⟩⟩ := rfl
  have distinct : ∀ x ∈ [SampleInstruction.gate ("CNOT") [0,1],.gate ("X") [0],.gate ("H") [1],.gate ("CNOT") [1,0]],
      (SampleInstruction.instructionSet.getQubits x).Nodup := by decide
  obtain ⟨gate,multi⟩ := depthsEqualScan _ accepted distinct
  exact ⟨accepted,distinct,gate.trans (by decide),multi.trans (by decide)⟩

end Paths

/-! ### Bounds the scan keeps -/

theorem scanMonotone {counts counts' : I → Bool} (le : ∀ x, counts x = true → counts' x = true) :
    ∀ (s : List I) (state state' : (Q → Nat) × Nat), (∀ q, state.1 q ≤ state'.1 q) → state.2 ≤ state'.2 →
      (s.foldl (scanStep S counts) state).2 ≤ (s.foldl (scanStep S counts') state').2
  | [], _, _, _, best => best
  | x :: xs, state, state', pointwise, best => by
      have raise : ((S.getQubits x).map state.1).max?.getD 0 ≤ ((S.getQubits x).map state'.1).max?.getD 0 :=
        maxDLe fun y mem => by
          obtain ⟨q,hq,rfl⟩ := List.mem_map.mp mem
          exact (pointwise q).trans (leMaxD (List.mem_map_of_mem _ hq))
      have step : (if counts x then 1 else 0) ≤ if counts' x then 1 else 0 := by
        cases h : counts x <;> simp [le x, h]
      refine scanMonotone le xs _ _ (fun q => ?_) ?_ <;> simp only [scanStep]
      · split <;> [omega; exact pointwise q]
      · omega

def Dominated (state : (Q → Nat) × Nat) : Prop := ∀ q, state.1 q ≤ state.2

theorem scanStepReach (counts : I → Bool) (state : (Q → Nat) × Nat) (x : I) {q : Q} (hq : q ∈ S.getQubits x) :
    state.1 q + (if counts x then 1 else 0) ≤ (scanStep S counts state x).1 q := by
  simp only [scanStep, hq, if_true]
  have := leMaxD (List.mem_map_of_mem state.1 hq)
  omega

theorem scanStepDominated (counts : I → Bool) {state : (Q → Nat) × Nat} (held : Dominated state) (x : I) :
    Dominated (scanStep S counts state x) := fun q => by
  simp only [scanStep]
  split <;> [exact le_max_right _ _; exact (held q).trans (le_max_left _ _)]

theorem scanUpper (counts : I → Bool) :
    ∀ (s : List I) (state : (Q → Nat) × Nat) (bound : Nat), (∀ q, state.1 q ≤ bound) → state.2 ≤ bound →
      (s.foldl (scanStep S counts) state).2 ≤ bound + s.countP counts
  | [], _, _, _, best => best
  | x :: xs, state, bound, each, best => by
      have top : ((S.getQubits x).map state.1).max?.getD 0 ≤ bound :=
        maxDLe fun y mem => by obtain ⟨q,_,rfl⟩ := List.mem_map.mp mem; exact each q
      have := scanUpper counts xs (scanStep S counts state x) (bound + if counts x then 1 else 0)
        (fun q => by simp only [scanStep]; split <;> [omega; exact (each q).trans (Nat.le_add_right _ _)])
        (by simp only [scanStep]; omega)
      rw [List.foldl_cons, List.countP_cons]
      split <;> simp_all; omega

theorem scanLower (counts : I → Bool) (q : Q) :
    ∀ (s : List I) (state : (Q → Nat) × Nat), Dominated state →
      state.1 q + (s.filter fun x => counts x && decide (q ∈ S.getQubits x)).length ≤ (s.foldl (scanStep S counts) state).2
  | [], _, held => held q
  | x :: xs, state, held => by
      have rest := scanLower counts q xs _ (scanStepDominated S counts held x)
      rw [List.foldl_cons, List.filter_cons]
      by_cases hq : q ∈ S.getQubits x
      · have := scanStepReach S counts state x hq
        cases hc : counts x <;> simp_all <;> omega
      · have same : (scanStep S counts state x).1 q = state.1 q := by simp [scanStep, hq]
        simp_all

theorem scanBestGrows (counts : I → Bool) :
    ∀ (s : List I) (state : (Q → Nat) × Nat), state.2 ≤ (s.foldl (scanStep S counts) state).2
  | [], _ => le_refl _
  | x :: xs, state => (le_max_left _ _).trans (scanBestGrows counts xs (scanStep S counts state x))

theorem scanPositive (counts : I → Bool) :
    ∀ (s : List I) (state : (Q → Nat) × Nat), (∃ x ∈ s, counts x = true) → 1 ≤ (s.foldl (scanStep S counts) state).2
  | [], _, found => by simp at found
  | x :: xs, state, found => by
      rw [List.foldl_cons]
      by_cases hx : counts x = true
      · refine le_trans ?_ (scanBestGrows S counts xs _)
        simp only [scanStep, hx, if_true]
        omega
      · obtain ⟨y,hy,count⟩ := found
        rcases List.mem_cons.mp hy with rfl | inside
        · exact absurd count hx
        · exact scanPositive counts xs _ ⟨y,inside,count⟩

theorem scanMulti (counts counts' : I → Bool) (le : ∀ x, counts x = true → counts' x = true) (s : List I) :
    depthScan S counts s ≤ depthScan S counts' s :=
  scanMonotone S le s _ _ (fun _ => le_refl 0) (le_refl 0)

theorem depthScanBounds (counts : I → Bool) (s : List I) :
    depthScan S counts s ≤ s.countP counts ∧
      (∀ q, (s.filter fun x => counts x && decide (q ∈ S.getQubits x)).length ≤ depthScan S counts s) ∧
      (depthScan S counts s = 0 ↔ ∀ x ∈ s, counts x = false) := by
  have upper := scanUpper S counts s (fun _ => 0,0) 0 (fun _ => le_refl 0) (le_refl 0)
  refine ⟨by simpa using upper,fun q => by simpa using scanLower S counts q s (fun _ => 0,0) (fun _ => le_refl 0),
    ⟨fun zero x hx => ?_,fun none => ?_⟩⟩
  · by_contra count
    have := scanPositive S counts s (fun _ => 0,0) ⟨x,hx,by simpa using count⟩
    exact absurd zero (by unfold depthScan; omega)
  · have : s.countP counts = 0 := List.countP_eq_zero.mpr fun x hx => by simp [none x hx]
    unfold depthScan
    omega

theorem depthBounds [Inhabited I] {s : List I} {g : ExecutionGraph I} (accepted : new S s = .ok g)
    (distinct : ∀ x ∈ s, (S.getQubits x).Nodup) :
    ∃ depth multi, gateDepth S g = some depth ∧ multiQubitGateDepth S g = some multi ∧
      multi ≤ depth ∧ depth ≤ s.countP (isGate S) ∧
      (∀ q, (s.filter fun x => isGate S x && decide (q ∈ S.getQubits x)).length ≤ depth) ∧
      (depth = 0 ↔ ∀ x ∈ s, isGate S x = false) ∧
      (∀ l, g.graph.pathFold 0 (depthStep Empty (isGate S)) = some (.ok l) → ∀ x ∈ l, x ≤ s.length) ∧
      (∀ l, g.graph.pathFold 0 (depthStep (Error I) (isMultiQubitGate S)) = some (.ok l) → ∀ x ∈ l, x ≤ s.length) := by
  have gate := depthByNew S Empty (isGate S) accepted distinct
  have multi := depthByNew S (Error I) (isMultiQubitGate S) accepted distinct
  obtain ⟨upper,touching,zero⟩ := depthScanBounds S (isGate S) s
  have below := scanMulti S _ _ (multiQubitGateIsGate S) s
  have count := List.countP_le_length (isGate S) (l := s)
  refine ⟨_,_,gate,multi,below,upper,touching,zero,fun l run x mem => ?_,fun l run x mem => ?_⟩
  · have := pathLengthsBelow Empty (isGate S) gate run x mem
    omega
  · have := pathLengthsBelow (Error I) (isMultiQubitGate S) multi run x mem
    omega

theorem depthBoundsDiamond :
    new SampleInstruction.instructionSet [.gate ("CNOT") [0,1],.gate ("X") [0],.gate ("H") [1],.gate ("CNOT") [1,0]] =
        .ok ⟨⟨[.gate ("CNOT") [0,1],.gate ("X") [0],.gate ("H") [1],.gate ("CNOT") [1,0]],[(0,1),(0,2),(2,3),(1,3)]⟩⟩ ∧
      (∀ x ∈ [SampleInstruction.gate ("CNOT") [0,1],.gate ("X") [0],.gate ("H") [1],.gate ("CNOT") [1,0]],
        (SampleInstruction.instructionSet.getQubits x).Nodup) ∧
      ∃ depth multi, gateDepth SampleInstruction.instructionSet
          ⟨⟨[.gate ("CNOT") [0,1],.gate ("X") [0],.gate ("H") [1],.gate ("CNOT") [1,0]],[(0,1),(0,2),(2,3),(1,3)]⟩⟩ = some depth ∧
        multiQubitGateDepth SampleInstruction.instructionSet
          ⟨⟨[.gate ("CNOT") [0,1],.gate ("X") [0],.gate ("H") [1],.gate ("CNOT") [1,0]],[(0,1),(0,2),(2,3),(1,3)]⟩⟩ = some multi ∧
        multi ≤ depth ∧ depth ≤ 4 := by
  have accepted : new SampleInstruction.instructionSet
      [.gate ("CNOT") [0,1],.gate ("X") [0],.gate ("H") [1],.gate ("CNOT") [1,0]] =
        .ok ⟨⟨[.gate ("CNOT") [0,1],.gate ("X") [0],.gate ("H") [1],.gate ("CNOT") [1,0]],[(0,1),(0,2),(2,3),(1,3)]⟩⟩ := rfl
  have distinct : ∀ x ∈ [SampleInstruction.gate ("CNOT") [0,1],.gate ("X") [0],.gate ("H") [1],.gate ("CNOT") [1,0]],
      (SampleInstruction.instructionSet.getQubits x).Nodup := by decide
  obtain ⟨depth,multi,gate,multiGate,below,upper,-⟩ := depthBounds _ accepted distinct
  exact ⟨accepted,distinct,depth,multi,gate,multiGate,below,upper.trans (by decide)⟩

omit [DecidableEq Q] in
theorem depthsNeverEnd [Inhabited I] (g : ExecutionGraph I) {v : Nat} (root : v ∈ g.graph.externalsIncoming)
    (cycle : g.graph.ReachesCycle v) :
    (∀ fuel, g.graph.pathFoldLoop (depthStep Empty (isGate S)) fuel [(0,g.graph.externalsIncoming)] [] = none ∧
      g.graph.pathFoldLoop (depthStep (Error I) (isMultiQubitGate S)) fuel [(0,g.graph.externalsIncoming)] [] = none) ∧
      gateDepth S g = none ∧ multiQubitGateDepth S g = none := by
  have never (E : Type) (counts : I → Bool) (fuel : Nat) :
      g.graph.pathFoldLoop (depthStep E counts) fuel [(0,g.graph.externalsIncoming)] [] = none :=
    g.graph.pathFoldLoopEndless (depthStep E counts) (fun _ _ => ⟨_,rfl⟩) fuel _ []
      ⟨_,List.mem_singleton_self _,v,root,cycle⟩
  have stuck (E : Type) (counts : I → Bool) : depthBy E counts g = none := by
    simp [depthBy, DiGraph.pathFold, never]
  exact ⟨fun fuel => ⟨never _ _ fuel,never _ _ fuel⟩,stuck _ _,stuck _ _⟩

theorem depthsNeverEndSelfLoop :
    new SampleInstruction.instructionSet [.gate ("H") [0],.gate ("CNOT") [0,0]] =
        .ok ⟨⟨[.gate ("H") [0],.gate ("CNOT") [0,0]],[(0,1),(1,1)]⟩⟩ ∧
      gateDepth SampleInstruction.instructionSet ⟨⟨[.gate ("H") [0],.gate ("CNOT") [0,0]],[(0,1),(1,1)]⟩⟩ = none ∧
      multiQubitGateDepth SampleInstruction.instructionSet ⟨⟨[.gate ("H") [0],.gate ("CNOT") [0,0]],[(0,1),(1,1)]⟩⟩ = none := by
  let g : DiGraph SampleInstruction := ⟨[.gate ("H") [0],.gate ("CNOT") [0,0]],[(0,1),(1,1)]⟩
  have root : 0 ∈ g.externalsIncoming := by decide
  have cycle : g.ReachesCycle 0 := ⟨1,.single (by decide),.single (by decide)⟩
  exact ⟨rfl,(depthsNeverEnd _ ⟨g⟩ root cycle).2⟩

end ExecutionGraph
end QuilRs
