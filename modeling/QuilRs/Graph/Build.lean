import Mathlib.Data.List.Basic
import Mathlib.Data.List.Count
/-! `ExecutionGraph::new` (quil-rs/src/stats/execution_graph.rs) over a model of petgraph's
`DiGraph`. `Instruction`, `get_qubits` and the default `InstructionHandler` are outside the
sources and enter through `InstructionSet`. Established here: what `new` rejects and which
instruction it reports, and the exact node and edge lists of an accepted graph. -/
namespace QuilRs

/-- `petgraph::graph::DiGraph<N, ()>`: node weights in index order, edges in insertion order. -/
structure DiGraph (N : Type) where
  nodes : List N
  edges : List (Nat × Nat)
  deriving DecidableEq, Repr

namespace DiGraph
variable {N : Type}

def empty : DiGraph N := ⟨[],[]⟩

/-- `add_node`: the index of the new node and the grown graph. -/
def addNode (g : DiGraph N) (weight : N) : Nat × DiGraph N :=
  (g.nodes.length,⟨g.nodes ++ [weight],g.edges⟩)

def addEdge (g : DiGraph N) (a b : Nat) : DiGraph N := ⟨g.nodes,g.edges ++ [(a,b)]⟩

/-- `externals(Direction::Incoming)`: the nodes no edge enters, in index order. -/
def externalsIncoming (g : DiGraph N) : List Nat :=
  (List.range g.nodes.length).filter fun v => g.edges.all fun e => e.2 != v

/-- `neighbors_directed(v, Direction::Outgoing)`: one target per outgoing edge, the most
recently added edge first. -/
def neighborsOutgoing (g : DiGraph N) (v : Nat) : List Nat :=
  ((g.edges.filter fun e => e.1 == v).map Prod.snd).reverse

/-- `graph[node]`. -/
def weight [Inhabited N] (g : DiGraph N) (v : Nat) : N := g.nodes.getD v default

end DiGraph

inductive InstructionRole
  | classicalCompute | controlFlow | programComposition | rfControl
  deriving DecidableEq, Repr

/-- What `ExecutionGraph` reads of an instruction: its role under the default handler, its
qubits, and the variants the code matches on (`Pragma`, the three jumps, `Gate` with its qubits). -/
structure InstructionSet (I Q : Type) where
  roleForInstruction : I → InstructionRole
  getQubits : I → List Q
  isPragma : I → Bool
  isJump : I → Bool
  gateQubits : I → Option (List Q)

inductive Error (I : Type)
  | unsupportedInstruction (instruction : I)
  deriving DecidableEq, Repr

structure ExecutionGraph (I : Type) where
  graph : DiGraph I
  deriving DecidableEq, Repr

/-- The loop state of `new`: `last_instruction_for_qubit` and `graph`. -/
structure Builder (I Q : Type) where
  lastInstructionForQubit : Q → Option Nat
  graph : DiGraph I

namespace ExecutionGraph
variable {I Q : Type} [DecidableEq Q] (S : InstructionSet I Q)

/-- The role check that opens each iteration of `new`. -/
def roleCheck (instruction : I) : Except (Error I) Unit :=
  match S.roleForInstruction instruction with
  | .classicalCompute =>
      if S.isPragma instruction then .error (.unsupportedInstruction instruction) else .ok ()
  | .controlFlow =>
      if S.isJump instruction then .error (.unsupportedInstruction instruction) else .ok ()
  | .programComposition => .ok ()
  | .rfControl => .error (.unsupportedInstruction instruction)

/-- One pass of `for qubit in qubits`: `insert(qubit, node)` hands back the qubit's previous
node, and an edge from it to `node` is added. -/
def linkQubit (node : Nat) (b : Builder I Q) (qubit : Q) : Builder I Q :=
  let table := fun q => if q = qubit then some node else b.lastInstructionForQubit q
  match b.lastInstructionForQubit qubit with
  | some lastInstruction => ⟨table,b.graph.addEdge lastInstruction node⟩
  | none => ⟨table,b.graph⟩

/-- The body of the loop of `new` after the role check. -/
def insertNode (b : Builder I Q) (instruction : I) : Builder I Q :=
  let (node,graph) := b.graph.addNode instruction
  (S.getQubits instruction).foldl (linkQubit node) ⟨b.lastInstructionForQubit,graph⟩

def addInstruction (b : Builder I Q) (instruction : I) : Except (Error I) (Builder I Q) := do
  roleCheck S instruction
  pure (insertNode S b instruction)

def new (instructions : List I) : Except (Error I) (ExecutionGraph I) := do
  let b ← instructions.foldlM (addInstruction S) ⟨fun _ => none,DiGraph.empty⟩
  pure ⟨b.graph⟩

end ExecutionGraph

/-- Modelled from the spec: a few `Instruction` variants with the roles the default handler
gives them (gates ProgramComposition, PRAGMA ClassicalCompute, JUMP and HALT ControlFlow,
PULSE RFControl) and fixed qubits as numbers. -/
inductive SampleInstruction
  | gate (name : String) (qubits : List Nat)
  | pragma (name : String)
  | jump (target : String)
  | halt
  | pulse (qubit : Nat)
  deriving DecidableEq, Repr, Inhabited

namespace SampleInstruction

def roleForInstruction : SampleInstruction → InstructionRole
  | gate .. => .programComposition
  | pragma _ => .classicalCompute
  | jump _ | halt => .controlFlow
  | pulse _ => .rfControl

def getQubits : SampleInstruction → List Nat
  | gate _ qubits => qubits
  | pulse qubit => [qubit]
  | _ => []

def instructionSet : InstructionSet SampleInstruction Nat where
  roleForInstruction := roleForInstruction
  getQubits := getQubits
  isPragma | pragma _ => true | _ => false
  isJump | jump _ => true | _ => false
  gateQubits | gate _ qubits => some qubits | _ => none

end SampleInstruction

/- `CNOT 0 0` lists qubit 0 twice: the second `insert` hands back the new node itself, and
the graph gets a self-loop. -/
theorem repeatedQubitSelfLoop :
    ExecutionGraph.new SampleInstruction.instructionSet [.gate ("CNOT") [0,0]] =
      .ok ⟨⟨[.gate ("CNOT") [0,0]],[(0,0)]⟩⟩ :=
  rfl

end QuilRs

namespace QuilRs.ExecutionGraph
variable {I Q : Type} (S : InstructionSet I Q)

/-! ### What `new` accepts -/

/-- The instructions the design rejects: a PRAGMA classified ClassicalCompute, a
JUMP, JUMP-WHEN or JUMP-UNLESS, and anything classified RFControl. -/
def Unsupported (x : I) : Prop :=
  (S.isPragma x = true ∧ S.roleForInstruction x = .classicalCompute) ∨ S.isJump x = true ∨
    S.roleForInstruction x = .rfControl

theorem roleCheckCases (x : I) : roleCheck S x = .ok () ∨ roleCheck S x = .error (.unsupportedInstruction x) := by
  unfold roleCheck
  split <;> (try split) <;> simp

section Jumps
variable {S} (jumps : ∀ x, S.isJump x = true → S.roleForInstruction x = .controlFlow)
include jumps

theorem roleCheckError (x : I) : roleCheck S x = .error (.unsupportedInstruction x) ↔ Unsupported S x := by
  have role := jumps x
  unfold roleCheck Unsupported
  cases h : S.roleForInstruction x <;> cases hp : S.isPragma x <;> cases hj : S.isJump x <;> simp_all

theorem roleCheckOk (x : I) : roleCheck S x = .ok () ↔ ¬ Unsupported S x := by
  rw [← roleCheckError jumps]
  rcases roleCheckCases S x with h | h <;> simp [h]

end Jumps

variable [DecidableEq Q]

theorem insertNodeNodes (b : Builder I Q) (x : I) :
    (insertNode S b x).graph.nodes = b.graph.nodes ++ [x] := by
  suffices ∀ (qs : List Q) (node : Nat) (b : Builder I Q),
      (qs.foldl (linkQubit node) b).graph.nodes = b.graph.nodes by
    simp [insertNode, DiGraph.addNode, this]
  intro qs node
  induction qs with
  | nil => simp
  | cons q qs ih =>
      intro b
      simp only [List.foldl_cons, ih, linkQubit]
      split <;> rfl

theorem buildConsOk {b : Builder I Q} {x : I} (xs : List I) (h : roleCheck S x = .ok ()) :
    (x :: xs).foldlM (addInstruction S) b = xs.foldlM (addInstruction S) (insertNode S b x) := by
  simp [addInstruction, h, bind, Except.bind, pure, Except.pure]

theorem buildConsError {b : Builder I Q} {x : I} (xs : List I) {e : Error I} (h : roleCheck S x = .error e) :
    (x :: xs).foldlM (addInstruction S) b = .error e := by
  simp [addInstruction, h, bind, Except.bind]

theorem buildNodes {b b' : Builder I Q} {s : List I} (ok : s.foldlM (addInstruction S) b = .ok b') :
    b'.graph.nodes = b.graph.nodes ++ s := by
  induction s generalizing b with
  | nil => cases ok; simp
  | cons x xs ih =>
      rcases roleCheckCases S x with h | h
      · rw [buildConsOk S xs h] at ok
        simp [ih ok, insertNodeNodes]
      · rw [buildConsError S xs h] at ok
        cases ok

theorem buildRejects {b : Builder I Q} {s : List I} (x : I) :
    s.foldlM (addInstruction S) b = .error (.unsupportedInstruction x) ↔
      ∃ pre post, s = pre ++ x :: post ∧ roleCheck S x = .error (.unsupportedInstruction x) ∧
        ∀ y ∈ pre, roleCheck S y = .ok () := by
  induction s generalizing b with
  | nil => simp [pure, Except.pure]
  | cons y ys ih =>
      rcases roleCheckCases S y with h | h
      · rw [buildConsOk S ys h, ih]
        constructor
        · rintro ⟨pre,post,rfl,bad,good⟩
          exact ⟨y :: pre,post,rfl,bad,by simpa [h] using good⟩
        · rintro ⟨_ | ⟨z,pre⟩,post,same,bad,good⟩
          · cases same; simp [h] at bad
          · cases same
            exact ⟨pre,post,rfl,bad,fun w hw => good w (by simp [hw])⟩
      · rw [buildConsError S ys h, Except.error.injEq, Error.unsupportedInstruction.injEq]
        constructor
        · rintro rfl
          exact ⟨[],ys,rfl,h,by simp⟩
        · rintro ⟨_ | ⟨z,pre⟩,post,same,bad,good⟩
          · cases same; rfl
          · cases same; simp [h] at good

theorem buildAccepts {b : Builder I Q} {s : List I} (good : ∀ y ∈ s, roleCheck S y = .ok ()) :
    ∃ b', s.foldlM (addInstruction S) b = .ok b' := by
  induction s generalizing b with
  | nil => exact ⟨b,rfl⟩
  | cons y ys ih =>
      rw [buildConsOk S ys (good y (by simp))]
      exact ih fun z hz => good z (by simp [hz])

theorem newRejectsFirstUnsupported (jumps : ∀ x, S.isJump x = true → S.roleForInstruction x = .controlFlow)
    (s : List I) :
    (∀ x, new S s = .error (.unsupportedInstruction x) ↔
      ∃ pre post, s = pre ++ x :: post ∧ Unsupported S x ∧ ∀ y ∈ pre, ¬ Unsupported S y) ∧
    ((∀ y ∈ s, ¬ Unsupported S y) → ∃ g, new S s = .ok g ∧ g.graph.nodes = s) := by
  constructor
  · intro x
    have lift : new S s = .error (.unsupportedInstruction x) ↔
        s.foldlM (addInstruction S) ⟨fun _ => none,DiGraph.empty⟩ = .error (.unsupportedInstruction x) := by
      unfold new
      cases s.foldlM (addInstruction S) ⟨fun _ => none,DiGraph.empty⟩ <;> simp [bind, Except.bind, pure, Except.pure]
    simp only [lift, buildRejects, roleCheckError jumps, roleCheckOk jumps]
  · intro good
    obtain ⟨b,ok⟩ := buildAccepts S (b := ⟨fun _ => none,DiGraph.empty⟩) fun y hy =>
      (roleCheckOk jumps y).2 (good y hy)
    refine ⟨⟨b.graph⟩,by simp [new, ok, bind, Except.bind, pure, Except.pure],?_⟩
    simpa [DiGraph.empty] using buildNodes S ok

theorem newRejectsFirstUnsupportedSample :
    (∀ x, SampleInstruction.instructionSet.isJump x = true →
      SampleInstruction.instructionSet.roleForInstruction x = .controlFlow) ∧
    (new SampleInstruction.instructionSet [.gate ("H") [0],.jump ("end"),.pulse 1] =
        .error (.unsupportedInstruction (.jump ("end"))) ↔
      ∃ pre post, [.gate ("H") [0],.jump ("end"),.pulse 1] = pre ++ .jump ("end") :: post ∧
        Unsupported SampleInstruction.instructionSet (.jump ("end")) ∧
        ∀ y ∈ pre, ¬ Unsupported SampleInstruction.instructionSet y) := by
  have jumps : ∀ x, SampleInstruction.instructionSet.isJump x = true →
      SampleInstruction.instructionSet.roleForInstruction x = .controlFlow := by
    intro x; cases x <;> simp [SampleInstruction.instructionSet, SampleInstruction.roleForInstruction]
  exact ⟨jumps,(newRejectsFirstUnsupported _ jumps _).1 _⟩

/-! ### The edges of an accepted graph -/

def touchesAt (s : List I) (j : Nat) (q : Q) : Bool :=
  (s[j]?).any fun x => decide (q ∈ S.getQubits x)

/-- The last position below `k` whose instruction touches `q`. -/
def lastBelow (s : List I) (q : Q) : Nat → Option Nat
  | 0 => none
  | k+1 => if touchesAt S s k q then some k else lastBelow s q k

/-- The qubits of the instruction at position `k`, none past the end. -/
def qubitsAt (s : List I) (k : Nat) : List Q := (s[k]?.map S.getQubits).getD []

/-- The edges of last-writer linking: for each position `k` and each qubit of its instruction, in
order, one edge from the last earlier position touching that qubit. -/
def specEdges (s : List I) : List (Nat × Nat) :=
  (List.range s.length).flatMap fun k =>
    (qubitsAt S s k).filterMap fun q => (lastBelow S s q k).map (·,k)

/-- What a builder holds after the instructions `p`. -/
def Built (p : List I) (b : Builder I Q) : Prop :=
  b.graph = ⟨p,specEdges S p⟩ ∧ ∀ q, b.lastInstructionForQubit q = lastBelow S p q p.length

theorem touchesAtAppend {p : List I} {j : Nat} (below : j < p.length) (t : List I) (q : Q) :
    touchesAt S (p ++ t) j q = touchesAt S p j q := by
  simp [touchesAt, List.getElem?_append_left below]

theorem lastBelowAppend {p : List I} (t : List I) (q : Q) :
    ∀ {k}, k ≤ p.length → lastBelow S (p ++ t) q k = lastBelow S p q k
  | 0, _ => rfl
  | k+1, h => by
      simp only [lastBelow, touchesAtAppend S (by omega : k < p.length), lastBelowAppend t q (by omega : k ≤ p.length)]

omit [DecidableEq Q] in
theorem qubitsAtAppend {p : List I} {k : Nat} (below : k < p.length) (t : List I) :
    qubitsAt S (p ++ t) k = qubitsAt S p k := by
  simp [qubitsAt, List.getElem?_append_left below]

theorem specEdgesSnoc (p : List I) (x : I) :
    specEdges S (p ++ [x]) = specEdges S p ++
      (S.getQubits x).filterMap fun q => (lastBelow S p q p.length).map (·,p.length) := by
  simp only [specEdges, List.length_append, List.length_singleton, List.range_succ, List.flatMap_append]
  congr 1
  · refine List.flatMap_congr fun k hk => ?_
    have below : k < p.length := List.mem_range.mp hk
    simp only [qubitsAtAppend S below, lastBelowAppend S [x] _ below.le]
  · simp [qubitsAt, lastBelowAppend S [x] _ (le_refl p.length)]

theorem linkQubitTable (node : Nat) (b : Builder I Q) (qubit q : Q) :
    (linkQubit node b qubit).lastInstructionForQubit q =
      if q = qubit then some node else b.lastInstructionForQubit q := by
  unfold linkQubit; split <;> rfl

theorem linkQubitGraph (node : Nat) (b : Builder I Q) (qubit : Q) :
    (linkQubit node b qubit).graph =
      ⟨b.graph.nodes,b.graph.edges ++ ((b.lastInstructionForQubit qubit).map (·,node)).toList⟩ := by
  unfold linkQubit; split <;> simp_all [DiGraph.addEdge]

theorem linkQubitsTable (node : Nat) (q : Q) :
    ∀ (qs : List Q) (b : Builder I Q), (qs.foldl (linkQubit node) b).lastInstructionForQubit q =
      if q ∈ qs then some node else b.lastInstructionForQubit q
  | [], _ => by simp
  | qubit :: qs, b => by
      rw [List.foldl_cons, linkQubitsTable node q qs, linkQubitTable]
      by_cases h : q ∈ qs <;> by_cases same : q = qubit <;> simp [h, same]

theorem linkQubitsGraph (node : Nat) :
    ∀ (qs : List Q), qs.Nodup → ∀ (b : Builder I Q), (qs.foldl (linkQubit node) b).graph =
      ⟨b.graph.nodes,b.graph.edges ++ qs.filterMap fun q => (b.lastInstructionForQubit q).map (·,node)⟩
  | [], _, b => by simp
  | qubit :: qs, distinct, b => by
      rw [List.nodup_cons] at distinct
      rw [List.foldl_cons, linkQubitsGraph node qs distinct.2, linkQubitGraph]
      have other : ∀ q ∈ qs, (linkQubit node b qubit).lastInstructionForQubit q = b.lastInstructionForQubit q :=
        fun q hq => by rw [linkQubitTable, if_neg (ne_of_mem_of_not_mem hq distinct.1)]
      rw [List.filterMap_congr fun q hq => congrArg (Option.map (·,node)) (other q hq)]
      cases h : b.lastInstructionForQubit qubit <;> simp [h, List.filterMap_cons]

theorem insertNodeBuilt {p : List I} {b : Builder I Q} (built : Built S p b) (x : I)
    (distinct : (S.getQubits x).Nodup) : Built S (p ++ [x]) (insertNode S b x) := by
  obtain ⟨graph,table⟩ := built
  have node : b.graph.nodes.length = p.length := by rw [graph]
  constructor
  · simp only [insertNode, DiGraph.addNode, linkQubitsGraph _ _ distinct, node, table, graph, specEdgesSnoc]
  · intro q
    simp only [insertNode, DiGraph.addNode, linkQubitsTable, node, table, List.length_append,
      List.length_singleton, lastBelow, lastBelowAppend S [x] q (le_refl p.length)]
    simp [touchesAt]

theorem buildBuilt {p s : List I} {b b' : Builder I Q} (built : Built S p b)
    (distinct : ∀ x ∈ s, (S.getQubits x).Nodup) (ok : s.foldlM (addInstruction S) b = .ok b') :
    Built S (p ++ s) b' := by
  induction s generalizing p b with
  | nil => cases ok; simpa using built
  | cons x xs ih =>
      rcases roleCheckCases S x with h | h
      · rw [buildConsOk S xs h] at ok
        simpa using ih (insertNodeBuilt S built x (distinct x (by simp))) (fun y hy => distinct y (by simp [hy])) ok
      · rw [buildConsError S xs h] at ok
        cases ok

theorem newGraph {s : List I} {g : ExecutionGraph I} (accepted : new S s = .ok g)
    (distinct : ∀ x ∈ s, (S.getQubits x).Nodup) : g.graph = ⟨s,specEdges S s⟩ := by
  unfold new at accepted
  cases ok : s.foldlM (addInstruction S) ⟨fun _ => none,DiGraph.empty⟩ with
  | error e => simp [ok, bind, Except.bind] at accepted
  | ok b =>
      simp only [ok, bind, Except.bind, pure, Except.pure, Except.ok.injEq] at accepted
      subst accepted
      have start : Built S [] ⟨fun _ => none,DiGraph.empty⟩ := ⟨rfl,fun _ => rfl⟩
      simpa using (buildBuilt S start distinct ok).1

theorem lastBelowSome {s : List I} {q : Q} {i : Nat} : ∀ {k}, lastBelow S s q k = some i ↔
    i < k ∧ touchesAt S s i q = true ∧ ∀ j, i < j → j < k → touchesAt S s j q = false
  | 0 => by simp [lastBelow]
  | k+1 => by
      rw [lastBelow]
      split <;> rename_i here
      · constructor
        · rintro ⟨⟩; exact ⟨by omega,here,fun j _ _ => by omega⟩
        · rintro ⟨_,_,later⟩
          have same : i = k := by
            by_contra ne
            simp [later k (by omega) (by omega)] at here
          rw [same]
      · rw [lastBelowSome]
        constructor
        · rintro ⟨lt,touch,later⟩
          refine ⟨by omega,touch,fun j above below => ?_⟩
          rcases Nat.lt_succ_iff_lt_or_eq.mp below with below | rfl
          · exact later j above below
          · simpa using here
        · rintro ⟨lt,touch,later⟩
          have : i ≠ k := by rintro rfl; simp [touch] at here
          exact ⟨by omega,touch,fun j above below => later j above (by omega)⟩

theorem lastBelowLt {s : List I} {q : Q} {i k : Nat} (h : lastBelow S s q k = some i) : i < k :=
  ((lastBelowSome S).mp h).1

theorem memSpecEdges {s : List I} {v u : Nat} :
    (v,u) ∈ specEdges S s ↔ ∃ q ∈ qubitsAt S s u, lastBelow S s q u = some v := by
  simp only [specEdges, List.mem_flatMap, List.mem_range, List.mem_filterMap, Option.map_eq_some',
    Prod.mk.injEq]
  constructor
  · rintro ⟨k,_,q,hq,i,hi,rfl,rfl⟩; exact ⟨q,hq,hi⟩
  · rintro ⟨q,hq,hi⟩
    have : u < s.length := by
      by_contra far
      simp [qubitsAt, List.getElem?_eq_none (by omega : s.length ≤ u)] at hq
    exact ⟨u,this,q,hq,v,hi,rfl,rfl⟩

theorem countLinksAt (s : List I) (i k k' : Nat) (qs : List Q) :
    (qs.filterMap fun q => (lastBelow S s q k').map (·,k')).count (i,k) =
      if k' = k then (qs.filter fun q => lastBelow S s q k = some i).length else 0 := by
  induction qs with
  | nil => simp
  | cons q qs ih =>
      rw [List.filterMap_cons]
      by_cases same : k' = k
      · subst same
        cases found : lastBelow S s q k' with
        | none => simpa [List.filter_cons, found] using ih
        | some j => by_cases hj : j = i <;> simp [List.filter_cons, List.count_cons, found, hj, ih]
      · cases found : lastBelow S s q k' <;> simp [List.count_cons, found, same, ih]

theorem countLinksBelow (s : List I) (i k n : Nat) :
    ((List.range n).flatMap fun k' =>
      (qubitsAt S s k').filterMap fun q => (lastBelow S s q k').map (·,k')).count (i,k) =
        if k < n then ((qubitsAt S s k).filter fun q => lastBelow S s q k = some i).length else 0 := by
  induction n with
  | zero => simp
  | succ n ih =>
      rw [List.range_succ, List.flatMap_append, List.count_append, ih, List.flatMap_singleton, countLinksAt]
      by_cases same : n = k
      · subst same; simp
      · have below : k < n + 1 ↔ k < n := by omega
        simp [below, same]

theorem countSpecEdges (s : List I) (i k : Nat) :
    (specEdges S s).count (i,k) = ((qubitsAt S s k).filter fun q => lastBelow S s q k = some i).length := by
  rw [specEdges, countLinksBelow]
  split
  · rfl
  · simp [qubitsAt, List.getElem?_eq_none (by omega : s.length ≤ k)]

theorem specEdgesForward {s : List I} {e : Nat × Nat} (h : e ∈ specEdges S s) : e.1 < e.2 ∧ e.2 < s.length := by
  obtain ⟨v,u⟩ := e
  obtain ⟨q,hq,hi⟩ := (memSpecEdges S).mp h
  refine ⟨lastBelowLt S hi,?_⟩
  by_contra far
  simp [qubitsAt, List.getElem?_eq_none (by omega : s.length ≤ u)] at hq

theorem newLinksLastWriters {s : List I} {g : ExecutionGraph I} (accepted : new S s = .ok g)
    (distinct : ∀ x ∈ s, (S.getQubits x).Nodup) :
    g.graph.nodes = s ∧
      (∀ i k, g.graph.edges.count (i,k) = ((qubitsAt S s k).filter fun q => lastBelow S s q k = some i).length) ∧
      ∀ e ∈ g.graph.edges, e.1 < e.2 ∧ e.2 < s.length := by
  have graph := newGraph S accepted distinct
  refine ⟨by rw [graph],fun i k => ?_,fun e he => specEdgesForward S ?_⟩
  · rw [graph]
    exact countSpecEdges S s i k
  · rwa [graph] at he

theorem newLinksLastWritersSwap :
    new SampleInstruction.instructionSet [.gate ("X") [0],.gate ("H") [1],.gate ("CNOT") [0,1]] =
        .ok ⟨⟨[.gate ("X") [0],.gate ("H") [1],.gate ("CNOT") [0,1]],[(0,2),(1,2)]⟩⟩ ∧
      (∀ x ∈ [SampleInstruction.gate ("X") [0],.gate ("H") [1],.gate ("CNOT") [0,1]],
        (SampleInstruction.instructionSet.getQubits x).Nodup) ∧
      [(0,2),(1,2)].count (1,2) =
        ((qubitsAt SampleInstruction.instructionSet [.gate ("X") [0],.gate ("H") [1],.gate ("CNOT") [0,1]] 2).filter
          fun q => lastBelow SampleInstruction.instructionSet [.gate ("X") [0],.gate ("H") [1],.gate ("CNOT") [0,1]] q 2 =
            some 1).length := by
  have accepted : new SampleInstruction.instructionSet [.gate ("X") [0],.gate ("H") [1],.gate ("CNOT") [0,1]] =
      .ok ⟨⟨[.gate ("X") [0],.gate ("H") [1],.gate ("CNOT") [0,1]],[(0,2),(1,2)]⟩⟩ := rfl
  have distinct : ∀ x ∈ [SampleInstruction.gate ("X") [0],.gate ("H") [1],.gate ("CNOT") [0,1]],
      (SampleInstruction.instructionSet.getQubits x).Nodup := by decide
  exact ⟨accepted,distinct,(newLinksLastWriters _ accepted distinct).2.1 1 2⟩

end QuilRs.ExecutionGraph
