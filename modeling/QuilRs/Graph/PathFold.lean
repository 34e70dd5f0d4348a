import QuilRs.Graph.Build
import Mathlib.Algebra.Order.BigOperators.Group.List
import Mathlib.Algebra.Order.Ring.Nat
import Mathlib.Algebra.Group.Action.Defs
import Mathlib.Logic.Relation
/-! `ExecutionGraph::path_fold`: the explicit work-stack loop, run for a bounded number of
iterations (`none` when the stack is not empty by then). On a graph whose edges all run
forward it returns, up to order, the fold of the callback along every root-to-leaf path, or an
error the callback gives at the end of a prefix of one; the bound is enough for every such
graph, and a path comes once for each sequence of edges along it. Where a root leads to a
cycle and the callback never fails, no bound is enough. -/
namespace QuilRs.DiGraph
variable {N T E : Type} [Inhabited N]

/-- One pass of `for node in nodes`: the callback on the popped accumulator and each node,
pushing the result with the node's successors; the first error ends the fold. -/
def pushNodes (g : DiGraph N) (f : T → N → Except E T) (acc : T) :
    List Nat → List (T × List Nat) → Except E (List (T × List Nat))
  | [], stack => .ok stack
  | node :: nodes, stack => do
      let value ← f acc (g.weight node)
      pushNodes g f acc nodes ((value,g.neighborsOutgoing node) :: stack)

/-- `while let Some((acc, nodes)) = stack.pop()` for at most `fuel` iterations; the top of
the stack is the head of the list. -/
def pathFoldLoop (g : DiGraph N) (f : T → N → Except E T) :
    Nat → List (T × List Nat) → List T → Option (Except E (List T))
  | _, [], result => some (.ok result)
  | 0, _ :: _, _ => none
  | fuel+1, (acc,[]) :: stack, result => pathFoldLoop g f fuel stack (result ++ [acc])
  | fuel+1, (acc,node :: nodes) :: stack, result =>
      match pushNodes g f acc (node :: nodes) stack with
      | .ok stack => pathFoldLoop g f fuel stack result
      | .error e => some (.error e)

/-- Iterations enough for every graph whose edges run forward (`pathFoldTerminates`). -/
def iterationBound (g : DiGraph N) : Nat := 1 + g.nodes.length * (g.edges.length + 1) ^ g.nodes.length

def pathFold (g : DiGraph N) (initialValue : T) (f : T → N → Except E T) : Option (Except E (List T)) :=
  pathFoldLoop g f g.iterationBound [(initialValue,g.externalsIncoming)] []

def foldPath (g : DiGraph N) (f : T → N → Except E T) (acc : T) (path : List Nat) : Except E T :=
  path.foldlM (fun a v => f a (g.weight v)) acc

def Forward (g : DiGraph N) : Prop := ∀ e ∈ g.edges, e.1 < e.2 ∧ e.2 < g.nodes.length

theorem foldPathCons (g : DiGraph N) (f : T → N → Except E T) (acc : T) (v : Nat) (p : List Nat) :
    g.foldPath f acc (v :: p) = (f acc (g.weight v)).bind fun a => g.foldPath f a p := rfl

theorem foldPathError (g : DiGraph N) (f : T → N → Except E T) {e : E} :
    ∀ {acc : T} {p : List Nat}, g.foldPath f acc p = .error e →
      ∃ k a v, g.foldPath f acc (p.take k) = .ok a ∧ p[k]? = some v ∧ f a (g.weight v) = .error e
  | _, [], bad => by cases bad
  | acc, v :: p, bad => by
      rw [foldPathCons] at bad
      cases step : f acc (g.weight v) with
      | error e' =>
          rw [step] at bad
          cases bad
          exact ⟨0,acc,v,rfl,by simp,step⟩
      | ok a' =>
          rw [step] at bad
          obtain ⟨k,a,w,pre,found,fails⟩ := foldPathError g f bad
          exact ⟨k+1,a,w,by simpa [foldPathCons, step] using pre,by simpa using found,fails⟩

omit [Inhabited N] in
theorem memNeighborsOutgoing {g : DiGraph N} {v u : Nat} :
    u ∈ g.neighborsOutgoing v ↔ (v,u) ∈ g.edges := by
  simp [neighborsOutgoing]

omit [Inhabited N] in
theorem countNeighborsOutgoing (g : DiGraph N) (v u : Nat) :
    (g.neighborsOutgoing v).count u = g.edges.count (v,u) := by
  rw [neighborsOutgoing, List.count_reverse]
  simp only [List.count, List.countP_map, List.countP_filter]
  exact List.countP_congr fun e _ => by simp [Prod.ext_iff, and_comm]

omit [Inhabited N] in
theorem neighborsOutgoingNil (g : DiGraph N) (v : Nat) :
    g.neighborsOutgoing v = [] ↔ (g.edges.all fun e => e.1 != v) = true := by
  simp [neighborsOutgoing, List.filter_eq_nil_iff]

/-- The edge sequences that walk `v :: p` and end at a node no edge leaves. -/
def walks (g : DiGraph N) : Nat → List Nat → Nat
  | v, [] => if g.edges.all fun e => e.1 != v then 1 else 0
  | v, u :: p => g.edges.count (v,u) * g.walks u p

def Edge (g : DiGraph N) (a b : Nat) : Prop := (a,b) ∈ g.edges

instance (g : DiGraph N) : DecidableRel g.Edge := fun a b => inferInstanceAs (Decidable ((a,b) ∈ g.edges))

/-- Edges lead from `v` to a node on a cycle. -/
def ReachesCycle (g : DiGraph N) (v : Nat) : Prop :=
  ∃ u, Relation.ReflTransGen g.Edge v u ∧ Relation.TransGen g.Edge u u

omit [Inhabited N] in
theorem reachesCycleStep {g : DiGraph N} {v : Nat} (cycle : g.ReachesCycle v) :
    ∃ w ∈ g.neighborsOutgoing v, g.ReachesCycle w := by
  obtain ⟨u,path,loop⟩ := cycle
  rcases Relation.ReflTransGen.cases_head_iff.mp path with rfl | ⟨w,edge,rest⟩
  · obtain ⟨w,edge,back⟩ := Relation.TransGen.head'_iff.mp loop
    exact ⟨w,memNeighborsOutgoing.mpr edge,v,back,loop⟩
  · exact ⟨w,memNeighborsOutgoing.mpr edge,u,rest,loop⟩

section Endless
variable (g : DiGraph N) (f : T → N → Except E T) (total : ∀ a x, ∃ b, f a x = .ok b)
include total

/-- An entry of the stack still holds a node from which edges lead to a cycle. -/
def Endless (stack : List (T × List Nat)) : Prop := ∃ e ∈ stack, ∃ w ∈ e.2, g.ReachesCycle w

theorem pushNodesEndless (acc : T) : ∀ (nodes : List Nat) (stack : List (T × List Nat)),
    ∃ stack', g.pushNodes f acc nodes stack = .ok stack' ∧
      (g.Endless stack ∨ (∃ v ∈ nodes, g.ReachesCycle v) → g.Endless stack')
  | [], stack => ⟨stack,rfl,fun h => h.elim id fun ⟨_,h,_⟩ => nomatch h⟩
  | v :: nodes, stack => by
      obtain ⟨b,step⟩ := total acc (g.weight v)
      obtain ⟨stack',run,keeps⟩ := pushNodesEndless acc nodes ((b,g.neighborsOutgoing v) :: stack)
      refine ⟨stack',by simp [pushNodes, step, bind, Except.bind, run],?_⟩
      rintro (⟨e,he,endless⟩ | ⟨w,hw,cycle⟩)
      · exact keeps (.inl ⟨e,List.mem_cons_of_mem _ he,endless⟩)
      · rcases List.mem_cons.mp hw with rfl | hw
        · exact keeps (.inl ⟨_,List.mem_cons_self _ _,reachesCycleStep cycle⟩)
        · exact keeps (.inr ⟨w,hw,cycle⟩)

theorem pathFoldLoopEndless : ∀ (fuel : Nat) (stack : List (T × List Nat)) (result : List T),
    g.Endless stack → g.pathFoldLoop f fuel stack result = none
  | _, [], _, ⟨_,h,_⟩ => nomatch h
  | 0, _ :: _, _, _ => rfl
  | fuel+1, (acc,[]) :: stack, result, ⟨e,he,w,hw,cycle⟩ => by
      rcases List.mem_cons.mp he with rfl | he
      · nomatch hw
      · exact pathFoldLoopEndless fuel stack _ ⟨e,he,w,hw,cycle⟩
  | fuel+1, (acc,node :: nodes) :: stack, result, ⟨e,he,endless⟩ => by
      obtain ⟨stack',run,keeps⟩ := pushNodesEndless g f total acc (node :: nodes) stack
      have next : g.Endless stack' := by
        rcases List.mem_cons.mp he with rfl | he
        · exact keeps (.inr endless)
        · exact keeps (.inl ⟨e,he,endless⟩)
      simp only [pathFoldLoop, run]
      exact pathFoldLoopEndless fuel stack' result next

theorem pathFoldNeverEnds {v : Nat} (root : v ∈ g.externalsIncoming) (cycle : g.ReachesCycle v)
    (a : T) (fuel : Nat) : g.pathFoldLoop f fuel [(a,g.externalsIncoming)] [] = none :=
  pathFoldLoopEndless g f total fuel _ [] ⟨_,List.mem_singleton_self _,v,root,cycle⟩

end Endless

/- `CNOT 0 0` repeats its qubit, so `new` links it to itself after `H 0`. -/
theorem pathFoldNeverEndsSelfLoop :
    ∃ g : DiGraph SampleInstruction,
      ExecutionGraph.new SampleInstruction.instructionSet [.gate ("H") [0],.gate ("CNOT") [0,0]] = .ok ⟨g⟩ ∧
      g.edges = [(0,1),(1,1)] ∧ 0 ∈ g.externalsIncoming ∧ g.ReachesCycle 0 ∧
      ∀ fuel, g.pathFoldLoop (fun (n : Nat) _ => (.ok (n + 1) : Except Unit Nat)) fuel [(0,g.externalsIncoming)] [] = none := by
  let g : DiGraph SampleInstruction := ⟨[.gate ("H") [0],.gate ("CNOT") [0,0]],[(0,1),(1,1)]⟩
  have root : 0 ∈ g.externalsIncoming := by decide
  have cycle : g.ReachesCycle 0 := ⟨1,.single (by decide),.single (by decide)⟩
  exact ⟨g,rfl,rfl,root,cycle,pathFoldNeverEnds g _ (fun _ _ => ⟨_,rfl⟩) root cycle 0⟩

end QuilRs.DiGraph

namespace QuilRs

structure Dag (N : Type) where
  graph : DiGraph N
  forward : graph.Forward

namespace Dag
variable {N : Type} (d : Dag N)

theorem successorAbove {v u : Nat} (h : u ∈ d.graph.neighborsOutgoing v) :
    v < u ∧ u < d.graph.nodes.length :=
  d.forward _ (DiGraph.memNeighborsOutgoing.mp h)

/-- The paths from `v` to a node with no outgoing edge, one for each sequence of edges. -/
def pathsFrom (v : Nat) : List (List Nat) :=
  if d.graph.neighborsOutgoing v = [] then [[v]]
  else (d.graph.neighborsOutgoing v).attach.flatMap fun u => (pathsFrom u.1).map (v :: ·)
termination_by d.graph.nodes.length - v
decreasing_by have := d.successorAbove u.2; omega

/-- The iterations the loop spends below an entry that holds the successors of `v`. -/
def span (v : Nat) : Nat :=
  1 + ((d.graph.neighborsOutgoing v).attach.map fun u => span u.1).sum
termination_by d.graph.nodes.length - v
decreasing_by have := d.successorAbove u.2; omega

/-- The paths that continue a frontier: an empty frontier ends one path. -/
def frontierPaths (nodes : List Nat) : List (List Nat) :=
  if nodes = [] then [[]] else nodes.flatMap d.pathsFrom

def rootLeafPaths : List (List Nat) := d.frontierPaths d.graph.externalsIncoming

theorem pathsFromEq (v : Nat) :
    d.pathsFrom v = (d.frontierPaths (d.graph.neighborsOutgoing v)).map (v :: ·) := by
  rw [pathsFrom, frontierPaths]
  split
  · rfl
  · simp [List.map_flatMap]

theorem spanEq (v : Nat) : d.span v = 1 + ((d.graph.neighborsOutgoing v).map d.span).sum := by
  rw [span]; simp

theorem pathsFromHead (v : Nat) : ∃ p, v :: p ∈ d.pathsFrom v := by
  rw [pathsFromEq]
  by_cases leaf : d.graph.neighborsOutgoing v = []
  · exact ⟨[],by simp [frontierPaths, leaf]⟩
  · obtain ⟨u,hu⟩ := List.exists_mem_of_ne_nil _ leaf
    obtain ⟨p,hp⟩ := pathsFromHead u
    exact ⟨u :: p,by simpa [frontierPaths, leaf] using ⟨u,hu,hp⟩⟩
termination_by d.graph.nodes.length - v
decreasing_by have := d.successorAbove hu; omega

theorem nilNotMemPathsFrom (v : Nat) : [] ∉ d.pathsFrom v := by
  rw [pathsFromEq]; simp

theorem countFlatMap {u : Nat} {q : List Nat} : ∀ {nodes : List Nat},
    (∀ x ∈ nodes, (d.pathsFrom x).count (u :: q) = if u = x then d.graph.walks x q else 0) →
      (nodes.flatMap d.pathsFrom).count (u :: q) = nodes.count u * d.graph.walks u q
  | [], _ => by simp
  | x :: nodes, each => by
      rw [List.flatMap_cons, List.count_append, each x (List.mem_cons_self _ _),
        countFlatMap fun y hy => each y (List.mem_cons_of_mem _ hy), List.count_cons]
      by_cases same : u = x
      · subst same; simp [Nat.succ_mul, Nat.add_comm]
      · simp [same, Ne.symm same]

theorem countPathsFrom (v w : Nat) (q : List Nat) :
    (d.pathsFrom v).count (w :: q) = if w = v then d.graph.walks v q else 0 := by
  rw [pathsFromEq]
  split_ifs with same
  · subst same
    have strip (paths : List (List Nat)) : (paths.map (w :: ·)).count (w :: q) = paths.count q := by
      induction paths with
      | nil => rfl
      | cons p paths ih => simp [List.count_cons, ih]
    rw [strip, frontierPaths]
    split_ifs with leaf
    · cases q with
      | nil => simp [DiGraph.walks, (DiGraph.neighborsOutgoingNil _ _).mp leaf]
      | cons u q => simp [DiGraph.walks, ← DiGraph.countNeighborsOutgoing, leaf]
    · cases q with
      | nil =>
          simp only [DiGraph.walks, ← DiGraph.neighborsOutgoingNil, leaf, if_false]
          exact List.count_eq_zero.mpr (by simp [nilNotMemPathsFrom])
      | cons u q =>
          rw [d.countFlatMap fun x hx => countPathsFrom x u q, DiGraph.countNeighborsOutgoing]
          rfl
  · exact List.count_eq_zero.mpr (by simp [Ne.symm same])
termination_by d.graph.nodes.length - v
decreasing_by have := d.successorAbove hx; omega

theorem zeroRoot (nonempty : d.graph.nodes ≠ []) : 0 ∈ d.graph.externalsIncoming := by
  simp only [DiGraph.externalsIncoming, List.mem_filter, List.mem_range, List.length_pos.mpr nonempty,
    List.all_eq_true, bne_iff_ne, true_and, decide_eq_true_eq]
  exact fun e he => by have := d.forward e he; omega

theorem rootLeafPathsOfNonempty (nonempty : d.graph.nodes ≠ []) :
    d.rootLeafPaths = d.graph.externalsIncoming.flatMap d.pathsFrom := by
  rw [rootLeafPaths, frontierPaths, if_neg (List.ne_nil_of_mem (d.zeroRoot nonempty))]

theorem rootLeafPathsWalks (nonempty : d.graph.nodes ≠ []) :
    [] ∉ d.rootLeafPaths ∧ ∀ v p, d.rootLeafPaths.count (v :: p) =
      if v ∈ d.graph.externalsIncoming then d.graph.walks v p else 0 := by
  have nodup : d.graph.externalsIncoming.Nodup := (List.nodup_range _).filter _
  rw [d.rootLeafPathsOfNonempty nonempty]
  refine ⟨by simp [nilNotMemPathsFrom], fun v p => ?_⟩
  rw [d.countFlatMap fun x _ => d.countPathsFrom x v p]
  split_ifs with root
  · rw [List.count_eq_one_of_mem nodup root, Nat.one_mul]
  · rw [List.count_eq_zero_of_not_mem root, Nat.zero_mul]

theorem rootLeafPathsWalksDoubleEdge :
    ∃ d : Dag Unit, d.graph = ⟨[(),(),()],[(0,1),(0,1),(1,2),(0,2)]⟩ ∧ d.graph.nodes ≠ [] ∧
      [] ∉ d.rootLeafPaths ∧ d.rootLeafPaths.count [0,1,2] = 2 ∧ d.rootLeafPaths.count [0,2] = 1 := by
  let d : Dag Unit := ⟨⟨[(),(),()],[(0,1),(0,1),(1,2),(0,2)]⟩,by unfold DiGraph.Forward; decide⟩
  have nonempty : d.graph.nodes ≠ [] := by decide
  obtain ⟨nil,count⟩ := rootLeafPathsWalks d nonempty
  exact ⟨d,rfl,nonempty,nil,(count 0 [1,2]).trans (by decide),(count 0 [2]).trans (by decide)⟩

/-- The iterations the loop spends on an entry holding `nodes`. -/
def frontierWeight (nodes : List Nat) : Nat := 1 + (nodes.map d.span).sum

def stackWeight {T : Type} (stack : List (T × List Nat)) : Nat :=
  (stack.map fun e => d.frontierWeight e.2).sum

theorem stackWeightNil {T : Type} : d.stackWeight ([] : List (T × List Nat)) = 0 := rfl

theorem stackWeightCons {T : Type} (e : T × List Nat) (stack : List (T × List Nat)) :
    d.stackWeight (e :: stack) = d.frontierWeight e.2 + d.stackWeight stack := by
  simp [stackWeight]

theorem stackWeightAppend {T : Type} (stack stack' : List (T × List Nat)) :
    d.stackWeight (stack ++ stack') = d.stackWeight stack + d.stackWeight stack' := by
  simp [stackWeight]

theorem spanFrontier (v : Nat) : d.span v = d.frontierWeight (d.graph.neighborsOutgoing v) := spanEq d v

theorem successorCount (v : Nat) : (d.graph.neighborsOutgoing v).length ≤ d.graph.edges.length := by
  simpa [DiGraph.neighborsOutgoing] using List.length_filter_le _ _

theorem spanLe (v : Nat) : d.span v ≤ (d.graph.edges.length + 1) ^ (d.graph.nodes.length - v) := by
  rw [spanEq]
  by_cases leaf : d.graph.neighborsOutgoing v = []
  · simpa [leaf] using Nat.one_le_pow _ _ (Nat.succ_pos _)
  · obtain ⟨u,hu⟩ := List.exists_mem_of_ne_nil _ leaf
    have inside := d.successorAbove hu
    have each : ∀ w ∈ (d.graph.neighborsOutgoing v).map d.span,
        w ≤ (d.graph.edges.length + 1) ^ (d.graph.nodes.length - v - 1) := by
      intro w hw
      obtain ⟨u',hu',rfl⟩ := List.mem_map.mp hw
      have := d.successorAbove hu'
      exact (spanLe u').trans (Nat.pow_le_pow_right (by omega) (by omega))
    have sum := List.sum_le_card_nsmul _ _ each
    rw [List.length_map, smul_eq_mul] at sum
    have count := Nat.mul_le_mul_right ((d.graph.edges.length + 1) ^ (d.graph.nodes.length - v - 1))
      (d.successorCount v)
    have pos := Nat.one_le_pow (d.graph.nodes.length - v - 1) (d.graph.edges.length + 1) (by omega)
    have split : (d.graph.edges.length + 1) ^ (d.graph.nodes.length - v) =
        d.graph.edges.length * (d.graph.edges.length + 1) ^ (d.graph.nodes.length - v - 1) +
          (d.graph.edges.length + 1) ^ (d.graph.nodes.length - v - 1) := by
      rw [← Nat.succ_mul, ← pow_succ']; congr 1; omega
    omega
termination_by d.graph.nodes.length - v
decreasing_by omega

theorem rootsWeightLe {T : Type} (a : T) :
    d.stackWeight [(a,d.graph.externalsIncoming)] ≤ d.graph.iterationBound := by
  rw [stackWeightCons, stackWeightNil, frontierWeight, DiGraph.iterationBound]
  dsimp only
  have each : ∀ w ∈ d.graph.externalsIncoming.map d.span,
      w ≤ (d.graph.edges.length + 1) ^ d.graph.nodes.length :=
    fun w hw => by
      obtain ⟨r,_,rfl⟩ := List.mem_map.mp hw
      exact (d.spanLe r).trans (Nat.pow_le_pow_right (by omega) (by omega))
  have sum := List.sum_le_card_nsmul _ _ each
  have roots : d.graph.externalsIncoming.length ≤ d.graph.nodes.length := by
    simpa [DiGraph.externalsIncoming] using List.length_filter_le _ (List.range d.graph.nodes.length)
  rw [List.length_map, smul_eq_mul] at sum
  have := Nat.mul_le_mul_right ((d.graph.edges.length + 1) ^ d.graph.nodes.length) roots
  omega

section Loop
variable [Inhabited N] {T E : Type} (f : T → N → Except E T)

/-- The results of the paths that continue the entries of a stack. -/
def stackResults (stack : List (T × List Nat)) : List (Except E T) :=
  stack.flatMap fun e => (d.frontierPaths e.2).map (d.graph.foldPath f e.1)

/-- What the loop may return from a stack whose paths give `rs`, having collected `result`:
all of `rs` `ok`, with their values up to order, or an error one of them is. -/
def LoopOutcome (rs : List (Except E T)) (result : List T) : Except E (List T) → Prop
  | .ok l => (l.map .ok).Perm (result.map .ok ++ rs)
  | .error e => .error e ∈ rs

theorem loopOutcomePerm {rs rs' : List (Except E T)} (perm : rs.Perm rs') {result : List T}
    {r : Except E (List T)} (outcome : LoopOutcome rs result r) : LoopOutcome rs' result r := by
  cases r with
  | ok l => exact outcome.trans (perm.append_left _)
  | error e => exact perm.subset outcome

theorem pathsFromResults {acc value : T} {v : Nat} (step : f acc (d.graph.weight v) = .ok value) :
    (d.pathsFrom v).map (d.graph.foldPath f acc) =
      (d.frontierPaths (d.graph.neighborsOutgoing v)).map (d.graph.foldPath f value) := by
  rw [pathsFromEq, List.map_map]
  exact List.map_congr_left fun p _ => by simp [DiGraph.foldPathCons, step, Except.bind]

theorem pushNodesOk {acc : T} : ∀ {nodes : List Nat} {stack stack' : List (T × List Nat)},
    d.graph.pushNodes f acc nodes stack = .ok stack' →
      ∃ pushed, stack' = pushed ++ stack ∧
        (d.stackResults f pushed).Perm (nodes.flatMap fun v => (d.pathsFrom v).map (d.graph.foldPath f acc)) ∧
        d.stackWeight pushed = (nodes.map d.span).sum
  | [], _, _, ok => by cases ok; exact ⟨[],rfl,by simp [stackResults],by simp [stackWeight]⟩
  | v :: nodes, stack, stack', ok => by
      simp only [DiGraph.pushNodes, bind, Except.bind] at ok
      split at ok
      · cases ok
      · rename_i value step
        obtain ⟨pushed,rfl,perm,weight⟩ := pushNodesOk ok
        refine ⟨pushed ++ [(value,d.graph.neighborsOutgoing v)],by simp,?_,?_⟩
        · rw [List.flatMap_cons, pathsFromResults d f step]
          simpa [stackResults] using (perm.append_right _).trans List.perm_append_comm
        · rw [stackWeightAppend, weight, stackWeightCons, stackWeightNil, ← spanFrontier]
          simp [Nat.add_comm]

theorem pushNodesError {acc : T} {e : E} : ∀ {nodes : List Nat} {stack : List (T × List Nat)},
    d.graph.pushNodes f acc nodes stack = .error e →
      .error e ∈ nodes.flatMap fun v => (d.pathsFrom v).map (d.graph.foldPath f acc)
  | [], _, bad => by cases bad
  | v :: nodes, stack, bad => by
      simp only [DiGraph.pushNodes, bind, Except.bind] at bad
      split at bad
      · rename_i e' step
        cases bad
        obtain ⟨p,hp⟩ := d.pathsFromHead v
        exact List.mem_flatMap.mpr ⟨v,by simp,List.mem_map.mpr ⟨v :: p,hp,by simp [DiGraph.foldPathCons, step, Except.bind]⟩⟩
      · have := pushNodesError bad
        simp only [List.flatMap_cons, List.mem_append]
        exact .inr this

theorem loopOutcome : ∀ (fuel : Nat) (stack : List (T × List Nat)) (result : List T),
    d.stackWeight stack ≤ fuel →
      ∃ r, d.graph.pathFoldLoop f fuel stack result = some r ∧ LoopOutcome (d.stackResults f stack) result r
  | fuel, [], result, _ => by
      refine ⟨.ok result,?_,by simp [LoopOutcome, stackResults]⟩
      cases fuel <;> rfl
  | 0, (acc,nodes) :: stack, result, bound => by
      simp [stackWeight, frontierWeight] at bound
  | fuel+1, (acc,[]) :: stack, result, bound => by
      obtain ⟨r,run,outcome⟩ := loopOutcome fuel stack (result ++ [acc])
        (by rw [stackWeightCons, frontierWeight] at bound; simp at bound; omega)
      refine ⟨r,run,?_⟩
      cases r with
      | ok l =>
          simpa [LoopOutcome, stackResults, frontierPaths, DiGraph.foldPath] using outcome
      | error e =>
          simp only [LoopOutcome, stackResults, List.flatMap_cons] at outcome ⊢
          exact List.mem_append_right _ outcome
  | fuel+1, (acc,node :: nodes) :: stack, result, bound => by
      cases ok : d.graph.pushNodes f acc (node :: nodes) stack with
      | error e =>
          refine ⟨.error e,by simp [DiGraph.pathFoldLoop, ok],?_⟩
          have := d.pushNodesError f ok
          simp only [LoopOutcome, stackResults, List.flatMap_cons, List.mem_append]
          left
          simpa [frontierPaths, List.map_flatMap] using this
      | ok stack' =>
          obtain ⟨pushed,rfl,perm,weight⟩ := d.pushNodesOk f ok
          obtain ⟨r,run,outcome⟩ := loopOutcome fuel (pushed ++ stack) result
            (by rw [stackWeightCons, frontierWeight] at bound; dsimp only at bound
                rw [stackWeightAppend, weight]; omega)
          refine ⟨r,by simp [DiGraph.pathFoldLoop, ok, run],loopOutcomePerm ?_ outcome⟩
          simp only [stackResults, List.flatMap_append, List.flatMap_cons] at perm ⊢
          refine perm.append_right _ |>.trans ?_
          simp [frontierPaths, List.map_flatMap]

theorem pathFoldOutcome (a : T) :
    ∃ r, d.graph.pathFold a f = some r ∧ LoopOutcome (d.rootLeafPaths.map (d.graph.foldPath f a)) [] r := by
  obtain ⟨r,run,outcome⟩ := d.loopOutcome f _ [(a,d.graph.externalsIncoming)] [] (d.rootsWeightLe a)
  exact ⟨r,run,by simpa [stackResults, rootLeafPaths] using outcome⟩

end Loop
end Dag

namespace ExecutionGraph
variable {I Q : Type} [DecidableEq Q] (S : InstructionSet I Q)

theorem newForward {s : List I} {g : ExecutionGraph I} (accepted : new S s = .ok g)
    (distinct : ∀ x ∈ s, (S.getQubits x).Nodup) : g.graph.Forward := by
  rw [newGraph S accepted distinct]
  exact fun e he => specEdgesForward S he

/-- The graph `new` builds from a sequence in which no instruction repeats a qubit. -/
def dag {s : List I} {g : ExecutionGraph I} (accepted : new S s = .ok g)
    (distinct : ∀ x ∈ s, (S.getQubits x).Nodup) : Dag I :=
  ⟨g.graph,newForward S accepted distinct⟩

theorem pathFoldOverPaths [Inhabited I] {s : List I} {g : ExecutionGraph I} (accepted : new S s = .ok g)
    (distinct : ∀ x ∈ s, (S.getQubits x).Nodup) {T E : Type} (a : T) (f : T → I → Except E T) :
    ∃ r, g.graph.pathFold a f = some r ∧
      (∀ l, r = .ok l →
        (l.map .ok).Perm ((dag S accepted distinct).rootLeafPaths.map (g.graph.foldPath f a))) ∧
      (∀ e, r = .error e → ∃ p ∈ (dag S accepted distinct).rootLeafPaths, ∃ k acc v,
        g.graph.foldPath f a (p.take k) = .ok acc ∧ p[k]? = some v ∧ f acc (g.graph.weight v) = .error e) := by
  obtain ⟨r,run,outcome⟩ := (dag S accepted distinct).pathFoldOutcome f a
  refine ⟨r,run,fun l ok => ?_,fun e bad => ?_⟩
  · subst ok; simpa [Dag.LoopOutcome] using outcome
  · subst bad
    obtain ⟨p,hp,fails⟩ := List.mem_map.mp outcome
    exact ⟨p,hp,g.graph.foldPathError f fails⟩

theorem pathFoldOverPathsDiamond :
    new SampleInstruction.instructionSet [.gate ("CNOT") [0,1],.gate ("X") [0],.gate ("H") [1],.gate ("CNOT") [1,0]] =
        .ok ⟨⟨[.gate ("CNOT") [0,1],.gate ("X") [0],.gate ("H") [1],.gate ("CNOT") [1,0]],[(0,1),(0,2),(2,3),(1,3)]⟩⟩ ∧
      (∀ x ∈ [SampleInstruction.gate ("CNOT") [0,1],.gate ("X") [0],.gate ("H") [1],.gate ("CNOT") [1,0]],
        (SampleInstruction.instructionSet.getQubits x).Nodup) ∧
      ∃ r, DiGraph.pathFold (⟨[.gate ("CNOT") [0,1],.gate ("X") [0],.gate ("H") [1],.gate ("CNOT") [1,0]],
          [(0,1),(0,2),(2,3),(1,3)]⟩ : DiGraph SampleInstruction) 0 (fun (n : Nat) _ => (.ok (n + 1) : Except Unit Nat)) = some r := by
  have accepted : new SampleInstruction.instructionSet
      [.gate ("CNOT") [0,1],.gate ("X") [0],.gate ("H") [1],.gate ("CNOT") [1,0]] =
        .ok ⟨⟨[.gate ("CNOT") [0,1],.gate ("X") [0],.gate ("H") [1],.gate ("CNOT") [1,0]],[(0,1),(0,2),(2,3),(1,3)]⟩⟩ := rfl
  have distinct : ∀ x ∈ [SampleInstruction.gate ("CNOT") [0,1],.gate ("X") [0],.gate ("H") [1],.gate ("CNOT") [1,0]],
      (SampleInstruction.instructionSet.getQubits x).Nodup := by decide
  obtain ⟨r,run,-⟩ := pathFoldOverPaths _ accepted distinct 0 fun (n : Nat) _ => (.ok (n + 1) : Except Unit Nat)
  exact ⟨accepted,distinct,r,run⟩

/- The empty program builds a graph with no node, yet the stack starts with the seed and an
empty frontier, which the first iteration moves to the result. -/
theorem pathFoldEmptyGraph :
    new SampleInstruction.instructionSet [] = .ok ⟨⟨[],[]⟩⟩ ∧
      DiGraph.pathFold (⟨[],[]⟩ : DiGraph SampleInstruction) 0
        (fun (n : Nat) _ => (.ok (n + 1) : Except Unit Nat)) = some (.ok [0]) :=
  ⟨rfl,rfl⟩

end ExecutionGraph
end QuilRs
