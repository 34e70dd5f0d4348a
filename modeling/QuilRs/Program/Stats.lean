import QuilRs.Graph.Depth
/-! `gate_depth`, `gate_volume` and `body_instruction_count` of `QuilProgramStats` for `Program`
(program-stats/src/lib.rs), over the instructions of a program's body. `gate_depth` scans the body
keeping the depth of the current run of gates and the greatest depth seen: it is the length of the
longest run of consecutive gates in the text, at most `gate_volume`, and equal to it exactly when
all the gates of the body stand in one run; over two bodies one after the other it is the greater
depth, or the run across the join. It is not the execution graph's `gate_depth`. -/
namespace QuilRs.ProgramStats
open ExecutionGraph (isGate)
variable {I Q : Type} (S : InstructionSet I Q)

/-- One turn of `gate_depth`'s loop over `(max_depth, current_depth)`. -/
def gateDepthStep (depths : Nat × Nat) (instruction : I) : Nat × Nat :=
  if isGate S instruction then
    let currentDepth := depths.2 + 1
    (if currentDepth > depths.1 then currentDepth else depths.1,currentDepth)
  else (depths.1,0)

/-- `gate_depth`: `max_depth` after the loop over the body. -/
def gateDepth (body : List I) : Nat := (body.foldl (gateDepthStep S) (0,0)).1

/-- `gate_volume`: the gates of the body. -/
def gateVolume (body : List I) : Nat := (body.filter (isGate S)).length

/-- `body_instruction_count`: the instructions of the body. -/
def bodyInstructionCount (body : List I) : Nat := body.length

/-- The run of gates that ends `p`, which the loop keeps as `current_depth`. -/
def trailingGates (p : List I) : Nat := (p.reverse.takeWhile (isGate S)).length

/-- The loop state after the instructions `p`: `current_depth` is the run of gates ending `p`,
and `max_depth` bounds every run of gates in `p` and is the length of one. -/
structure LoopState (p : List I) (depths : Nat × Nat) : Prop where
  current : depths.2 = trailingGates S p
  bounds : ∀ pre run post, p = pre ++ run ++ post → (∀ x ∈ run, isGate S x = true) → run.length ≤ depths.1
  attained : ∃ pre run post, p = pre ++ run ++ post ∧ (∀ x ∈ run, isGate S x = true) ∧ run.length = depths.1

theorem trailingGatesConcat (p : List I) (x : I) :
    trailingGates S (p ++ [x]) = if isGate S x then trailingGates S p + 1 else 0 := by
  rw [trailingGates, List.reverse_append, List.reverse_singleton, List.singleton_append]
  split
  · rw [List.takeWhile_cons_of_pos ‹_›, List.length_cons, trailingGates]
  · rw [List.takeWhile_cons_of_neg ‹_›, List.length_nil]

theorem runLeTrailing (pre : List I) {run : List I} (gates : ∀ x ∈ run, isGate S x = true) :
    run.length ≤ trailingGates S (pre ++ run) := by
  rw [trailingGates, List.reverse_append,
    List.takeWhile_append_of_pos fun x inside => gates x (List.mem_reverse.mp inside),
    List.length_append, List.length_reverse]
  omega

theorem trailingRun (p : List I) :
    ∃ pre run, p = pre ++ run ∧ (∀ x ∈ run, isGate S x = true) ∧ run.length = trailingGates S p :=
  ⟨(p.reverse.dropWhile (isGate S)).reverse,(p.reverse.takeWhile (isGate S)).reverse,
    by rw [← List.reverse_append, List.takeWhile_append_dropWhile, List.reverse_reverse],
    fun _ inside => List.mem_takeWhile_imp (List.mem_reverse.mp inside),List.length_reverse _⟩

theorem splitConcat {p pre run post : List I} {x : I} (split : p ++ [x] = pre ++ run ++ post) :
    p ++ [x] = pre ++ run ∨ ∃ post', p = pre ++ run ++ post' := by
  rcases List.eq_nil_or_concat post with rfl | ⟨post',y,rfl⟩
  · exact .inl (by simpa using split)
  · rw [List.concat_eq_append, ← List.append_assoc] at split
    exact .inr ⟨post',(List.append_inj' split rfl).1⟩

theorem loopStateStep {p : List I} {depths : Nat × Nat} (state : LoopState S p depths) (x : I) :
    LoopState S (p ++ [x]) (gateDepthStep S depths x) := by
  obtain ⟨current,bounds,pre,run,post,whole,gates,length⟩ := state
  have kept : p ++ [x] = pre ++ run ++ (post ++ [x]) := by simp [whole]
  have runs : ∀ pre' run' post', p ++ [x] = pre' ++ run' ++ post' → (∀ y ∈ run', isGate S y = true) →
      run'.length ≤ trailingGates S (p ++ [x]) ∨ run'.length ≤ depths.1 := fun pre' run' post' split gates' =>
    (splitConcat split).imp (fun ends => by rw [ends]; exact runLeTrailing S pre' gates')
      fun ⟨_,inside⟩ => bounds _ _ _ inside gates'
  rw [trailingGatesConcat, ← current] at runs
  unfold gateDepthStep
  split
  · rename_i gate
    have counted : trailingGates S (p ++ [x]) = depths.2 + 1 := by rw [trailingGatesConcat, if_pos gate, current]
    simp only [if_pos gate] at runs
    refine ⟨counted.symm,fun pre' run' post' split gates' => ?_,?_⟩
    · have := runs pre' run' post' split gates'
      dsimp only
      split <;> omega
    · dsimp only
      split
      · obtain ⟨pre',run',ends,gates',length'⟩ := trailingRun S (p ++ [x])
        exact ⟨pre',run',[],by simpa using ends,gates',length'.trans counted⟩
      · exact ⟨pre,run,post ++ [x],kept,gates,length⟩
  · rename_i notGate
    simp only [if_neg notGate] at runs
    refine ⟨by rw [trailingGatesConcat, if_neg notGate],fun pre' run' post' split gates' => ?_,
      pre,run,post ++ [x],kept,gates,length⟩
    have := runs pre' run' post' split gates'
    omega

theorem loopStateRun (body : List I) : LoopState S body (body.foldl (gateDepthStep S) (0,0)) := by
  induction body using List.reverseRecOn with
  | nil =>
      refine ⟨rfl,fun pre run post split _ => ?_,[],[],[],rfl,by simp,rfl⟩
      simp [(List.append_eq_nil.mp (List.append_eq_nil.mp split.symm).1).2]
  | append_singleton p x ih =>
      rw [List.foldl_append, List.foldl_cons, List.foldl_nil]
      exact loopStateStep S ih x

theorem gateVolumeSplit (pre post : List I) {run : List I} (gates : ∀ x ∈ run, isGate S x = true) :
    gateVolume S (pre ++ run ++ post) = gateVolume S pre + run.length + gateVolume S post := by
  simp only [gateVolume, List.filter_append, List.length_append, List.filter_eq_self.mpr gates]

theorem gateVolumeZeroIff (l : List I) : gateVolume S l = 0 ↔ ∀ x ∈ l, isGate S x = false := by
  simp [gateVolume, List.filter_eq_nil_iff]

theorem gateDepthLongestRun (body : List I) :
    (∀ pre run post, body = pre ++ run ++ post → (∀ x ∈ run, isGate S x = true) →
        run.length ≤ gateDepth S body) ∧
      (∃ pre run post, body = pre ++ run ++ post ∧ (∀ x ∈ run, isGate S x = true) ∧
        run.length = gateDepth S body) ∧
      gateDepth S body ≤ gateVolume S body ∧
      (gateDepth S body = gateVolume S body ↔ ∃ pre run post, body = pre ++ run ++ post ∧
        (∀ x ∈ run, isGate S x = true) ∧ ∀ x ∈ pre ++ post, isGate S x = false) := by
  obtain ⟨-,bounds,pre,run,post,whole,gates,length⟩ := loopStateRun S body
  have depth : gateDepth S body = run.length := length.symm
  have volume := gateVolumeSplit S pre post gates
  rw [← whole] at volume
  refine ⟨bounds,⟨pre,run,post,whole,gates,length⟩,by omega,fun same => ⟨pre,run,post,whole,gates,?_⟩,?_⟩
  · rw [List.forall_mem_append, ← gateVolumeZeroIff, ← gateVolumeZeroIff]
    omega
  · rintro ⟨pre',run',post',whole',gates',others⟩
    have split := gateVolumeSplit S pre' post' gates'
    rw [← whole'] at split
    rw [List.forall_mem_append, ← gateVolumeZeroIff, ← gateVolumeZeroIff] at others
    have : run'.length ≤ gateDepth S body := bounds pre' run' post' whole' gates'
    omega

/-! ### Joined bodies -/

def leadingGates (p : List I) : Nat := (p.takeWhile (isGate S)).length

theorem runLeLeading {run : List I} (post : List I) (gates : ∀ x ∈ run, isGate S x = true) :
    run.length ≤ leadingGates S (run ++ post) := by
  rw [leadingGates, List.takeWhile_append_of_pos gates, List.length_append]
  omega

theorem leadingRun (p : List I) :
    ∃ run post, p = run ++ post ∧ (∀ x ∈ run, isGate S x = true) ∧ run.length = leadingGates S p :=
  ⟨p.takeWhile (isGate S),p.dropWhile (isGate S),(List.takeWhile_append_dropWhile _ _).symm,
    fun _ inside => List.mem_takeWhile_imp inside,rfl⟩

theorem runLeDepth (pre post : List I) {run : List I} (gates : ∀ x ∈ run, isGate S x = true) :
    run.length ≤ gateDepth S (pre ++ run ++ post) :=
  (loopStateRun S (pre ++ run ++ post)).bounds pre run post rfl gates

theorem runOfAppend {a b pre run post : List I} (whole : a ++ b = pre ++ run ++ post)
    (gates : ∀ x ∈ run, isGate S x = true) :
    run.length ≤ max (max (gateDepth S a) (gateDepth S b)) (trailingGates S a + leadingGates S b) := by
  rcases List.append_eq_append_iff.mp whole.symm with ⟨a',inA,-⟩ | ⟨c',front,back⟩
  · have := runLeDepth S pre a' gates
    rw [← inA] at this
    omega
  rcases List.append_eq_append_iff.mp front with ⟨a'',ends,rfl⟩ | ⟨c'',-,inB⟩
  · have tail := runLeTrailing S pre fun x inside => gates x (List.mem_append_left _ inside)
    have head := runLeLeading S post fun x inside => gates x (List.mem_append_right _ inside)
    rw [← ends] at tail
    rw [← back] at head
    rw [List.length_append]
    omega
  · have := runLeDepth S c'' post gates
    rw [← inB, ← back] at this
    omega

theorem gateDepthAppend (a b : List I) :
    gateDepth S (a ++ b) = max (max (gateDepth S a) (gateDepth S b)) (trailingGates S a + leadingGates S b) := by
  apply Nat.le_antisymm
  · obtain ⟨pre,run,post,whole,gates,length⟩ := (loopStateRun S (a ++ b)).attained
    have depth : gateDepth S (a ++ b) = run.length := length.symm
    exact depth ▸ runOfAppend S whole gates
  · obtain ⟨pre,run,post,inA,gates,length⟩ := (loopStateRun S a).attained
    obtain ⟨pre',run',post',inB,gates',length'⟩ := (loopStateRun S b).attained
    obtain ⟨pre'',tail,ends,tailGates,tailLength⟩ := trailingRun S a
    obtain ⟨head,post'',starts,headGates,headLength⟩ := leadingRun S b
    have first : run.length ≤ gateDepth S (a ++ b) := by
      rw [inA]; simpa using runLeDepth S pre (post ++ b) gates
    have second : run'.length ≤ gateDepth S (a ++ b) := by
      rw [inB]; simpa using runLeDepth S (a ++ pre') post' gates'
    have across : (tail ++ head).length ≤ gateDepth S (a ++ b) := by
      rw [ends, starts]
      simpa using runLeDepth S pre'' post'' fun x inside => (List.mem_append.mp inside).elim (tailGates x) (headGates x)
    have depthA : gateDepth S a = run.length := length.symm
    have depthB : gateDepth S b = run'.length := length'.symm
    rw [List.length_append] at across
    omega

end QuilRs.ProgramStats
