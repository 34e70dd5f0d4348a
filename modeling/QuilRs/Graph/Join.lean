import QuilRs.Graph.Depth
/-! The execution graph of two bodies one after the other (quil-rs/src/stats/execution_graph.rs).
`ExecutionGraph::new` accepts the joined body exactly when it accepts each of the two, and then
its `gate_depth` and `multi_qubit_gate_depth` lie between the greater of the two bodies' depths
and their sum. The per-qubit scan that gives the depths runs over the second body from the state
the first leaves, whose qubits stand no higher than the first body's depth. -/
namespace QuilRs.ExecutionGraph
variable {I Q : Type} [DecidableEq Q] (S : InstructionSet I Q)

/-! ### Accepting -/

theorem buildGood {b b' : Builder I Q} {s : List I} (ok : s.foldlM (addInstruction S) b = .ok b') :
    ∀ y ∈ s, roleCheck S y = .ok () := by
  induction s generalizing b with
  | nil => simp
  | cons x xs ih =>
      rcases roleCheckCases S x with good | bad
      · rw [buildConsOk S xs good] at ok
        exact List.forall_mem_cons.mpr ⟨good,ih ok⟩
      · rw [buildConsError S xs bad] at ok
        cases ok

theorem newIff (s : List I) : (∃ g, new S s = .ok g) ↔ ∀ y ∈ s, roleCheck S y = .ok () := by
  constructor
  · rintro ⟨g,accepted⟩
    unfold new at accepted
    cases ok : s.foldlM (addInstruction S) ⟨fun _ => none,DiGraph.empty⟩ with
    | error e => simp [ok, bind, Except.bind] at accepted
    | ok b => exact buildGood S ok
  · intro good
    obtain ⟨b,ok⟩ : ∃ b, s.foldlM (addInstruction S) ⟨fun _ => none,DiGraph.empty⟩ = .ok b := buildAccepts S good
    exact ⟨⟨b.graph⟩,by simp [new, ok, bind, Except.bind, pure, Except.pure]⟩

/-! ### Scanning one body after another -/

theorem foldDominated (counts : I → Bool) : ∀ (s : List I) (state : (Q → Nat) × Nat), Dominated state →
    Dominated (s.foldl (scanStep S counts) state)
  | [], _, held => held
  | x :: xs, _, held => foldDominated counts xs _ (scanStepDominated S counts held x)

theorem scanShift (counts : I → Bool) (shift best : Nat) : ∀ (s : List I) (state other : (Q → Nat) × Nat),
    (∀ q, state.1 q ≤ shift + other.1 q) → state.2 ≤ max best (shift + other.2) →
      (s.foldl (scanStep S counts) state).2 ≤ max best (shift + (s.foldl (scanStep S counts) other).2)
  | [], _, _, _, top => top
  | x :: xs, state, other, each, top => by
      have raise : ((S.getQubits x).map state.1).max?.getD 0 ≤ shift + ((S.getQubits x).map other.1).max?.getD 0 :=
        maxDLe fun y mem => by
          obtain ⟨q,hq,rfl⟩ := List.mem_map.mp mem
          exact (each q).trans (Nat.add_le_add_left (leMaxD (List.mem_map_of_mem _ hq)) _)
      refine scanShift counts shift best xs _ _ (fun q => ?_) ?_ <;> simp only [scanStep]
      · split <;> [omega; exact each q]
      · omega

theorem depthScanAppend (counts : I → Bool) (a b : List I) :
    max (depthScan S counts a) (depthScan S counts b) ≤ depthScan S counts (a ++ b) ∧
      depthScan S counts (a ++ b) ≤ depthScan S counts a + depthScan S counts b := by
  have first := scanBestGrows S counts b (a.foldl (scanStep S counts) (fun _ => 0,0))
  have second := scanMonotone S (fun _ h => h : ∀ x, counts x = true → counts x = true) b (fun _ => 0,0)
    (a.foldl (scanStep S counts) (fun _ => 0,0)) (fun _ => Nat.zero_le _) (Nat.zero_le _)
  have held := foldDominated S counts a (fun _ => 0,0) fun _ => le_refl 0
  have upper := scanShift S counts (depthScan S counts a) (depthScan S counts a) b _ (fun _ => 0,0)
    (fun q => held q) (le_max_left _ _)
  unfold depthScan at *
  rw [List.foldl_append]
  omega

/-! ### The joined graph -/

theorem depthByJoin [Inhabited I] (E : Type) (counts : I → Bool) {a b : List I} {g ga gb : ExecutionGraph I}
    (joined : new S (a ++ b) = .ok g) (first : new S a = .ok ga) (second : new S b = .ok gb)
    (distinct : ∀ x ∈ a ++ b, (S.getQubits x).Nodup) :
    ∃ d da db, depthBy E counts g = some d ∧ depthBy E counts ga = some da ∧ depthBy E counts gb = some db ∧
      max da db ≤ d ∧ d ≤ da + db :=
  ⟨_,_,_,depthByNew S E counts joined distinct,
    depthByNew S E counts first fun x inside => distinct x (List.mem_append_left _ inside),
    depthByNew S E counts second fun x inside => distinct x (List.mem_append_right _ inside),
    depthScanAppend S counts a b⟩

theorem newJoinDepths [Inhabited I] (a b : List I) (distinct : ∀ x ∈ a ++ b, (S.getQubits x).Nodup) :
    ((∃ g, new S (a ++ b) = .ok g) ↔ (∃ g, new S a = .ok g) ∧ ∃ g, new S b = .ok g) ∧
      ∀ g ga gb, new S (a ++ b) = .ok g → new S a = .ok ga → new S b = .ok gb →
        (∃ d da db, gateDepth S g = some d ∧ gateDepth S ga = some da ∧ gateDepth S gb = some db ∧
          max da db ≤ d ∧ d ≤ da + db) ∧
        ∃ d da db, multiQubitGateDepth S g = some d ∧ multiQubitGateDepth S ga = some da ∧
          multiQubitGateDepth S gb = some db ∧ max da db ≤ d ∧ d ≤ da + db := by
  refine ⟨by rw [newIff, newIff, newIff, List.forall_mem_append],fun g ga gb joined first second => ⟨?_,?_⟩⟩
  all_goals exact depthByJoin S _ _ joined first second distinct

/- `H 0` then `CNOT 0 1`. -/
theorem newJoinDepthsBell :
    (∀ x ∈ [SampleInstruction.gate "H" [0]] ++ [.gate "CNOT" [0,1]],
        (SampleInstruction.instructionSet.getQubits x).Nodup) ∧
      ((∃ g, new SampleInstruction.instructionSet ([.gate "H" [0]] ++ [.gate "CNOT" [0,1]]) = .ok g) ↔
          (∃ g, new SampleInstruction.instructionSet [.gate "H" [0]] = .ok g) ∧
            ∃ g, new SampleInstruction.instructionSet [.gate "CNOT" [0,1]] = .ok g) ∧
      ∀ g ga gb, new SampleInstruction.instructionSet ([.gate "H" [0]] ++ [.gate "CNOT" [0,1]]) = .ok g →
        new SampleInstruction.instructionSet [.gate "H" [0]] = .ok ga →
        new SampleInstruction.instructionSet [.gate "CNOT" [0,1]] = .ok gb →
        (∃ d da db, gateDepth SampleInstruction.instructionSet g = some d ∧
          gateDepth SampleInstruction.instructionSet ga = some da ∧
          gateDepth SampleInstruction.instructionSet gb = some db ∧ max da db ≤ d ∧ d ≤ da + db) ∧
        ∃ d da db, multiQubitGateDepth SampleInstruction.instructionSet g = some d ∧
          multiQubitGateDepth SampleInstruction.instructionSet ga = some da ∧
          multiQubitGateDepth SampleInstruction.instructionSet gb = some db ∧ max da db ≤ d ∧ d ≤ da + db :=
  ⟨by decide,newJoinDepths SampleInstruction.instructionSet _ _ (by decide)⟩

end QuilRs.ExecutionGraph
