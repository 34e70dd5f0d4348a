import Mathlib.Data.List.Basic
/-! `RenderSettings::impute_missing_qubits` (src/program/latex/settings.rs) over a model of the
`BTreeMap` of wires it fills. A `+` or `-` on a `u64` is taken as a debug build runs it, panicking
on overflow, here `none`. The key after the first is computed before the map is seen to hold a
second key, so the circuit whose only qubit is `u64::MAX` overflows; on every other circuit the
function adds, at each qubit between the first and the last that has no wire, a wire of
`last_column` default columns, and keeps every wire it had. What it returns it returns again. -/
namespace QuilRs

/-! ### `u64` arithmetic -/

/-- `u64::MAX`. -/
def u64Max : UInt64 := 18446744073709551615

/-- `a + b` on `u64` in a debug build: `none` where it overflows, which panics. -/
def u64Add (a b : UInt64) : Option UInt64 := if a.toNat + b.toNat < UInt64.size then some (a + b) else none

/-- `a - b` on `u64` in a debug build: `none` where it overflows, which panics. -/
def u64Sub (a b : UInt64) : Option UInt64 := if b ≤ a then some (a - b) else none

/-- The `u64`s of `first..=last`, in increasing order. -/
def rangeInclusive (first last : UInt64) : List UInt64 :=
  (List.range' first.toNat (last.toNat + 1 - first.toNat)).map UInt64.ofNat

theorem u64LeIff {a b : UInt64} : a ≤ b ↔ a.toNat ≤ b.toNat := Iff.rfl

theorem u64LtIff {a b : UInt64} : a < b ↔ a.toNat < b.toNat := Iff.rfl

theorem u64AddSome {a b : UInt64} (fits : a.toNat + b.toNat < UInt64.size) :
    ∃ s, u64Add a b = some s ∧ s.toNat = a.toNat + b.toNat :=
  ⟨a + b,if_pos fits,by
    rw [show (a + b).toNat = (a.toNat + b.toNat) % UInt64.size from BitVec.toNat_add _ _, Nat.mod_eq_of_lt fits]⟩

theorem u64SubSome {a b : UInt64} (fits : b.toNat ≤ a.toNat) :
    ∃ d, u64Sub a b = some d ∧ d.toNat = a.toNat - b.toNat :=
  ⟨a - b,if_pos fits,UInt64.toNat_sub_of_le _ _ fits⟩

theorem memRangeInclusive {first last q : UInt64} :
    q ∈ rangeInclusive first last ↔ first.toNat ≤ q.toNat ∧ q.toNat ≤ last.toNat := by
  have exact : ∀ m, m ≤ last.toNat → (UInt64.ofNat m).toNat = m := fun m h =>
    UInt64.toNat_ofNat_of_lt (by have := last.toNat_lt_size; omega)
  simp only [rangeInclusive, List.mem_map, List.mem_range'_1]
  constructor
  · rintro ⟨m,bounds,rfl⟩
    rw [exact m (by omega)]
    omega
  · intro bounds
    exact ⟨q.toNat,by omega,UInt64.toNat.inj (exact _ bounds.2)⟩

/-! ### `BTreeMap<u64, V>` -/

/-- `BTreeMap<u64, V>`: its entries in increasing order of key. -/
structure BTreeMap (V : Type) where
  entries : List (UInt64 × V)
  increasing : (entries.map Prod.fst).Pairwise (· < ·)

namespace BTreeMap
variable {V : Type}

/-- `keys()`, in increasing order. -/
def keys (m : BTreeMap V) : List UInt64 := m.entries.map Prod.fst

/-- `entry(key).or_insert(value)` on the entries: `value` goes in at its place in the order,
unless `key` is there already. -/
def insertAbsent (key : UInt64) (value : V) : List (UInt64 × V) → List (UInt64 × V)
  | [] => [(key,value)]
  | (k,v) :: rest =>
      if key < k then (key,value) :: (k,v) :: rest
      else if key = k then (k,v) :: rest
      else (k,v) :: insertAbsent key value rest

section Insert
variable (key : UInt64) (value : V)

theorem memInsertAbsent {l : List (UInt64 × V)} (increasing : (l.map Prod.fst).Pairwise (· < ·))
    (e : UInt64 × V) : e ∈ insertAbsent key value l ↔ e ∈ l ∨ e = (key,value) ∧ key ∉ l.map Prod.fst := by
  induction l with
  | nil => simp [insertAbsent]
  | cons p rest ih =>
      obtain ⟨k,v⟩ := p
      simp only [List.map_cons, List.pairwise_cons] at increasing
      unfold insertAbsent
      split
      · rename_i less
        have absent : key ∉ rest.map Prod.fst := fun inside =>
          absurd (UInt64.lt_trans less (increasing.1 key inside)) (UInt64.lt_irrefl key)
        simp only [List.mem_cons, List.map_cons, absent, UInt64.ne_of_lt less, or_self,
          not_false_eq_true, and_true]
        exact or_comm
      · split
        · rename_i same
          subst same
          simp
        · rename_i _ other
          simp only [List.mem_cons, List.map_cons, ih increasing.2, other, false_or]
          exact or_assoc.symm

theorem keysInsertAbsent {l : List (UInt64 × V)} (increasing : (l.map Prod.fst).Pairwise (· < ·))
    (x : UInt64) : x ∈ (insertAbsent key value l).map Prod.fst ↔ x = key ∨ x ∈ l.map Prod.fst := by
  constructor
  · intro inside
    obtain ⟨e,he,rfl⟩ := List.mem_map.mp inside
    rcases (memInsertAbsent key value increasing e).mp he with old | ⟨rfl,-⟩
    · exact .inr (List.mem_map_of_mem Prod.fst old)
    · exact .inl rfl
  · intro h
    by_cases present : x ∈ l.map Prod.fst
    · obtain ⟨e,he,rfl⟩ := List.mem_map.mp present
      exact List.mem_map_of_mem Prod.fst ((memInsertAbsent key value increasing e).mpr (.inl he))
    · have same : x = key := h.resolve_right present
      exact List.mem_map.mpr ⟨(key,value),
        (memInsertAbsent key value increasing _).mpr (.inr ⟨rfl,same ▸ present⟩),same.symm⟩

theorem insertAbsentIncreasing {l : List (UInt64 × V)} (increasing : (l.map Prod.fst).Pairwise (· < ·)) :
    ((insertAbsent key value l).map Prod.fst).Pairwise (· < ·) := by
  induction l with
  | nil => simp [insertAbsent]
  | cons p rest ih =>
      obtain ⟨k,v⟩ := p
      have tail := (List.pairwise_cons.mp increasing).2
      have above : ∀ x ∈ rest.map Prod.fst, k < x := (List.pairwise_cons.mp increasing).1
      unfold insertAbsent
      split
      · rename_i less
        refine List.pairwise_cons.mpr ⟨fun x inside => ?_,increasing⟩
        rcases List.mem_cons.mp inside with rfl | later
        · exact less
        · exact UInt64.lt_trans less (above x later)
      · split
        · exact increasing
        · rename_i notLess other
          refine List.pairwise_cons.mpr ⟨fun x inside => show k < x from ?_,ih tail⟩
          rcases (keysInsertAbsent key value tail x).mp inside with rfl | later
          · rw [u64LtIff] at notLess ⊢
            have : k.toNat ≠ x.toNat := fun h => other (UInt64.toNat.inj h).symm
            omega
          · exact above x later

theorem insertAbsentPresent {l : List (UInt64 × V)} (increasing : (l.map Prod.fst).Pairwise (· < ·))
    (present : key ∈ l.map Prod.fst) : insertAbsent key value l = l := by
  induction l with
  | nil => simp at present
  | cons p rest ih =>
      obtain ⟨k,v⟩ := p
      simp only [List.map_cons, List.pairwise_cons, List.mem_cons] at increasing present
      unfold insertAbsent
      by_cases below : key < k
      · rcases present with rfl | later
        · exact absurd below (by rw [u64LtIff]; omega)
        · exact absurd (increasing.1 key later) (by rw [u64LtIff] at below ⊢; omega)
      · by_cases same : key = k
        · rw [if_neg below, if_pos same]
        · rw [if_neg below, if_neg same, ih increasing.2 (present.resolve_left same)]

end Insert

/-- `entry(key).or_insert_with(|| value)`. -/
def entryOrInsertWith (m : BTreeMap V) (key : UInt64) (value : V) : BTreeMap V :=
  ⟨insertAbsent key value m.entries,insertAbsentIncreasing key value m.increasing⟩

theorem keysEntryOrInsertWith (m : BTreeMap V) (key : UInt64) (value : V) (x : UInt64) :
    x ∈ (m.entryOrInsertWith key value).keys ↔ x = key ∨ x ∈ m.keys :=
  keysInsertAbsent key value m.increasing x

/-- `after` is `before` with `value` put in at those of `keys` it lacks: every entry is kept, the
entries it gains hold `value`, and its keys are the old ones and `keys`. -/
structure Fills (before after : BTreeMap V) (keys : List UInt64) (value : V) : Prop where
  kept : ∀ e ∈ before.entries, e ∈ after.entries
  added : ∀ e ∈ after.entries, e ∈ before.entries ∨ e.2 = value
  keys : ∀ x, x ∈ after.keys ↔ x ∈ before.keys ∨ x ∈ keys

theorem Fills.entryOrInsertWith (m : BTreeMap V) (key : UInt64) (value : V) :
    Fills m (m.entryOrInsertWith key value) [key] value where
  kept e inside := (memInsertAbsent key value m.increasing e).mpr (.inl inside)
  added e inside := ((memInsertAbsent key value m.increasing e).mp inside).imp_right fun ⟨h,_⟩ => h ▸ rfl
  keys x := by rw [keysEntryOrInsertWith, List.mem_singleton, or_comm]

theorem Fills.trans {a b c : BTreeMap V} {ks ks' : List UInt64} {value : V}
    (first : Fills a b ks value) (second : Fills b c ks' value) : Fills a c (ks ++ ks') value where
  kept e inside := second.kept e (first.kept e inside)
  added e inside := (second.added e inside).elim (first.added e) .inr
  keys x := by rw [second.keys, first.keys, List.mem_append, or_assoc]

theorem fillsFold (value : V) (keys : List UInt64) : ∀ m : BTreeMap V,
    Fills m (keys.foldl (fun m key => m.entryOrInsertWith key value) m) keys value := by
  induction keys with
  | nil => exact fun m => ⟨fun _ h => h,fun _ h => .inl h,fun x => by simp⟩
  | cons key keys ih => exact fun m => (Fills.entryOrInsertWith m key value).trans (ih _)

theorem foldPresent (value : V) (keys : List UInt64) : ∀ m : BTreeMap V, (∀ k ∈ keys, k ∈ m.keys) →
    keys.foldl (fun m key => m.entryOrInsertWith key value) m = m := by
  induction keys with
  | nil => exact fun _ _ => rfl
  | cons key keys ih =>
      intro m present
      have same : m.entryOrInsertWith key value = m := by
        obtain ⟨entries,increasing⟩ := m
        simp only [entryOrInsertWith, mk.injEq]
        exact insertAbsentPresent key value increasing (present key (List.mem_cons_self _ _))
      rw [List.foldl_cons, same, ih m fun k inside => present k (List.mem_cons_of_mem _ inside)]

end BTreeMap

/-! ### Sorted keys -/

theorem keysBounds {first : UInt64} {rest : List UInt64} (increasing : (first :: rest).Pairwise (· < ·)) :
    ∀ k ∈ first :: rest, first.toNat ≤ k.toNat ∧ k.toNat ≤ (rest.getLast?.getD first).toNat := by
  intro k inside
  have least : first.toNat ≤ k.toNat := by
    rcases List.mem_cons.mp inside with rfl | later
    · exact le_refl _
    · exact le_of_lt ((List.pairwise_cons.mp increasing).1 k later)
  refine ⟨least,?_⟩
  cases last : rest.getLast? with
  | none =>
      rw [List.getLast?_eq_none_iff.mp last, List.mem_singleton] at inside
      exact inside ▸ le_refl _
  | some hi =>
      obtain ⟨init,rfl⟩ := List.getLast?_eq_some_iff.mp last
      rw [← List.cons_append, List.pairwise_append] at increasing
      rw [← List.cons_append, List.mem_append, List.mem_singleton] at inside
      rcases inside with before | rfl
      · exact le_of_lt (increasing.2.2 k before hi (List.mem_singleton_self hi))
      · exact le_refl _

theorem betweenKeys {first : UInt64} {rest : List UInt64} (increasing : (first :: rest).Pairwise (· < ·))
    (q : UInt64) : (∃ lo ∈ first :: rest, ∃ hi ∈ first :: rest, lo ≤ q ∧ q ≤ hi) ↔
      q ∈ first :: rest ∨ first.toNat < q.toNat ∧ q.toNat < (rest.getLast?.getD first).toNat := by
  have lastIn : rest.getLast?.getD first ∈ first :: rest := by
    cases last : rest.getLast? with
    | none => exact List.mem_cons_self _ _
    | some hi => exact List.mem_cons_of_mem _ (List.mem_of_getLast?_eq_some last)
  constructor
  · rintro ⟨lo,loIn,hi,hiIn,above,below⟩
    rw [u64LeIff] at above below
    have := keysBounds increasing lo loIn
    have := keysBounds increasing hi hiIn
    by_cases atFirst : q.toNat = first.toNat
    · exact .inl (UInt64.toNat.inj atFirst ▸ List.mem_cons_self _ _)
    by_cases atLast : q.toNat = (rest.getLast?.getD first).toNat
    · exact .inl (UInt64.toNat.inj atLast ▸ lastIn)
    exact .inr ⟨by omega,by omega⟩
  · rintro (inside | ⟨above,below⟩)
    · exact ⟨q,inside,q,inside,UInt64.le_refl q,UInt64.le_refl q⟩
    · exact ⟨first,List.mem_cons_self _ _,_,lastIn,le_of_lt above,le_of_lt below⟩

theorem betweenClosed {ks ks' : List UInt64} (keys : ∀ q, q ∈ ks' ↔ ∃ lo ∈ ks, ∃ hi ∈ ks, lo ≤ q ∧ q ≤ hi)
    (q : UInt64) (between : ∃ lo ∈ ks', ∃ hi ∈ ks', lo ≤ q ∧ q ≤ hi) : q ∈ ks' := by
  obtain ⟨lo,loIn,hi,hiIn,loLe,leHi⟩ := between
  obtain ⟨lo',lo'In,-,-,lo'Le,-⟩ := (keys lo).mp loIn
  obtain ⟨-,-,hi',hi'In,-,hiLe⟩ := (keys hi).mp hiIn
  rw [u64LeIff] at loLe leHi lo'Le hiLe
  exact (keys q).mpr ⟨lo',lo'In,hi',hi'In,u64LeIff.mpr (by omega),u64LeIff.mpr (by omega)⟩

theorem betweenNotOnlyMax {ks ks' : List UInt64} (increasing : ks.Pairwise (· < ·)) (fits : ks ≠ [u64Max])
    (keys : ∀ q, q ∈ ks' ↔ ∃ lo ∈ ks, ∃ hi ∈ ks, lo ≤ q ∧ q ≤ hi) : ks' ≠ [u64Max] := fun onlyMax => by
  obtain ⟨lo,loIn,-,-,-,-⟩ := (keys u64Max).mp (by rw [onlyMax]; exact List.mem_singleton_self _)
  have atMax : ∀ k ∈ ks, k = u64Max := fun k inside => List.mem_singleton.mp
    (onlyMax ▸ (keys k).mpr ⟨k,inside,k,inside,u64LeIff.mpr (le_refl _),u64LeIff.mpr (le_refl _)⟩)
  match ks, loIn, atMax, increasing, fits with
  | [_], _, atMax, _, fits => exact fits (by rw [atMax _ (List.mem_singleton_self _)])
  | a :: b :: _, _, atMax, increasing, _ =>
      have below := (List.pairwise_cons.mp increasing).1 b (List.mem_cons_self _ _)
      rw [atMax a (List.mem_cons_self _ _), atMax b (List.mem_cons_of_mem _ (List.mem_cons_self _ _)),
        u64LtIff] at below
      omega

/-! ### Imputing wires -/

/-- Modelled from the spec: the `Wire` that `impute_missing_qubits` builds, with its `columns`
(the `wire.rs` under src/ has no such field); its other fields are not read here. -/
structure Wire (C : Type) where
  columns : List C
  deriving DecidableEq, Repr

variable {C : Type} [Inhabited C]

/-- The wire `or_insert_with` builds: `Wire::default()`, then `last_column` pushes of
`QuantikzColumn::default()`. -/
def imputedWire (lastColumn : Nat) : Wire C :=
  (List.range lastColumn).foldl (fun wire _ => ⟨wire.columns ++ [default]⟩) ⟨[]⟩

theorem imputedWireColumns (lastColumn : Nat) :
    (imputedWire lastColumn : Wire C).columns = List.replicate lastColumn default := by
  suffices ∀ n (wire : Wire C), ((List.range n).foldl (fun wire _ => ⟨wire.columns ++ [default]⟩) wire).columns =
      wire.columns ++ List.replicate n default from this lastColumn ⟨[]⟩
  intro n
  induction n with
  | zero => simp
  | succ n ih => intro wire; simp [List.range_succ, ih, List.replicate_succ']

/-- `impute_missing_qubits`; `none` where a `+` or `-` on a key overflows. -/
def imputeMissingQubits (lastColumn : Nat) (circuit : BTreeMap (Wire C)) : Option (BTreeMap (Wire C)) :=
  match circuit.keys with
  | [] => some circuit
  | first :: rest => do
      let first ← u64Add first 1
      match rest.getLast? with
      | none => some circuit
      | some last => do
          let last ← u64Sub last 1
          some ((rangeInclusive first last).foldl
            (fun circuit qubit => circuit.entryOrInsertWith qubit (imputedWire lastColumn)) circuit)

theorem imputeMissingQubitsFills (lastColumn : Nat) (circuit : BTreeMap (Wire C))
    (fits : circuit.keys ≠ [u64Max]) :
    ∃ ks : List UInt64, imputeMissingQubits lastColumn circuit = some (ks.foldl
        (fun circuit qubit => circuit.entryOrInsertWith qubit (imputedWire lastColumn)) circuit) ∧
      ∀ q, (q ∈ circuit.keys ∨ q ∈ ks) ↔ ∃ lo ∈ circuit.keys, ∃ hi ∈ circuit.keys, lo ≤ q ∧ q ≤ hi := by
  have increasing : circuit.keys.Pairwise (· < ·) := circuit.increasing
  have size : UInt64.size = 18446744073709551616 := rfl
  have one : (1 : UInt64).toNat = 1 := rfl
  cases keys : circuit.keys with
  | nil => exact ⟨[],by simp [imputeMissingQubits, keys],by simp⟩
  | cons first rest =>
      rw [keys] at increasing fits
      have between := betweenKeys increasing
      cases last : rest.getLast? with
      | none =>
          obtain rfl := List.getLast?_eq_none_iff.mp last
          have notMax : first.toNat ≠ u64Max.toNat := fun h => fits (by rw [UInt64.toNat.inj h])
          have maxValue : u64Max.toNat = 18446744073709551615 := rfl
          have := first.toNat_lt_size
          obtain ⟨next,add,-⟩ := u64AddSome (a := first) (b := 1) (by omega)
          refine ⟨[],by simp [imputeMissingQubits, keys, add],fun q => ?_⟩
          have empty : ¬(first.toNat < q.toNat ∧ q.toNat < first.toNat) := fun h => by omega
          rw [between q]
          simp [empty]
      | some hi =>
          have below : first.toNat < hi.toNat :=
            (List.pairwise_cons.mp increasing).1 hi (List.mem_of_getLast?_eq_some last)
          have := hi.toNat_lt_size
          obtain ⟨next,add,nextValue⟩ := u64AddSome (a := first) (b := 1) (by omega)
          obtain ⟨prev,sub,prevValue⟩ := u64SubSome (a := hi) (b := 1) (by omega)
          refine ⟨rangeInclusive next prev,by simp [imputeMissingQubits, keys, add, last, sub],fun q => ?_⟩
          rw [between q, memRangeInclusive, nextValue, prevValue, last, Option.getD_some, one]
          exact or_congr_right ⟨fun _ => by omega,fun _ => by omega⟩

/- The circuit whose only qubit is `u64::MAX`, whatever its wire and the column count: `wire + 1`
on the first key overflows. -/
theorem imputeMissingQubitsOverflows (lastColumn : Nat) (circuit : BTreeMap (Wire C))
    (onlyMax : circuit.keys = [u64Max]) : imputeMissingQubits lastColumn circuit = none := by
  have overflow : u64Add u64Max 1 = none := if_neg (by decide)
  simp [imputeMissingQubits, onlyMax, overflow]

theorem imputeMissingQubitsOverflowsAtMax :
    (⟨[(u64Max,⟨[]⟩)],List.pairwise_singleton _ _⟩ : BTreeMap (Wire Unit)).keys = [u64Max] ∧
      imputeMissingQubits 1 (⟨[(u64Max,⟨[]⟩)],List.pairwise_singleton _ _⟩ : BTreeMap (Wire Unit)) = none :=
  ⟨rfl,imputeMissingQubitsOverflows 1 _ rfl⟩

theorem imputeMissingQubitsLaw (lastColumn : Nat) (circuit : BTreeMap (Wire C))
    (fits : circuit.keys ≠ [u64Max]) :
    ∃ imputed, imputeMissingQubits lastColumn circuit = some imputed ∧
      (∀ q, q ∈ imputed.keys ↔ ∃ lo ∈ circuit.keys, ∃ hi ∈ circuit.keys, lo ≤ q ∧ q ≤ hi) ∧
      (∀ e ∈ circuit.entries, e ∈ imputed.entries) ∧
      (∀ e ∈ imputed.entries, e.1 ∉ circuit.keys → e.2.columns = List.replicate lastColumn default) := by
  obtain ⟨ks,result,between⟩ := imputeMissingQubitsFills lastColumn circuit fits
  have fills := BTreeMap.fillsFold (imputedWire lastColumn) ks circuit
  refine ⟨_,result,fun q => (fills.keys q).trans (between q),fills.kept,fun e inside fresh => ?_⟩
  rcases fills.added e inside with old | new
  · exact absurd (List.mem_map_of_mem Prod.fst old) fresh
  · rw [new, imputedWireColumns]

theorem imputeMissingQubitsLawCnot :
    (⟨[(0,⟨[()]⟩),(2,⟨[()]⟩)],by decide⟩ : BTreeMap (Wire Unit)).keys ≠ [u64Max] ∧
    ∃ imputed, imputeMissingQubits 2 (⟨[(0,⟨[()]⟩),(2,⟨[()]⟩)],by decide⟩ : BTreeMap (Wire Unit)) = some imputed ∧
      (∀ q, q ∈ imputed.keys ↔ ∃ lo ∈ [(0 : UInt64),2], ∃ hi ∈ [(0 : UInt64),2], lo ≤ q ∧ q ≤ hi) ∧
      (∀ e ∈ [((0 : UInt64),(⟨[()]⟩ : Wire Unit)),(2,⟨[()]⟩)], e ∈ imputed.entries) ∧
      (∀ e ∈ imputed.entries, e.1 ∉ [(0 : UInt64),2] → e.2.columns = List.replicate 2 default) :=
  ⟨by decide,imputeMissingQubitsLaw 2 _ (by decide)⟩

theorem u64AddMaxOverflows : u64Add u64Max 1 = none := if_neg (by decide)

theorem imputeMissingQubitsIdempotent (lastColumn : Nat) (circuit imputed : BTreeMap (Wire C))
    (done : imputeMissingQubits lastColumn circuit = some imputed) :
    imputeMissingQubits lastColumn imputed = some imputed := by
  have fits : circuit.keys ≠ [u64Max] := fun onlyMax => by
    simp [imputeMissingQubits, onlyMax, u64AddMaxOverflows] at done
  obtain ⟨ks,result,between⟩ := imputeMissingQubitsFills lastColumn circuit fits
  rw [done, Option.some.injEq] at result
  have fills := BTreeMap.fillsFold (imputedWire lastColumn) ks circuit
  rw [← result] at fills
  have keys : ∀ q, q ∈ imputed.keys ↔ ∃ lo ∈ circuit.keys, ∃ hi ∈ circuit.keys, lo ≤ q ∧ q ≤ hi :=
    fun q => (fills.keys q).trans (between q)
  obtain ⟨ks',result',between'⟩ :=
    imputeMissingQubitsFills lastColumn imputed (betweenNotOnlyMax circuit.increasing fits keys)
  rw [result', BTreeMap.foldPresent _ ks' imputed fun k inside => betweenClosed keys k ((between' k).mp (.inr inside))]

theorem imputeMissingQubitsIdempotentCnot :
    ∃ imputed, imputeMissingQubits 2 (⟨[(0,⟨[()]⟩),(2,⟨[()]⟩)],by decide⟩ : BTreeMap (Wire Unit)) = some imputed ∧
      imputeMissingQubits 2 imputed = some imputed :=
  ⟨_,rfl,imputeMissingQubitsIdempotent 2 ⟨[(0,⟨[()]⟩),(2,⟨[()]⟩)],by decide⟩ _ rfl⟩

end QuilRs
