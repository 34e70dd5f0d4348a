import QuilRs.Program.Frame
import Mathlib.Data.Finset.Card
/-! The store operations of `FrameSet` (quil-rs/src/program/frame.rs): `new`, `get`, `get_keys`,
`insert`, `merge`, `intersection`, `len` and `is_empty`, over its `HashMap` as entries with
distinct identifiers. Each operation keeps the identifiers distinct, so the set stays a map:
`get` after `insert` finds what was inserted, `merge` takes the other set's frame wherever it has
one, and `intersection` keeps the given frames with their attributes; with `get_matching_keys`,
it keeps exactly the frames a condition selects. As maps, `merge` is associative and
`intersection` distributes over it. -/
namespace QuilRs
variable {Q A : Type} [DecidableEq Q]
namespace FrameSet

/-- `FrameSet::new`. -/
def new : FrameSet Q A := ⟨[],List.nodup_nil⟩

/-- `get`: `HashMap::get`. -/
def get (fs : FrameSet Q A) (identifier : FrameIdentifier Q) : Option A := fs.frames.lookup identifier

/-- `get_keys`, in the order of the entries, where a `HashMap` has no fixed order. -/
def getKeys (fs : FrameSet Q A) : List (FrameIdentifier Q) := fs.frames.map Prod.fst

def len (fs : FrameSet Q A) : Nat := fs.frames.length

def isEmpty (fs : FrameSet Q A) : Bool := fs.frames.isEmpty

theorem insertDistinct (fs : FrameSet Q A) (identifier : FrameIdentifier Q) (attributes : A) :
    (((identifier,attributes) :: fs.frames.filter fun frame => frame.1 ≠ identifier).map Prod.fst).Nodup := by
  rw [List.map_cons, List.nodup_cons]
  refine ⟨fun inside => ?_,fs.distinct.sublist ((List.filter_sublist _).map _)⟩
  obtain ⟨frame,kept,same⟩ := List.mem_map.mp inside
  exact of_decide_eq_true (List.mem_filter.mp kept).2 same

/-- `insert`: `HashMap::insert`, which overwrites the attributes of a frame already there. -/
def insert (fs : FrameSet Q A) (identifier : FrameIdentifier Q) (attributes : A) : FrameSet Q A :=
  ⟨(identifier,attributes) :: fs.frames.filter (fun frame => frame.1 ≠ identifier),
    insertDistinct fs identifier attributes⟩

/-- `merge`: `HashMap::extend`, inserting the other set's frames one after another. -/
def merge (fs other : FrameSet Q A) : FrameSet Q A :=
  other.frames.foldl (fun fs frame => fs.insert frame.1 frame.2) fs

/-- `intersection`: a new set, into which the frames with the given identifiers are inserted. -/
def intersection (fs : FrameSet Q A) (identifiers : Finset (FrameIdentifier Q)) : FrameSet Q A :=
  fs.frames.foldl (fun kept frame => if frame.1 ∈ identifiers then kept.insert frame.1 frame.2 else kept) new

/-! ### Lookup -/

theorem lookupCons {k k' : FrameIdentifier Q} {a : A} {rest : List (FrameIdentifier Q × A)} :
    ((k,a) :: rest).lookup k' = if k' = k then some a else rest.lookup k' := by
  rw [List.lookup_cons]
  split <;> simp_all

theorem lookupAbsent {k : FrameIdentifier Q} {l : List (FrameIdentifier Q × A)} (absent : k ∉ l.map Prod.fst) :
    l.lookup k = none :=
  List.lookup_eq_none_iff.mpr fun p inside => by
    simpa using fun same : k = p.1 => absent (List.mem_map.mpr ⟨p,inside,same.symm⟩)

theorem lookupFilter (p : FrameIdentifier Q → Bool) {k : FrameIdentifier Q} (keep : p k = true) :
    ∀ l : List (FrameIdentifier Q × A), (l.filter fun frame => p frame.1).lookup k = l.lookup k
  | [] => rfl
  | (j,b) :: rest => by
      by_cases kept : p j = true
      · rw [List.filter_cons_of_pos (p := fun frame : FrameIdentifier Q × A => p frame.1) kept, lookupCons, lookupCons,
          lookupFilter p keep rest]
      · have other : k ≠ j := fun same => kept (same ▸ keep)
        rw [List.filter_cons_of_neg (p := fun frame : FrameIdentifier Q × A => p frame.1) kept, lookupFilter p keep rest, lookupCons,
          if_neg other]

theorem memKeys {fs : FrameSet Q A} {k : FrameIdentifier Q} : k ∈ fs.keys ↔ (fs.get k).isSome := by
  simp only [keys, get, List.mem_toFinset, List.mem_map, List.lookup_isSome_iff, beq_iff_eq]
  exact ⟨fun ⟨p,inside,same⟩ => ⟨p,inside,same.symm⟩,fun ⟨p,inside,same⟩ => ⟨p,inside,same.symm⟩⟩

theorem lenKeys (fs : FrameSet Q A) : fs.len = fs.keys.card := by
  rw [keys, List.toFinset_card_of_nodup fs.distinct, List.length_map, len]

theorem getInsert (fs : FrameSet Q A) (k k' : FrameIdentifier Q) (a : A) :
    (fs.insert k a).get k' = if k' = k then some a else fs.get k' := by
  rw [get, insert, lookupCons]
  split
  · rfl
  · exact lookupFilter (fun j => decide (j ≠ k)) (decide_eq_true ‹_›) fs.frames

theorem keysInsert (fs : FrameSet Q A) (k : FrameIdentifier Q) (a : A) :
    (fs.insert k a).keys = Insert.insert k fs.keys := by
  ext k'
  rw [memKeys, getInsert, Finset.mem_insert, memKeys]
  by_cases same : k' = k <;> simp [same]

theorem getFoldInsert : ∀ (entries : List (FrameIdentifier Q × A)), (entries.map Prod.fst).Nodup →
    ∀ (fs : FrameSet Q A) k,
      (entries.foldl (fun fs frame => fs.insert frame.1 frame.2) fs).get k = (entries.lookup k).or (fs.get k)
  | [], _, fs, k => by simp
  | (j,b) :: rest, distinct, fs, k => by
      rw [List.map_cons, List.nodup_cons] at distinct
      rw [List.foldl_cons, getFoldInsert rest distinct.2, getInsert, lookupCons]
      by_cases same : k = j
      · subst same
        simp [lookupAbsent distinct.1]
      · simp [same]

theorem getMerge (fs other : FrameSet Q A) (k : FrameIdentifier Q) :
    (fs.merge other).get k = (other.get k).or (fs.get k) :=
  getFoldInsert other.frames other.distinct fs k

theorem getIntersection (fs : FrameSet Q A) (identifiers : Finset (FrameIdentifier Q)) (k : FrameIdentifier Q) :
    (fs.intersection identifiers).get k = if k ∈ identifiers then fs.get k else none := by
  have filtered : ∀ (l : List (FrameIdentifier Q × A)) (kept : FrameSet Q A),
      l.foldl (fun kept frame => if frame.1 ∈ identifiers then kept.insert frame.1 frame.2 else kept) kept =
        (l.filter fun frame => frame.1 ∈ identifiers).foldl (fun fs frame => fs.insert frame.1 frame.2) kept := by
    intro l
    induction l with
    | nil => exact fun _ => rfl
    | cons p rest ih => intro kept; by_cases inside : p.1 ∈ identifiers <;> simp [List.filter_cons, inside, ih]
  rw [intersection, filtered, getFoldInsert _ (fs.distinct.sublist ((List.filter_sublist _).map _)),
    get, get, new, List.lookup_nil, Option.or_none]
  split
  · exact lookupFilter (fun j => decide (j ∈ identifiers)) (decide_eq_true ‹_›) fs.frames
  · rename_i outside
    refine lookupAbsent fun inside => ?_
    obtain ⟨frame,kept,rfl⟩ := List.mem_map.mp inside
    exact outside (of_decide_eq_true (List.mem_filter.mp kept).2)

theorem keysIntersection (fs : FrameSet Q A) (identifiers : Finset (FrameIdentifier Q)) :
    (fs.intersection identifiers).keys = fs.keys ∩ identifiers := by
  ext k
  rw [memKeys, getIntersection, Finset.mem_inter, memKeys]
  by_cases inside : k ∈ identifiers <;> simp [inside]

/-! ### The operations as a map -/

theorem insertGetLaw (fs : FrameSet Q A) (k : FrameIdentifier Q) (a : A) :
    (∀ k', (fs.insert k a).get k' = if k' = k then some a else fs.get k') ∧
      (fs.insert k a).len = if k ∈ fs.keys then fs.len else fs.len + 1 := by
  refine ⟨fun k' => getInsert fs k k' a,?_⟩
  rw [lenKeys, lenKeys, keysInsert]
  split
  · rw [Finset.insert_eq_of_mem ‹_›]
  · rw [Finset.card_insert_of_not_mem ‹_›]

theorem mergeLaw (fs other : FrameSet Q A) :
    (∀ k, (fs.merge other).get k = (other.get k).or (fs.get k)) ∧
      (fs.merge other).keys = fs.keys ∪ other.keys ∧ (fs.merge other).len = (fs.keys ∪ other.keys).card := by
  have keys : (fs.merge other).keys = fs.keys ∪ other.keys := by
    ext k
    rw [memKeys, getMerge, Finset.mem_union, memKeys, memKeys]
    cases other.get k <;> simp
  exact ⟨getMerge fs other,keys,by rw [lenKeys, keys]⟩

theorem intersectionLaw (fs : FrameSet Q A) (identifiers : Finset (FrameIdentifier Q)) :
    (∀ k, (fs.intersection identifiers).get k = if k ∈ identifiers then fs.get k else none) ∧
      (fs.intersection identifiers).keys = fs.keys ∩ identifiers :=
  ⟨getIntersection fs identifiers,keysIntersection fs identifiers⟩

theorem intersectionMatchingKeys (fs : FrameSet Q A) (c : FrameMatchCondition Q) :
    (∀ k, (fs.intersection (fs.getMatchingKeys c)).get k = if c.holds false k then fs.get k else none) ∧
      (fs.intersection (fs.getMatchingKeys c)).keys = fs.getMatchingKeys c := by
  rw [getMatchingKeysHolds]
  refine ⟨fun k => ?_,?_⟩
  · rw [getIntersection]
    by_cases present : k ∈ fs.keys
    · simp [present]
    · have absent : fs.get k = none := Option.not_isSome_iff_eq_none.mp (memKeys.not.mp present)
      simp [present, absent]
  · rw [keysIntersection]
    exact Finset.inter_eq_right.mpr (Finset.filter_subset _ _)

theorem mergeAssociative (a b c : FrameSet Q A) (identifiers : Finset (FrameIdentifier Q)) :
    (∀ k, ((a.merge b).merge c).get k = (a.merge (b.merge c)).get k) ∧
      ∀ k, ((a.merge b).intersection identifiers).get k =
        ((a.intersection identifiers).merge (b.intersection identifiers)).get k := by
  refine ⟨fun k => ?_,fun k => ?_⟩
  · rw [getMerge, getMerge, getMerge, getMerge, Option.or_assoc]
  · rw [getIntersection, getMerge, getMerge, getIntersection, getIntersection]
    split <;> rfl

end FrameSet
end QuilRs
