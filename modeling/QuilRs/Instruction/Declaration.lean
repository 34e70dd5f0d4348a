import QuilRs.Expression.Reading
/-! `Display for Declaration` (quil-rs/src/instruction/declaration.rs) against the layout of
`DECLARE`, for names that `validate_identifier` (quil-rs/src/validation/identifier.rs) accepts.
The text splits at whitespace into the words of its parts, save that `SHARING` is written straight
after the size and `OFFSET` straight after the region, with no space before either, and offsets
are written only after a region. -/
namespace QuilRs

/-! ### Identifiers -/

/-- `IDENTIFIER_REGEX`, `^([A-Za-z_]|[A-Za-z_][A-Za-z0-9\-_]*[A-Za-z0-9_])$`, on the characters of
a text: a letter or an underscore, then letters, digits, dashes and underscores, not ending in a
dash. -/
def identifierRegexMatches : List Char → Bool
  | [] => false
  | first :: rest =>
      (first.isAlpha || first == '_') && rest.all (fun c => c.isAlphanum || c == '-' || c == '_') &&
        rest.getLast?.all (· != '-')

/-- `IdentifierValidationError`; its `Reserved` case comes only from `validate_user_identifier`. -/
inductive IdentifierValidationError
  | invalid (identifier : String)
  deriving DecidableEq, Repr

def validateIdentifier (ident : String) : Except IdentifierValidationError Bool :=
  if identifierRegexMatches ident.data then .ok true else .error (.invalid ident)

example : ["Good_Ident1f1er-0","H","-Cant-start-with-dash","Cant-end-with-dash-",
    "1-Cant-start-with-number"].map (fun s => identifierRegexMatches s.data) =
    [true,true,false,false,false] := by decide

/-! ### Words -/

/-- `char::is_whitespace`: the characters with Unicode's `White_Space` property. -/
def isWhitespace (c : Char) : Bool :=
  let n := c.toNat
  (9 ≤ n && n ≤ 13) || n == 32 || n == 0x85 || n == 0xA0 || n == 0x1680 ||
    (0x2000 ≤ n && n ≤ 0x200A) || n == 0x2028 || n == 0x2029 || n == 0x202F || n == 0x205F ||
    n == 0x3000

/-- Modelled from the spec: the word read so far, once whitespace or the end of the text ends
it. -/
def endWord (word : List Char) : List String := if word = [] then [] else [⟨word⟩]

/-- Modelled from the spec: the words of a text split at whitespace, as
`str::split_whitespace` gives them; `word` holds what is read of the current word. -/
def wordsFrom (word : List Char) : List Char → List String
  | [] => endWord word
  | c :: cs => if isWhitespace c then endWord word ++ wordsFrom [] cs else wordsFrom (word ++ [c]) cs

def words (text : String) : List String := wordsFrom [] text.data

def OneWord (w : List Char) : Prop := w ≠ [] ∧ ∀ c ∈ w, isWhitespace c = false

theorem alphanumNotWhitespace {c : Char} (h : c.isAlphanum = true) : isWhitespace c = false := by
  simp only [Char.isAlphanum, Char.isAlpha, Char.isUpper, Char.isLower, Char.isDigit,
    Bool.or_eq_true, Bool.and_eq_true, decide_eq_true_eq, ge_iff_le, UInt32.le_def,
    BitVec.le_def] at h
  simp [isWhitespace, Char.toNat, UInt32.toNat] at h ⊢
  omega

theorem OneWord.append {v w : List Char} (first : OneWord v) (second : OneWord w) :
    OneWord (v ++ w) :=
  ⟨by simp [first.1],by simpa only [List.forall_mem_append] using ⟨first.2,second.2⟩⟩

theorem validateIdentifierOneWord {ident : String} (accepted : validateIdentifier ident = .ok true) :
    OneWord ident.data := by
  unfold validateIdentifier at accepted
  split at accepted
  · rename_i matched
    match ident.data, matched with
    | first :: rest, matched =>
      simp only [identifierRegexMatches, Bool.and_eq_true, Bool.or_eq_true, List.all_eq_true,
        beq_iff_eq] at matched
      obtain ⟨⟨start,middle⟩,-⟩ := matched
      refine ⟨List.cons_ne_nil _ _,fun c hc => ?_⟩
      rcases List.mem_cons.mp hc with rfl | inside
      · rcases start with alpha | rfl
        · exact alphanumNotWhitespace (by simp [Char.isAlphanum, alpha])
        · decide
      · rcases middle c inside with (alphanum | rfl) | rfl
        · exact alphanumNotWhitespace alphanum
        all_goals decide
  · cases accepted

theorem toStringOneWord (n : Nat) : OneWord (toString n).data := by
  obtain ⟨l,eq,nonempty,digits,-⟩ := Token.toDigitsCoreDigits (n + 1) n [] (by omega)
  have text : (toString n).data = l := by simpa using eq
  exact text ▸ ⟨nonempty,fun c hc => alphanumNotWhitespace (by simp [Char.isAlphanum, digits c hc])⟩

theorem wordsFromAppend {w : List Char} (solid : ∀ c ∈ w, isWhitespace c = false) :
    ∀ word rest, wordsFrom word (w ++ rest) = wordsFrom (word ++ w) rest := by
  induction w with
  | nil => simp
  | cons c w ih =>
      intro word rest
      rw [List.cons_append, wordsFrom, if_neg (by simp [solid c (List.mem_cons_self _ _)]),
        ih (fun d hd => solid d (List.mem_cons_of_mem _ hd))]
      simp

theorem wordsFromSpace (word rest : List Char) :
    wordsFrom word (' ' :: rest) = endWord word ++ wordsFrom [] rest := by
  simp [wordsFrom, isWhitespace]

theorem endWordOne {w : List Char} (one : OneWord w) : endWord w = [⟨w⟩] := by
  simp [endWord, one.1]

theorem wordsFromWord {w : List Char} (one : OneWord w) (rest : List Char) :
    wordsFrom [] (w ++ ' ' :: rest) = ⟨w⟩ :: wordsFrom [] rest := by
  rw [wordsFromAppend one.2, List.nil_append, wordsFromSpace, endWordOne one, List.singleton_append]

theorem wordsFromLast {w : List Char} (one : OneWord w) : wordsFrom [] w = [⟨w⟩] := by
  simpa [wordsFrom, endWordOne one] using wordsFromAppend one.2 [] []

/-! ### Declarations -/

inductive ScalarType
  | bit
  | integer
  | octet
  | real
  deriving DecidableEq, Repr

/-- `Vector`, with its `u64` length as a number. -/
structure Vector where
  dataType : ScalarType
  length : Nat
  deriving DecidableEq, Repr

/-- `Offset`, with its `u64` offset as a number. -/
structure Offset where
  offset : Nat
  dataType : ScalarType
  deriving DecidableEq, Repr

structure Declaration where
  name : String
  size : Vector
  sharing : Option String
  offsets : List Offset
  deriving DecidableEq, Repr

def ScalarType.fmt : ScalarType → String
  | .bit => "BIT"
  | .integer => "INTEGER"
  | .octet => "OCTET"
  | .real => "REAL"

def Vector.fmt (v : Vector) : String := v.dataType.fmt ++ "[" ++ toString v.length ++ "]"

def Offset.fmt (o : Offset) : String := toString o.offset ++ " " ++ o.dataType.fmt

/-- `Display for Declaration`: the region, and the offsets after it, only when `sharing` is
set. -/
def Declaration.fmt (d : Declaration) : String :=
  "DECLARE " ++ d.name ++ " " ++ d.size.fmt ++
    match d.sharing with
    | some shared =>
        "SHARING " ++ shared ++
          (match d.offsets with
           | [] => ""
           | offsets => "OFFSET" ++ String.join (offsets.map fun offset => " " ++ offset.fmt))
    | none => ""

/-- Modelled from the spec: the words of a declaration in the layout of `DECLARE`: the keyword,
the name and the size; `SHARING` and the region, when there is one; `OFFSET` and the number and
type of each offset, when there are offsets. -/
def layoutWords (d : Declaration) : List String :=
  ["DECLARE",d.name,d.size.fmt] ++ (match d.sharing with | some s => ["SHARING",s] | none => []) ++
    if d.offsets.isEmpty then [] else "OFFSET" :: d.offsets.flatMap fun o => [toString o.offset,o.dataType.fmt]

theorem ScalarType.fmtOneWord (t : ScalarType) : OneWord t.fmt.data := by
  cases t <;> exact ⟨by decide,by decide⟩

theorem Vector.fmtOneWord (v : Vector) : OneWord v.fmt.data := by
  have bracket : ∀ c : Char, c = '[' ∨ c = ']' → OneWord [c] := by
    rintro c (rfl | rfl) <;> exact ⟨by decide,by decide⟩
  simpa [fmt] using (((v.dataType.fmtOneWord.append (bracket '[' (.inl rfl))).append
    (toStringOneWord v.length)).append (bracket ']' (.inr rfl)))

theorem joinData (l : List String) : (String.join l).data = (l.map String.data).flatten := by
  suffices ∀ s : String, (l.foldl (· ++ ·) s).data = s.data ++ (l.map String.data).flatten from this ""
  induction l with
  | nil => simp
  | cons t l ih => intro s; simp [ih]

theorem wordsFromOffsets (offsets : List Offset) : ∀ word : List Char, OneWord word →
    wordsFrom word (String.join (offsets.map fun offset => " " ++ offset.fmt)).data =
      ⟨word⟩ :: offsets.flatMap fun o => [toString o.offset,o.dataType.fmt] := by
  induction offsets with
  | nil => intro word one; simpa [joinData] using endWordOne one
  | cons o os ih =>
      intro word one
      have typed := o.dataType.fmtOneWord
      simp only [joinData, List.map_cons, List.flatten_cons, String.data_append, Offset.fmt,
        List.append_assoc, List.singleton_append, List.cons_append, List.nil_append,
        List.flatMap_cons] at ih ⊢
      rw [wordsFromSpace, endWordOne one, wordsFromWord (toStringOneWord o.offset),
        wordsFromAppend typed.2, List.nil_append, ih _ typed]
      rfl


theorem wordsFmt (d : Declaration) (name : validateIdentifier d.name = .ok true)
    (sharing : ∀ s, d.sharing = some s → validateIdentifier s = .ok true) :
    words d.fmt = ["DECLARE",d.name] ++ match d.sharing with
      | none => [d.size.fmt]
      | some s => [d.size.fmt ++ "SHARING",if d.offsets.isEmpty then s else s ++ "OFFSET"] ++
          d.offsets.flatMap fun o => [toString o.offset,o.dataType.fmt] := by
  obtain ⟨n,size,region,offsets⟩ := d
  have front : ∀ tail, wordsFrom [] ("DECLARE".data ++ ' ' :: (n.data ++ ' ' :: tail)) =
      "DECLARE" :: n :: wordsFrom [] tail := fun tail => by
    rw [wordsFromWord ⟨by decide,by decide⟩,wordsFromWord (validateIdentifierOneWord name)]
  have glued : ∀ tail, wordsFrom [] (size.fmt.data ++ ("SHARING".data ++ ' ' :: tail)) =
      (size.fmt ++ "SHARING") :: wordsFrom [] tail := fun tail => by
    rw [← List.append_assoc,wordsFromWord (size.fmtOneWord.append ⟨by decide,by decide⟩)]; rfl
  cases region with
  | none =>
      have text : (Declaration.fmt ⟨n,size,none,offsets⟩).data =
          "DECLARE".data ++ ' ' :: (n.data ++ ' ' :: size.fmt.data) := by
        simp [Declaration.fmt]
      rw [words,text,front,wordsFromLast size.fmtOneWord]; rfl
  | some s =>
      have region := validateIdentifierOneWord (sharing s rfl)
      cases offsets with
      | nil =>
          have text : (Declaration.fmt ⟨n,size,some s,[]⟩).data =
              "DECLARE".data ++ ' ' :: (n.data ++ ' ' :: (size.fmt.data ++ ("SHARING".data ++ ' ' :: s.data))) := by
            simp [Declaration.fmt]
          rw [words,text,front,glued,wordsFromLast region]; rfl
      | cons o os =>
          have text : (Declaration.fmt ⟨n,size,some s,o :: os⟩).data =
              "DECLARE".data ++ ' ' :: (n.data ++ ' ' :: (size.fmt.data ++ ("SHARING".data ++ ' ' ::
                (s.data ++ ("OFFSET".data ++ (String.join ((o :: os).map fun offset => " " ++ offset.fmt)).data))))) := by
            simp [Declaration.fmt]
          rw [words,text,front,glued,← List.append_assoc,wordsFromAppend (region.append ⟨by decide,by decide⟩).2,
            List.nil_append,wordsFromOffsets _ _ (region.append ⟨by decide,by decide⟩)]; rfl

theorem wordsFmtLayoutIff (d : Declaration) (name : validateIdentifier d.name = .ok true)
    (sharing : ∀ s, d.sharing = some s → validateIdentifier s = .ok true) :
    words d.fmt = layoutWords d ↔ d.sharing = none ∧ d.offsets = [] := by
  rw [wordsFmt d name sharing]
  obtain ⟨n,size,region,offsets⟩ := d
  have glued : size.fmt ++ "SHARING" ≠ size.fmt := fun h =>
    absurd (by simpa using congrArg String.length h : "SHARING".length = 0) (by decide)
  cases region <;> cases offsets <;> simp [layoutWords, glued]

theorem fmtWordsLaw (d : Declaration) (name : validateIdentifier d.name = .ok true)
    (sharing : ∀ s, d.sharing = some s → validateIdentifier s = .ok true) :
    (words d.fmt = ["DECLARE",d.name] ++ match d.sharing with
      | none => [d.size.fmt]
      | some s => [d.size.fmt ++ "SHARING",if d.offsets.isEmpty then s else s ++ "OFFSET"] ++
          d.offsets.flatMap fun o => [toString o.offset,o.dataType.fmt]) ∧
    (words d.fmt = layoutWords d ↔ d.sharing = none ∧ d.offsets = []) :=
  ⟨wordsFmt d name sharing,wordsFmtLayoutIff d name sharing⟩

theorem fmtWordsOther :
    validateIdentifier "ro" = .ok true ∧ validateIdentifier "other" = .ok true ∧
    (words (Declaration.fmt ⟨"ro",⟨.bit,1⟩,some "other",[⟨1,.bit⟩]⟩) =
        ["DECLARE","ro","BIT[1]SHARING","otherOFFSET","1","BIT"] ∧
      (words (Declaration.fmt ⟨"ro",⟨.bit,1⟩,some "other",[⟨1,.bit⟩]⟩) =
          layoutWords ⟨"ro",⟨.bit,1⟩,some "other",[⟨1,.bit⟩]⟩ ↔
        some "other" = none ∧ [(⟨1,.bit⟩ : Offset)] = [])) :=
  ⟨rfl,rfl,fmtWordsLaw ⟨"ro",⟨.bit,1⟩,some "other",[⟨1,.bit⟩]⟩ rfl fun s h => by cases h; rfl⟩

/- `DECLARE ro BIT[1] SHARING other` is written without the space before `SHARING`, and the
offset of a declaration without a region is not written. -/
theorem fmtGluesSharing :
    validateIdentifier "ro" = .ok true ∧ validateIdentifier "other" = .ok true ∧
    Declaration.fmt ⟨"ro",⟨.bit,1⟩,some "other",[]⟩ = "DECLARE ro BIT[1]SHARING other" ∧
    words (Declaration.fmt ⟨"ro",⟨.bit,1⟩,some "other",[]⟩) = ["DECLARE","ro","BIT[1]SHARING","other"] ∧
    layoutWords ⟨"ro",⟨.bit,1⟩,some "other",[]⟩ = ["DECLARE","ro","BIT[1]","SHARING","other"] ∧
    Declaration.fmt ⟨"ro",⟨.bit,1⟩,none,[⟨1,.bit⟩]⟩ = "DECLARE ro BIT[1]" ∧
    layoutWords ⟨"ro",⟨.bit,1⟩,none,[⟨1,.bit⟩]⟩ = ["DECLARE","ro","BIT[1]","OFFSET","1","BIT"] :=
  ⟨rfl,rfl,by decide,by decide,by decide,by decide,by decide⟩

end QuilRs
