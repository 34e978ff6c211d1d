import Mathlib
import Cs342.Library.Outcome
import Cs342.Library.ByteBuffer
import Cs342.Library.CString

/-!
# Formatted input

The part of `fscanf` that reads whitespace, literal characters and decimal ints, on the bytes that a
stream has left. A directive that fails ends the scan: what it has read by then stays read, and the
values that were converted before it are the result. A number that is no int has no defined
conversion. `atoi` converts the start of a string in the same way. Words are what `%s` reads:
`Words` says which words a text consists of, whatever whitespace stands between them, and they are
read one after the other (`scanWord_cons`). A `Reader` is one round of a loop over scans; the loop
ends because every round takes something of the stream.
-/

namespace Scanf

open ByteBuffer (Bytes)

/-! ## Decimal numbers -/

/-- `isspace` in the C locale. -/
def isspace (b : UInt8) : Bool := b = 32 || (9 ≤ b && b ≤ 13)

def isdigit (b : UInt8) : Bool := 48 ≤ b && b ≤ 57

/-- The number that digits stand for. -/
def decimal (digits : Bytes) : Nat := digits.foldl (fun n b => 10 * n + (b.toNat - 48)) 0

/-- An optional sign: whether it is a minus, and what follows it. -/
def takeSign : Bytes → Bool × Bytes
  | b :: bs => if b = 45 then (true, bs) else if b = 43 then (false, bs) else (false, b :: bs)
  | [] => (false, [])

/-- A number after whitespace, if there is a digit, and what is left behind it. -/
def takeNumber (stream : Bytes) : Option Int × Bytes :=
  let (negative, rest) := takeSign (stream.dropWhile isspace)
  let digits := rest.takeWhile isdigit
  let number : Int := if negative then -decimal digits else decimal digits
  (if digits = [] then none else some number, rest.dropWhile isdigit)

/-- The conversion to `int`. -/
def toInt (n : Int) : Outcome Int := if -2 ^ 31 ≤ n ∧ n < 2 ^ 31 then .ok n else .undefined

theorem toInt_eq_ok {n m : Int} : toInt n = .ok m ↔ n = m ∧ -2 ^ 31 ≤ n ∧ n < 2 ^ 31 := by
  unfold toInt
  split
  · next hrange => rw [Outcome.ok.injEq, and_iff_left hrange]
  · next hrange =>
      constructor
      · intro h
        cases h
      · exact fun h => absurd h.2 hrange

/-- `atoi`, which converts text without a number to zero. -/
def atoi (str : CString) : Outcome Int :=
  match (takeNumber str.bytes).1 with
  | some n => toInt n
  | none => .ok 0

/-- What `atoi` returns is an int. -/
theorem atoi_range {str : CString} {n : Int} (h : atoi str = .ok n) :
    -2 ^ 31 ≤ n ∧ n < 2 ^ 31 := by
  unfold atoi at h
  split at h
  · obtain ⟨rfl, hrange⟩ := toInt_eq_ok.mp h
    exact hrange
  · cases h
    decide

theorem length_takeSign_le (stream : Bytes) : (takeSign stream).2.length ≤ stream.length := by
  cases stream with
  | nil => exact le_rfl
  | cons b bs =>
      rw [takeSign]
      split
      · exact Nat.le_succ _
      · split
        · exact Nat.le_succ _
        · exact le_rfl

theorem length_takeNumber_le (stream : Bytes) :
    (takeNumber stream).2.length ≤ stream.length := by
  calc (takeNumber stream).2.length
      ≤ (takeSign (stream.dropWhile isspace)).2.length := List.length_dropWhile_le _ _
    _ ≤ (stream.dropWhile isspace).length := length_takeSign_le _
    _ ≤ stream.length := List.length_dropWhile_le _ _

/-- A number takes a digit at least. -/
theorem length_takeNumber_lt {stream : Bytes} {n : Int} (h : (takeNumber stream).1 = some n) :
    (takeNumber stream).2.length < stream.length := by
  simp only [takeNumber] at h ⊢
  split at h
  · cases h
  · next hne =>
      have hsplit := congrArg List.length
        (List.takeWhile_append_dropWhile (p := isdigit)
          (l := (takeSign (stream.dropWhile isspace)).2))
      have hpos := List.length_pos_iff.mpr hne
      have hsign := length_takeSign_le (stream.dropWhile isspace)
      have hspace := List.length_dropWhile_le isspace stream
      rw [List.length_append] at hsplit
      omega

/-! ## Directives -/

/-- What a format consists of. -/
inductive Directive where
  /-- Any whitespace, or none. -/
  | space
  | literal (b : UInt8)
  /-- `%d`. -/
  | int

/-- The values that are converted, and what is left of the stream. -/
def scan : List Directive → Bytes → Outcome (List Int × Bytes)
  | [], stream => .ok ([], stream)
  | .space :: format, stream => scan format (stream.dropWhile isspace)
  | .literal _ :: _, [] => .ok ([], [])
  | .literal b :: format, c :: stream =>
    if c = b then scan format stream else .ok ([], c :: stream)
  | .int :: format, stream =>
    match takeNumber stream with
    | (none, rest) => .ok ([], rest)
    | (some n, rest) => do
      let n ← toInt n
      let (values, rest) ← scan format rest
      return (n :: values, rest)

/-- A scan reads on, and past a digit if it converts something. -/
theorem scan_length {format : List Directive} {stream rest : Bytes} {values : List Int}
    (h : scan format stream = .ok (values, rest)) :
    rest.length ≤ stream.length ∧ (values ≠ [] → rest.length < stream.length) := by
  induction format generalizing stream values with
  | nil =>
      cases h
      exact ⟨le_rfl, fun hne => absurd rfl hne⟩
  | cons directive format ih =>
      cases directive with
      | space =>
          obtain ⟨hle, hlt⟩ := ih h
          have hspace := List.length_dropWhile_le isspace stream
          exact ⟨hle.trans hspace, fun hne => (hlt hne).trans_le hspace⟩
      | literal b =>
          cases stream with
          | nil =>
              cases h
              exact ⟨le_rfl, fun hne => absurd rfl hne⟩
          | cons c stream =>
              rw [scan] at h
              split at h
              · obtain ⟨hle, hlt⟩ := ih h
                exact ⟨hle.trans (Nat.le_succ _), fun hne => (hlt hne).trans (Nat.lt_succ_self _)⟩
              · cases h
                exact ⟨le_rfl, fun hne => absurd rfl hne⟩
      | int =>
          rw [scan] at h
          split at h
          · next left hnumber =>
              cases h
              have hle := length_takeNumber_le stream
              rw [hnumber] at hle
              exact ⟨hle, fun hne => absurd rfl hne⟩
          · next n left hnumber =>
              obtain ⟨m, -, h⟩ := Outcome.bind_eq_ok.mp h
              obtain ⟨⟨values', rest'⟩, hscan, h⟩ := Outcome.bind_eq_ok.mp h
              cases h
              have hsome : (takeNumber stream).1 = some n := by rw [hnumber]
              have hlt := length_takeNumber_lt hsome
              rw [hnumber] at hlt
              have hle := (ih hscan).1
              exact ⟨hle.trans hlt.le, fun _ => hle.trans_lt hlt⟩

/-! ## Words -/

/-- `" %s"` into an array of `size` chars: the next word, if there is one, and what is left. The
word is stored with a NUL behind it. -/
def scanWord (size : Nat) (stream : Bytes) : Outcome (Option CString × Bytes) :=
  let stream := stream.dropWhile isspace
  let word := stream.takeWhile fun b => !isspace b
  if word = [] then .ok (none, [])
  else if word.length < size then
    .ok (some (CString.ofBytes word), stream.dropWhile fun b => !isspace b)
  else
    .undefined

/-- A word takes something of the stream. -/
theorem scanWord_length {size : Nat} {stream rest : Bytes} {word : CString}
    (h : scanWord size stream = .ok (some word, rest)) : rest.length < stream.length := by
  simp only [scanWord] at h
  split at h
  · cases h
  · next hne =>
      split at h
      · cases h
        have hsplit := congrArg List.length
          (List.takeWhile_append_dropWhile (p := fun b => !isspace b)
            (l := stream.dropWhile isspace))
        have hpos := List.length_pos_iff.mpr hne
        have hspace := List.length_dropWhile_le isspace stream
        rw [List.length_append] at hsplit
        omega
      · cases h

theorem dropWhile_head {p : UInt8 → Bool} {bs cs : Bytes} {c : UInt8}
    (h : bs.dropWhile p = c :: cs) : p c = false := by
  have := List.head_dropWhile_not p (l := bs) (by rw [h]; simp)
  simpa [h] using this

/-- `" %s"` with a field width: no more than so many characters of the next word, and what is left
unread; nothing where there is no word. -/
def scanField (width : Nat) (stream : Bytes) : Option (Bytes × Bytes) :=
  match stream.dropWhile isspace with
  | [] => none
  | b :: bs =>
    let word := ((b :: bs).takeWhile fun c => !isspace c).take width
    some (word, (b :: bs).drop word.length)

section Field

variable {width : Nat} {stream word rest : Bytes}

/-- The scan stops skipping at a character of the word. -/
theorem scanField_ne_nil (hwidth : 0 < width) (h : scanField width stream = some (word, rest)) :
    word ≠ [] := by
  unfold scanField at h
  split at h
  · cases h
  · next b bs hdrop =>
      have hb := dropWhile_head hdrop
      cases h
      simp [hb, hwidth.ne']

/-- Every field shortens the stream. -/
theorem scanField_length (hwidth : 0 < width) (h : scanField width stream = some (word, rest)) :
    rest.length < stream.length := by
  have hne := scanField_ne_nil hwidth h
  unfold scanField at h
  split at h
  · cases h
  · next b bs hdrop =>
      have hle : (b :: bs).length ≤ stream.length := hdrop ▸ List.length_dropWhile_le isspace stream
      cases h
      have hpos := List.length_pos_iff.mpr hne
      simp only [List.length_drop, List.length_cons] at hle hpos ⊢
      omega

/-- A field is no longer than its width and, like what is left, comes from the stream. -/
theorem scanField_subset (h : scanField width stream = some (word, rest)) :
    word.length ≤ width ∧ word ⊆ stream ∧ rest ⊆ stream := by
  unfold scanField at h
  split at h
  · cases h
  · next b bs hdrop =>
      have hsub : b :: bs ⊆ stream := hdrop ▸ (List.dropWhile_suffix isspace).subset
      cases h
      refine ⟨List.length_take_le _ _, fun c hc => hsub ?_, fun c hc => hsub ?_⟩
      · exact (List.takeWhile_prefix _).subset (List.mem_of_mem_take hc)
      · exact List.mem_of_mem_drop hc

end Field

/-- The characters of a word: some, and neither whitespace nor NUL. -/
structure IsWord (word : Bytes) : Prop where
  ne_nil : word ≠ []
  not_space : ∀ b ∈ word, isspace b = false
  nul_free : 0 ∉ word

/-- The words of a text, with whitespace around and between them. -/
inductive Words : List Bytes → Bytes → Prop
  | nil {space : Bytes} (hspace : ∀ b ∈ space, isspace b) : Words [] space
  | cons {space word rest : Bytes} {words : List Bytes} (hspace : ∀ b ∈ space, isspace b)
      (hword : IsWord word) (hend : ∀ b ∈ rest.head?, isspace b) (hrest : Words words rest) :
      Words (word :: words) (space ++ (word ++ rest))

/-- Skipped whitespace ends where a word starts. -/
theorem dropWhile_word {space word : Bytes} (hspace : ∀ b ∈ space, isspace b)
    (hword : IsWord word) (rest : Bytes) :
    (space ++ (word ++ rest)).dropWhile isspace = word ++ rest := by
  rw [List.dropWhile_append_of_pos hspace]
  obtain ⟨b, bs, rfl⟩ := List.exists_cons_of_ne_nil hword.ne_nil
  have hb : isspace b = false := hword.not_space b List.mem_cons_self
  rw [List.cons_append, List.dropWhile_cons_of_neg (by rw [hb]; decide)]

/-- Behind the last word there is none. -/
theorem scanWord_nil {size : Nat} {stream : Bytes} (h : Words [] stream) :
    scanWord size stream = .ok (none, []) := by
  cases h with
  | nil hspace =>
      simp only [scanWord]
      rw [List.dropWhile_eq_nil_iff.mpr hspace]
      rfl

/-- **The next word** is read, if it fits. -/
theorem scanWord_cons {size : Nat} {stream word : Bytes} {words : List Bytes}
    (h : Words (word :: words) stream) (hsize : word.length < size) :
    ∃ rest, scanWord size stream = .ok (some (CString.ofBytes word), rest) ∧ Words words rest := by
  cases h with
  | cons hspace hword hend hrest =>
      next space rest =>
      refine ⟨rest, ?_, hrest⟩
      have hdrop := dropWhile_word hspace hword rest
      have hkeep : ∀ b ∈ word, (!isspace b) = true := by
        intro b hb
        rw [hword.not_space b hb]
        rfl
      have hstop : rest.takeWhile (fun b => !isspace b) = [] ∧
          rest.dropWhile (fun b => !isspace b) = rest := by
        cases rest with
        | nil => exact ⟨rfl, rfl⟩
        | cons b rest =>
            have hb : isspace b = true := hend b rfl
            exact ⟨List.takeWhile_cons_of_neg (by rw [hb]; decide),
              List.dropWhile_cons_of_neg (by rw [hb]; decide)⟩
      simp only [scanWord, hdrop]
      rw [List.takeWhile_append_of_pos hkeep, List.dropWhile_append_of_pos hkeep, hstop.1, hstop.2,
        List.append_nil, if_neg hword.ne_nil, if_pos hsize]

/-! ## Loops over scans -/

/-- One round of a loop: a record, if there is one, and what is left. -/
structure Reader (α : Type) where
  read : Bytes → Outcome (Option α × Bytes)
  length_lt : ∀ {stream rest : Bytes} {a : α},
    read stream = .ok (some a, rest) → rest.length < stream.length

namespace Reader

variable {α : Type} {reader : Reader α} {stream rest : Bytes} {a : α}

/-- The loop, with the records so far. -/
def readAll (reader : Reader α) (stream : Bytes) (records : List α) : Outcome (List α) :=
  match _h : reader.read stream with
  | .ok (some a, rest) => readAll reader rest (records ++ [a])
  | .ok (none, _) => .ok records
  | .exit code message => .exit code message
  | .undefined => .undefined
termination_by stream.length
decreasing_by exact reader.length_lt _h

theorem readAll_some (h : reader.read stream = .ok (some a, rest)) (records : List α) :
    reader.readAll stream records = reader.readAll rest (records ++ [a]) := by
  rw [readAll]
  split
  · next heq =>
      cases h.symm.trans heq
      rfl
  all_goals
    next heq => cases h.symm.trans heq

theorem readAll_none (h : reader.read stream = .ok (none, rest)) (records : List α) :
    reader.readAll stream records = .ok records := by
  rw [readAll]
  split
  · next heq => cases h.symm.trans heq
  · rfl
  all_goals
    next heq => cases h.symm.trans heq

/-- The records that are scanned from a stream, up to the first scan that gives none. -/
inductive Records (reader : Reader α) : Bytes → List α → Prop
  | last {stream rest : Bytes} (hread : reader.read stream = .ok (none, rest)) :
      Records reader stream []
  | next {stream rest : Bytes} {a : α} {as : List α}
      (hread : reader.read stream = .ok (some a, rest)) (hrest : Records reader rest as) :
      Records reader stream (a :: as)

/-- The loop with any body, which gets the records one by one. -/
def forEach {σ : Type} (reader : Reader α) (body : σ → α → Outcome σ) (stream : Bytes) (s : σ) :
    Outcome σ :=
  match _h : reader.read stream with
  | .ok (some a, rest) => do
    let s ← body s a
    forEach reader body rest s
  | .ok (none, _) => .ok s
  | .exit code message => .exit code message
  | .undefined => .undefined
termination_by stream.length
decreasing_by exact reader.length_lt _h

/-- **Loops over records**: the loop returns if there is a last record, and its body returns on each
of them. -/
theorem forEach_eq_ok {σ : Type} {body : σ → α → Outcome σ} {s t : σ} :
    reader.forEach body stream s = .ok t ↔
      ∃ as, reader.Records stream as ∧ as.foldlM body s = .ok t := by
  induction hn : stream.length using Nat.strongRecOn generalizing stream s with
  | _ n ih =>
      rw [forEach]
      split
      · next a rest hread =>
          rw [Outcome.bind_eq_ok]
          constructor
          · rintro ⟨s', hbody, hrest⟩
            obtain ⟨as, has, hfold⟩ := (ih _ (hn ▸ reader.length_lt hread) rfl).mp hrest
            refine ⟨a :: as, .next hread has, ?_⟩
            rw [List.foldlM_cons, hbody]
            exact hfold
          · rintro ⟨as, has, hfold⟩
            cases has with
            | last hlast => cases hlast.symm.trans hread
            | next hnext hrest =>
                cases hnext.symm.trans hread
                rw [List.foldlM_cons] at hfold
                obtain ⟨s', hbody, hfold⟩ := Outcome.bind_eq_ok.mp hfold
                exact ⟨s', hbody, (ih _ (hn ▸ reader.length_lt hread) rfl).mpr ⟨_, hrest, hfold⟩⟩
      · next rest hread =>
          constructor
          · rintro ⟨⟩
            exact ⟨[], .last hread, rfl⟩
          · rintro ⟨as, has, hfold⟩
            cases has with
            | last => exact hfold
            | next hnext => cases hnext.symm.trans hread
      all_goals
        next hread =>
          constructor
          · rintro ⟨⟩
          · rintro ⟨as, has, -⟩
            cases has with
            | last hlast => cases hlast.symm.trans hread
            | next hnext => cases hnext.symm.trans hread

/-- A stream has one list of records. -/
theorem Records.unique {as bs : List α} (h : reader.Records stream as)
    (h' : reader.Records stream bs) : as = bs := by
  induction h generalizing bs with
  | last hread =>
      cases h' with
      | last => rfl
      | next hnext => cases hread.symm.trans hnext
  | next hread _ ih =>
      cases h' with
      | last hlast => cases hread.symm.trans hlast
      | next hnext hrest =>
          cases hread.symm.trans hnext
          rw [ih hrest]

theorem Records.readAll {as : List α} (h : reader.Records stream as) (records : List α) :
    reader.readAll stream records = .ok (records ++ as) := by
  induction h generalizing records with
  | last hread => rw [readAll_none hread, List.append_nil]
  | next hread _ ih => rw [readAll_some hread, ih, List.append_assoc, List.singleton_append]

/-- What the loop gathers are the records. -/
theorem readAll_eq_ok {as : List α} :
    reader.readAll stream [] = .ok as ↔ reader.Records stream as := by
  constructor
  · suffices ∀ records, reader.readAll stream records = .ok as →
        ∃ found, reader.Records stream found ∧ as = records ++ found by
      intro h
      obtain ⟨found, hfound, rfl⟩ := this [] h
      exact hfound
    intro records
    fun_induction reader.readAll stream records with
    | case1 stream records a rest hread ih =>
        intro h
        obtain ⟨found, hfound, rfl⟩ := ih h
        exact ⟨a :: found, .next hread hfound, by simp⟩
    | case2 stream records rest hread =>
        rintro ⟨⟩
        exact ⟨[], .last hread, by simp⟩
    | case3 => rintro ⟨⟩
    | case4 => rintro ⟨⟩
  · intro h
    exact h.readAll []

/-- **Records that are there are read**: if a stream of some records, whatever that means, gives the
first of them to one round and is left as a stream of the others, the loop reads them all. -/
theorem readAll_eq {Holds : Bytes → List α → Prop}
    (hnil : ∀ stream, Holds stream [] → ∃ rest, reader.read stream = .ok (none, rest))
    (hcons : ∀ stream a as, Holds stream (a :: as) →
      ∃ rest, reader.read stream = .ok (some a, rest) ∧ Holds rest as)
    {as : List α} (h : Holds stream as) (records : List α) :
    reader.readAll stream records = .ok (records ++ as) := by
  induction as generalizing stream records with
  | nil =>
      obtain ⟨rest, hread⟩ := hnil stream h
      rw [readAll_none hread, List.append_nil]
  | cons a as ih =>
      obtain ⟨rest, hread, hrest⟩ := hcons stream a as h
      rw [readAll_some hread, ih hrest, List.append_assoc, List.singleton_append]

end Reader

end Scanf
