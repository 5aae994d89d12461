import PassCompiler.Proofs.Pass.Argument.Joined
import PassCompiler.Proofs.Text.Repair

/-! What an argument list may hold, whatever the bytes it was read from. Lists of entries are the
only ones that are read, and each is read again from its entries with `, ` between them:
`read_join_iff`. That the bytes need not be UTF-8 takes a proof that a reader does not see where
characters were repaired. -/
namespace PassCompiler.Source

variable {b : UInt8} {phase : Phase}

/-- The phase behind a byte that is part of no marker and ends no line. -/
def Phase.passed : Phase → Phase
  | .code | .closeMarker => .code
  | .line | .lineMarker => .line
  | .block | .blockMarker => .block

theorem Phase.step_high (high : 0x80 ≤ b) (next : Option UInt8) :
    (phase.step b next).2 = phase.passed ∧ ((phase.step b next).1 = .code ↔ phase = .code) := by
  have slash : b ≠ 0x2F := by
    rintro rfl
    contradiction
  have star : b ≠ 0x2A := by
    rintro rfl
    contradiction
  have feed : b ≠ 0x0A := by
    rintro rfl
    contradiction
  cases phase <;> simp [Phase.step, Phase.passed, slash, star, feed]

theorem Phase.passed_passed (phase : Phase) : phase.passed.passed = phase.passed := by
  cases phase <;> rfl

theorem Phase.passed_eq_code (code : phase = .code) : phase.passed = .code := by
  rw [code]
  rfl

/-- A scan looks ahead for the second bytes of markers alone. -/
theorem Phase.step_congr_next {next next' : Option UInt8} (b : UInt8)
    (slash : next' = some 0x2F ↔ next = some 0x2F) (star : next' = some 0x2A ↔ next = some 0x2A) :
    phase.step b next' = phase.step b next := by
  have slash' : (next' == some 0x2F) = (next == some 0x2F) := by
    rw [Bool.eq_iff_iff, beq_iff_eq, beq_iff_eq, slash]
  have star' : (next' == some 0x2A) = (next == some 0x2A) := by
    rw [Bool.eq_iff_iff, beq_iff_eq, beq_iff_eq, star]
  cases phase <;> simp only [Phase.step, slash', star']

theorem plain_of_high {m : Mark} (high : 0x80 ≤ m.byte) : m.Plain := by
  have ne {c : UInt8} (ascii : c < 0x80) : m.isCodeByte c = false := by
    by_contra same
    rw [Bool.not_eq_false, Mark.isCodeByte_iff] at same
    rw [same.2] at high
    exact UInt8.not_lt.mpr high ascii
  intro kind
  cases kind with
  | paren => exact ⟨ne (by decide), ne (by decide)⟩
  | brace => exact ⟨ne (by decide), ne (by decide)⟩

end PassCompiler.Source

namespace PassCompiler.Argument

open Source

variable {g : Option Group} {phase : Phase} {offset offset' : Nat} {b : UInt8} {u x y : Bytes}

instance Whole.decidable : (g : Option Group) → (r : List Mark) → Decidable (Whole g r)
  | none, [] => isTrue trivial
  | some _, [] => isFalse id
  | none, m :: rest =>
    have := Whole.decidable (opens m) rest
    inferInstanceAs (Decidable (_ ∧ _ ∧ Whole (opens m) rest))
  | some g, m :: rest => Whole.decidable (g.step m) rest

instance (arg : Bytes) : Decidable (Entry arg) :=
  decidable_of_iff
    (arg ≠ [] ∧ Bytes.trimSpace arg = arg ∧ Utf8.isValid arg = true ∧ Whole none (scan arg 0) ∧
      Closed arg)
    ⟨fun ⟨filled, trimmed, valid, whole, closed⟩ => ⟨filled, trimmed, valid, whole, closed⟩,
      fun h => ⟨h.filled, h.trimmed, h.valid, h.whole, h.closed⟩⟩

/-- A byte beyond ASCII outside groups has to be code, and has no other effect. -/
theorem whole_cons_high (high : 0x80 ≤ b) :
    Whole g (scanFrom phase offset (b :: x)) ↔
      (g = none → phase = .code) ∧ Whole g (scanFrom phase.passed (offset + 1) x) := by
  obtain ⟨behind, code⟩ := @Phase.step_high b phase high x.head?
  have plain (region : Region) : (Mark.mk offset b region).Plain := plain_of_high high
  rw [scanFrom_cons, behind]
  cases g with
  | some g => simp [Whole, Group.step_plain (plain _)]
  | none =>
    have comma : b ≠ 0x2C := by
      rintro rfl
      contradiction
    constructor
    · rintro ⟨here, _, later⟩
      rw [opens_plain (plain _) here] at later
      exact ⟨fun _ => code.mp (Mark.isCode_iff.mp here), later⟩
    · rintro ⟨here, later⟩
      have isCode : (Mark.mk offset b (phase.step b x.head?).1).isCode = true :=
        Mark.isCode_iff.mpr (code.mpr (here rfl))
      refine ⟨isCode, comma, ?_⟩
      rwa [opens_plain (plain _) isCode]

theorem whole_append_high (high : Utf8.High u) :
    Whole g (scanFrom phase offset (u ++ x)) ↔
      (g = none → phase = .code) ∧ Whole g (scanFrom phase.passed (offset + u.length) x) := by
  obtain ⟨filled, high⟩ := high
  induction u generalizing phase offset with
  | nil => contradiction
  | cons b u ih =>
    obtain ⟨here, later⟩ := List.forall_mem_cons.mp high
    rw [List.cons_append, whole_cons_high here]
    cases u with
    | nil => rfl
    | cons c u =>
      have long : offset + 1 + (c :: u).length = offset + (b :: c :: u).length := by
        simp only [List.length_cons]
        omega
      -- the phase changes at the first byte alone, so the others add no condition
      rw [ih (by simp) later, Phase.passed_passed, long, ← and_assoc]
      refine and_congr_left fun _ => ⟨And.left, fun code => ⟨code, fun outside => ?_⟩⟩
      exact Phase.passed_eq_code (code outside)

/-- A list reader does not see where characters were repaired. -/
theorem Whole.mends (same : Utf8.Mends x y) (h : Whole g (scanFrom phase offset x)) :
    Whole g (scanFrom phase offset' y) := by
  induction same generalizing g phase offset offset' with
  | nil => exact h
  | @ascii b x y _ same ih =>
    have step : phase.step b y.head? = phase.step b x.head? :=
      Phase.step_congr_next b (same.head?_iff (by decide)) (same.head?_iff (by decide))
    rw [scanFrom_cons] at h ⊢
    rw [step]
    cases g with
    | some g => exact ih h
    | none => exact ⟨h.1, h.2.1, ih h.2.2⟩
  | high high high' _ _ ih =>
    rw [whole_append_high high] at h
    rw [whole_append_high high']
    exact ⟨h.1, ih h.2⟩

/-- The repaired text of an argument. -/
theorem Written.entry {r : List Mark} (h : Written r) (filled : text r ≠ [])
    (trimmed : Bytes.trimSpace (text r) = text r) : Entry (Utf8.repair (text r)) := by
  have mends := Utf8.mends_repair (text r)
  have whole : Whole none (scan (Utf8.repair (text r)) 0) :=
    (h.whole.alike (h.scanned.alike 0)).mends mends
  refine ⟨?_, ?_, Utf8.isValid_of_mends mends, whole, closed_of_whole whole⟩
  · rwa [Ne, mends.eq_nil_iff]
  · rw [Blank.trimSpace_eq_self_iff] at trimmed ⊢
    intro b ends
    by_contra space
    have space : Bytes.isSpace b = true := by simpa using space
    have ascii := Utf8.ascii_of_isSpace space
    rw [mends.head?_iff ascii, mends.getLast?_iff ascii] at ends
    exact absurd (trimmed b ends) (by simp [space])

theorem Reading.entries {last : Option Mark} {r : List Mark} {rs : List (List Mark)}
    (h : Reading none last (scanFrom .code offset x) r rs) :
    ∀ arg ∈ trimmed (r :: rs), Entry arg := by
  have scanned := h.scanned (scanned_scanFrom .code offset x)
  have whole := h.whole
  have written : ∀ q ∈ r :: rs, Written q :=
    List.forall_mem_cons.mpr
      ⟨⟨scanned.1, whole.1⟩, fun q hq => ⟨scanned.2 q hq, whole.2 q hq⟩⟩
  intro arg member
  obtain ⟨_, kept, rfl⟩ := List.mem_map.mp member
  obtain ⟨here, filled⟩ := List.mem_filter.mp kept
  obtain ⟨q, hq, rfl⟩ := List.mem_map.mp here
  obtain ⟨w, written, same⟩ := (written q hq).trim Blank.trims_trimSpace
  rw [← same] at filled ⊢
  apply written.entry
  · simpa using filled
  · rw [same, Blank.trimSpace_trimSpace]

/-- What is read is a list of entries, whatever the source. -/
theorem entries_of_read {source : Bytes} {span : Span} {args : List Bytes}
    (h : read source span = .ok args) : ∀ arg ∈ args, Entry arg := by
  obtain ⟨r, rs, reading, rfl⟩ := read_eq_ok_iff.mp h
  exact reading.entries

def joined (args : List Bytes) : Bytes := Bytes.join (bytes ", ") args

theorem read_joined {args : List Bytes} (entries : ∀ arg ∈ args, Entry arg) :
    read (joined args) ⟨0, (joined args).length⟩ = .ok args := by
  have separated : IsSeparator (bytes ", ") := ⟨[0x20], by decide, by decide⟩
  apply read_entries separated entries
  rw [Bytes.slice, List.take_length, List.drop_zero, joined]

/-- Reading a list takes apart what joining puts together, and joining puts together what reading
took apart, of any source. -/
theorem read_join_inverse :
    (∀ args, (∀ arg ∈ args, Entry arg) →
      read (joined args) ⟨0, (joined args).length⟩ = .ok args) ∧
    ∀ source span args, read source span = .ok args →
      (∀ arg ∈ args, Entry arg) ∧ read (joined args) ⟨0, (joined args).length⟩ = .ok args := by
  constructor
  · intro args entries
    exact read_joined entries
  · intro source span args h
    have entries := entries_of_read h
    exact ⟨entries, read_joined entries⟩

/-- A comma in a comment, a parenthesis that a brace leaves open, a byte of no character and a
closer of no group. -/
theorem read_join_inverse_four :
    let source := bytes "READ((a /* , */ b), \x7b 1, ( \x7d, " ++ 0xFF :: bytes "// ,\nc), d)"
    let args := [bytes "(a /* , */ b)", bytes "\x7b 1, ( \x7d",
      0xEF :: 0xBF :: 0xBD :: bytes " \nc)", bytes "d"]
    read source ⟨5, source.length - 1⟩ = .ok args ∧ (∀ arg ∈ args, Entry arg) ∧
      read (joined args) ⟨0, (joined args).length⟩ = .ok args := by
  intro source args
  have first : read source ⟨5, source.length - 1⟩ = .ok args := by decide +kernel
  have entries : ∀ arg ∈ args, Entry arg := by decide +kernel
  exact ⟨first, (read_join_inverse.2 source _ args first).1, read_join_inverse.1 args entries⟩

end PassCompiler.Argument
