import PassCompiler.Proofs.Source.Search

/-! The first match of a keyword. A match is told from the bytes of the text, and what governs it
from a scan that ends with the range. Main statement: `find_firstMatch`. -/
namespace PassCompiler.Source

variable {s keyword : Bytes} {range span : Span} {boundary : Boundary} {i : Nat} {m : Mark}

/-- What may stand before a keyword where the search does not start with it. -/
def Boundary.Allows (b : UInt8) : Boundary → Prop
  | .terminator => b = 0x20 ∨ b = 0x09 ∨ b = 0x0A ∨ b = 0x0D
  | .word => Bytes.isIdent b = false

/-- `keyword` stands at `i`, inside `range` as far as the text reaches. The bytes around it are
those of the text, also the one behind the range. -/
structure MatchAt (s : Bytes) (range : Span) (keyword : Bytes) (boundary : Boundary) (i : Nat) :
    Prop where
  start_le : range.start ≤ i
  stop_le : i + keyword.length ≤ min range.stop s.length
  spelled : keyword <+: s.drop i
  before : i = range.start ∨ ∃ b, s[i - 1]? = some b ∧ boundary.Allows b
  behind : ∀ b, s[i + keyword.length]? = some b → Bytes.isIdent b = false

def Governed (s : Bytes) (range : Span) (i : Nat) (region : Region) : Prop :=
  ∃ m ∈ scan (s.take range.stop) range.start, m.offset = i ∧ m.region = region

inductive FirstMatch (s : Bytes) (range : Span) (keyword : Bytes) (boundary : Boundary) :
    Sighting → Prop
  | found {i : Nat} :
      IsLeast {i | MatchAt s range keyword boundary i ∧ Governed s range i .code} i →
      FirstMatch s range keyword boundary (.found ⟨i, i + keyword.length⟩)
  | commented {i : Nat} :
      (∀ j, MatchAt s range keyword boundary j → ¬ Governed s range j .code) →
      IsLeast {i | MatchAt s range keyword boundary i ∧
        (Governed s range i .line ∨ Governed s range i .block)} i →
      FirstMatch s range keyword boundary (.commented ⟨i, i + keyword.length⟩)
  | absent :
      (∀ j, MatchAt s range keyword boundary j → ∀ region, ¬ Governed s range j region) →
      FirstMatch s range keyword boundary .absent

theorem Boundary.before_iff {b : UInt8} : boundary.before b = true ↔ boundary.Allows b := by
  cases boundary <;> simp [before, Allows, Bytes.isBlank, or_assoc]

theorem accepts_iff {start : Nat} : boundary.accepts s start span = true ↔
    (span.start = start ∨ ∃ b, s[span.start - 1]? = some b ∧ boundary.Allows b) ∧
      ∀ b, s[span.stop]? = some b → Bytes.isIdent b = false := by
  rw [Boundary.accepts, Bool.and_eq_true, Bool.or_eq_true, beq_iff_eq, Option.any_eq_true,
    Bool.not_eq_true', Option.any_eq_false]
  simp only [Boundary.before_iff]

/-- Every mark of the range is a candidate for the empty keyword. -/
theorem mem_candidates_iff_spelled : m ∈ candidates s range keyword ↔
    m ∈ scan (s.take range.stop) range.start ∧ m.offset + keyword.length ≤ range.stop ∧
      keyword <+: s.drop m.offset := by
  rcases eq_or_ne keyword [] with rfl | nonempty
  · rw [mem_candidates_iff_window]
    refine and_congr_right fun h => iff_of_true List.nil_prefix ⟨?_, List.nil_prefix⟩
    have bounds := bounds_of_mem_scan h
    rw [List.length_take] at bounds
    simp only [List.length_nil]
    omega
  · exact mem_candidates_iff nonempty

theorem matchAt_iff (marked : m ∈ scan (s.take range.stop) range.start) :
    MatchAt s range keyword boundary m.offset ↔ m ∈ candidates s range keyword ∧
      boundary.accepts s range.start ⟨m.offset, m.offset + keyword.length⟩ = true := by
  have bounds := bounds_of_mem_scan marked
  rw [List.length_take] at bounds
  rw [mem_candidates_iff_spelled, accepts_iff]
  constructor
  · rintro ⟨_, inside, spelt, before, behind⟩
    exact ⟨⟨marked, by omega, spelt⟩, before, behind⟩
  · rintro ⟨⟨_, inside, spelt⟩, before, behind⟩
    have short := spelt.length_le
    rw [List.length_drop] at short
    exact ⟨bounds.1, by omega, spelt, before, behind⟩

/-- The first match among the marks with `p`. -/
theorem find?_matchAt (s : Bytes) (range : Span) (keyword : Bytes) (boundary : Boundary)
    (p : Mark → Bool) :
    (∀ m, (candidates s range keyword).find? (fun m => p m &&
        boundary.accepts s range.start ⟨m.offset, m.offset + keyword.length⟩) = some m →
      IsLeast {i | MatchAt s range keyword boundary i ∧
        ∃ a ∈ scan (s.take range.stop) range.start, a.offset = i ∧ p a = true} m.offset) ∧
    ((candidates s range keyword).find? (fun m => p m &&
        boundary.accepts s range.start ⟨m.offset, m.offset + keyword.length⟩) = none →
      ∀ i, MatchAt s range keyword boundary i →
        ¬ ∃ a ∈ scan (s.take range.stop) range.start, a.offset = i ∧ p a = true) := by
  constructor
  · intro m found
    obtain ⟨member, both, least⟩ := (find?_eq_some_iff_of_sorted sorted_candidates).mp found
    obtain ⟨holds, accepted⟩ := Bool.and_eq_true_iff.mp both
    have marked := mem_of_mem_spelled member
    refine ⟨⟨(matchAt_iff marked).mpr ⟨member, accepted⟩, m, marked, rfl, holds⟩, ?_⟩
    rintro i ⟨here, a, marked', rfl, holds'⟩
    obtain ⟨member', accepted'⟩ := (matchAt_iff marked').mp here
    exact least a member' (Bool.and_eq_true_iff.mpr ⟨holds', accepted'⟩)
  · rintro none i here ⟨a, marked, rfl, holds⟩
    obtain ⟨member, accepted⟩ := (matchAt_iff marked).mp here
    have refused := List.find?_eq_none.mp none a member
    rw [holds, accepted] at refused
    contradiction

theorem find_answers (s : Bytes) (range : Span) (keyword : Bytes) (boundary : Boundary) :
    FirstMatch s range keyword boundary (find s range keyword boundary) := by
  obtain ⟨first, none⟩ := find?_matchAt s range keyword boundary Mark.isCode
  obtain ⟨first', none'⟩ := find?_matchAt s range keyword boundary fun _ => true
  simp only [Mark.isCode_iff] at first none
  simp only [Bool.true_and, and_true] at first' none'
  unfold find
  dsimp only
  split
  · next m found => exact .found (first m found)
  · next missing =>
    split
    · next m found =>
      obtain ⟨⟨here, a, marked, place⟩, least⟩ := first' m found
      refine .commented (none missing) ⟨⟨here, ?_⟩, ?_⟩
      · cases kind : a.region with
        | code => exact absurd ⟨a, marked, place, kind⟩ (none missing _ here)
        | line => exact .inl ⟨a, marked, place, kind⟩
        | block => exact .inr ⟨a, marked, place, kind⟩
      · rintro i ⟨matched, ⟨b, marked', place', _⟩ | ⟨b, marked', place', _⟩⟩
        · exact least ⟨matched, b, marked', place'⟩
        · exact least ⟨matched, b, marked', place'⟩
    · next missing' =>
      refine .absent ?_
      rintro i matched region ⟨a, marked, place, _⟩
      exact none' missing' i matched ⟨a, marked, place⟩

/-- A match has a state, and it is the one that a scan of the whole text gives it. -/
theorem MatchAt.exists_region (h : MatchAt s range keyword boundary i) (isWord : IsWord keyword) :
    ∃ region, Governed s range i region ∧
      ∃ m ∈ scan s range.start, m.offset = i ∧ m.region = region := by
  obtain ⟨b, letters, rfl⟩ := List.exists_cons_of_ne_nil isWord.1
  have after := h.start_le
  have inside := h.stop_le
  rw [List.length_cons] at inside
  have short : i - range.start < (scan (s.take range.stop) range.start).length := by
    simp only [scan, length_scanFrom, List.length_drop, List.length_take]
    omega
  have long : i - range.start < (scan s range.start).length := by
    simp only [scan, length_scanFrom, List.length_drop]
    omega
  obtain ⟨n, cut⟩ : ∃ n, (scan (s.take range.stop) range.start)[i - range.start]? = some n :=
    ⟨_, List.getElem?_eq_getElem short⟩
  obtain ⟨m, whole⟩ : ∃ m, (scan s range.start)[i - range.start]? = some m :=
    ⟨_, List.getElem?_eq_getElem long⟩
  have place := offset_of_getElem?_scanFrom cut
  have place' := offset_of_getElem?_scanFrom whole
  have first : s[i]? = some b := by
    obtain ⟨rest, same⟩ := h.spelled
    rw [← List.head?_drop, ← same, List.cons_append, List.head?_cons]
  have byte := byte_of_getElem?_scanFrom whole
  rw [List.getElem?_drop, Nat.add_sub_cancel' after, first] at byte
  have calm := neutral_of_isIdent isWord.2 b List.mem_cons_self
  rw [Option.some.inj byte] at calm
  have region : n.region = m.region := by
    rw [scan, List.drop_take] at cut
    exact region_take whole cut calm
  rw [Nat.add_sub_cancel' after] at place place'
  exact ⟨_, ⟨n, List.mem_of_getElem? cut, place, rfl⟩, m, List.mem_of_getElem? whole, place',
    region.symm⟩

/-- A blank is no part of an identifier. -/
theorem MatchAt.word (h : MatchAt s range keyword .terminator i) :
    MatchAt s range keyword .word i := by
  refine ⟨h.start_le, h.stop_le, h.spelled, h.before.imp_right ?_, h.behind⟩
  rintro ⟨b, before, rfl | rfl | rfl | rfl⟩ <;> exact ⟨_, before, rfl⟩

/-- A search shows the first match in code, else the first one in a comment, and code and comments
are those of the whole text. What it finds as a terminator it finds as a word, there or before. -/
theorem find_firstMatch (s : Bytes) (range : Span) (keyword : Bytes)
    (letters : ∀ b ∈ keyword, Bytes.isIdent b = true) :
    (∀ boundary, FirstMatch s range keyword boundary (find s range keyword boundary)) ∧
    (keyword ≠ [] → ∀ boundary i, MatchAt s range keyword boundary i →
      ∃ region, Governed s range i region ∧
        ∃ m ∈ scan s range.start, m.offset = i ∧ m.region = region) ∧
    (∀ span, find s range keyword .terminator = .found span →
      ∃ span', find s range keyword .word = .found span' ∧ span'.start ≤ span.start) := by
  refine ⟨find_answers s range keyword, ?_, ?_⟩
  · exact fun nonempty boundary i h => h.exists_region ⟨nonempty, letters⟩
  · intro span found
    have terminator := find_answers s range keyword .terminator
    rw [found] at terminator
    obtain ⟨⟨matched, code⟩, _⟩ := terminator
    have word := find_answers s range keyword .word
    generalize find s range keyword .word = sighting at word
    cases word with
    | found least => exact ⟨_, rfl, least.2 ⟨matched.word, code⟩⟩
    | commented none => exact absurd code (none _ matched.word)
    | absent none => exact absurd code (none _ matched.word _)

theorem find_firstMatch_glued :
    (∀ b ∈ bytes "END", Bytes.isIdent b = true) ∧
      FirstMatch (bytes "/* END */x.END END_ END") ⟨9, 25⟩ (bytes "END") .terminator
        (.found ⟨20, 23⟩) ∧
      FirstMatch (bytes "/* END */x.END END_ END") ⟨9, 25⟩ (bytes "END") .word
        (.found ⟨11, 14⟩) ∧
      FirstMatch (bytes "/* END */x.END END_ END") ⟨0, 11⟩ (bytes "END") .word
        (.commented ⟨3, 6⟩) := by
  have letters : ∀ b ∈ bytes "END", Bytes.isIdent b = true := by decide
  have answers (range : Span) :=
    (find_firstMatch (bytes "/* END */x.END END_ END") range (bytes "END") letters).1
  have terminator : find (bytes "/* END */x.END END_ END") ⟨9, 25⟩ (bytes "END") .terminator =
      .found ⟨20, 23⟩ := by decide +kernel
  have word : find (bytes "/* END */x.END END_ END") ⟨9, 25⟩ (bytes "END") .word =
      .found ⟨11, 14⟩ := by decide +kernel
  have comment : find (bytes "/* END */x.END END_ END") ⟨0, 11⟩ (bytes "END") .word =
      .commented ⟨3, 6⟩ := by decide +kernel
  exact ⟨letters, terminator ▸ answers _ _, word ▸ answers _ _, comment ▸ answers _ _⟩

end PassCompiler.Source
