import PassCompiler.Proofs.Source.Search
import PassCompiler.Proofs.Text.Valid

/-! Places next to an ASCII byte. A valid text may be cut there, and what a search for a keyword or
for the next code finds stands at such a place. -/
namespace PassCompiler.Source

variable {s keyword : Bytes} {start stop i : Nat} {b : UInt8} {m : Mark}

def BesideAscii (s : Bytes) (i : Nat) : Prop :=
  ∃ k b, s[k]? = some b ∧ b < 0x80 ∧ (i = k ∨ i = k + 1)

theorem besideAscii_at (h : s[i]? = some b) (ascii : b < 0x80) : BesideAscii s i :=
  ⟨i, b, h, ascii, .inl rfl⟩

theorem besideAscii_behind (h : s[i]? = some b) (ascii : b < 0x80) : BesideAscii s (i + 1) :=
  ⟨i, b, h, ascii, .inr rfl⟩

theorem BesideAscii.le_length (h : BesideAscii s i) : i ≤ s.length := by
  obtain ⟨k, b, here, _, place⟩ := h
  have lt := (List.getElem?_eq_some_iff.mp here).1
  omega

/-- A valid text may be cut there. -/
theorem BesideAscii.isBoundary (h : BesideAscii s i) (valid : Utf8.isValid s = true) :
    Utf8.isBoundary s i = true := by
  obtain ⟨k, b, here, ascii, rfl | rfl⟩ := h
  · exact Utf8.isBoundary_of_ascii here ascii
  · exact Utf8.isBoundary_behind valid here ascii

theorem ascii_of_isIdent (ident : Bytes.isIdent b = true) : b < 0x80 := by
  grind [Bytes.isIdent, Bytes.isLetter, Bytes.isDigit]

theorem ascii_of_isBlank (blank : Bytes.isBlank b = true) : b < 0x80 :=
  Utf8.ascii_of_isSpace (by rw [Bytes.isSpace, blank, Bool.true_or])

theorem Delimiter.ascii_opener (kind : Delimiter) : kind.opener < 0x80 := by
  cases kind <;> decide

theorem Delimiter.ascii_closer (kind : Delimiter) : kind.closer < 0x80 := by
  cases kind <;> decide

/-- A keyword that is spelled out begins and ends next to an ASCII byte. -/
theorem besideAscii_of_spelled (isWord : IsWord keyword) (spelled : keyword <+: s.drop i) :
    BesideAscii s i ∧ BesideAscii s (i + keyword.length) := by
  have letter (j : Nat) (lt : j < keyword.length) : s[i + j]? = some keyword[j] := by
    have same := List.prefix_iff_getElem?.mp spelled j lt
    rwa [List.getElem?_drop] at same
  have ascii (j : Nat) (lt : j < keyword.length) : keyword[j] < 0x80 :=
    ascii_of_isIdent (isWord.2 _ (List.getElem_mem lt))
  have long := List.length_pos_iff.mpr isWord.1
  refine ⟨besideAscii_at (letter 0 long) (ascii 0 long), ?_⟩
  have last := besideAscii_behind (letter (keyword.length - 1) (by omega)) (ascii _ (by omega))
  rwa [show i + (keyword.length - 1) + 1 = i + keyword.length by omega] at last

theorem besideAscii_of_find {range span : Span} {boundary : Boundary} (isWord : IsWord keyword)
    (h : find s range keyword boundary = .found span) :
    BesideAscii s span.start ∧ BesideAscii s span.stop := by
  obtain ⟨long, here, _⟩ := find_eq_found_iff.mp h
  rw [long]
  exact besideAscii_of_spelled isWord ((prefix_drop_take_iff isWord.1).mp here.spelled).1

/-- The next code behind such a place: what stands between is a blank or ends a comment. -/
theorem besideAscii_of_nextCode (resumes : Resumes s start) (stops : Stops s stop)
    (edge : BesideAscii s start) (h : nextCode s start stop = some m) :
    BesideAscii s m.offset := by
  obtain ⟨member, solid, first⟩ := (find?_eq_some_iff_of_sorted (sorted_scanFrom ..)).mp h
  obtain ⟨whole, after, inside⟩ := mem_window resumes stops member
  have code := (Bool.and_eq_true_iff.mp solid).1
  rcases Nat.eq_or_lt_of_le after with same | later
  · rwa [← same]
  obtain ⟨n, hn, before⟩ := exists_mem_scan (s := s) (i := m.offset - 1) (by
    have := offset_lt_of_mem whole
    omega)
  have next : m.offset = n.offset + 1 := by omega
  have here := getElem?_of_mem_scan hn
  cases comment : n.isCode with
  | true =>
    have blank : Bytes.isBlank n.byte = true := by
      by_contra other
      have := first n ((mem_window_iff resumes stops).mpr ⟨hn, by omega, by omega⟩)
        (by simpa [comment] using other)
      omega
    exact next ▸ besideAscii_behind here (ascii_of_isBlank blank)
  | false =>
    rcases (adjacent_of_mem hn whole next).2 comment code with feed | slash
    · exact besideAscii_at (getElem?_of_mem_scan whole) (by rw [feed]; decide)
    · exact next ▸ besideAscii_behind here (by rw [slash]; decide)

end PassCompiler.Source
