import PassCompiler.Proofs.Source.Enclosed

/-! Keywords at terminator boundaries, whatever search finds them. Such a keyword has a blank before
it, unless the search starts with it, so it stands apart from all words before it. -/
namespace PassCompiler.Source

variable {text keyword word : Bytes} {start cursor i j : Nat}

/-- `keyword` stands in code at offset `i`, and a search that begins at `start` takes it for a
terminator. -/
structure Terminates (text keyword : Bytes) (start i : Nat) : Prop where
  occurs : Occurs text keyword i
  accepted : Boundary.terminator.accepts text start ⟨i, i + keyword.length⟩ = true

namespace Terminates

theorem behind (h : Terminates text keyword start i) :
    (text[i + keyword.length]?).any Bytes.isIdent = false := by
  have fits := h.accepted
  rw [Boundary.accepts, Bool.and_eq_true, Bool.not_eq_true'] at fits
  exact fits.2

theorem blank (h : Terminates text keyword start i) (ne : i ≠ start) :
    ∃ b, text[i - 1]? = some b ∧ Bytes.isBlank b = true := by
  have fits := h.accepted
  rw [Boundary.accepts, Bool.and_eq_true, Bool.or_eq_true] at fits
  have before := fits.1.resolve_left (by simpa using ne)
  cases seen : text[i - 1]? with
  | none =>
    rw [seen] at before
    contradiction
  | some b =>
    rw [seen] at before
    exact ⟨b, rfl, before⟩

/-- Elsewhere than at the start of the search, it does not matter where the search starts. -/
theorem from' (h : Terminates text keyword start i) (ne : i ≠ start) (cursor : Nat) :
    Terminates text keyword cursor i := by
  obtain ⟨b, before, blank⟩ := h.blank ne
  refine ⟨h.occurs, ?_⟩
  rw [Boundary.accepts, before, h.behind, Option.any_some]
  simp [Boundary.before, blank]

/-- A word that begins before a terminator ends before the blank in front of it. -/
theorem apart (h : Terminates text keyword start i) (ne : i ≠ start) (isWord : IsWord word)
    (occurs : Occurs text word j) (lt : j < i) : j + word.length < i := by
  obtain ⟨b, before, blank⟩ := h.blank ne
  have := occurs.apart isWord before (Bytes.not_isIdent_of_isBlank blank)
  omega

end Terminates

theorem Occurs.le_length (h : Occurs text keyword i) : i + keyword.length ≤ text.length := by
  have short := h.spelled.length_le
  have := h.lt_length
  rw [List.length_drop] at short
  omega

def Edge (text : Bytes) (cursor : Nat) : Prop :=
  cursor = 0 ∨ (text[cursor]?).any Bytes.isIdent = false

/-- From such a place on, a search takes the same words for terminators as one from the start. -/
theorem Edge.terminates_iff (edge : Edge text cursor) (isWord : IsWord keyword) (le : cursor ≤ i) :
    Terminates text keyword cursor i ↔ Terminates text keyword 0 i := by
  have starts (occurs : Occurs text keyword i) (same : i = cursor) : cursor = 0 := by
    rcases edge with zero | other
    · exact zero
    · rw [← same, occurs.any_isIdent isWord] at other
      contradiction
  constructor
  · intro h
    by_cases same : i = cursor
    · rwa [starts h.occurs same] at h
    · exact h.from' same 0
  · intro h
    by_cases same : i = cursor
    · rwa [starts h.occurs same]
    · exact h.from' (by omega) cursor

theorem sighted_iff_terminates (isWord : IsWord keyword) (resumes : Resumes text start) {stop : Nat}
    (stops : Stops text stop) : Sighted text ⟨start, stop⟩ keyword .terminator i ↔
      start ≤ i ∧ i + keyword.length ≤ stop ∧ Terminates text keyword start i := by
  rw [sighted_iff isWord.1 resumes stops]
  exact and_congr_right fun _ => and_congr_right fun _ =>
    ⟨fun h => ⟨h.1, h.2⟩, fun h => ⟨h.1, h.2⟩⟩

end PassCompiler.Source
