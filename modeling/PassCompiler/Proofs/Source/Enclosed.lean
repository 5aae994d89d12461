import PassCompiler.Proofs.Pass.Counterpart.Basic
import PassCompiler.Proofs.Text.Slice

/-! A text between two delimiters of code, such as the body of a pass. A scan marks it as it does in
the source around it, and a search in it does not depend on what closes it, unless that is an
identifier byte. -/
namespace PassCompiler.Source

variable {s x y keyword : Bytes} {boundary : Boundary} {c : Mark}

/-- A scan may also be cut off behind a byte of code that is no slash. -/
theorem scan_take_behind (hc : c ∈ scan s 0) (code : c.isCode = true) (slash : c.byte ≠ 0x2F) :
    scan (s.take (c.offset + 1)) 0 = (scan s 0).take (c.offset + 1) := by
  have here := mem_scan_iff.mp hc
  obtain ⟨lt, at'⟩ := List.getElem?_eq_some_iff.mp here
  have cut : (scan s 0).take (c.offset + 1) = (scan s 0).take c.offset ++ [c] := by
    rw [List.take_add_one, here, Option.toList_some]
  have split : scan s 0 = (scan s 0).take c.offset ++ c :: (scan s 0).drop (c.offset + 1) := by
    have rest := List.drop_eq_getElem_cons lt
    rw [at'] at rest
    rw [← rest, List.take_append_drop]
  have alone := (scanFrom_split split code slash).1
  rw [← cut, text, List.map_take] at alone
  have whole : (scan s 0).map (·.byte) = s := text_scanFrom ..
  rw [whole] at alone
  exact alone

theorem scan_window_behind {start : Nat} (resumes : Resumes s start) (le : start ≤ c.offset + 1)
    (hc : c ∈ scan s 0) (code : c.isCode = true) (slash : c.byte ≠ 0x2F) :
    scan (s.take (c.offset + 1)) start = ((scan s 0).take (c.offset + 1)).drop start := by
  have cut := scan_take_behind hc code slash
  have resumes' : Resumes (s.take (c.offset + 1)) start := by
    rcases resumes with zero | ⟨m, hm, codeHere, rfl⟩
    · exact .inl zero
    · refine .inr ⟨m, ?_, codeHere, rfl⟩
      rw [cut]
      apply List.mem_of_getElem? (i := m.offset)
      rw [List.getElem?_take_of_lt (by omega)]
      exact mem_scan_iff.mp hm
  rw [scan_drop resumes', cut]

/-- A text with the byte that closes it, read alone and in its source. -/
theorem twin_enclosed {o : Mark} (ho : o ∈ scan s 0) (code : o.isCode = true) (hc : c ∈ scan s 0)
    (code' : c.isCode = true) (lt : o.offset < c.offset) (slash : c.byte ≠ 0x2F)
    (ident : Bytes.isIdent c.byte = false) :
    Twin True False (o.offset + 1) (Bytes.slice s ⟨o.offset + 1, c.offset + 1⟩) s where
  base := resumes_of_mem ho code
  tracks := by
    have window := scan_window_behind (resumes_of_mem ho code) (by omega) hc code' slash
    rw [scan_slice] at window
    refine ⟨_, (scan s 0).drop (c.offset + 1), ?_, tracks_shift .., False.elim⟩
    rw [window, ← List.drop_append_of_le_length, List.take_append_drop]
    have := offset_lt_of_mem hc
    rw [List.length_take, length_scan_zero]
    omega
  ending := by
    have window := scan_window_behind (resumes_of_mem ho code) (by omega) hc code' slash
    have member : c ∈ scan (s.take (c.offset + 1)) (o.offset + 1) := by
      rw [window]
      apply List.mem_of_getElem? (i := c.offset - (o.offset + 1))
      rw [List.getElem?_drop, Nat.add_sub_cancel' lt, List.getElem?_take_of_lt (by omega)]
      exact mem_scan_iff.mp hc
    rw [scan_slice] at member
    obtain ⟨m, hm, rfl⟩ := List.mem_map.mp member
    have lt' := offset_lt_of_mem hc
    refine .inr ⟨m, hm, ?_, code', ident⟩
    rw [Bytes.length_slice lt']
    simp only [Mark.shift]
    omega

theorem Occurs.any_isIdent_within {i j : Nat} (isWord : IsWord keyword) (h : Occurs s keyword i)
    (after : i ≤ j) (before : j < i + keyword.length) :
    (s[j]?).any Bytes.isIdent = true := by
  obtain ⟨k, rfl⟩ := Nat.exists_eq_add_of_le after
  obtain ⟨m, hm, at', _, byte⟩ :=
    (occurs_iff isWord).mp h k _ (List.getElem?_eq_getElem (by omega))
  rw [← at', getElem?_of_mem_scan hm, byte]
  exact isWord.2 _ (List.getElem_mem _)

theorem Occurs.any_isIdent {i : Nat} (isWord : IsWord keyword) (h : Occurs s keyword i) :
    (s[i]?).any Bytes.isIdent = true := by
  have long := List.length_pos_iff.mpr isWord.1
  exact h.any_isIdent_within isWord (Nat.le_refl i) (by omega)

/-- No word reaches over another byte. -/
theorem Occurs.apart (isWord : IsWord keyword) {i p : Nat} {b : UInt8}
    (h : Occurs s keyword i) (at' : s[p]? = some b) (other : Bytes.isIdent b = false) :
    p < i ∨ i + keyword.length ≤ p := by
  by_contra inside
  have ident := h.any_isIdent_within isWord (by omega : i ≤ p) (by omega)
  rw [at', Option.any_some, other] at ident
  contradiction

/-- What a search in a text accepts does not depend on what stands behind the text. -/
theorem accepts_concat {b : UInt8} (ident : Bytes.isIdent b = false) {start i : Nat}
    (inside : i + keyword.length ≤ x.length) (nonempty : keyword ≠ []) :
    boundary.accepts (x ++ b :: y) start ⟨i, i + keyword.length⟩ =
      boundary.accepts x start ⟨i, i + keyword.length⟩ := by
  have long := List.length_pos_iff.mpr nonempty
  have before : (x ++ b :: y)[i - 1]? = x[i - 1]? := List.getElem?_append_left (by omega)
  have behind : ((x ++ b :: y)[i + keyword.length]?).any Bytes.isIdent =
      (x[i + keyword.length]?).any Bytes.isIdent := by
    rcases Nat.eq_or_lt_of_le inside with same | inside
    · rw [same, List.getElem?_append_right (Nat.le_refl _), Nat.sub_self,
        List.getElem?_eq_none (Nat.le_refl _)]
      exact ident
    · rw [List.getElem?_append_left inside]
  simp only [Boundary.accepts, before, behind]

theorem sighted_concat {b : UInt8} (ident : Bytes.isIdent b = false) (nonempty : keyword ≠ [])
    {range : Span} (inside : range.stop ≤ x.length) {i : Nat} :
    Sighted (x ++ b :: y) range keyword boundary i ↔ Sighted x range keyword boundary i := by
  have cut : (x ++ b :: y).take range.stop = x.take range.stop :=
    List.take_append_of_le_length inside
  have same (spelled : keyword <+: (x.take range.stop).drop i) :
      boundary.accepts (x ++ b :: y) range.start ⟨i, i + keyword.length⟩ =
        boundary.accepts x range.start ⟨i, i + keyword.length⟩ := by
    have long := ((prefix_drop_take_iff nonempty).mp spelled).2
    exact accepts_concat ident (by omega) nonempty
  constructor
  · rintro ⟨code, spelled, accepted⟩
    rw [cut] at code spelled
    exact ⟨code, spelled, same spelled ▸ accepted⟩
  · rintro ⟨code, spelled, accepted⟩
    refine ⟨?_, ?_, same spelled ▸ accepted⟩
    · rwa [cut]
    · rwa [cut]

/-- A search in a text finds the same whatever closes the text. -/
theorem find_concat {b : UInt8} (ident : Bytes.isIdent b = false) (nonempty : keyword ≠ [])
    {range : Span} (inside : range.stop ≤ x.length) {span : Span} :
    find (x ++ [b]) range keyword boundary = .found span ↔
      find x range keyword boundary = .found span := by
  simp only [find_eq_found_iff, sighted_concat ident nonempty inside]

end PassCompiler.Source
