import PassCompiler.Proofs.Source.Decomposition
import PassCompiler.Proofs.Source.Search

/-! Scans from anywhere, taken up again in a window. A scan goes on as it was behind a byte of code,
and at one. Where its text is cut off only the last byte may change: a slash whose comment the cut
takes away. -/
namespace PassCompiler.Source

variable {phase : Phase} {s x y : Bytes} {start limit offset p i k : Nat} {m n : Mark}

/-- Offset `p` is code for a scan from `start` on, or comes right behind such an offset. -/
def RestartAt (s : Bytes) (start p : Nat) : Prop :=
  CodeAt s start p ∨ ∃ i, CodeAt s start i ∧ p = i + 1

theorem getElem?_scan_iff : (scan s start)[k]? = some m ↔
    m ∈ scan s start ∧ m.offset = start + k := by
  constructor
  · intro here
    exact ⟨List.mem_of_getElem? here, offset_of_getElem?_scanFrom here⟩
  · rintro ⟨member, place⟩
    obtain ⟨j, here⟩ := List.getElem?_of_mem member
    have := offset_of_getElem?_scanFrom here
    obtain rfl : j = k := by omega
    exact here

/-- A scan marks every offset from its start to the end of the text. -/
theorem exists_mark (le : start ≤ i) (lt : i < s.length) :
    ∃ m, (scan s start)[i - start]? = some m ∧ m.offset = i := by
  have short : i - start < (scan s start).length := by
    rw [scan, length_scanFrom, List.length_drop]
    omega
  have here := List.getElem?_eq_getElem short
  have place := (getElem?_scan_iff.mp here).2
  exact ⟨_, here, by omega⟩

namespace CodeAt

theorem start_le (h : CodeAt s start i) : start ≤ i := by
  obtain ⟨m, member, rfl, _⟩ := h
  exact (bounds_of_mem_scan member).1

theorem lt_length (h : CodeAt s start i) : i < s.length := by
  obtain ⟨m, member, rfl, _⟩ := h
  exact (bounds_of_mem_scan member).2

theorem exists_getElem? (h : CodeAt s start i) :
    ∃ m, (scan s start)[i - start]? = some m ∧ m.offset = i ∧ m.isCode = true := by
  have le := h.start_le
  obtain ⟨m, member, place, code⟩ := h
  exact ⟨m, getElem?_scan_iff.mpr ⟨member, by omega⟩, place, code⟩

end CodeAt

/-- Code is scanned as it is where the scan starts with it. -/
theorem drop_scanFrom_code (h : (scanFrom phase offset x)[k]? = some m) (code : m.isCode = true) :
    (scanFrom phase offset x).drop k = scanFrom .code (offset + k) (x.drop k) := by
  induction x generalizing phase offset k with
  | nil => contradiction
  | cons b x ih =>
    rw [scanFrom_cons] at h ⊢
    cases k with
    | zero =>
      obtain rfl := Option.some.inj h
      have region : (phase.step b x.head?).1 = .code := Mark.isCode_iff.mp code
      rw [List.drop_zero, List.drop_zero, scanFrom_cons, Phase.code_step region, region,
        Phase.step_of_code region]
      rfl
    | succ k =>
      rw [List.drop_succ_cons, List.drop_succ_cons, ih h, Nat.add_right_comm, Nat.add_assoc]

namespace RestartAt

theorem start_le (h : RestartAt s start p) : start ≤ p := by
  rcases h with code | ⟨i, code, rfl⟩
  · exact code.start_le
  · exact Nat.le_succ_of_le code.start_le

/-- A scan that starts at such an offset is the rest of the scan. -/
theorem scan_eq (h : RestartAt s start p) : scan s p = (scan s start).drop (p - start) := by
  rcases h with code | ⟨i, code, rfl⟩
  · have le := code.start_le
    obtain ⟨m, here, _, isCode⟩ := code.exists_getElem?
    have rest := drop_scanFrom_code here isCode
    rw [List.drop_drop, Nat.add_sub_cancel' le] at rest
    exact rest.symm
  · have le := code.start_le
    obtain ⟨m, here, _, isCode⟩ := code.exists_getElem?
    have rest := drop_scanFrom here isCode
    rw [List.drop_drop, show start + (i - start + 1) = i + 1 by omega] at rest
    rw [Nat.succ_sub le]
    exact rest.symm

theorem mem (h : RestartAt s start p) (member : m ∈ scan s p) : m ∈ scan s start := by
  rw [h.scan_eq] at member
  exact List.mem_of_mem_drop member

theorem mem_iff (h : RestartAt s start p) :
    m ∈ scan s p ↔ m ∈ scan s start ∧ p ≤ m.offset := by
  constructor
  · intro member
    exact ⟨h.mem member, (bounds_of_mem_scan member).1⟩
  · rintro ⟨member, le⟩
    have first := h.start_le
    have here : (scan s start)[m.offset - start]? = some m :=
      getElem?_scan_iff.mpr ⟨member, by omega⟩
    rw [h.scan_eq]
    apply List.mem_of_getElem? (i := m.offset - p)
    rw [List.getElem?_drop, show p - start + (m.offset - p) = m.offset - start by omega, here]

end RestartAt

/-- At the end of a text a byte is governed as it is inside, but for a slash that opens a
comment. -/
theorem Phase.step_none_or (phase : Phase) (b : UInt8) (next : Option UInt8) :
    (phase.step b none).1 = (phase.step b next).1 ∨
      (phase.step b none).1 = .code ∧ b = 0x2F ∧
        (next = some 0x2F ∧ (phase.step b next).1 = .line ∨
          next = some 0x2A ∧ (phase.step b next).1 = .block) := by
  cases phase <;> grind [Phase.step]

/-- `m` and `n` mark the last byte of a window, in the whole text and in the window: a slash, and
the second byte of its marker stands behind the window. -/
structure CutOff (s : Bytes) (limit : Nat) (m n : Mark) : Prop where
  last : m.offset + 1 = limit
  code : n.region = .code
  slash : m.byte = 0x2F
  marker : s[limit]? = some 0x2F ∧ m.region = .line ∨ s[limit]? = some 0x2A ∧ m.region = .block

theorem CutOff.not_code (h : CutOff s limit m n) : m.region ≠ .code := by
  rcases h.marker with ⟨_, region⟩ | ⟨_, region⟩ <;> simp [region]

theorem scan_take (whole : m ∈ scan s start) (cut : n ∈ scan (s.take limit) start)
    (same : n.offset = m.offset) :
    n.byte = m.byte ∧ (n.region = m.region ∨ CutOff s limit m n) := by
  have bounds := bounds_of_mem_scan whole
  have bounds' := bounds_of_mem_scan cut
  rw [List.length_take] at bounds'
  have here : (scan s start)[m.offset - start]? = some m :=
    getElem?_scan_iff.mpr ⟨whole, by omega⟩
  have here' : (scan (s.take limit) start)[m.offset - start]? = some n :=
    getElem?_scan_iff.mpr ⟨cut, by omega⟩
  have byte := byte_of_getElem?_scanFrom here
  have byte' := byte_of_getElem?_scanFrom here'
  have region := region_of_getElem?_scanFrom here
  have region' := region_of_getElem?_scanFrom here'
  rw [List.drop_take] at byte' region'
  rw [List.getElem?_take_of_lt (by omega), byte] at byte'
  rw [@List.getElem?_take_of_lt _ _ (m.offset - start) _ (by omega), List.take_take,
    Nat.min_eq_left (by omega), ← Option.some.inj byte'] at region'
  refine ⟨(Option.some.inj byte').symm, ?_⟩
  rcases Nat.lt_or_ge (m.offset + 1) limit with inside | last
  · left
    rw [region', region, List.getElem?_take_of_lt (by omega)]
  · have next : (s.drop start)[m.offset - start + 1]? = s[limit]? := by
      rw [List.getElem?_drop]
      congr 1
      omega
    have none : ((s.drop start).take (limit - start))[m.offset - start + 1]? = none := by
      apply List.getElem?_eq_none
      rw [List.length_take]
      omega
    rw [none] at region'
    rw [next] at region
    rcases Phase.step_none_or _ m.byte s[limit]? with same | ⟨code, slash, marker⟩
    · exact .inl (region'.trans (same.trans region.symm))
    · right
      rw [← region] at marker
      exact ⟨by omega, region'.trans code, slash, marker⟩

/-- What is code in a text is code in every window that reaches so far. -/
theorem CodeAt.take (h : CodeAt s start i) (inside : i < limit) :
    CodeAt (s.take limit) start i := by
  have lt := h.lt_length
  obtain ⟨m, member, rfl, code⟩ := h
  have bounds := bounds_of_mem_scan member
  obtain ⟨n, there, place⟩ := exists_mark (s := s.take limit) bounds.1
    (by rw [List.length_take]; omega)
  have marked := List.mem_of_getElem? there
  refine ⟨n, marked, place, Mark.isCode_iff.mpr ?_⟩
  rcases (scan_take member marked place).2 with same | cut
  · exact same.trans (Mark.isCode_iff.mp code)
  · exact cut.code

theorem RestartAt.take (h : RestartAt s start p) (inside : p < limit) :
    RestartAt (s.take limit) start p := by
  rcases h with code | ⟨i, code, rfl⟩
  · exact .inl (code.take inside)
  · exact .inr ⟨i, code.take (by omega), rfl⟩

def Opens (s : Bytes) (start : Nat) (m : Mark) : Prop :=
  ∃ before comment behind, Decomposes (s.drop start) (before ++ comment :: behind) ∧
    comment.region = m.region ∧ m.region ≠ .code ∧
      start + (before.flatMap Part.text).length = m.offset

theorem Part.Fits.of_head? {part : Part} (h : part.Fits x) (filled : x ≠ [])
    (same : y.head? = x.head?) : part.Fits y := by
  cases part with
  | code b =>
    have prefix_iff {c : UInt8} : [0x2F, c] <+: b :: y ↔ [0x2F, c] <+: b :: x := by
      cases x with
      | nil => contradiction
      | cons a x =>
        obtain ⟨rest, rfl⟩ := List.head?_eq_some_iff.mp same
        simp
    exact ⟨mt prefix_iff.mp h.1, mt prefix_iff.mp h.2⟩
  | line body => exact ⟨h.1, same ▸ h.2⟩
  | block body => exact h
  | unclosed body => exact absurd h.1 filled

/-- The parts before a byte of code stay when that byte becomes the first of another part. -/
theorem Decomposes.replace_last {b : UInt8} {parts others : List Part}
    (h : Decomposes x (parts ++ [.code b])) (h' : Decomposes (b :: y) others) :
    Decomposes (parts.flatMap Part.text ++ b :: y) (parts ++ others) := by
  induction parts generalizing x with
  | nil => exact h'
  | cons part parts ih =>
    cases h with
    | @cons _ x _ fits later =>
      have later : Decomposes x (parts ++ [.code b]) := later
      have text := later.text_eq
      rw [List.flatMap_append, List.flatMap_singleton, Part.text] at text
      rw [List.flatMap_cons, List.append_assoc, List.cons_append]
      refine .cons (fits.of_head? ?_ ?_) (ih later)
      · simp [← text]
      · rw [← text]
        cases parts.flatMap Part.text <;> rfl

/-- A text whose last byte is code ends with a part of one byte. -/
theorem Decomposes.exists_last {b : UInt8} {parts : List Part} (h : Decomposes (x ++ [b]) parts)
    (code : (regionsFrom .code (x ++ [b])).getLast? = some .code) :
    ∃ before, parts = before ++ [.code b] ∧ before.flatMap Part.text = x := by
  have text := h.text_eq
  rw [h.regionsFrom_eq] at code
  rcases List.eq_nil_or_concat' parts with rfl | ⟨before, last, rfl⟩
  · contradiction
  · rw [List.flatMap_append, List.flatMap_singleton] at text code
    have governed : last.region = .code := by
      have filled : last.text.length ≠ 0 := by cases last <;> simp [Part.text]
      rw [List.getLast?_append, Part.regions, List.getLast?_replicate, if_neg filled] at code
      exact Option.some.inj code
    cases last with
    | code c =>
      obtain ⟨same, last⟩ := List.append_inj' text rfl
      obtain rfl := (List.cons.inj last).1
      exact ⟨before, rfl, same⟩
    | line | block | unclosed => contradiction

theorem getLast?_regionsFrom (h : (scan s start).getLast? = some m) :
    (regionsFrom .code (s.drop start)).getLast? = some m.region := by
  rw [← map_region_scanFrom .code start, List.getLast?_map, ← scan, h, Option.map_some]

theorem CutOff.opens (h : CutOff s limit m n) (whole : m ∈ scan s start)
    (cut : n ∈ scan (s.take limit) start) (same : n.offset = m.offset) : Opens s start m := by
  have bounds := bounds_of_mem_scan whole
  have inside := bounds_of_mem_scan cut
  have last := h.last
  have byte : s[m.offset]? = some 0x2F := by
    have here := byte_of_getElem?_scanFrom
      (getElem?_scan_iff.mpr ⟨whole, (Nat.add_sub_cancel' bounds.1).symm⟩)
    rwa [List.getElem?_drop, Nat.add_sub_cancel' bounds.1, h.slash] at here
  have window : (s.take limit).drop start = Bytes.slice s ⟨start, m.offset⟩ ++ [0x2F] := by
    rw [← last, List.take_add_one, byte, Bytes.slice, Option.toList_some,
      List.drop_append_of_le_length]
    rw [List.length_take]
    omega
  have ends : (scan (s.take limit) start).getLast? = some n := by
    rw [List.getLast?_eq_getElem?]
    refine getElem?_scan_iff.mpr ⟨cut, ?_⟩
    rw [scan, length_scanFrom, List.length_drop, List.length_take]
    omega
  have region := getLast?_regionsFrom ends
  rw [window, h.code] at region
  obtain ⟨parts, decomposes⟩ := exists_decomposes (Bytes.slice s ⟨start, m.offset⟩ ++ [0x2F])
  obtain ⟨before, rfl, text⟩ := decomposes.exists_last region
  obtain ⟨comment, y, split, fits⟩ := Part.exists_fits 0x2F (s.drop (m.offset + 1))
  obtain ⟨behind, later⟩ := exists_decomposes y
  have rest : s.drop m.offset = 0x2F :: s.drop (m.offset + 1) := by
    obtain ⟨lt, at'⟩ := List.getElem?_eq_some_iff.mp byte
    rw [List.drop_eq_getElem_cons lt, at']
  have ahead : Decomposes (0x2F :: s.drop (m.offset + 1)) (comment :: behind) :=
    split ▸ .cons fits later
  have all := decomposes.replace_last ahead
  have cut : s.drop start = Bytes.slice s ⟨start, m.offset⟩ ++ s.drop m.offset := by
    rw [← Bytes.slice_to_end, Bytes.slice_append bounds.1 (Nat.le_of_lt bounds.2),
      Bytes.slice_to_end]
  rw [text, ← rest, ← cut] at all
  have region : comment.region = m.region := by
    obtain ⟨line, block⟩ := Part.opening_iff fits
    rw [← split] at line block
    have next {c : UInt8} (h : s[limit]? = some c) :
        [0x2F, c] <+: 0x2F :: s.drop (m.offset + 1) := by
      rw [last]
      obtain ⟨lt, rfl⟩ := List.getElem?_eq_some_iff.mp h
      rw [List.drop_eq_getElem_cons lt]
      exact ⟨_, rfl⟩
    rcases h.marker with ⟨marker, region⟩ | ⟨marker, region⟩
    · rw [region, line.mp (next marker)]
    · rw [region, block.mp (next marker)]
  refine ⟨before, comment, behind, all, region, h.not_code, ?_⟩
  rw [text, Bytes.length_slice (Nat.le_of_lt bounds.2)]
  exact Nat.add_sub_cancel' bounds.1

end PassCompiler.Source
