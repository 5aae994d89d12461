import PassCompiler.Source.Delimiter
import PassCompiler.Source.Keyword

/-! Offsets in a text. Each has a line and a column; both count from 1, and columns count bytes.
Scans and searches never point before their start or past the end of the text, and readers that go
on behind what they found end because of these bounds. -/
namespace PassCompiler.Source

structure Position where
  line : Nat
  column : Nat
  deriving DecidableEq, Repr

/-- The position of `offset` in `text`. Offsets past the end count on from the start of the last
line. -/
def position (text : Bytes) (offset : Nat) : Position :=
  let before := text.take offset
  let sinceBreak := (before.reverse.takeWhile (· != 0x0A)).length
  ⟨before.count 0x0A + 1, sinceBreak + (offset - before.length) + 1⟩

theorem bounds_of_mem_scanFrom {phase : Phase} {offset : Nat} {text : Bytes} {m : Mark}
    (h : m ∈ scanFrom phase offset text) :
    offset ≤ m.offset ∧ m.offset < offset + text.length := by
  induction text generalizing phase offset with
  | nil => simp [scanFrom] at h
  | cons b rest ih =>
    simp only [scanFrom, List.mem_cons] at h
    rcases h with rfl | h
    · simp
    · have := ih h
      simp only [List.length_cons]
      omega

theorem bounds_of_mem_scan {text : Bytes} {start : Nat} {m : Mark} (h : m ∈ scan text start) :
    start ≤ m.offset ∧ m.offset < text.length := by
  have := bounds_of_mem_scanFrom h
  have len : (text.drop start).length = text.length - start := List.length_drop
  omega

theorem bounds_of_nextCode {text : Bytes} {start stop : Nat} {m : Mark}
    (h : nextCode text start stop = some m) : start ≤ m.offset ∧ m.offset < stop := by
  have := bounds_of_mem_scan (List.mem_of_find?_eq_some h)
  have len : (text.take stop).length = min stop text.length := List.length_take
  omega

theorem Group.mem_of_close? {g : Group} {marks behind : List Mark} {closer : Mark}
    (h : g.close? marks = some (closer, behind)) : closer ∈ marks := by
  obtain ⟨inside, rfl⟩ := Group.append_of_close? h
  simp

theorem bounds_of_matchingClose {text : Bytes} {start stop : Nat}
    (h : matchingClose text start = some stop) : start < stop ∧ stop < text.length := by
  unfold matchingClose scan at h
  cases hd : text.drop start with
  | nil => simp [hd, scanFrom] at h
  | cons b rest =>
    simp only [hd, scanFrom] at h
    split at h
    · contradiction
    · obtain ⟨⟨m, behind⟩, hm, rfl⟩ := Option.map_eq_some_iff.mp h
      have := bounds_of_mem_scanFrom (Group.mem_of_close? hm)
      have len : (text.drop start).length = text.length - start := List.length_drop
      simp only [hd, List.length_cons] at len
      dsimp only
      omega

theorem bounds_of_find {text keyword : Bytes} {range span : Span} {boundary : Boundary}
    (h : find text range keyword boundary = .found span) :
    range.start ≤ span.start ∧ span.stop = span.start + keyword.length := by
  unfold find at h
  dsimp only at h
  split at h
  · next m hm =>
    obtain rfl := Sighting.found.inj h
    have mem := mem_of_mem_spelled (List.mem_of_find?_eq_some hm)
    exact ⟨(bounds_of_mem_scan mem).1, rfl⟩
  · split at h <;> contradiction

theorem length_le_of_spells {keyword : Bytes} {marks : List Mark}
    (h : spells keyword marks = true) :
    keyword.length ≤ marks.length := by
  induction keyword generalizing marks with
  | nil => simp
  | cons b rest ih =>
    cases marks with
    | nil => simp [spells] at h
    | cons m others =>
      simp only [spells, Bool.and_eq_true] at h
      have := ih h.2
      simp only [List.length_cons]
      omega

@[simp] theorem length_scanFrom (phase : Phase) (offset : Nat) (text : Bytes) :
    (scanFrom phase offset text).length = text.length := by
  induction text generalizing phase offset with
  | nil => rfl
  | cons b rest ih => simp [scanFrom, ih]

/-- A keyword that is spelled out lies inside the scanned text. -/
theorem stop_le_of_mem_spelled {keyword : Bytes} {phase : Phase} {offset : Nat} {text : Bytes}
    {m : Mark} (h : m ∈ spelled keyword (scanFrom phase offset text)) :
    m.offset + keyword.length ≤ offset + text.length := by
  induction text generalizing phase offset with
  | nil => simp [scanFrom, spelled] at h
  | cons b rest ih =>
    have later {p : Phase} (hr : m ∈ spelled keyword (scanFrom p (offset + 1) rest)) :
        m.offset + keyword.length ≤ offset + (b :: rest).length := by
      have := ih hr
      simp only [List.length_cons]
      omega
    simp only [scanFrom, spelled] at h
    split at h
    · next spelledHere =>
      have := length_le_of_spells spelledHere
      rcases List.mem_cons.mp h with rfl | h
      · simp only [List.length_cons, length_scanFrom] at this ⊢
        omega
      · exact later h
    · exact later h

theorem stop_le_of_find {text keyword : Bytes} {range span : Span} {boundary : Boundary}
    (h : find text range keyword boundary = .found span) :
    span.stop ≤ max range.start (min range.stop text.length) := by
  unfold find at h
  dsimp only at h
  split at h
  · next m hm =>
    obtain rfl := Sighting.found.inj h
    have := stop_le_of_mem_spelled (List.mem_of_find?_eq_some hm)
    simp only [List.length_drop, List.length_take] at this
    dsimp only
    omega
  · split at h <;> contradiction

theorem find_of_findTerminator {text keyword : Bytes} {range span : Span}
    (h : findTerminator text range keyword = .ok span) :
    find text range keyword .terminator = .found span := by
  unfold findTerminator at h
  dsimp only at h
  split at h
  · next hf => rw [hf, Except.ok.inj h]
  all_goals
    split at h
    all_goals first | contradiction | (split at h <;> contradiction)

end PassCompiler.Source
