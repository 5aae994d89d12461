import PassCompiler.Proofs.Source.Alike

/-! Properly nested delimiters: a closer closes the group that was opened last, whatever its kind.
A reader that counts delimiters of one kind then finds the closers that this discipline gives. -/
namespace PassCompiler.Source

variable {strict : Prop} {kind : Delimiter} {stack behind : List Delimiter} {m : Mark}
  {marks rest : List Mark}

def Delimiter.closing? (b : UInt8) : Option Delimiter :=
  if b == 0x29 then some paren else if b == 0x7D then some brace else none

/-- The groups open behind some marks, the innermost first; `none` where a closer does not close
the innermost one. -/
def nest : List Delimiter → List Mark → Option (List Delimiter)
  | stack, [] => some stack
  | stack, m :: rest =>
    if m.isCode then
      match Delimiter.opening? m.byte, Delimiter.closing? m.byte with
      | some kind, _ => nest (kind :: stack) rest
      | none, some kind => if stack.head? = some kind then nest stack.tail rest else none
      | none, none => nest stack rest
    else nest stack rest

theorem Delimiter.closing?_eq_some_iff {b : UInt8} : closing? b = some kind ↔ b = kind.closer := by
  unfold closing?
  cases kind <;> (repeat' split) <;> simp_all [closer]

def Mark.Plain (m : Mark) : Prop :=
  ∀ kind : Delimiter, m.isCodeByte kind.opener = false ∧ m.isCodeByte kind.closer = false

theorem Mark.delimiter_cases (m : Mark) :
    (∃ kind : Delimiter, m.isCodeByte kind.opener = true) ∨
      (∃ kind : Delimiter, m.isCodeByte kind.closer = true) ∨ m.Plain := by
  by_cases opens : ∃ kind : Delimiter, m.isCodeByte kind.opener = true
  · exact .inl opens
  by_cases closes : ∃ kind : Delimiter, m.isCodeByte kind.closer = true
  · exact .inr (.inl closes)
  · refine .inr (.inr fun kind => ⟨?_, ?_⟩)
    · simpa using fun h => opens ⟨kind, h⟩
    · simpa using fun h => closes ⟨kind, h⟩

theorem nest_opener (h : m.isCodeByte kind.opener = true) :
    nest stack (m :: rest) = nest (kind :: stack) rest := by
  obtain ⟨code, byte⟩ := Mark.isCodeByte_iff.mp h
  simp only [nest, code, if_true, Delimiter.opening?_eq_some_iff.mpr byte]

theorem nest_closer (h : m.isCodeByte kind.closer = true) :
    nest stack (m :: rest) =
      if stack.head? = some kind then nest stack.tail rest else none := by
  obtain ⟨code, byte⟩ := Mark.isCodeByte_iff.mp h
  have noOpener : Delimiter.opening? m.byte = none := by
    rw [byte]
    cases kind <;> rfl
  simp only [nest, code, if_true, noOpener, Delimiter.closing?_eq_some_iff.mpr byte]

theorem nest_plain (h : m.Plain) : nest stack (m :: rest) = nest stack rest := by
  cases code : m.isCode with
  | false => simp [nest, code]
  | true =>
    have noOpener : Delimiter.opening? m.byte = none := by
      apply Delimiter.opening?_eq_none
      intro kind byte
      simpa [Mark.isCodeByte_iff.mpr ⟨code, byte⟩] using (h kind).1
    have noCloser : Delimiter.closing? m.byte = none := by
      apply Option.eq_none_iff_forall_ne_some.mpr
      intro kind closes
      have byte := Delimiter.closing?_eq_some_iff.mp closes
      simpa [Mark.isCodeByte_iff.mpr ⟨code, byte⟩] using (h kind).2
    simp only [nest, code, if_true, noOpener, noCloser]

theorem nest_of_plain (h : ∀ m ∈ marks, m.Plain) : nest stack marks = some stack := by
  induction marks with
  | nil => rfl
  | cons m marks ih =>
    rw [nest_plain (h m List.mem_cons_self)]
    apply ih
    intro n hn
    exact h n (List.mem_cons_of_mem _ hn)

theorem Group.step_plain (h : m.Plain) (g : Group) : g.step m = some g := by
  rw [Group.step, (h g.kind).1, (h g.kind).2]
  rfl

/-- A closer needs its opener to be the innermost one. -/
theorem exists_of_nest_closer (h : m.isCodeByte kind.closer = true)
    (nests : nest stack (m :: rest) = some behind) :
    ∃ outer, stack = kind :: outer ∧ nest outer rest = some behind := by
  rw [nest_closer h] at nests
  split at nests
  · next top =>
    obtain ⟨outer, rfl⟩ := List.head?_eq_some_iff.mp top
    exact ⟨outer, rfl, nests⟩
  · contradiction

theorem nest_append (stack : List Delimiter) (marks rest : List Mark) :
    nest stack (marks ++ rest) = (nest stack marks).bind (nest · rest) := by
  induction marks generalizing stack with
  | nil => rfl
  | cons m marks ih =>
    rw [List.cons_append]
    rcases m.delimiter_cases with ⟨kind, opens⟩ | ⟨kind, closes⟩ | plain
    · rw [nest_opener opens, nest_opener opens, ih]
    · rw [nest_closer closes, nest_closer closes, ih]
      split <;> rfl
    · rw [nest_plain plain, nest_plain plain, ih]

theorem Mark.Alike.plain {n : Mark} (h : m.Alike strict n) (plain : m.Plain) : n.Plain := by
  intro kind
  rw [h.isCodeByte, h.isCodeByte]
  exact plain kind

theorem nest_alike {others : List Mark} (h : List.Forall₂ (Mark.Alike strict) marks others) :
    nest stack others = nest stack marks := by
  induction h generalizing stack with
  | nil => rfl
  | @cons m n marks others first _ ih =>
    rcases m.delimiter_cases with ⟨kind, opens⟩ | ⟨kind, closes⟩ | plain
    · rw [nest_opener opens, nest_opener ((first.isCodeByte _).trans opens), ih]
    · rw [nest_closer closes, nest_closer ((first.isCodeByte _).trans closes), ih]
    · rw [nest_plain plain, nest_plain (first.plain plain), ih]

theorem depth_plain (h : m.Plain) (d : Nat) : kind.depth d (m :: rest) = kind.depth d rest := by
  rw [Delimiter.depth, (h kind).1, (h kind).2]
  simp

namespace Mark

variable {other : Delimiter}

theorem isCodeByte_ne {b c : UInt8} (h : m.isCodeByte b = true) (ne : b ≠ c) :
    m.isCodeByte c = false := by
  obtain ⟨code, byte⟩ := isCodeByte_iff.mp h
  simp [isCodeByte, byte, ne]

theorem not_closer_of_opener (h : m.isCodeByte other.opener = true) :
    m.isCodeByte kind.closer = false :=
  isCodeByte_ne h (by cases other <;> cases kind <;> decide)

theorem not_opener_of_closer (h : m.isCodeByte other.closer = true) :
    m.isCodeByte kind.opener = false :=
  isCodeByte_ne h (by cases other <;> cases kind <;> decide)

theorem not_opener_of_ne (h : m.isCodeByte other.opener = true) (ne : other ≠ kind) :
    m.isCodeByte kind.opener = false :=
  isCodeByte_ne h (by cases other <;> cases kind <;> simp_all [Delimiter.opener])

theorem not_closer_of_ne (h : m.isCodeByte other.closer = true) (ne : other ≠ kind) :
    m.isCodeByte kind.closer = false :=
  isCodeByte_ne h (by cases other <;> cases kind <;> simp_all [Delimiter.closer])

end Mark

theorem depth_opener {other : Delimiter} (h : m.isCodeByte other.opener = true) (d : Nat) :
    kind.depth d (m :: rest) = kind.depth (if other = kind then d + 1 else d) rest := by
  rw [Delimiter.depth]
  by_cases same : other = kind
  · subst same
    simp [h]
  · simp [Mark.not_opener_of_ne h same, @Mark.not_closer_of_opener kind m other h, same]

theorem depth_closer {other : Delimiter} (h : m.isCodeByte other.closer = true) (d : Nat) :
    kind.depth d (m :: rest) =
      if other = kind then if d = 0 then none else kind.depth (d - 1) rest
      else kind.depth d rest := by
  rw [Delimiter.depth, Mark.not_opener_of_closer h]
  by_cases same : other = kind
  · subst same
    simp [h]
  · simp [Mark.not_closer_of_ne h same, same]

/-- What nests keeps the depth of each kind. -/
theorem depth_of_nest (h : nest stack marks = some behind) :
    kind.depth (stack.count kind) marks = some (behind.count kind) := by
  induction marks generalizing stack with
  | nil =>
    obtain rfl := Option.some.inj h
    rfl
  | cons m marks ih =>
    rcases m.delimiter_cases with ⟨other, opens⟩ | ⟨other, closes⟩ | plain
    · rw [nest_opener opens] at h
      rw [depth_opener opens, ← ih h, List.count_cons]
      by_cases same : other = kind <;> simp [same]
    · obtain ⟨outer, rfl, later⟩ := exists_of_nest_closer closes h
      rw [depth_closer closes, ← ih later, List.count_cons]
      by_cases same : other = kind <;> simp [same]
    · rw [nest_plain plain] at h
      rw [depth_plain plain, ih h]

/-- Marks that never close the group of `kind` they stand in nest by themselves. -/
theorem exists_of_nest_inside {inner outer : List Delimiter} {e : Nat}
    (h : nest (inner ++ kind :: outer) marks = some behind)
    (deep : kind.depth (inner.count kind) marks = some e) :
    ∃ inner', nest inner marks = some inner' ∧ behind = inner' ++ kind :: outer ∧
      inner'.count kind = e := by
  induction marks generalizing inner with
  | nil => exact ⟨inner, rfl, (Option.some.inj h).symm, Option.some.inj deep⟩
  | cons m marks ih =>
    rcases m.delimiter_cases with ⟨other, opens⟩ | ⟨other, closes⟩ | plain
    · rw [nest_opener opens] at h ⊢
      rw [depth_opener opens] at deep
      apply @ih (other :: inner) h
      rw [← deep, List.count_cons]
      by_cases same : other = kind <;> simp [same]
    · obtain ⟨rest, split, h⟩ := exists_of_nest_closer closes h
      rw [depth_closer closes] at deep
      cases inner with
      | nil =>
        obtain ⟨rfl, _⟩ := List.cons.inj split
        simp at deep
      | cons first inner =>
        obtain ⟨rfl, rfl⟩ := List.cons.inj split
        rw [nest_closer closes, List.head?_cons, if_pos rfl, List.tail_cons]
        apply ih h
        rw [← deep, List.count_cons]
        by_cases same : first = kind <;> simp [same]
    · rw [nest_plain plain] at h ⊢
      rw [depth_plain plain] at deep
      exact ih h deep

/-- The inside of a group nests by itself. -/
theorem nest_group {o c : Mark} {inside : List Mark} (opens : o.isCodeByte kind.opener = true)
    (closes : c.isCodeByte kind.closer = true) (balanced : kind.Balanced inside)
    (h : nest stack (o :: (inside ++ c :: rest)) = some behind) : nest [] inside = some [] := by
  rw [nest_opener opens, nest_append] at h
  obtain ⟨open', first, later⟩ := Option.bind_eq_some_iff.mp h
  obtain ⟨inner, nested, rfl, count⟩ := @exists_of_nest_inside _ _ _ [] _ _ first balanced
  obtain ⟨outer, split, _⟩ := exists_of_nest_closer closes later
  cases inner with
  | nil => exact nested
  | cons other inner =>
    obtain ⟨rfl, _⟩ := List.cons.inj split
    simp at count

end PassCompiler.Source
