import PassCompiler.Proofs.Source.Nesting
import PassCompiler.Proofs.Source.Phase
import PassCompiler.Proofs.Text.Valid
import PassCompiler.Recording.Statement

/-! The statements of a text. Behind a semicolon of code a scan starts anew, so each statement is
scanned alone as it is in the text, and texts that are single statements are the statements of what
they make up together. -/
namespace PassCompiler.Statement

open Source

variable {strict : Prop} {d e : Nat} {m : Mark} {u marks rest : List Mark} {x y : Bytes}
  {xs : List Bytes}

/-- The depth of parentheses behind marks among which no statement ends. -/
def level : Nat → List Mark → Option Nat
  | d, [] => some d
  | d, m :: rest =>
    if m.isCodeByte 0x3B && d == 0 then none else level (depthBehind d m) rest

/-- Whether a statement ends with its semicolon; `none` if something stands behind that. -/
def closed? : Nat → List Mark → Option Bool
  | _, [] => some false
  | d, m :: rest =>
    if m.isCodeByte 0x3B && d == 0 then if rest.isEmpty then some true else none
    else closed? (depthBehind d m) rest

/-- The statements of a text, each of them alone. -/
inductive Cuts : Bytes → List Bytes → Prop
  | done : Cuts [] []
  | last {x : Bytes} : x ≠ [] → closed? 0 (scan x 0) = some false → Cuts x [x]
  | next {x y : Bytes} {xs : List Bytes} : closed? 0 (scan x 0) = some true → Cuts y xs →
      Cuts (x ++ y) (x :: xs)

/-- Where the first semicolon outside parentheses is not the end, there is no single statement. -/
theorem closed?_cons_iff : closed? d (m :: u) = some true ↔
    (m.isCodeByte 0x3B && d == 0) = true ∧ u = [] ∨
      ¬ (m.isCodeByte 0x3B && d == 0) = true ∧ closed? (depthBehind d m) u = some true := by
  rw [closed?]
  split
  · next ends => simp [ends]
  · next more => simp [more]

theorem slices_append (h : closed? d u = some true) (rest : List Mark) :
    slices d (u ++ rest) = text u :: slices 0 rest := by
  induction u generalizing d with
  | nil => simp [closed?] at h
  | cons m u ih =>
    rw [List.cons_append, slices]
    rcases closed?_cons_iff.mp h with ⟨ends, rfl⟩ | ⟨more, later⟩
    · obtain rfl : d = 0 := by simp at ends; exact ends.2
      rw [if_pos ends]
      rfl
    · rw [if_neg more, ih later]
      rfl

theorem slices_last (h : closed? d u = some false) (filled : u ≠ []) : slices d u = [text u] := by
  induction u generalizing d with
  | nil => contradiction
  | cons m u ih =>
    rw [closed?] at h
    rw [slices]
    split at h
    · split at h <;> contradiction
    · next more =>
      rw [if_neg more]
      cases u with
      | nil => rfl
      | cons n u =>
        rw [ih h (by simp)]
        rfl

theorem exists_of_closed?_none (h : closed? d marks = none) :
    ∃ u rest, marks = u ++ rest ∧ closed? d u = some true ∧ u ≠ [] := by
  induction marks generalizing d with
  | nil => contradiction
  | cons m marks ih =>
    rw [closed?] at h
    split at h
    · next ends => exact ⟨[m], marks, rfl, closed?_cons_iff.mpr (.inl ⟨ends, rfl⟩), by simp⟩
    · next more =>
      obtain ⟨u, rest, rfl, single, _⟩ := ih h
      exact ⟨m :: u, rest, rfl, closed?_cons_iff.mpr (.inr ⟨more, single⟩), by simp⟩

theorem exists_of_closed? (h : closed? d u = some true) :
    ∃ v m, u = v ++ [m] ∧ m.isCodeByte 0x3B = true := by
  induction u generalizing d with
  | nil => simp [closed?] at h
  | cons m u ih =>
    rcases closed?_cons_iff.mp h with ⟨ends, rfl⟩ | ⟨_, later⟩
    · exact ⟨[], m, rfl, by simp at ends; exact ends.1⟩
    · obtain ⟨v, n, rfl, semicolon⟩ := ih later
      exact ⟨m :: v, n, rfl, semicolon⟩

theorem closed?_alike (h : List.Forall₂ (Mark.Alike strict) marks rest) :
    closed? d rest = closed? d marks := by
  induction h generalizing d with
  | nil => rfl
  | @cons m n marks others first later ih =>
    have empty : others.isEmpty = marks.isEmpty := by cases later <;> rfl
    simp only [closed?, depthBehind, first.isCodeByte, empty, ih]

theorem slices_alike (h : List.Forall₂ (Mark.Alike True) marks rest) :
    slices d rest = slices d marks := by
  induction h generalizing d with
  | nil => rfl
  | cons first _ ih =>
    simp only [slices, depthBehind, first.isCodeByte, first.byte (.inl trivial), ih]

theorem closed?_append (filled : rest ≠ []) :
    closed? d (u ++ rest) = (level d u).bind (closed? · rest) := by
  induction u generalizing d with
  | nil => rfl
  | cons m u ih =>
    rw [List.cons_append, closed?, level, ih]
    split
    · have more : (u ++ rest).isEmpty = false := by simp [filled]
      rw [more]
      rfl
    · rfl

theorem depthBehind_opener (h : m.isCodeByte Delimiter.paren.opener = true) (d : Nat) :
    depthBehind d m = d + 1 := if_pos h

theorem depthBehind_closer (h : m.isCodeByte Delimiter.paren.closer = true) (d : Nat) :
    depthBehind d m = d - 1 := by
  have noOpener : m.isCodeByte 0x28 = false := Mark.isCodeByte_ne h (by decide)
  rw [depthBehind, noOpener]
  exact if_pos h

theorem depthBehind_other (noOpener : ¬ m.isCodeByte Delimiter.paren.opener = true)
    (noCloser : ¬ m.isCodeByte Delimiter.paren.closer = true) (d : Nat) : depthBehind d m = d :=
  (if_neg noOpener).trans (if_neg noCloser)

/-- No statement ends inside parentheses. -/
theorem level_inside {k : Nat} (h : Delimiter.paren.depth k marks = some e) :
    level (k + d + 1) marks = some (e + d + 1) := by
  induction marks generalizing k with
  | nil =>
    obtain rfl := Option.some.inj h
    rfl
  | cons m marks ih =>
    rw [Delimiter.depth] at h
    have stays : ¬ (m.isCodeByte 0x3B && k + d + 1 == 0) = true := by simp
    rw [level, if_neg stays]
    split at h
    · next opens =>
      rw [depthBehind_opener opens, show k + d + 1 + 1 = k + 1 + d + 1 by omega]
      exact ih h
    · next noOpener =>
      split at h
      · next closes =>
        split at h
        · contradiction
        · rw [depthBehind_closer closes, show k + d + 1 - 1 = k - 1 + d + 1 by omega]
          exact ih h
      · next noCloser =>
        rw [depthBehind_other noOpener noCloser]
        exact ih h

/-- What stands in parentheses does not matter for where a statement ends. -/
theorem closed?_group {o c : Mark} {front inside behind : List Mark}
    (opens : o.isCodeByte Delimiter.paren.opener = true)
    (balanced : Delimiter.paren.Balanced inside) :
    closed? d (front ++ o :: (inside ++ c :: behind)) =
      (level d front).bind fun e => closed? (e + 1) (c :: behind) := by
  have deeper (e : Nat) :
      closed? e (o :: (inside ++ c :: behind)) = closed? (e + 1) (c :: behind) := by
    have noSemicolon : o.isCodeByte 0x3B = false := Mark.isCodeByte_ne opens (by decide)
    have within : level (e + 1) inside = some (e + 1) := by
      simpa using level_inside (d := e) balanced
    rw [closed?, noSemicolon, depthBehind_opener opens, closed?_append (by simp), within]
    rfl
  rw [closed?_append (by simp)]
  simp only [deeper]

/-- A statement is sealed by its semicolon. -/
theorem sealed_of_closed? (h : closed? 0 (scan x 0) = some true) : Sealed x := by
  obtain ⟨v, m, split, semicolon⟩ := exists_of_closed? h
  obtain ⟨code, byte⟩ := Mark.isCodeByte_iff.mp semicolon
  exact sealed_of_scan split code (byte ▸ by decide)

theorem scan_append_of_closed (h : closed? 0 (scan x 0) = some true) (y : Bytes) :
    scan (x ++ y) 0 = scan x 0 ++ scanFrom .code x.length y :=
  (sealed_of_closed? h).scan_append y

/-- The statements of a text are its slices. -/
theorem Cuts.slices_eq (h : Cuts x xs) : slices 0 (scan x 0) = xs := by
  induction h with
  | done => rfl
  | @last x filled single =>
    have same : text (scan x 0) = x := text_scanFrom ..
    have some : scan x 0 ≠ [] := fun none => filled (by rw [← same, none]; rfl)
    rw [slices_last single some, same]
  | @next x y xs single _ ih =>
    have same : text (scan x 0) = x := text_scanFrom ..
    rw [scan_append_of_closed single, slices_append single, same,
      slices_alike (alike_scanFrom .code 0 x.length y)]
    exact congrArg (x :: ·) ih

theorem Cuts.flatten (h : Cuts x xs) : xs.flatten = x := by
  induction h with
  | done => rfl
  | last => simp
  | next _ _ ih => rw [List.flatten_cons, ih]

theorem exists_cuts (x : Bytes) : ∃ xs, Cuts x xs := by
  induction len : x.length using Nat.strongRecOn generalizing x with
  | ind n ih =>
    subst len
    have same : text (scan x 0) = x := text_scanFrom ..
    cases single : closed? 0 (scan x 0) with
    | some ends =>
      cases ends with
      | true => exact ⟨[x], by simpa using Cuts.next single .done⟩
      | false =>
        rcases eq_or_ne x [] with rfl | filled
        · exact ⟨[], .done⟩
        · exact ⟨[x], .last filled single⟩
    | none =>
      obtain ⟨u, rest, split, first, filled⟩ := exists_of_closed?_none single
      obtain ⟨v, m, rfl, semicolon⟩ := exists_of_closed? first
      obtain ⟨code, byte⟩ := Mark.isCodeByte_iff.mp semicolon
      rw [List.append_assoc, List.singleton_append] at split
      have front := (scanFrom_split split code (by rw [byte]; decide)).1
      have parts : x = text (v ++ [m]) ++ text rest := by
        rw [← same, split]
        simp [text]
      have shorter : (text rest).length < x.length := by
        rw [parts]
        simp only [text, List.length_append, List.length_map, List.length_singleton]
        omega
      obtain ⟨xs, cuts⟩ := ih _ shorter (text rest) rfl
      refine ⟨text (v ++ [m]) :: xs, ?_⟩
      rw [parts]
      exact .next (by rw [scan, List.drop_zero, front]; exact first) cuts

/-- The statements of a text make up the text. -/
theorem flatten_slices (x : Bytes) : (slices 0 (scan x 0)).flatten = x := by
  obtain ⟨xs, cuts⟩ := exists_cuts x
  rw [cuts.slices_eq, cuts.flatten]

/-- Rewritten one by one, statements are the statements of what they make up. -/
theorem Cuts.map (h : Cuts x xs) (f : Bytes → Bytes)
    (keeps : ∀ y ∈ xs, closed? 0 (scan (f y) 0) = closed? 0 (scan y 0) ∧ (y ≠ [] → f y ≠ [])) :
    Cuts (xs.flatMap f) (xs.map f) := by
  induction h with
  | done => exact .done
  | @last x filled single =>
    obtain ⟨same, some⟩ := keeps x List.mem_cons_self
    simpa using Cuts.last (some filled) (same.trans single)
  | @next x y xs single _ ih =>
    obtain ⟨⟨same, _⟩, later⟩ := List.forall_mem_cons.mp keeps
    exact .next (same.trans single) (ih later)

theorem Cuts.valid (h : Cuts x xs) (valid : Utf8.isValid x = true) :
    ∀ y ∈ xs, Utf8.isValid y = true := by
  induction h with
  | done => nofun
  | last => simpa using valid
  | @next x y xs single _ ih =>
    obtain ⟨v, m, split, semicolon⟩ := exists_of_closed? single
    have ascii : m.byte < 0x80 := (Mark.isCodeByte_iff.mp semicolon).2 ▸ by decide
    have same : x = text v ++ [m.byte] := by
      rw [← text_scanFrom .code 0 x, ← show scan x 0 = scanFrom .code 0 x from rfl, split]
      simp [text]
    rw [same, List.append_assoc, List.singleton_append, Utf8.isValid_append_ascii ascii] at valid
    refine List.forall_mem_cons.mpr ⟨?_, ih valid.2⟩
    rw [same, Utf8.isValid_append_ascii ascii]
    exact ⟨valid.1, rfl⟩

theorem Cuts.nested (h : Cuts x xs) {stack behind : List Delimiter} {offset : Nat}
    (nests : nest stack (scanFrom .code offset x) = some behind) :
    ∀ y ∈ xs, ∃ stack behind, nest stack (scan y 0) = some behind := by
  have alone {x : Bytes} {stack behind : List Delimiter} {offset : Nat}
      (nests : nest stack (scanFrom .code offset x) = some behind) :
      nest stack (scan x 0) = some behind :=
    (nest_alike (alike_scanFrom .code offset 0 x)).trans nests
  induction h generalizing stack offset with
  | done => nofun
  | last => simpa using ⟨stack, behind, alone nests⟩
  | @next x y xs single _ ih =>
    have whole := alone nests
    rw [scan_append_of_closed single, nest_append] at whole
    obtain ⟨middle, first, later⟩ := Option.bind_eq_some_iff.mp whole
    exact List.forall_mem_cons.mpr ⟨⟨stack, middle, first⟩, ih later⟩

end PassCompiler.Statement
