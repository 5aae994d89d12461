import Mathlib.Data.List.TakeWhile
import PassCompiler.Proofs.Source.Divided
import PassCompiler.Proofs.Source.Search

/-! Words of code by their offsets: one word stands at an offset, two do not overlap, and a scan
that no word reaches into reads the word that stands there. Main statement: `wordAt_of_split`. -/
namespace PassCompiler.Source

variable {x u v : Bytes} {i p : Nat} {m n : Mark} {front marks : List Mark}

theorem mem_behind_iff (split : scan x 0 = front ++ marks) :
    m ∈ marks ↔ m ∈ scan x 0 ∧ front.length ≤ m.offset := by
  constructor
  · intro member
    obtain ⟨k, here⟩ := List.getElem?_of_mem member
    have place : (scan x 0)[front.length + k]? = some m := by
      rw [split, List.getElem?_append_right (by omega), Nat.add_sub_cancel_left, here]
    have same := offset_of_getElem?_scanFrom place
    exact ⟨List.mem_of_getElem? place, by omega⟩
  · rintro ⟨member, after⟩
    have place := mem_scan_iff.mp member
    rw [split, List.getElem?_append_right after] at place
    exact List.mem_of_getElem? place

theorem codeAt_iff (h : m ∈ scan x 0) : CodeAt x 0 m.offset ↔ m.isCode = true := by
  constructor
  · rintro ⟨n, member, same, code⟩
    rwa [← eq_of_mem_scan member h same]
  · intro code
    exact ⟨m, h, rfl, code⟩

theorem WordAt.any_isIdent (isWord : IsWord u) (h : WordAt x u p) {i : Nat} (after : p ≤ i)
    (before : i < p + u.length) : (x[i]?).any Bytes.isIdent = true :=
  h.occurs.any_isIdent_within isWord after before

theorem WordAt.codeAt (isWord : IsWord u) (h : WordAt x u p) {i : Nat} (after : p ≤ i)
    (before : i < p + u.length) : CodeAt x 0 i := by
  obtain ⟨k, rfl⟩ := Nat.exists_eq_add_of_le after
  obtain ⟨m, member, place, code, _⟩ :=
    (occurs_iff isWord).mp h.occurs k _ (List.getElem?_eq_getElem (by omega))
  exact ⟨m, member, place, code⟩

/-- A word of code is one that no identifier byte extends. -/
theorem wordAt_iff : WordAt x u p ↔ Occurs x u p ∧
    (p = 0 ∨ (x[p - 1]?).any Bytes.isIdent = false) ∧
      (x[p + u.length]?).any Bytes.isIdent = false := by
  have fits (h : Occurs x u p) : Boundary.word.accepts x 0 ⟨p, p + u.length⟩ = true ↔
      (p = 0 ∨ (x[p - 1]?).any Bytes.isIdent = false) ∧
        (x[p + u.length]?).any Bytes.isIdent = false := by
    have short := h.lt_length
    have byte := List.getElem?_eq_getElem (by omega : p - 1 < x.length)
    rw [Boundary.accepts, Bool.and_eq_true, Bool.or_eq_true, Bool.not_eq_true', byte,
      Option.any_some, Option.any_some, Boundary.before, Bool.not_eq_true', beq_iff_eq]
  constructor
  · rintro ⟨occurs, accepted⟩
    exact ⟨occurs, (fits occurs).mp accepted⟩
  · rintro ⟨occurs, apart⟩
    exact ⟨occurs, (fits occurs).mpr apart⟩

theorem WordAt.behind (h : WordAt x u p) : (x[p + u.length]?).any Bytes.isIdent = false :=
  (wordAt_iff.mp h).2.2

theorem WordAt.before (h : WordAt x u p) : p = 0 ∨ (x[p - 1]?).any Bytes.isIdent = false :=
  (wordAt_iff.mp h).2.1

/-- One word stands at an offset. -/
theorem WordAt.unique (isWord : IsWord u) (isWord' : IsWord v) (h : WordAt x u p)
    (h' : WordAt x v p) : u = v := by
  have ends {u v : Bytes} (isWord' : IsWord v) (h : WordAt x u p) (h' : WordAt x v p) :
      v.length ≤ u.length := by
    by_contra longer
    have ident := h'.any_isIdent isWord' (i := p + u.length) (by omega) (by omega)
    rw [h.behind] at ident
    contradiction
  have same := Nat.le_antisymm (ends isWord h' h) (ends isWord' h h')
  exact (List.prefix_of_prefix_length_le h.occurs.spelled h'.occurs.spelled
    (Nat.le_of_eq same)).eq_of_length same

theorem text_split (split : scan x 0 = front ++ marks) : text marks = x.drop front.length := by
  have whole : text (scan x 0) = x := text_scanFrom ..
  rw [split, text, List.map_append] at whole
  rw [← whole, text, List.drop_left' (List.length_map ..)]

/-- Two words of code do not overlap. -/
theorem WordAt.eq_or_le (isWord : IsWord u) (h : WordAt x u p) (h' : WordAt x v i) (le : p ≤ i) :
    i = p ∨ p + u.length ≤ i := by
  by_contra inside
  have ident := h.any_isIdent isWord (i := i - 1) (by omega) (by omega)
  rw [h'.before.resolve_left (by omega)] at ident
  contradiction

/-- The word that a scan reads where no word goes on stands there. -/
theorem wordAt_of_split (split : scan x 0 = front ++ m :: marks) (code : m.isCode = true)
    (ident : Bytes.isIdent m.byte = true)
    (edge : front.length = 0 ∨ (x[front.length - 1]?).any Bytes.isIdent = false) :
    IsWord (word m marks) ∧ WordAt x (word m marks) front.length := by
  have behind := text_split split
  have isWord : IsWord (word m marks) := by
    refine ⟨List.cons_ne_nil _ _, List.forall_mem_cons.mpr ⟨ident, fun b member => ?_⟩⟩
    obtain ⟨n, inside, rfl⟩ := List.mem_map.mp member
    exact List.mem_takeWhile_imp (p := fun n : Mark => Bytes.isIdent n.byte) inside
  have spelled : x.drop front.length = word m marks ++ text (behindWord marks) := by
    rw [← behind, word, behindWord, List.cons_append, text, text, text, ← List.map_append,
      List.takeWhile_append_dropWhile]
    rfl
  have ends : (x[front.length + (word m marks).length]?).any Bytes.isIdent = false := by
    rw [← List.getElem?_drop, spelled, List.getElem?_append_right (Nat.le_refl _), Nat.sub_self]
    have head := List.head?_dropWhile_not (Bytes.isIdent ·.byte) marks
    rw [text, List.getElem?_map, ← List.head?_eq_getElem?, behindWord]
    cases next : (marks.dropWhile (Bytes.isIdent ·.byte)).head? with
    | none => rfl
    | some n =>
      rw [next] at head
      exact head
  refine ⟨isWord, wordAt_iff.mpr ⟨⟨⟨m, by simp [split], offset_of_split split, code⟩, ?_⟩, edge,
    ends⟩⟩
  rw [spelled]
  exact List.prefix_append _ _

/-- In front of a word that begins with the second of two marks. -/
theorem not_isIdent_of_split (split : scan x 0 = front ++ m :: n :: marks)
    (other : ¬ (m.isCode = true ∧ Bytes.isIdent m.byte = true)) (code : n.isCode = true)
    (ident : Bytes.isIdent n.byte = true) : (x[front.length]?).any Bytes.isIdent = false := by
  have first : m ∈ scan x 0 := by simp [split]
  have second : n ∈ scan x 0 := by simp [split]
  have place := offset_of_split split
  have split' : scan x 0 = (front ++ [m]) ++ n :: marks := by simp [split]
  have place' := offset_of_split split'
  rw [← place, getElem?_of_mem_scan first, Option.any_some]
  by_contra inside
  have inside : Bytes.isIdent m.byte = true := by simpa using inside
  have comment : m.isCode = false := by simpa [inside] using other
  have next := adjacent_of_mem first second (by simp [place, place'])
  rcases next.2 comment code with feed | slash
  · rw [feed] at ident
    contradiction
  · rw [slash] at inside
    contradiction

/-- No word reaches across offset `p` into `marks`, which stand there. -/
def Apart (x : Bytes) (p : Nat) (marks : List Mark) : Prop :=
  ∀ m ∈ marks.head?, m.isCode = true → Bytes.isIdent m.byte = true →
    p = 0 ∨ (x[p - 1]?).any Bytes.isIdent = false

theorem apart_behindWord (x : Bytes) (p : Nat) (rest : List Mark) :
    Apart x p (behindWord rest) := by
  intro m next _ ident
  have head := List.head?_dropWhile_not (Bytes.isIdent ·.byte) rest
  rw [← behindWord, Option.mem_def.mp next] at head
  exact Bool.noConfusion (head.symm.trans ident)

theorem apart_of_getElem? {b : UInt8} (here : x[p]? = some b) (other : Bytes.isIdent b = false)
    (marks : List Mark) : Apart x (p + 1) marks := by
  intro _ _ _ _
  right
  rw [Nat.add_sub_cancel, here, Option.any_some, other]

/-- No word reaches across a mark that belongs to none. -/
theorem apart_of_split (split : scan x 0 = front ++ m :: marks)
    (other : ¬ (m.isCode = true ∧ Bytes.isIdent m.byte = true)) :
    Apart x (front.length + 1) marks := by
  intro n next code ident
  obtain ⟨rest, rfl⟩ := List.head?_eq_some_iff.mp next
  right
  rw [Nat.add_sub_cancel]
  exact not_isIdent_of_split split other code ident

/-- A scan reads the word that stands ahead, and goes on behind it. -/
theorem exists_behindWord {rest : List Mark} (split : scan x 0 = front ++ m :: rest)
    (apart : Apart x front.length (m :: rest)) (first : (m.isCode && Bytes.isIdent m.byte) = true) :
    IsWord (word m rest) ∧ WordAt x (word m rest) front.length ∧
      ∃ front', scan x 0 = front' ++ behindWord rest ∧
        front'.length = front.length + (word m rest).length := by
  obtain ⟨code, ident⟩ := Bool.and_eq_true_iff.mp first
  obtain ⟨isWord, here⟩ := wordAt_of_split split code ident (apart m rfl code ident)
  refine ⟨isWord, here, front ++ m :: rest.takeWhile (Bytes.isIdent ·.byte), ?_, ?_⟩
  · rw [split, List.append_assoc, List.cons_append, behindWord, List.takeWhile_append_dropWhile]
  · simp [word, text]

/-- A word begins with a letter of code. -/
theorem Occurs.head (isWord : IsWord u) (h : Occurs x u p) (member : m ∈ scan x 0)
    (place : m.offset = p) : m.isCode = true ∧ Bytes.isIdent m.byte = true := by
  obtain ⟨n, there, same, code⟩ := h.code
  obtain rfl := eq_of_mem_scan member there (place.trans same.symm)
  have ident := h.any_isIdent isWord
  rw [← place, getElem?_of_mem_scan member, Option.any_some] at ident
  exact ⟨code, ident⟩

/-- The next code from offset `p` on, blanks apart, stands at offset `o`. -/
structure NextCode (x : Bytes) (p o : Nat) : Prop where
  after : p ≤ o
  code : CodeAt x 0 o
  solid : (x[o]?).any Bytes.isBlank = false
  blank : ∀ k, p ≤ k → k < o → CodeAt x 0 k → (x[k]?).any Bytes.isBlank = true

theorem NextCode.unique {o o' : Nat} (h : NextCode x p o) (h' : NextCode x p o') : o = o' := by
  have first {o o' : Nat} (h : NextCode x p o) (h' : NextCode x p o') : o ≤ o' := by
    by_contra earlier
    have blank := h.blank o' h'.after (by omega) h'.code
    rw [h'.solid] at blank
    contradiction
  exact Nat.le_antisymm (first h h') (first h' h)

end PassCompiler.Source
