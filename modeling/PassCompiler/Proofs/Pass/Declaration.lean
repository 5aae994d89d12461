import PassCompiler.Pass.Declaration
import PassCompiler.Proofs.Text.Trim

/-! What a declaration is made of: a type, a name and the bounds of an array. Main statement:
`name_eq_iff`, that the name which is read off a text is the one that its parts give. -/
namespace PassCompiler

namespace Bytes

variable {front word : Bytes}

theorem identSuffix_append (edge : ∀ b ∈ front.getLast?, isIdent b = false)
    (ident : ∀ b ∈ word, isIdent b = true) : identSuffix (front ++ word) = word := by
  have inside : ∀ b ∈ word.reverse, isIdent b = true := by
    intro b member
    exact ident b (List.mem_reverse.mp member)
  have outside : front.reverse.takeWhile isIdent = [] := by
    rcases List.eq_nil_or_concat' front with rfl | ⟨front, b, rfl⟩
    · rfl
    · rw [List.reverse_concat, List.takeWhile_cons_of_neg]
      simp [edge b (by simp)]
  rw [identSuffix, List.reverse_append, List.takeWhile_append_of_pos inside, outside,
    List.append_nil, List.reverse_reverse]

/-- What stands before the last word of a text. -/
theorem exists_identSuffix (x : Bytes) :
    ∃ front, x = front ++ identSuffix x ∧ ∀ b ∈ front.getLast?, isIdent b = false := by
  refine ⟨x.rdropWhile isIdent, List.rdropWhile_append_rtakeWhile.symm, fun b last => ?_⟩
  rw [List.rdropWhile, List.getLast?_reverse] at last
  have head := List.head?_dropWhile_not isIdent x.reverse
  rw [Option.mem_def.mp last] at head
  exact head

theorem isIdent_of_mem_identSuffix {x : Bytes} {b : UInt8} (h : b ∈ identSuffix x) :
    isIdent b = true :=
  List.mem_takeWhile_imp (List.mem_reverse.mp h)

end Bytes

namespace Declaration

variable {text type n bounds : Bytes}

def IsBounds (x : Bytes) : Prop :=
  ∃ gap inside, x = gap ++ 0x5B :: (inside ++ [0x5D]) ∧ Blank.trimEnd gap = []

/-- `text` ends in a name. A type may stand before it and the bounds of an array behind it. -/
structure Declares (text type name bounds : Bytes) : Prop where
  split : text = type ++ name ++ bounds
  filled : name ≠ []
  ident : ∀ b ∈ name, Bytes.isIdent b = true
  /-- The name is as long as can be. -/
  edge : ∀ b ∈ type.getLast?, Bytes.isIdent b = false
  /-- The bounds are as long as can be. -/
  bounds : bounds = [] ∨ IsBounds bounds ∧ 0x5B ∉ type

/-- A text without the bounds of an array at its end. -/
def stem (text : Bytes) : Bytes :=
  if text.getLast? == some 0x5D && text.contains 0x5B then
    Blank.trimEnd (text.takeWhile (· != 0x5B))
  else text

theorem name_eq (text : Bytes) : name text = Bytes.identSuffix (stem (Blank.trim text)) := by
  unfold name stem
  dsimp only
  split <;> rfl

theorem not_mem_of_trimEnd {gap : Bytes} (blank : Blank.trimEnd gap = []) {b : UInt8}
    (solid : Blank.Solid b) : b ∉ gap := by
  intro member
  obtain ⟨u, v, rfl⟩ := List.append_of_mem member
  rw [Blank.trimEnd_append solid] at blank
  simp at blank

/-- White space behind an identifier is all that is trimmed off. -/
theorem trimEnd_word {front word gap : Bytes} (filled : word ≠ [])
    (ident : ∀ b ∈ word, Bytes.isIdent b = true) :
    Blank.trimEnd (front ++ word ++ gap) = front ++ word ++ Blank.trimEnd gap := by
  obtain ⟨word', c, rfl⟩ := (List.eq_nil_or_concat' word).resolve_left filled
  have solid := Blank.solid_of_isIdent (ident c (by simp))
  have split : front ++ (word' ++ [c]) ++ gap = (front ++ word') ++ c :: gap := by simp
  rw [split, Blank.trimEnd_append solid]
  simp

namespace Declares

variable (h : Declares text type n bounds)
include h

theorem stem_eq : stem text = type ++ n := by
  obtain ⟨word', c, same⟩ := (List.eq_nil_or_concat' n).resolve_left h.filled
  have last : Bytes.isIdent c = true := h.ident c (by simp [same])
  rcases h.bounds with none | ⟨⟨gap, inside, array, blank⟩, outside⟩
  · have ends : text.getLast? = some c := by
      rw [h.split, none, same, List.append_nil, ← List.append_assoc, List.getLast?_concat]
    rw [stem, if_neg, h.split, none, List.append_nil]
    rw [ends]
    intro closes
    simp only [Bool.and_eq_true, beq_iff_eq, Option.some.injEq] at closes
    rw [closes.1] at last
    contradiction
  · have text_eq : text = (type ++ n ++ gap) ++ 0x5B :: (inside ++ [0x5D]) := by
      rw [h.split, array]
      simp only [List.append_assoc]
    have before : ∀ b ∈ type ++ n ++ gap, (b != 0x5B) = true := by
      intro b member
      rw [bne_iff_ne]
      rintro rfl
      rcases List.mem_append.mp member with member | member
      · rcases List.mem_append.mp member with member | member
        · exact outside member
        · exact absurd (h.ident _ member) (by decide)
      · exact not_mem_of_trimEnd blank (by decide) member
    have cut : text.takeWhile (· != 0x5B) = type ++ n ++ gap := by
      rw [text_eq, List.takeWhile_append_of_pos before, List.takeWhile_cons_of_neg (by decide),
        List.append_nil]
    have ends : text.getLast? = some 0x5D := by
      rw [text_eq, ← List.cons_append, ← List.append_assoc, List.getLast?_concat]
    rw [stem, if_pos, cut, trimEnd_word h.filled h.ident, blank, List.append_nil]
    rw [ends]
    simp [text_eq]

theorem name_eq (trimmed : Blank.trim text = text) : name text = n := by
  rw [Declaration.name_eq, trimmed, h.stem_eq, Bytes.identSuffix_append h.edge h.ident]

/-- A text has its parts in one way only. -/
theorem unique (trimmed : Blank.trim text = text) {type' n' bounds' : Bytes}
    (h' : Declares text type' n' bounds') : type' = type ∧ n' = n ∧ bounds' = bounds := by
  obtain rfl : n' = n := (h'.name_eq trimmed).symm.trans (h.name_eq trimmed)
  obtain rfl : type' = type := List.append_cancel_right (h'.stem_eq.symm.trans h.stem_eq)
  exact ⟨rfl, rfl, List.append_cancel_left (h'.split.symm.trans h.split)⟩

end Declares

theorem isIdent_of_mem_name {b : UInt8} (h : b ∈ name text) : Bytes.isIdent b = true := by
  rw [name_eq] at h
  exact Bytes.isIdent_of_mem_identSuffix h

/-- What a text that ends in bounds is made of. -/
theorem exists_bounds (closes : text.getLast? = some 0x5D) (opens : 0x5B ∈ text) :
    ∃ inside, text = text.takeWhile (· != 0x5B) ++ 0x5B :: (inside ++ [0x5D]) := by
  obtain ⟨rest, behind⟩ : ∃ rest, text.dropWhile (· != 0x5B) = 0x5B :: rest := by
    cases back : text.dropWhile (· != 0x5B) with
    | nil => exact absurd (List.dropWhile_eq_nil_iff.mp back _ opens) (by decide)
    | cons c rest =>
      have head := List.head?_dropWhile_not (· != (0x5B : UInt8)) text
      rw [back] at head
      exact ⟨rest, by simpa using head⟩
  have whole : text = text.takeWhile (· != 0x5B) ++ 0x5B :: rest := by
    rw [← behind, List.takeWhile_append_dropWhile]
  rcases List.eq_nil_or_concat' rest with rfl | ⟨inside, c, rfl⟩
  · rw [whole, List.getLast?_concat] at closes
    contradiction
  · rw [whole, ← List.cons_append, ← List.append_assoc, List.getLast?_concat] at closes
    exact ⟨inside, by rw [← Option.some.inj closes]; exact whole⟩

/-- What ends in a name has its parts. -/
theorem exists_declares (trimmed : Blank.trim text = text) (filled : name text ≠ []) :
    ∃ type bounds, Declares text type (name text) bounds := by
  have same : name text = Bytes.identSuffix (stem text) := by rw [name_eq, trimmed]
  have ident : ∀ b ∈ name text, Bytes.isIdent b = true := fun _ => isIdent_of_mem_name
  obtain ⟨type, split, edge⟩ := Bytes.exists_identSuffix (stem text)
  rw [← same] at split
  unfold stem at split
  split at split
  · next array =>
    simp only [Bool.and_eq_true, beq_iff_eq, List.contains_iff_mem] at array
    obtain ⟨inside, whole⟩ := exists_bounds array.1 array.2
    obtain ⟨gap, cut, _⟩ := Blank.trims_trim.back_drops (text.takeWhile (· != 0x5B))
    rw [split] at cut
    have blank : Blank.trimEnd gap = [] := by
      rw [cut, trimEnd_word filled ident] at split
      simpa using split
    refine ⟨type, gap ++ 0x5B :: (inside ++ [0x5D]), ?_, filled, ident, edge,
      .inr ⟨⟨gap, inside, rfl, blank⟩, fun member => ?_⟩⟩
    · rwa [cut, List.append_assoc] at whole
    · have before : (0x5B : UInt8) ∈ text.takeWhile (· != 0x5B) := by simp [cut, member]
      have := List.mem_takeWhile_imp before
      contradiction
  · exact ⟨type, [], by simpa using split, filled, ident, edge, .inl rfl⟩

/-- The name of a trimmed text is the one that its parts give. -/
theorem name_eq_iff (trimmed : Blank.trim text = text) (filled : n ≠ []) :
    name text = n ↔ ∃ type bounds, Declares text type n bounds := by
  constructor
  · rintro rfl
    exact exists_declares trimmed filled
  · rintro ⟨type, bounds, declares⟩
    exact declares.name_eq trimmed

end Declaration
end PassCompiler
