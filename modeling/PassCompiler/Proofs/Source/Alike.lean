import Mathlib.Data.List.Forall2
import PassCompiler.Proofs.Source.Balance
import PassCompiler.Source.Word

/-! Scans that differ only inside comments. What is found in one of two such scans is found in the
other. With `strict` the comments agree, too; `d` says how far the second scan is moved. -/
namespace PassCompiler.Source

variable {strict : Prop} {d : Nat}

namespace Mark

/-- The same region, and in code the same byte. -/
structure Alike (strict : Prop) (m n : Mark) : Prop where
  region : n.region = m.region
  byte : strict ∨ m.isCode = true → n.byte = m.byte

structure Follows (strict : Prop) (d : Nat) (m n : Mark) : Prop extends Alike strict m n where
  offset : n.offset = m.offset + d

variable {m n : Mark}

theorem Alike.refl (m : Mark) : m.Alike strict m := ⟨rfl, fun _ => rfl⟩

theorem Alike.isCode (h : m.Alike strict n) : n.isCode = m.isCode := by
  simp only [Mark.isCode, h.region]

theorem Alike.isCodeByte (h : m.Alike strict n) (b : UInt8) : n.isCodeByte b = m.isCodeByte b := by
  unfold Mark.isCodeByte
  cases code : m.isCode with
  | false => rw [h.isCode, code, Bool.false_and, Bool.false_and]
  | true => rw [h.isCode, code, h.byte (.inr code)]

end Mark

abbrev Tracks (strict : Prop) (d : Nat) : List Mark → List Mark → Prop :=
  List.Forall₂ (Mark.Follows strict d)

theorem forall₂_find? {α β : Type} {R : α → β → Prop} {p : α → Bool} {q : β → Bool}
    (same : ∀ a b, R a b → q b = p a) {l : List α} {l' : List β} (h : List.Forall₂ R l l') :
    Option.Rel R (l.find? p) (l'.find? q) := by
  induction h with
  | nil => exact .none
  | @cons a b l l' first _ ih =>
    rw [List.find?_cons, List.find?_cons, same a b first]
    cases p a with
    | false => exact ih
    | true => exact .some first

theorem forall₂_dropWhile {α β : Type} {R : α → β → Prop} {p : α → Bool} {q : β → Bool}
    (same : ∀ a b, R a b → q b = p a) {l : List α} {l' : List β} (h : List.Forall₂ R l l') :
    List.Forall₂ R (l.dropWhile p) (l'.dropWhile q) := by
  induction h with
  | nil => exact .nil
  | @cons a b l l' first rest ih =>
    rw [List.dropWhile_cons, List.dropWhile_cons, same a b first]
    cases p a with
    | false => exact .cons first rest
    | true => exact ih

theorem tracks_refl (strict : Prop) (marks : List Mark) : Tracks strict 0 marks marks :=
  List.forall₂_same.mpr fun m _ => ⟨.refl m, rfl⟩

theorem tracks_shift (strict : Prop) (d : Nat) (marks : List Mark) :
    Tracks strict d marks (marks.map (Mark.shift d)) :=
  List.forall₂_map_right_iff.mpr (List.forall₂_same.mpr fun _ _ => ⟨⟨rfl, fun _ => rfl⟩, rfl⟩)

/-- The same bytes scanned from another offset. -/
theorem alike_scanFrom (phase : Phase) (offset offset' : Nat) (x : Bytes) :
    List.Forall₂ (Mark.Alike True) (scanFrom phase offset x) (scanFrom phase offset' x) := by
  induction x generalizing phase offset offset' with
  | nil => exact .nil
  | cons b x ih => exact .cons ⟨rfl, fun _ => rfl⟩ (ih _ _ _)

theorem text_eq_of_alike {marks others : List Mark}
    (h : List.Forall₂ (Mark.Alike True) marks others) : text others = text marks := by
  induction h with
  | nil => rfl
  | cons first _ ih =>
    simp only [text, List.map_cons] at ih ⊢
    rw [ih, first.byte (.inl trivial)]

def ClosedAlike (strict : Prop) (d : Nat) (a b : Mark × List Mark) : Prop :=
  a.1.Follows strict d b.1 ∧ Tracks strict d a.2 b.2

theorem Group.step_congr {g : Group} {m n : Mark} (h : m.Alike strict n) : g.step n = g.step m := by
  simp only [Group.step, h.isCodeByte]

theorem Delimiter.depth_alike {kind : Delimiter} {n : Nat} {marks others : List Mark}
    (h : List.Forall₂ (Mark.Alike strict) marks others) :
    kind.depth n others = kind.depth n marks := by
  induction h generalizing n with
  | nil => rfl
  | cons first _ ih => simp only [depth, first.isCodeByte, ih]

theorem Group.close?_tracks {g : Group} {marks others : List Mark}
    (h : Tracks strict d marks others) :
    Option.Rel (ClosedAlike strict d) (g.close? marks) (g.close? others) := by
  induction h generalizing g with
  | nil => exact .none
  | @cons m n marks others first rest ih =>
    rw [Group.close?, Group.close?, Group.step_congr first.toAlike]
    cases g.step m with
    | none => exact .some ⟨first, rest⟩
    | some g' => exact ih

theorem Group.close?_append {g : Group} {marks behind : List Mark} {m : Mark}
    (h : g.close? marks = some (m, behind)) (more : List Mark) :
    g.close? (marks ++ more) = some (m, behind ++ more) := by
  induction marks generalizing g with
  | nil => simp [Group.close?] at h
  | cons a rest ih =>
    rw [Group.close?] at h
    rw [List.cons_append, Group.close?]
    split at h
    · obtain ⟨rfl, rfl⟩ := Prod.mk.inj (Option.some.inj h)
      rfl
    · exact ih h

theorem Adjacent.not_ident {m n : Mark} (h : Adjacent m n) (code : m.isCode = true)
    (comment : n.isCode = false) : Bytes.isIdent n.byte = false := by
  rw [h.1 code comment]
  decide

/-- A word ends at the same place in both scans, since no comment begins with a byte of one. -/
theorem word_tracks {m n : Mark} {marks others : List Mark} (first : m.Follows strict d n)
    (code : m.isCode = true) (rest : Tracks strict d marks others)
    (chain : (m :: marks).IsChain Adjacent) (chain' : (n :: others).IsChain Adjacent) :
    word n others = word m marks ∧ Tracks strict d (behindWord marks) (behindWord others) := by
  have ending : text (others.takeWhile (Bytes.isIdent ·.byte)) =
        text (marks.takeWhile (Bytes.isIdent ·.byte)) ∧
      Tracks strict d (behindWord marks) (behindWord others) := by
    induction rest generalizing m n with
    | nil => exact ⟨rfl, .nil⟩
    | @cons a b marks others next rest ih =>
      obtain ⟨near, chain⟩ := List.isChain_cons_cons.mp chain
      obtain ⟨near', chain'⟩ := List.isChain_cons_cons.mp chain'
      cases code' : a.isCode with
      | false =>
        have outside := near.not_ident code code'
        have outside' := near'.not_ident (first.isCode.trans code) (next.isCode.trans code')
        simp only [behindWord, List.takeWhile_cons, List.dropWhile_cons, outside, outside']
        exact ⟨rfl, .cons next rest⟩
      | true =>
        obtain ⟨same, later⟩ := ih next code' chain chain'
        simp only [behindWord] at later ⊢
        simp only [List.takeWhile_cons, List.dropWhile_cons, next.byte (.inr code')]
        cases Bytes.isIdent a.byte with
        | false => exact ⟨rfl, .cons next rest⟩
        | true =>
          refine ⟨?_, later⟩
          simp only [text, if_true, List.map_cons] at same ⊢
          rw [same, next.byte (.inr code')]
  exact ⟨by rw [word, word, ending.1, first.byte (.inr code)], ending.2⟩

structure Parenthesised.Alike (strict : Prop) (d : Nat) (a b : Parenthesised) : Prop where
  start : b.start = a.start + d
  closed : Option.Rel (fun x y : Nat × List Mark => y.1 = x.1 + d ∧ Tracks strict d x.2 y.2)
    a.closed b.closed

/-- A group is the next one if its parenthesis is the first mark that is neither a comment nor a
blank. -/
theorem nextGroup?_eq_some_iff {marks : List Mark} {g : Parenthesised} :
    nextGroup? marks = some g ↔ ∃ m rest,
      marks.dropWhile (fun m => !m.isCode || Bytes.isBlank m.byte) = m :: rest ∧
        m.isCodeByte Delimiter.paren.opener = true ∧
        g = ⟨m.offset, (Group.close? ⟨.paren, 1⟩ rest).map fun x => (x.1.offset, x.2)⟩ := by
  unfold nextGroup?
  cases next : marks.dropWhile fun m => !m.isCode || Bytes.isBlank m.byte with
  | nil => simp
  | cons m rest =>
    have solid := List.head?_dropWhile_not (fun m => !m.isCode || Bytes.isBlank m.byte) marks
    rw [next] at solid
    have code : m.isCode = true := by simp_all
    simp only [Option.ite_none_right_eq_some, Option.some.injEq, Mark.isCodeByte_iff, beq_iff_eq,
      List.cons.injEq]
    constructor
    · rintro ⟨opens, rfl⟩
      exact ⟨m, rest, ⟨rfl, rfl⟩, ⟨code, opens⟩, rfl⟩
    · rintro ⟨_, _, ⟨rfl, rfl⟩, ⟨_, opens⟩, rfl⟩
      exact ⟨opens, rfl⟩

theorem nextGroup?_tracks {marks others : List Mark} (h : Tracks strict d marks others) :
    Option.Rel (Parenthesised.Alike strict d) (nextGroup? marks) (nextGroup? others) := by
  have skipped := forall₂_dropWhile (p := fun m => !m.isCode || Bytes.isBlank m.byte)
    (q := fun m => !m.isCode || Bytes.isBlank m.byte) (by
      intro m n same
      cases code : m.isCode with
      | false => simp [same.isCode, code]
      | true => simp [same.isCode, code, same.byte (.inr code)]) h
  unfold nextGroup?
  cases left : marks.dropWhile fun m => !m.isCode || Bytes.isBlank m.byte with
  | nil =>
    rw [left] at skipped
    rw [List.forall₂_nil_left_iff.mp skipped]
    exact .none
  | cons m behind =>
    rw [left] at skipped
    obtain ⟨n, behind', first, rest, right⟩ := List.forall₂_cons_left_iff.mp skipped
    have code : m.isCode = true := by
      have := List.head?_dropWhile_not (fun m => !m.isCode || Bytes.isBlank m.byte) marks
      rw [left] at this
      simp_all
    rw [right]
    simp only [first.byte (.inr code)]
    split
    · refine .some ⟨first.offset, ?_⟩
      have closed := Group.close?_tracks (g := ⟨.paren, 1⟩) rest
      generalize Group.close? ⟨.paren, 1⟩ behind = x at closed
      generalize Group.close? ⟨.paren, 1⟩ behind' = y at closed
      cases closed with
      | none => exact .none
      | some both => exact .some ⟨both.1.offset, both.2⟩
    · exact .none

end PassCompiler.Source
