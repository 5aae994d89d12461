import PassCompiler.Proofs.Source.Resume

/-! Depth of delimiters, and what a closing delimiter closes: a group ends at the first closer of
its kind behind a balanced text. -/
namespace PassCompiler.Source

variable {kind : Delimiter} {s : Bytes}

namespace Delimiter

/-- The depth behind some code, `none` where a closer has nothing to close. -/
def depth (kind : Delimiter) (d : Nat) : List Mark → Option Nat
  | [] => some d
  | m :: rest =>
    if m.isCodeByte kind.opener then kind.depth (d + 1) rest
    else if m.isCodeByte kind.closer then if d = 0 then none else kind.depth (d - 1) rest
    else kind.depth d rest

/-- Every closer closes an opener, and none stays open. -/
def Balanced (kind : Delimiter) (marks : List Mark) : Prop := kind.depth 0 marks = some 0

theorem opening?_eq_some_iff {b : UInt8} : opening? b = some kind ↔ b = kind.opener := by
  unfold opening?
  cases kind <;> (repeat' split) <;> simp_all [opener]

theorem opening?_eq_none {b : UInt8} (h : ∀ kind : Delimiter, b ≠ kind.opener) :
    opening? b = none :=
  Option.eq_none_iff_forall_ne_some.mpr fun kind seen => h kind (opening?_eq_some_iff.mp seen)

theorem opener_ne_slash (kind : Delimiter) : kind.opener ≠ 0x2F := by
  cases kind <;> decide

theorem closer_ne_slash (kind : Delimiter) : kind.closer ≠ 0x2F := by
  cases kind <;> decide

theorem closer_ne_opener (kind : Delimiter) : kind.closer ≠ kind.opener := by
  cases kind <;> decide

end Delimiter

theorem Group.closer_of_step {g : Group} (h : g.step m = none) :
    m.isCodeByte g.kind.closer = true := by
  unfold Group.step at h
  split at h
  · contradiction
  · split at h
    · next closes => exact closes
    · contradiction

/-- Where a group is closed, seen from its first mark: there, or behind it. -/
theorem Delimiter.exists_closed_cons_iff {d : Nat} {a m : Mark} {rest behind : List Mark} :
    (∃ inside, a :: rest = inside ++ m :: behind ∧ kind.depth d inside = some 0 ∧
        m.isCodeByte kind.closer = true) ↔
      (a = m ∧ rest = behind ∧ d = 0 ∧ m.isCodeByte kind.closer = true) ∨
        ∃ inside, rest = inside ++ m :: behind ∧ kind.depth d (a :: inside) = some 0 ∧
          m.isCodeByte kind.closer = true := by
  constructor
  · rintro ⟨inside, same, deep, closes⟩
    cases inside with
    | nil =>
      obtain ⟨rfl, rfl⟩ := List.cons.inj same
      exact .inl ⟨rfl, rfl, Option.some.inj deep, closes⟩
    | cons b inside =>
      obtain ⟨rfl, rfl⟩ := List.cons.inj same
      exact .inr ⟨inside, rfl, deep, closes⟩
  · rintro (⟨rfl, rfl, rfl, closes⟩ | ⟨inside, rfl, deep, closes⟩)
    · exact ⟨[], rfl, rfl, closes⟩
    · exact ⟨a :: inside, rfl, deep, closes⟩

theorem Group.close?_eq_some_iff {d : Nat} {marks behind : List Mark} {m : Mark} :
    Group.close? ⟨kind, d + 1⟩ marks = some (m, behind) ↔
      ∃ inside, marks = inside ++ m :: behind ∧ kind.depth d inside = some 0 ∧
        m.isCodeByte kind.closer = true := by
  induction marks generalizing d with
  | nil => simp [Group.close?]
  | cons a rest ih =>
    rw [Delimiter.exists_closed_cons_iff]
    simp only [Group.close?, Group.step, Delimiter.depth]
    by_cases opens : a.isCodeByte kind.opener = true
    · have notCloser : ¬ a.isCodeByte kind.closer = true := by
        intro closes
        exact kind.closer_ne_opener
          ((Mark.isCodeByte_iff.mp closes).2.symm.trans (Mark.isCodeByte_iff.mp opens).2)
      simp only [if_pos opens, ih]
      constructor
      · exact .inr
      · rintro (⟨rfl, _, _, closes⟩ | h)
        · exact absurd closes notCloser
        · exact h
    · by_cases closes : a.isCodeByte kind.closer = true
      · cases d with
        | zero =>
          simp only [if_neg opens, if_pos closes, Nat.zero_add, Nat.le_refl, if_true]
          constructor
          · intro h
            obtain ⟨rfl, rfl⟩ := Prod.mk.inj (Option.some.inj h)
            exact .inl ⟨rfl, rfl, trivial, closes⟩
          · rintro (⟨rfl, rfl, _, _⟩ | ⟨_, _, deep, _⟩)
            · rfl
            · contradiction
        | succ d =>
          have deeper : ¬ d + 1 + 1 ≤ 1 := by omega
          have later : ¬ d + 1 = 0 := by omega
          simp only [if_neg opens, if_pos closes, if_neg deeper, if_neg later,
            Nat.add_sub_cancel, ih]
          constructor
          · exact .inr
          · rintro (⟨_, _, zero, _⟩ | h)
            · contradiction
            · exact h
      · simp only [if_neg opens, if_neg closes, ih]
        constructor
        · exact .inr
        · rintro (⟨rfl, _, _, closes'⟩ | h)
          · exact absurd closes' closes
          · exact h

/-- A scan that starts with a byte that opens no comment. -/
theorem scan_cons {start : Nat} {b : UInt8} (h : s[start]? = some b) (ne : b ≠ 0x2F) :
    scan s start = ⟨start, b, .code⟩ :: scan s (start + 1) := by
  obtain ⟨lt, at'⟩ := List.getElem?_eq_some_iff.mp h
  have first : s.drop start = b :: s.drop (start + 1) := by
    rw [List.drop_eq_getElem_cons lt, at']
  simp [scan, first, scanFrom, Phase.step, ne]

theorem matchingClose_eq {start : Nat} (h : s[start]? = some kind.opener) :
    matchingClose s start =
      (Group.close? ⟨kind, 1⟩ (scan s (start + 1))).map (·.1.offset) := by
  unfold matchingClose
  rw [scan_cons h kind.opener_ne_slash]
  simp only [Delimiter.opening?_eq_some_iff.mpr rfl]

end PassCompiler.Source
