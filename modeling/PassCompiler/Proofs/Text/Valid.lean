import Mathlib.Data.List.DropRight
import PassCompiler.Text.Utf8

/-! Valid texts. A valid text may be cut at an ASCII byte, and repairing it changes nothing. -/
namespace PassCompiler.Utf8

variable {p : Option Pending} {b : UInt8} {x y : Bytes}

def ValidFrom (p : Option Pending) (x : Bytes) : Prop :=
  (decodeFrom p x).all Option.isSome = true

def Begun (p : Option Pending) : Prop := ∀ q, p = some q → 0x80 ≤ q.low

theorem begun_none : Begun none := fun _ h => nomatch h

theorem begin_begun (b : UInt8) : Begun (begin b).2 := by
  intro q
  grind [begin, lead]

theorem step_begun (h : Begun p) (b : UInt8) : Begun (step p b).2 := by
  cases p with
  | none => exact begin_begun b
  | some q =>
    unfold step
    dsimp only
    split
    · split
      · exact begun_none
      · intro q' same
        obtain rfl := Option.some.inj same
        exact UInt8.le_refl _
    · exact begin_begun b

theorem validFrom_nil : ValidFrom p [] ↔ p = none := by
  cases p <;> simp [ValidFrom, decodeFrom]

theorem validFrom_cons :
    ValidFrom p (b :: x) ↔ (step p b).1.all Option.isSome = true ∧ ValidFrom (step p b).2 x := by
  cases p <;> simp [ValidFrom, decodeFrom]

theorem validFrom_ascii (begun : Begun p) (ascii : b < 0x80) :
    ValidFrom p (b :: x) ↔ p = none ∧ ValidFrom none x := by
  have single : begin b = ([some (Char.ofNat b.toNat)], none) := by simp [begin, lead, ascii]
  rw [validFrom_cons]
  cases p with
  | none => simp [step, single]
  | some q =>
    have low : ¬ q.low ≤ b := by
      have := begun q rfl
      intro le
      exact absurd (UInt8.le_trans this le) (UInt8.not_le.mpr ascii)
    simp [step, low, single]

theorem validFrom_append_ascii (begun : Begun p) (ascii : b < 0x80) :
    ValidFrom p (x ++ b :: y) ↔ ValidFrom p x ∧ ValidFrom none y := by
  induction x generalizing p with
  | nil => rw [List.nil_append, validFrom_ascii begun ascii, validFrom_nil]
  | cons a x ih =>
    rw [List.cons_append, validFrom_cons, validFrom_cons, ih (step_begun begun a), and_assoc]

theorem isValid_append_ascii (ascii : b < 0x80) :
    isValid (x ++ b :: y) = true ↔ isValid x = true ∧ isValid y = true :=
  validFrom_append_ascii begun_none ascii

/-- What stands between two ASCII bytes. -/
theorem isValid_slice {i j : Nat} {c : UInt8} (valid : isValid x = true) (first : x[i]? = some b)
    (last : x[j]? = some c) (ascii : b < 0x80) (ascii' : c < 0x80) :
    isValid (Bytes.slice x ⟨i + 1, j⟩) = true := by
  obtain ⟨lt, here⟩ := List.getElem?_eq_some_iff.mp last
  have upto : isValid (x.take j) = true := by
    rw [← List.take_append_drop j x, List.drop_eq_getElem_cons lt, here] at valid
    exact ((isValid_append_ascii ascii').mp valid).1
  rcases Nat.lt_or_ge i j with inside | outside
  · have at' : (x.take j)[i]? = some b := by rw [List.getElem?_take_of_lt inside, first]
    obtain ⟨lt', here'⟩ := List.getElem?_eq_some_iff.mp at'
    rw [← List.take_append_drop i (x.take j), List.drop_eq_getElem_cons lt', here'] at upto
    exact ((isValid_append_ascii ascii).mp upto).2
  · rw [Bytes.slice, List.drop_eq_nil_of_le]
    · rfl
    · simp only [List.length_take]
      omega

theorem isValid_of_ascii (h : ∀ b ∈ x, b < 0x80) : isValid x = true := by
  induction x with
  | nil => rfl
  | cons b x ih =>
    obtain ⟨ascii, later⟩ := List.forall_mem_cons.mp h
    exact (validFrom_ascii begun_none ascii).mpr ⟨rfl, ih later⟩

theorem ascii_of_isSpace (space : Bytes.isSpace b = true) : b < 0x80 := by
  simp only [Bytes.isSpace, Bytes.isBlank, Bool.or_eq_true, beq_iff_eq] at space
  rcases space with (((rfl | rfl) | rfl) | rfl) | rfl <;> decide

theorem isValid_trimSpace (h : isValid x = true) : isValid (Bytes.trimSpace x) = true := by
  have front (x : Bytes) (h : isValid x = true) : isValid (x.dropWhile Bytes.isSpace) = true := by
    induction x with
    | nil => rfl
    | cons b x ih =>
      rw [List.dropWhile_cons]
      split
      · next space => exact ih ((isValid_append_ascii (x := []) (ascii_of_isSpace space)).mp h).2
      · exact h
  have back (x : Bytes) (h : isValid x = true) : isValid (x.rdropWhile Bytes.isSpace) = true := by
    induction x using List.reverseRecOn with
    | nil => rfl
    | append_singleton x b ih =>
      rw [List.rdropWhile_concat]
      split
      · next space => exact ih ((isValid_append_ascii (ascii_of_isSpace space)).mp h).1
      · exact h
  exact back _ (front x h)

/-- A valid text begins with the first byte of a character. -/
theorem isBoundaryByte_of_valid (h : isValid (b :: x) = true) : isBoundaryByte b = true := by
  have first := (validFrom_cons (p := none).mp h).1
  by_contra inside
  simp only [isBoundaryByte, Bool.or_eq_true, decide_eq_true_eq, not_or] at inside
  obtain ⟨high, low⟩ := inside
  have stray : b < 0xC2 := UInt8.lt_trans (UInt8.not_le.mp low) (by decide)
  simp [step, begin, lead, high, stray] at first

theorem isBoundary_zero (valid : isValid x = true) : isBoundary x 0 = true := by
  cases x with
  | nil => rfl
  | cons b x => exact isBoundaryByte_of_valid valid

theorem isBoundary_of_ascii {i : Nat} (h : x[i]? = some b) (ascii : b < 0x80) :
    isBoundary x i = true := by
  simp [isBoundary, h, isBoundaryByte, ascii]

/-- A valid text may be cut behind an ASCII byte. -/
theorem isBoundary_behind {i : Nat} (valid : isValid x = true) (h : x[i]? = some b)
    (ascii : b < 0x80) : isBoundary x (i + 1) = true := by
  obtain ⟨lt, here⟩ := List.getElem?_eq_some_iff.mp h
  rw [← List.take_append_drop i x, List.drop_eq_getElem_cons lt, here] at valid
  have rest := ((isValid_append_ascii ascii).mp valid).2
  unfold isBoundary
  split
  · next c next =>
    obtain ⟨lt', here'⟩ := List.getElem?_eq_some_iff.mp next
    rw [List.drop_eq_getElem_cons lt', here'] at rest
    exact isBoundaryByte_of_valid rest
  · next none =>
    have := List.getElem?_eq_none_iff.mp none
    simp only [beq_iff_eq]
    omega

theorem toNat_ofNat {n : Nat} (h : n.isValidChar) : (Char.ofNat n).val.toNat = n := by
  rw [Char.ofNat, dif_pos h]
  rfl

theorem eq_ofNat {n : Nat} (h : n = b.toNat) : UInt8.ofNat n = b := by
  rw [h, UInt8.ofNat_toNat]

def Pending.push (q : Pending) (b : UInt8) : Pending :=
  ⟨q.bits * 64 + (b.toNat - 0x80), q.left - 1, 0x80, 0xBF⟩

theorem exists_next {q : Pending} (h : ValidFrom (some q) x) :
    ∃ b y, x = b :: y ∧ q.low ≤ b ∧ b ≤ q.high ∧
      (q.left ≤ 1 → decodeFrom (some q) x = some (Char.ofNat (q.push b).bits) :: decode y) ∧
      (1 < q.left → ValidFrom (some (q.push b)) y ∧
        decodeFrom (some q) x = decodeFrom (some (q.push b)) y) := by
  cases x with
  | nil => simp [ValidFrom, decodeFrom] at h
  | cons b y =>
    by_cases inside : (q.low ≤ b && b ≤ q.high) = true
    · obtain ⟨low, high⟩ := Bool.and_eq_true_iff.mp inside
      refine ⟨b, y, rfl, by simpa using low, by simpa using high, ?_, ?_⟩
      · intro last
        simp only [decodeFrom, step, if_pos inside, if_pos last]
        rfl
      · intro more
        have read : decodeFrom (some q) (b :: y) = decodeFrom (some (q.push b)) y := by
          simp only [decodeFrom, step, if_pos inside, if_neg (Nat.not_le.mpr more)]
          rfl
        exact ⟨by rwa [ValidFrom, read] at h, read⟩
    · simp [ValidFrom, decodeFrom, step, inside] at h

section
variable {b₁ b₂ b₃ b₄ : UInt8}

theorem encode_one (ascii : b₁ < 0x80) :
    String.utf8EncodeChar (Char.ofNat b₁.toNat) = [b₁] := by
  have small := UInt8.lt_iff_toNat_lt.mp ascii
  have valid : b₁.toNat.isValidChar := .inl (by simp at small; omega)
  simp only [String.utf8EncodeChar, toNat_ofNat valid]
  rw [if_pos (Nat.le_of_lt_succ small), UInt8.ofNat_toNat]

theorem encode_two (n : Nat) (h : n = (b₁.toNat - 0xC0) * 64 + (b₂.toNat - 0x80))
    (h₁ : 0xC2 ≤ b₁.toNat ∧ b₁.toNat < 0xE0) (h₂ : 0x80 ≤ b₂.toNat ∧ b₂.toNat ≤ 0xBF) :
    String.utf8EncodeChar (Char.ofNat n) = [b₁, b₂] := by
  have valid : n.isValidChar := by
    simp only [Nat.isValidChar]
    omega
  simp only [String.utf8EncodeChar, toNat_ofNat valid]
  rw [if_neg (by omega), if_pos (by omega), eq_ofNat (b := b₁) (by omega),
    eq_ofNat (b := b₂) (by omega)]

theorem encode_three (n : Nat)
    (h : n = ((b₁.toNat - 0xE0) * 64 + (b₂.toNat - 0x80)) * 64 + (b₃.toNat - 0x80))
    (h₁ : 0xE0 ≤ b₁.toNat ∧ b₁.toNat < 0xF0) (h₂ : 0x80 ≤ b₂.toNat ∧ b₂.toNat ≤ 0xBF)
    (long : b₁.toNat = 0xE0 → 0xA0 ≤ b₂.toNat) (scalar : b₁.toNat = 0xED → b₂.toNat ≤ 0x9F)
    (h₃ : 0x80 ≤ b₃.toNat ∧ b₃.toNat ≤ 0xBF) :
    String.utf8EncodeChar (Char.ofNat n) = [b₁, b₂, b₃] := by
  have valid : n.isValidChar := by
    simp only [Nat.isValidChar]
    omega
  simp only [String.utf8EncodeChar, toNat_ofNat valid]
  rw [if_neg (by omega), if_neg (by omega), if_pos (by omega), eq_ofNat (b := b₁) (by omega),
    eq_ofNat (b := b₂) (by omega), eq_ofNat (b := b₃) (by omega)]

theorem encode_four (n : Nat)
    (h : n = (((b₁.toNat - 0xF0) * 64 + (b₂.toNat - 0x80)) * 64 + (b₃.toNat - 0x80)) * 64 +
      (b₄.toNat - 0x80))
    (h₁ : 0xF0 ≤ b₁.toNat ∧ b₁.toNat < 0xF5) (h₂ : 0x80 ≤ b₂.toNat ∧ b₂.toNat ≤ 0xBF)
    (long : b₁.toNat = 0xF0 → 0x90 ≤ b₂.toNat) (scalar : b₁.toNat = 0xF4 → b₂.toNat ≤ 0x8F)
    (h₃ : 0x80 ≤ b₃.toNat ∧ b₃.toNat ≤ 0xBF) (h₄ : 0x80 ≤ b₄.toNat ∧ b₄.toNat ≤ 0xBF) :
    String.utf8EncodeChar (Char.ofNat n) = [b₁, b₂, b₃, b₄] := by
  have valid : n.isValidChar := by
    simp only [Nat.isValidChar]
    omega
  simp only [String.utf8EncodeChar, toNat_ofNat valid]
  rw [if_neg (by omega), if_neg (by omega), if_neg (by omega), eq_ofNat (b := b₁) (by omega),
    eq_ofNat (b := b₂) (by omega), eq_ofNat (b := b₃) (by omega), eq_ofNat (b := b₄) (by omega)]

theorem low_of_ite {v lo : UInt8} (h : (if b₁ == v then lo else 0x80) ≤ b₂) (ge : 0x80 ≤ lo) :
    0x80 ≤ b₂.toNat ∧ (b₁.toNat = v.toNat → lo.toNat ≤ b₂.toNat) := by
  split at h
  · exact ⟨UInt8.le_iff_toNat_le.mp (UInt8.le_trans ge h), fun _ => UInt8.le_iff_toNat_le.mp h⟩
  · next ne => exact ⟨UInt8.le_iff_toNat_le.mp h, fun same =>
      absurd (UInt8.toNat_inj.mp same) (by simpa using ne)⟩

theorem high_of_ite {v hi : UInt8} (h : b₂ ≤ if b₁ == v then hi else 0xBF) (le : hi ≤ 0xBF) :
    b₂.toNat ≤ 0xBF ∧ (b₁.toNat = v.toNat → b₂.toNat ≤ hi.toNat) := by
  split at h
  · exact ⟨UInt8.le_iff_toNat_le.mp (UInt8.le_trans h le), fun _ => UInt8.le_iff_toNat_le.mp h⟩
  · next ne => exact ⟨UInt8.le_iff_toNat_le.mp h, fun same =>
      absurd (UInt8.toNat_inj.mp same) (by simpa using ne)⟩

end

/-- The first character of a valid text. -/
theorem exists_char_of_valid (h : isValid (b :: x) = true) :
    ∃ c y, b :: x = String.utf8EncodeChar c ++ y ∧ decode (b :: x) = some c :: decode y := by
  have start : decode (b :: x) = (begin b).1 ++ decodeFrom (begin b).2 x := rfl
  rw [isValid, start, List.all_append, Bool.and_eq_true] at h
  rw [start]
  obtain ⟨items, later⟩ := h
  unfold begin lead at items later ⊢
  have le {a b : UInt8} (h : a ≤ b) : a.toNat ≤ b.toNat := UInt8.le_iff_toNat_le.mp h
  have lt {a b : UInt8} (h : a < b) : a.toNat < b.toNat := UInt8.lt_iff_toNat_lt.mp h
  by_cases one : b < 0x80
  · simp only [if_pos one]
    refine ⟨Char.ofNat b.toNat, x, ?_, rfl⟩
    rw [encode_one one]
    rfl
  rw [if_neg one] at items later ⊢
  by_cases stray : b < 0xC2
  · simp [stray] at items
  rw [if_neg stray] at items later ⊢
  by_cases two : b < 0xE0
  · rw [if_pos two] at later ⊢
    obtain ⟨b₂, y, rfl, low, high, last, _⟩ := exists_next later
    refine ⟨_, y, ?_, last (Nat.le_refl _)⟩
    exact congrArg (· ++ y)
      (encode_two _ rfl ⟨le (UInt8.not_lt.mp stray), lt two⟩ ⟨le low, le high⟩).symm
  rw [if_neg two] at items later ⊢
  by_cases three : b < 0xF0
  · rw [if_pos three] at later ⊢
    obtain ⟨b₂, x, rfl, low, high, _, more⟩ := exists_next later
    obtain ⟨later, read⟩ := more (by simp)
    obtain ⟨b₃, y, rfl, low', high', last, _⟩ := exists_next later
    refine ⟨_, y, ?_, read.trans (last (Nat.le_refl _))⟩
    obtain ⟨low, long⟩ := low_of_ite low (by decide)
    obtain ⟨high, scalar⟩ := high_of_ite high (by decide)
    exact congrArg (· ++ y) (encode_three _ rfl ⟨le (UInt8.not_lt.mp two), lt three⟩
      ⟨low, high⟩ long scalar ⟨le low', le high'⟩).symm
  rw [if_neg three] at items later ⊢
  by_cases four : b < 0xF5
  · rw [if_pos four] at later ⊢
    obtain ⟨b₂, x, rfl, low, high, _, more⟩ := exists_next later
    obtain ⟨later, read⟩ := more (by simp)
    obtain ⟨b₃, x, rfl, low', high', _, more⟩ := exists_next later
    obtain ⟨later, read'⟩ := more (show 1 < 3 - 1 by decide)
    obtain ⟨b₄, y, rfl, low'', high'', last, _⟩ := exists_next later
    have read'' := last (show 3 - 1 - 1 ≤ 1 by decide)
    refine ⟨_, y, ?_, read.trans (read'.trans read'')⟩
    obtain ⟨low, long⟩ := low_of_ite low (by decide)
    obtain ⟨high, scalar⟩ := high_of_ite high (by decide)
    exact congrArg (· ++ y) (encode_four _ rfl ⟨le (UInt8.not_lt.mp three), lt four⟩
      ⟨low, high⟩ long scalar ⟨le low', le high'⟩ ⟨le low'', le high''⟩).symm
  · simp [four] at items

theorem repair_of_valid (h : isValid x = true) : repair x = x := by
  induction len : x.length using Nat.strongRecOn generalizing x with
  | ind n ih =>
    subst len
    cases x with
    | nil => rfl
    | cons b x =>
      obtain ⟨c, y, spelt, first⟩ := exists_char_of_valid h
      have valid : isValid y = true := by
        rw [isValid, first] at h
        simpa [isValid] using h
      have shorter : y.length < (b :: x).length := by
        have := c.utf8Size_pos
        rw [spelt, List.length_append, String.length_utf8EncodeChar]
        omega
      have later := ih y.length shorter valid rfl
      simp only [repair, chars, encode] at later ⊢
      rw [first, List.map_cons, List.flatMap_cons, later, spelt]
      rfl

end PassCompiler.Utf8
