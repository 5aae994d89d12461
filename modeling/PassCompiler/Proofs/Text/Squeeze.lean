import PassCompiler.Proofs.Text.Repair
import PassCompiler.Proofs.Text.Trim

/-! Texts up to the number and kind of blanks. Squeezing a text leaves one space of every run of
blanks; it may be done before or after trimming, and before or after repairing. -/
namespace PassCompiler

namespace Bytes

variable {b : UInt8} {x : Bytes} {after : Bool}

/-- One space for every run of blanks, none for one that goes on from before the text. -/
def squeeze : Bool → Bytes → Bytes
  | _, [] => []
  | after, b :: rest =>
    if isBlank b then if after then squeeze true rest else 0x20 :: squeeze true rest
    else b :: squeeze false rest

/-- The same but for blanks: runs of them stand at the same places. -/
def UpToBlanks (x y : Bytes) : Prop := squeeze true x = squeeze true y

instance (x y : Bytes) : Decidable (UpToBlanks x y) := inferInstanceAs (Decidable (_ = _))

theorem squeeze_blank (blank : isBlank b = true) (after : Bool) (x : Bytes) :
    squeeze after (b :: x) = if after then squeeze true x else 0x20 :: squeeze true x :=
  if_pos blank

theorem squeeze_other (other : isBlank b = false) (after : Bool) (x : Bytes) :
    squeeze after (b :: x) = b :: squeeze false x := if_neg (by simp [other])

/-- Bytes that are no blanks stay. -/
theorem squeeze_append (others : ∀ b ∈ x, isBlank b = false) (filled : x ≠ []) (after : Bool)
    (y : Bytes) : squeeze after (x ++ y) = x ++ squeeze false y := by
  induction x generalizing after with
  | nil => contradiction
  | cons b x ih =>
    obtain ⟨here, later⟩ := List.forall_mem_cons.mp others
    rw [List.cons_append, squeeze_other here, List.cons_append]
    cases x with
    | nil => rfl
    | cons c x => rw [ih later (by simp)]

theorem squeeze_blanks (blanks : ∀ b ∈ x, isBlank b = true) (filled : x ≠ []) (after : Bool)
    (y : Bytes) : squeeze after (x ++ y) = squeeze after (0x20 :: y) := by
  induction x generalizing after with
  | nil => contradiction
  | cons b x ih =>
    obtain ⟨here, later⟩ := List.forall_mem_cons.mp blanks
    rw [List.cons_append, squeeze_blank here, squeeze_blank rfl]
    cases x with
    | nil => rfl
    | cons c x =>
      have rest : squeeze true (c :: x ++ y) = squeeze true y := by
        rw [ih later (by simp), squeeze_blank rfl, if_pos rfl]
      rw [rest]

theorem isSpace_of_isBlank (blank : isBlank b = true) : isSpace b = true := by
  rw [isSpace, blank, Bool.true_or]

theorem isBlank_of_not_isSpace (other : isSpace b = false) : isBlank b = false :=
  (Bool.or_eq_false_iff.mp other).1

theorem dropWhile_squeeze (after : Bool) (x : Bytes) :
    (squeeze after x).dropWhile isSpace = squeeze true (x.dropWhile isSpace) := by
  induction x generalizing after with
  | nil => rfl
  | cons b x ih =>
    cases space : isSpace b with
    | false =>
      have other := isBlank_of_not_isSpace space
      rw [squeeze_other other, List.dropWhile_cons_of_neg (by simp [space]),
        List.dropWhile_cons_of_neg (by simp [space]), squeeze_other other]
    | true =>
      rw [List.dropWhile_cons_of_pos space]
      cases blank : isBlank b with
      | false => rw [squeeze_other blank, List.dropWhile_cons_of_pos space, ih]
      | true =>
        rw [squeeze_blank blank]
        split
        · exact ih true
        · rw [List.dropWhile_cons_of_pos (by decide), ih]

/-- A byte at the end of a text adds itself, or a space at most. -/
theorem exists_squeeze_concat (after : Bool) (x : Bytes) (b : UInt8) :
    ∃ y, squeeze after (x ++ [b]) = squeeze after x ++ y ∧
      (isSpace b = true → y = [] ∨ ∃ c, y = [c] ∧ isSpace c = true) ∧
      (isSpace b = false → y = [b]) := by
  induction x generalizing after with
  | nil =>
    cases blank : isBlank b with
    | false =>
      rw [List.nil_append, squeeze_other blank]
      exact ⟨[b], rfl, fun space => .inr ⟨b, rfl, space⟩, fun _ => rfl⟩
    | true =>
      rw [List.nil_append, squeeze_blank blank]
      have space := isSpace_of_isBlank blank
      cases after with
      | true => exact ⟨[], rfl, fun _ => .inl rfl, by simp [space]⟩
      | false => exact ⟨[0x20], rfl, fun _ => .inr ⟨0x20, rfl, rfl⟩, by simp [space]⟩
  | cons c x ih =>
    rw [List.cons_append]
    cases blank : isBlank c with
    | false =>
      obtain ⟨y, same, both⟩ := ih false
      exact ⟨y, by rw [squeeze_other blank, squeeze_other blank, same, List.cons_append], both⟩
    | true =>
      obtain ⟨y, same, both⟩ := ih true
      refine ⟨y, ?_, both⟩
      rw [squeeze_blank blank, squeeze_blank blank, same]
      split <;> rfl

theorem rdropWhile_squeeze (after : Bool) (x : Bytes) :
    (squeeze after x).rdropWhile isSpace = squeeze after (x.rdropWhile isSpace) := by
  induction x using List.reverseRecOn with
  | nil => rfl
  | append_singleton x b ih =>
    obtain ⟨y, same, spaces, other⟩ := exists_squeeze_concat after x b
    rw [same]
    cases space : isSpace b with
    | false =>
      rw [other space, List.rdropWhile_concat_neg _ _ _ (by simp [space]),
        List.rdropWhile_concat_neg _ _ _ (by simp [space]), same, other space]
    | true =>
      rw [List.rdropWhile_concat_pos _ _ _ space]
      rcases spaces space with rfl | ⟨c, rfl, more⟩
      · rw [List.append_nil, ih]
      · rw [List.rdropWhile_concat_pos _ _ _ more, ih]

theorem trimSpace_squeeze (x : Bytes) :
    trimSpace (squeeze true x) = squeeze true (trimSpace x) := by
  rw [Blank.trims_trimSpace.both, Blank.trims_trimSpace.both, dropWhile_squeeze, rdropWhile_squeeze]

theorem UpToBlanks.trimSpace {y : Bytes} (h : UpToBlanks x y) :
    UpToBlanks (trimSpace x) (Bytes.trimSpace y) := by
  rw [UpToBlanks, ← trimSpace_squeeze, ← trimSpace_squeeze, h]

/-- A text that does not begin with a blank does not vanish. -/
theorem squeeze_eq_nil_iff (trimmed : Bytes.trimSpace x = x) : squeeze true x = [] ↔ x = [] := by
  constructor
  · intro empty
    cases x with
    | nil => rfl
    | cons b x =>
      have solid := Blank.trimSpace_eq_self_iff.mp trimmed b (.inl rfl)
      rw [squeeze_other (isBlank_of_not_isSpace solid)] at empty
      contradiction
  · rintro rfl
    rfl

end Bytes

namespace Utf8

variable {b : UInt8} {u x : Bytes}

/-- A text in runs: ASCII bytes, and parts without one that go as far as they can. -/
theorem run_induction {P : Bytes → Prop} (nil : P [])
    (ascii : ∀ b x, b < 0x80 → P x → P (b :: x))
    (high : ∀ u x, High u → (∀ b ∈ x.head?, b < 0x80) → P x → P (u ++ x)) (x : Bytes) : P x := by
  induction len : x.length using Nat.strongRecOn generalizing x with
  | ind n ih =>
    subst len
    cases x with
    | nil => exact nil
    | cons b x =>
      by_cases small : b < 0x80
      · exact ascii b x small (ih x.length (by simp) x rfl)
      · let isHigh (c : UInt8) : Bool := 0x80 ≤ c
        have here : isHigh b = true := by simpa [isHigh] using small
        rw [← List.takeWhile_append_dropWhile (p := isHigh) (l := b :: x)]
        apply high
        · rw [List.takeWhile_cons_of_pos here]
          refine ⟨by simp, List.forall_mem_cons.mpr ⟨by simpa using small, fun c member => ?_⟩⟩
          simpa [isHigh] using List.mem_takeWhile_imp member
        · intro c first
          have stopped := List.head?_dropWhile_not isHigh (b :: x)
          rw [first] at stopped
          simpa [isHigh] using stopped
        · refine ih _ ?_ _ rfl
          rw [List.dropWhile_cons_of_pos here, List.length_cons]
          exact Nat.lt_succ_of_le (List.dropWhile_suffix _).length_le

/-- Characters do not go on behind an ASCII byte. -/
theorem decodeFrom_append_ascii {p : Option Pending} (begun : Begun p)
    (ends : ∀ b ∈ x.head?, b < 0x80) (u : Bytes) :
    decodeFrom p (u ++ x) = decodeFrom p u ++ decode x := by
  induction u generalizing p with
  | nil =>
    cases p with
    | none => rfl
    | some q =>
      cases x with
      | nil => rfl
      | cons b x =>
        have ascii := ends b rfl
        have low : ¬ q.low ≤ b := fun le =>
          absurd (UInt8.le_trans (begun q rfl) le) (UInt8.not_le.mpr ascii)
        simp [decode, decodeFrom, step, low]
  | cons b u ih =>
    have later := ih (step_begun begun b)
    cases p <;> simp only [List.cons_append, decodeFrom, later, List.append_assoc]

theorem repair_append (ends : ∀ b ∈ x.head?, b < 0x80) (u : Bytes) :
    repair (u ++ x) = repair u ++ repair x := by
  rw [repair_eq, repair_eq, repair_eq, decode, decodeFrom_append_ascii begun_none ends,
    List.flatMap_append]
  rfl

theorem Mends.forall_high {y : Bytes} (h : Mends x y) (high : ∀ b ∈ x, 0x80 ≤ b) :
    ∀ b ∈ y, 0x80 ≤ b := by
  induction h with
  | nil => exact high
  | ascii small => exact absurd (high _ List.mem_cons_self) (UInt8.not_le.mpr small)
  | high _ parts _ _ ih =>
    obtain ⟨_, later⟩ := List.forall_mem_append.mp high
    exact List.forall_mem_append.mpr ⟨parts.2, ih later⟩

theorem High.repair (h : High u) : High (repair u) := by
  have mends := mends_repair u
  exact ⟨mt mends.eq_nil_iff.mp h.1, mends.forall_high h.2⟩

theorem High.not_isBlank (h : High u) : ∀ b ∈ u, Bytes.isBlank b = false := by
  intro b member
  by_contra blank
  have space := Bytes.isSpace_of_isBlank (by simpa using blank)
  exact absurd (h.2 b member) (UInt8.not_le.mpr (ascii_of_isSpace space))

theorem repair_squeeze (after : Bool) (x : Bytes) :
    repair (Bytes.squeeze after x) = Bytes.squeeze after (repair x) := by
  induction x using run_induction generalizing after with
  | nil => rfl
  | ascii b x small ih =>
    rw [repair_ascii small]
    cases blank : Bytes.isBlank b with
    | false => rw [Bytes.squeeze_other blank, Bytes.squeeze_other blank, repair_ascii small, ih]
    | true =>
      rw [Bytes.squeeze_blank blank, Bytes.squeeze_blank blank, ← ih]
      split
      · rfl
      · rw [repair_ascii (by decide)]
  | high u x high ends ih =>
    have ends' : ∀ b ∈ (Bytes.squeeze false x).head?, b < 0x80 := by
      cases x with
      | nil => exact nofun
      | cons c x =>
        intro b first
        cases blank : Bytes.isBlank c with
        | false =>
          rw [Bytes.squeeze_other blank] at first
          exact ends b first
        | true =>
          obtain rfl := Option.some.inj (Bytes.squeeze_blank blank false x ▸ first)
          decide
    rw [repair_append ends, Bytes.squeeze_append high.not_isBlank high.1, repair_append ends', ih,
      Bytes.squeeze_append high.repair.not_isBlank high.repair.1]

end Utf8

theorem Bytes.UpToBlanks.repair {x y : Bytes} (h : UpToBlanks x y) :
    UpToBlanks (Utf8.repair x) (Utf8.repair y) := by
  rw [UpToBlanks, ← Utf8.repair_squeeze, ← Utf8.repair_squeeze, h]

end PassCompiler
