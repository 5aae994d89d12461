import PassCompiler.Proofs.Text.Valid

/-! Repaired texts, whatever the bytes. Repairing a text changes it only in parts without an ASCII
byte, each of which becomes another such part. Main definition: `Mends`. -/
namespace PassCompiler.Utf8

variable {p : Option Pending} {b : UInt8} {u v x y : Bytes}

def High (u : Bytes) : Prop := u ≠ [] ∧ ∀ b ∈ u, 0x80 ≤ b

/-- `y` is valid, and differs from `x` only in parts without an ASCII byte. -/
inductive Mends : Bytes → Bytes → Prop
  | nil : Mends [] []
  | ascii {b : UInt8} {x y : Bytes} : b < 0x80 → Mends x y → Mends (b :: x) (b :: y)
  | high {u v x y : Bytes} : High u → High v → isValid v = true → Mends x y →
      Mends (u ++ x) (v ++ y)

theorem decodeFrom_append (h : ValidFrom p u) (x : Bytes) :
    decodeFrom p (u ++ x) = decodeFrom p u ++ decode x := by
  induction u generalizing p with
  | nil =>
    obtain rfl := validFrom_nil.mp h
    rfl
  | cons b u ih =>
    have later := ih (validFrom_cons.mp h).2
    cases p <;> simp only [List.cons_append, decodeFrom, later, List.append_assoc]

theorem isValid_append (hu : isValid u = true) (hx : isValid x = true) :
    isValid (u ++ x) = true := by
  rw [isValid, decode, decodeFrom_append hu, List.all_append]
  exact Bool.and_eq_true_iff.mpr ⟨hu, hx⟩

/-- What is read of a character begun: the rest of it, or as much as there is. -/
theorem exists_rest (q : Pending) (low : 0x80 ≤ q.low) (x : Bytes) :
    ∃ u y item, x = u ++ y ∧ (∀ b ∈ u, 0x80 ≤ b) ∧
      decodeFrom (some q) x = item :: decode y ∧
      (item ≠ none → decodeFrom (some q) u = [item]) := by
  induction x generalizing q with
  | nil => exact ⟨[], [], none, rfl, nofun, rfl, fun some => absurd rfl some⟩
  | cons b x ih =>
    by_cases inside : (q.low ≤ b && b ≤ q.high) = true
    · have high : 0x80 ≤ b := by
        have le := (Bool.and_eq_true_iff.mp inside).1
        exact UInt8.le_trans low (by simpa using le)
      by_cases last : q.left ≤ 1
      · have read (y : Bytes) :
            decodeFrom (some q) (b :: y) = some (Char.ofNat (q.push b).bits) :: decode y := by
          simp only [decodeFrom, step, if_pos inside, if_pos last]
          rfl
        exact ⟨[b], x, _, rfl, by simpa using high, read x, fun _ => read []⟩
      · have read (y : Bytes) :
            decodeFrom (some q) (b :: y) = decodeFrom (some (q.push b)) y := by
          simp only [decodeFrom, step, if_pos inside, if_neg last]
          rfl
        obtain ⟨u, y, item, rfl, highs, first, alone⟩ := ih (q.push b) (UInt8.le_refl _)
        refine ⟨b :: u, y, item, rfl, List.forall_mem_cons.mpr ⟨high, highs⟩, ?_, ?_⟩
        · rw [read, first]
        · intro some
          rw [read, alone some]
    · have read : decodeFrom (some q) (b :: x) = none :: decode (b :: x) := by
        simp only [decodeFrom, step, if_neg inside]
        rfl
      exact ⟨[], b :: x, none, rfl, nofun, read, fun some => absurd rfl some⟩

/-- What is read from a byte beyond ASCII on: a character, or a part of none. -/
theorem exists_part (high : 0x80 ≤ b) (x : Bytes) :
    ∃ u y item, b :: x = u ++ y ∧ High u ∧ decode (b :: x) = item :: decode y ∧
      (item ≠ none → decode u = [item]) := by
  have begun := begin_begun b
  have read (x : Bytes) : decode (b :: x) = (begin b).1 ++ decodeFrom (begin b).2 x := rfl
  have several : (lead b).1 = none := by
    simp only [lead, if_neg (UInt8.not_lt.mpr high)]
    grind
  unfold begin at begun read
  split at read
  · next c pending single =>
    rw [single] at several
    contradiction
  · next q leading =>
    obtain ⟨u, y, item, rfl, highs, first, ended⟩ := exists_rest q (begun q (by rw [leading])) x
    refine ⟨b :: u, y, item, rfl, ⟨by simp, List.forall_mem_cons.mpr ⟨high, highs⟩⟩, ?_, ?_⟩
    · exact (read _).trans first
    · intro some
      exact (read _).trans (ended some)
  · exact ⟨[b], x, none, rfl, ⟨by simp, by simpa using high⟩, read x, fun some => absurd rfl some⟩

def shown (item : Option Char) : Bytes := String.utf8EncodeChar (item.getD (Char.ofNat 0xFFFD))

theorem repair_eq (x : Bytes) : repair x = (decode x).flatMap shown := by
  rw [repair, chars, encode, List.flatMap_map]
  rfl

theorem repair_ascii (ascii : b < 0x80) (x : Bytes) : repair (b :: x) = b :: repair x := by
  have first : decode (b :: x) = some (Char.ofNat b.toNat) :: decode x := by
    simp [decode, decodeFrom, step, begin, lead, ascii]
  rw [repair_eq, first, List.flatMap_cons, ← repair_eq, shown, Option.getD_some, encode_one ascii]
  rfl

/-- A character that was read from a part of its own is written as that part. -/
theorem high_shown {item : Option Char} (high : High u) (alone : item ≠ none → decode u = [item]) :
    High (shown item) ∧ isValid (shown item) = true := by
  cases item with
  | none => exact ⟨⟨by decide, by decide⟩, by decide⟩
  | some c =>
    -- the part is a valid text by itself, and repairing such a text changes nothing
    have here : decode u = [some c] := alone (by simp)
    have valid : isValid u = true := by
      rw [isValid, here]
      rfl
    have same : shown (some c) = u := by
      have kept := repair_of_valid valid
      rwa [repair_eq, here, List.flatMap_singleton] at kept
    rw [same]
    exact ⟨high, valid⟩

theorem mends_repair (x : Bytes) : Mends x (repair x) := by
  induction len : x.length using Nat.strongRecOn generalizing x with
  | ind n ih =>
    subst len
    cases x with
    | nil => exact .nil
    | cons b x =>
      by_cases ascii : b < 0x80
      · rw [repair_ascii ascii]
        exact .ascii ascii (ih x.length (by simp) x rfl)
      · obtain ⟨u, y, item, split, high, first, alone⟩ := exists_part (UInt8.not_lt.mp ascii) x
        have shorter : y.length < (b :: x).length := by
          have filled := List.length_pos_iff.mpr high.1
          rw [split, List.length_append]
          omega
        rw [repair_eq, first, List.flatMap_cons, ← repair_eq, split]
        obtain ⟨high', valid⟩ := high_shown high alone
        exact .high high high' valid (ih y.length shorter y rfl)

theorem isValid_of_mends (h : Mends x y) : isValid y = true := by
  induction h with
  | nil => rfl
  | ascii small _ ih => exact (validFrom_ascii begun_none small).mpr ⟨rfl, ih⟩
  | high _ _ valid _ ih => exact isValid_append valid ih

theorem High.head?_append (h : High u) (x : Bytes) (ascii : b < 0x80) :
    (u ++ x).head? ≠ some b := by
  obtain ⟨filled, high⟩ := h
  intro first
  rw [List.head?_append_of_ne_nil _ filled] at first
  exact UInt8.not_lt.mpr (high b (List.mem_of_head? first)) ascii

theorem High.getLast?_ne (h : High u) (ascii : b < 0x80) : u.getLast? ≠ some b :=
  fun last => UInt8.not_lt.mpr (h.2 b (List.mem_of_getLast? last)) ascii

/-- The same ASCII byte stands in front, or none. -/
theorem Mends.head?_iff (h : Mends x y) (ascii : b < 0x80) :
    y.head? = some b ↔ x.head? = some b := by
  cases h with
  | nil => rfl
  | ascii => rfl
  | high hu hv =>
    exact iff_of_false (hv.head?_append _ ascii) (hu.head?_append _ ascii)

theorem Mends.eq_nil_iff (h : Mends x y) : y = [] ↔ x = [] := by
  cases h with
  | nil => rfl
  | ascii => simp
  | high hu hv => simp [hu.1, hv.1]

theorem getLast?_append_iff :
    (u ++ x).getLast? = some b ↔ x.getLast? = some b ∨ x = [] ∧ u.getLast? = some b := by
  rw [List.getLast?_append, Option.or_eq_some_iff, List.getLast?_eq_none_iff]

/-- The same ASCII byte stands at the end, or none. -/
theorem Mends.getLast?_iff (h : Mends x y) (ascii : b < 0x80) :
    y.getLast? = some b ↔ x.getLast? = some b := by
  induction h with
  | nil => rfl
  | @ascii c x y _ rest ih =>
    change ([c] ++ y).getLast? = _ ↔ ([c] ++ x).getLast? = _
    rw [getLast?_append_iff, getLast?_append_iff, ih, rest.eq_nil_iff]
  | @high u v x y hu hv _ rest ih =>
    rw [getLast?_append_iff, getLast?_append_iff, ih]
    simp only [hu.getLast?_ne ascii, hv.getLast?_ne ascii, and_false]

end PassCompiler.Utf8
