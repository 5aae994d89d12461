import PassCompiler.Proofs.Text.Valid
import PassCompiler.Text.Quoted

/-! Texts whose end shows without what follows them: quoted texts, and lists of such texts between
brackets. Numbers are such texts only in front of a byte that is no digit. -/
namespace PassCompiler

variable {α : Type} {P : α → Prop} {write : α → Bytes}

/-- What is written for a value is no proper beginning of what is written for another one. -/
def PrefixFree (P : α → Prop) (write : α → Bytes) : Prop :=
  ∀ a b, P a → P b → ∀ r r', write a ++ r = write b ++ r' → a = b ∧ r = r'

/-- A run of bytes of one kind ends where a byte of another kind stands. -/
theorem Bytes.run_inj {p : UInt8 → Bool} {x y r r' : Bytes} {c : UInt8} (hx : ∀ b ∈ x, p b = true)
    (hy : ∀ b ∈ y, p b = true) (hc : p c = false) (same : x ++ c :: r = y ++ c :: r') :
    x = y ∧ r = r' := by
  induction x generalizing y with
  | nil =>
    cases y with
    | nil => exact ⟨rfl, (List.cons.inj same).2⟩
    | cons b y =>
      obtain ⟨rfl, _⟩ := List.cons.inj same
      rw [hy _ List.mem_cons_self] at hc
      contradiction
  | cons a x ih =>
    cases y with
    | nil =>
      obtain ⟨rfl, _⟩ := List.cons.inj same
      rw [hx _ List.mem_cons_self] at hc
      contradiction
    | cons b y =>
      obtain ⟨rfl, later⟩ := List.cons.inj same
      obtain ⟨rfl, rest⟩ := ih (fun b hb => hx b (List.mem_cons_of_mem _ hb))
        (fun b hb => hy b (List.mem_cons_of_mem _ hb)) later
      exact ⟨rfl, rest⟩

/-- Numbers written in some base, by digits that differ. -/
structure Positional (base : Nat) (digit : Nat → UInt8) (write : Nat → Bytes) : Prop where
  several : 1 < base
  digits : ∀ m < base, ∀ n < base, digit m = digit n → m = n
  written : ∀ n, write n = if n < base then [digit n] else write (n / base) ++ [digit (n % base)]

namespace Positional

variable {base : Nat} {digit : Nat → UInt8} {write : Nat → Bytes}
  (h : Positional base digit write)
include h

theorem ne_nil (n : Nat) : write n ≠ [] := by
  rw [h.written]
  split <;> simp

theorem forall_mem {p : UInt8 → Bool} (all : ∀ n < base, p (digit n) = true) (n : Nat) :
    ∀ b ∈ write n, p b = true := by
  have pos := h.several
  induction n using Nat.strongRecOn with
  | ind n ih =>
    rw [h.written]
    split
    · next small => simpa using all n small
    · rw [List.forall_mem_append, List.forall_mem_singleton]
      exact ⟨ih _ (Nat.div_lt_self (by omega) pos), all _ (Nat.mod_lt _ (by omega))⟩

theorem inj {m n : Nat} (same : write m = write n) : m = n := by
  have pos := h.several
  induction m using Nat.strongRecOn generalizing n with
  | ind m ih =>
    rw [h.written m, h.written n] at same
    split at same <;> split at same
    · next small small' => exact h.digits m small n small' (List.cons.inj same).1
    · have single : [] ++ [digit m] = write (n / base) ++ [digit (n % base)] := same
      exact absurd (List.append_inj' single rfl).1.symm (h.ne_nil _)
    · have single : write (m / base) ++ [digit (m % base)] = [] ++ [digit n] := same
      exact absurd (List.append_inj' single rfl).1 (h.ne_nil _)
    · obtain ⟨rest, last⟩ := List.append_inj' same rfl
      have high := ih _ (Nat.div_lt_self (by omega) pos) rest
      have low := h.digits _ (Nat.mod_lt _ (by omega)) _ (Nat.mod_lt _ (by omega))
        (List.cons.inj last).1
      rw [← Nat.div_add_mod m base, ← Nat.div_add_mod n base, high, low]

end Positional

theorem Bytes.positional_ofNat : Positional 10 (0x30 + ·.toUInt8) ofNat where
  several := by decide
  digits := by decide
  written n := by
    conv_lhs => rw [ofNat]

namespace Quoted

theorem positional_hexadecimal : Positional 16 Bytes.hexDigit hexadecimal where
  several := by decide
  digits := by decide
  written n := by
    conv_lhs => rw [hexadecimal]

theorem utf8EncodeChar_inj {c d : Char} {r r' : Bytes}
    (same : String.utf8EncodeChar c ++ r = String.utf8EncodeChar d ++ r') : c = d ∧ r = r' := by
  have arrays := congrArg List.toByteArray same
  rw [List.toByteArray_append, List.toByteArray_append] at arrays
  have decoded := congrArg (ByteArray.utf8DecodeChar? · 0) arrays
  simp only [ByteArray.utf8DecodeChar?_utf8EncodeChar_append] at decoded
  obtain rfl := Option.some.inj decoded
  exact ⟨rfl, List.append_cancel_left same⟩

/-- A character in front of a text that an ASCII byte begins. -/
theorem eq_of_ascii {b : UInt8} (ascii : b < 0x80) {d : Char} {r r' : Bytes}
    (same : b :: r = String.utf8EncodeChar d ++ r') : d = Char.ofNat b.toNat := by
  rw [← List.singleton_append, ← Utf8.encode_one ascii] at same
  exact (utf8EncodeChar_inj same).1.symm

def short : List (Char × UInt8) :=
  [('"', 0x22), ('\\', 0x5C), ('\n', 0x6E), ('\r', 0x72), ('\t', 0x74), ('\x00', 0x30)]

/-- How a character is written. -/
inductive Escaped (c : Char) : Bytes → Prop
  | short {b : UInt8} : (c, b) ∈ short → Escaped c [0x5C, b]
  | plain : c ≠ '\\' → c ≠ '"' → Escaped c (String.utf8EncodeChar c)
  | long : Escaped c (0x5C :: 0x75 :: 0x7B :: (hexadecimal c.toNat ++ [0x7D]))

theorem escaped (c : Char) : Escaped c (escape c) := by
  unfold escape
  split
  case h_7 =>
    next quote backslash _ _ _ _ =>
    split
    · exact .plain backslash quote
    · exact .long
  all_goals exact .short (by decide)

theorem escape_prefixFree : PrefixFree (fun _ => True) escape := by
  -- The second byte tells the short forms from each other and from the long one.
  have shorts : ∀ x ∈ short, x.2 ≠ 0x75 ∧ ∀ y ∈ short, x.2 = y.2 → x.1 = y.1 := by decide
  have brace : ∀ n, ∀ b ∈ hexadecimal n, (b != 0x7D) = true :=
    positional_hexadecimal.forall_mem (by decide)
  have plain {d : Char} {r r' : Bytes} (ne : d ≠ '\\') :
      0x5C :: r ≠ String.utf8EncodeChar d ++ r' := fun same =>
    ne (eq_of_ascii (by decide) same)
  intro c d _ _ r r' same
  have first := escaped c
  have second := escaped d
  generalize escape c = x at first same
  generalize escape d = y at second same
  cases first with
  | short hc =>
    cases second with
    | short hd =>
      obtain ⟨byte, rest⟩ := List.cons.inj (List.cons.inj same).2
      exact ⟨(shorts _ hc).2 _ hd byte, rest⟩
    | plain ne _ => exact absurd same (plain ne)
    | long => exact absurd (List.cons.inj (List.cons.inj same).2).1 (shorts _ hc).1
  | plain ne _ =>
    cases second with
    | short _ => exact absurd same.symm (plain ne)
    | plain _ _ => exact utf8EncodeChar_inj same
    | long => exact absurd same.symm (plain ne)
  | long =>
    cases second with
    | short hd => exact absurd (List.cons.inj (List.cons.inj same).2).1.symm (shorts _ hd).1
    | plain ne _ => exact absurd same (plain ne)
    | long =>
      simp only [List.cons_append, List.cons.injEq, true_and, List.append_assoc,
        List.nil_append] at same
      obtain ⟨digits, rest⟩ := Bytes.run_inj (brace _) (brace _) (by decide) same
      exact ⟨Char.toNat_inj.mp (positional_hexadecimal.inj digits), rest⟩

theorem escape_ne_quote (c : Char) (r r' : Bytes) : escape c ++ r ≠ 0x22 :: r' := by
  intro same
  have form := escaped c
  generalize escape c = x at form same
  cases form with
  | short | long => exact absurd (List.cons.inj same).1 (by decide)
  | plain _ ne => exact ne (eq_of_ascii (by decide) same.symm)

/-- Characters up to the quote that ends them. -/
theorem chars_inj {cs ds : List Char} {r r' : Bytes}
    (same : cs.flatMap escape ++ 0x22 :: r = ds.flatMap escape ++ 0x22 :: r') :
    cs = ds ∧ r = r' := by
  induction cs generalizing ds with
  | nil =>
    cases ds with
    | nil => exact ⟨rfl, (List.cons.inj same).2⟩
    | cons d ds =>
      rw [List.flatMap_cons, List.append_assoc] at same
      exact absurd same.symm (escape_ne_quote d _ _)
  | cons c cs ih =>
    cases ds with
    | nil =>
      rw [List.flatMap_cons, List.append_assoc] at same
      exact absurd same (escape_ne_quote c _ _)
    | cons d ds =>
      rw [List.flatMap_cons, List.flatMap_cons, List.append_assoc, List.append_assoc] at same
      obtain ⟨rfl, later⟩ := escape_prefixFree c d trivial trivial _ _ same
      obtain ⟨rfl, rest⟩ := ih later
      exact ⟨rfl, rest⟩

theorem quote_prefixFree : PrefixFree (Utf8.isValid · = true) quote := by
  intro a b ha hb r r' same
  simp only [quote, List.append_assoc] at same
  obtain ⟨chars, rest⟩ := chars_inj (List.cons.inj same).2
  refine ⟨?_, rest⟩
  rw [← Utf8.repair_of_valid ha, ← Utf8.repair_of_valid hb, Utf8.repair, Utf8.repair, chars]

end Quoted

theorem intercalate_cons {α : Type} (separator x : List α) (xs : List (List α)) :
    separator.intercalate (x :: xs) = x ++ xs.flatMap (separator ++ ·) := by
  induction xs generalizing x with
  | nil => simp
  | cons y ys ih =>
    rw [List.intercalate_cons_cons, ih, List.flatMap_cons, List.append_assoc, List.append_assoc]

theorem Bytes.join_cons (separator x : Bytes) (xs : List Bytes) :
    join separator (x :: xs) = x ++ xs.flatMap (separator ++ ·) :=
  intercalate_cons separator x xs

section
variable (h : PrefixFree P write) {close : UInt8} {as bs : List α} {r r' : Bytes}
include h

/-- Members with a comma and a space before each, in front of the byte that closes the list. -/
theorem PrefixFree.flatMap_inj (comma : close ≠ 0x2C) (has : ∀ a ∈ as, P a) (hbs : ∀ b ∈ bs, P b)
    (same : (as.map write).flatMap (bytes ", " ++ ·) ++ close :: r =
      (bs.map write).flatMap (bytes ", " ++ ·) ++ close :: r') : as = bs ∧ r = r' := by
  induction as generalizing bs with
  | nil =>
    cases bs with
    | nil => exact ⟨rfl, (List.cons.inj same).2⟩
    | cons b bs => exact absurd (List.cons.inj same).1 comma
  | cons a as ih =>
    cases bs with
    | nil => exact absurd (List.cons.inj same).1.symm comma
    | cons b bs =>
      simp only [List.map_cons, List.flatMap_cons, List.append_assoc] at same
      obtain ⟨ha, left⟩ := List.forall_mem_cons.mp has
      obtain ⟨hb, right⟩ := List.forall_mem_cons.mp hbs
      obtain ⟨rfl, later⟩ := h a b ha hb _ _ (List.append_cancel_left same)
      obtain ⟨rfl, rest⟩ := ih left right later
      exact ⟨rfl, rest⟩

/-- A list in brackets can be told from another one if its members can. -/
theorem PrefixFree.join_inj (comma : close ≠ 0x2C)
    (starts : ∀ a, P a → ∀ r r', write a ++ r ≠ close :: r') (has : ∀ a ∈ as, P a)
    (hbs : ∀ b ∈ bs, P b) (same : Bytes.join (bytes ", ") (as.map write) ++ close :: r =
      Bytes.join (bytes ", ") (bs.map write) ++ close :: r') : as = bs ∧ r = r' := by
  cases as with
  | nil =>
    cases bs with
    | nil => exact ⟨rfl, (List.cons.inj same).2⟩
    | cons b bs =>
      rw [List.map_cons, Bytes.join_cons, List.append_assoc] at same
      exact absurd same.symm (starts b (hbs b List.mem_cons_self) _ _)
  | cons a as =>
    cases bs with
    | nil =>
      rw [List.map_cons, Bytes.join_cons, List.append_assoc] at same
      exact absurd same (starts a (has a List.mem_cons_self) _ _)
    | cons b bs =>
      rw [List.map_cons, List.map_cons, Bytes.join_cons, Bytes.join_cons, List.append_assoc,
        List.append_assoc] at same
      obtain ⟨ha, left⟩ := List.forall_mem_cons.mp has
      obtain ⟨hb, right⟩ := List.forall_mem_cons.mp hbs
      obtain ⟨rfl, later⟩ := h a b ha hb _ _ same
      obtain ⟨rfl, rest⟩ := h.flatMap_inj comma left right later
      exact ⟨rfl, rest⟩

end

theorem PrefixFree.listed (h : PrefixFree P write)
    (starts : ∀ a, P a → ∀ r r', write a ++ r ≠ 0x5D :: r') :
    PrefixFree (fun as : List α => ∀ a ∈ as, P a) fun as =>
      Record.listed "[" "]" (as.map write) := by
  intro as bs has hbs r r' same
  simp only [Record.listed, List.append_assoc] at same
  exact h.join_inj (by decide) starts has hbs (List.append_cancel_left same)

end PassCompiler
