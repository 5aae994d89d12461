import Mathlib.Algebra.Group.Nat.Defs
import PassCompiler.Preprocess
import PassCompiler.Proofs.Text.PrefixFree

/-! What the digest is taken of has no separators: the source, a byte for the frames and the
settings. It can still be taken apart, from its end: the settings begin with a letter that no
settings have anywhere else outside their quotes. -/
namespace PassCompiler

/-- Where a reader of settings stands: between quotes or not, behind a backslash or not. -/
structure Quotes where
  inside : Bool
  escaped : Bool
  deriving DecidableEq, Repr

namespace Quotes

def step (q : Quotes) (b : UInt8) : Quotes :=
  if q.escaped then { q with escaped := false }
  else if b == 0x5C then { q with escaped := true }
  else if b == 0x22 then { q with inside := !q.inside }
  else q

def behind (q : Quotes) (x : Bytes) : Quotes := x.foldl step q

/-- The first letter of settings stands between quotes wherever it occurs. -/
def Hides (q : Quotes) : Bytes → Prop
  | [] => True
  | b :: x => (b = 0x43 → q.inside = true) ∧ (q.step b).Hides x

/-- A part of settings: its quotes are closed, as they are if one reads on from between quotes. -/
structure Shut (x : Bytes) : Prop where
  behind : ∀ inside, Quotes.behind ⟨inside, false⟩ x = ⟨inside, false⟩
  hides : Hides ⟨false, false⟩ x

variable {q : Quotes} {x y : Bytes}

theorem behind_append : q.behind (x ++ y) = (q.behind x).behind y := List.foldl_append

theorem hides_append : q.Hides (x ++ y) ↔ q.Hides x ∧ (q.behind x).Hides y := by
  induction x generalizing q with
  | nil => simp [Hides, behind]
  | cons b x ih =>
    rw [List.cons_append, Hides, Hides, ih, and_assoc]
    rfl

theorem Shut.append (hx : Shut x) (hy : Shut y) : Shut (x ++ y) where
  behind inside := by rw [behind_append, hx.behind, hy.behind]
  hides := hides_append.mpr ⟨hx.hides, by rw [hx.behind]; exact hy.hides⟩

theorem shut_nil : Shut [] := ⟨fun _ => rfl, trivial⟩

/-- Bytes that neither open nor close quotes. -/
theorem behind_plain (plain : ∀ b ∈ x, b ≠ 0x5C ∧ b ≠ 0x22) {inside : Bool} :
    Quotes.behind ⟨inside, false⟩ x = ⟨inside, false⟩ := by
  induction x with
  | nil => rfl
  | cons b x ih =>
    obtain ⟨⟨backslash, quote⟩, later⟩ := List.forall_mem_cons.mp plain
    have same : step ⟨inside, false⟩ b = ⟨inside, false⟩ := by simp [step, backslash, quote]
    rw [behind, List.foldl_cons, same]
    exact ih later

theorem hides_plain (plain : ∀ b ∈ x, b ≠ 0x5C ∧ b ≠ 0x22) {inside : Bool}
    (letter : 0x43 ∈ x → inside = true) : Hides ⟨inside, false⟩ x := by
  induction x with
  | nil => trivial
  | cons b x ih =>
    obtain ⟨⟨backslash, quote⟩, later⟩ := List.forall_mem_cons.mp plain
    have same : step ⟨inside, false⟩ b = ⟨inside, false⟩ := by simp [step, backslash, quote]
    rw [Hides, same]
    exact ⟨fun h => letter (by simp [h]), ih later fun h => letter (List.mem_cons_of_mem _ h)⟩

theorem shut_plain (plain : ∀ b ∈ x, b ≠ 0x5C ∧ b ≠ 0x22 ∧ b ≠ 0x43) : Shut x where
  behind _ := behind_plain fun b hb => ⟨(plain b hb).1, (plain b hb).2.1⟩
  hides := hides_plain (fun b hb => ⟨(plain b hb).1, (plain b hb).2.1⟩)
    fun h => absurd rfl (plain _ h).2.2

theorem mem_utf8EncodeChar {c : Char} {b : UInt8} (h : b ∈ String.utf8EncodeChar c) :
    0x80 ≤ b ∨ String.utf8EncodeChar c = [b] := by
  have high {n : Nat} (low : 0x80 ≤ n) (lt : n < 256) : (0x80 : UInt8) ≤ UInt8.ofNat n := by
    rw [UInt8.le_iff_toNat_le, UInt8.toNat_ofNat', Nat.mod_eq_of_lt lt]
    exact low
  unfold String.utf8EncodeChar at h ⊢
  dsimp only at h ⊢
  by_cases one : c.val.toNat ≤ 0x7F
  · rw [if_pos one, List.mem_singleton] at h
    rw [if_pos one, h]
    exact .inr rfl
  · left
    rw [if_neg one] at h
    split at h
    · simp only [List.mem_cons, List.not_mem_nil, or_false] at h
      rcases h with rfl | rfl <;> exact high (by omega) (by omega)
    · split at h <;> simp only [List.mem_cons, List.not_mem_nil, or_false] at h
      · rcases h with rfl | rfl | rfl <;> exact high (by omega) (by omega)
      · rcases h with rfl | rfl | rfl | rfl <;> exact high (by omega) (by omega)

/-- A plain character has no quote and no backslash in it. -/
theorem plain_of_ne {c : Char} (backslash : c ≠ '\\') (quote : c ≠ '"') :
    ∀ b ∈ String.utf8EncodeChar c, b ≠ 0x5C ∧ b ≠ 0x22 := by
  intro b hb
  have other {a : UInt8} (ascii : a < 0x80) (ne : c ≠ Char.ofNat a.toNat) : b ≠ a := by
    rintro rfl
    rcases mem_utf8EncodeChar hb with high | single
    · exact absurd ascii (UInt8.not_lt.mpr high)
    · have whole : b :: [] = String.utf8EncodeChar c ++ [] := by rw [single, List.append_nil]
      exact ne (Quoted.eq_of_ascii ascii whole)
  exact ⟨other (by decide) backslash, other (by decide) quote⟩

theorem hexadecimal_plain (n : Nat) : ∀ b ∈ Quoted.hexadecimal n, b ≠ 0x5C ∧ b ≠ 0x22 := by
  have all := Quoted.positional_hexadecimal.forall_mem (p := fun b => b != 0x5C && b != 0x22)
    (by decide) n
  intro b hb
  simpa using all b hb

/-- A character leaves quotes as they were. -/
theorem behind_escape (c : Char) (inside : Bool) :
    Quotes.behind ⟨inside, false⟩ (Quoted.escape c) = ⟨inside, false⟩ := by
  have form := Quoted.escaped c
  generalize Quoted.escape c = x at form
  cases form with
  | short _ => rfl
  | plain backslash quote => exact behind_plain (plain_of_ne backslash quote)
  | long =>
    change Quotes.behind ⟨inside, false⟩ (0x7B :: (Quoted.hexadecimal c.toNat ++ [0x7D])) = _
    apply behind_plain
    simp only [List.forall_mem_cons, List.forall_mem_append]
    exact ⟨by decide, hexadecimal_plain _, by decide, nofun⟩

theorem hides_escape (c : Char) : Hides ⟨true, false⟩ (Quoted.escape c) := by
  have form := Quoted.escaped c
  generalize Quoted.escape c = x at form
  cases form with
  | short _ => exact ⟨fun _ => rfl, fun _ => rfl, trivial⟩
  | plain backslash quote => exact hides_plain (plain_of_ne backslash quote) fun _ => rfl
  | long =>
    refine ⟨fun _ => rfl, fun _ => rfl, ?_⟩
    change Hides ⟨true, false⟩ (0x7B :: (Quoted.hexadecimal c.toNat ++ [0x7D]))
    refine hides_plain ?_ fun _ => rfl
    simp only [List.forall_mem_cons, List.forall_mem_append]
    exact ⟨by decide, hexadecimal_plain _, by decide, nofun⟩

theorem shut_quote (text : Bytes) : Shut (Quoted.quote text) := by
  have keeps (cs : List Char) (inside : Bool) :
      Quotes.behind ⟨inside, false⟩ (cs.flatMap Quoted.escape) = ⟨inside, false⟩ := by
    induction cs with
    | nil => rfl
    | cons c cs ih => rw [List.flatMap_cons, behind_append, behind_escape, ih]
  have hides (cs : List Char) : Hides ⟨true, false⟩ (cs.flatMap Quoted.escape) := by
    induction cs with
    | nil => trivial
    | cons c cs ih =>
      rw [List.flatMap_cons, hides_append, behind_escape]
      exact ⟨hides_escape c, ih⟩
  constructor
  · intro inside
    rw [Quoted.quote, behind_append, behind_append]
    change Quotes.behind (Quotes.behind ⟨!inside, false⟩ _) [0x22] = _
    rw [keeps]
    cases inside <;> rfl
  · rw [Quoted.quote, List.append_assoc, hides_append]
    change _ ∧ Hides ⟨true, false⟩ _
    rw [hides_append, keeps]
    exact ⟨⟨fun h => absurd h (by decide), trivial⟩, hides _, fun _ => rfl, trivial⟩

theorem shut_ofNat (n : Nat) : Shut (Bytes.ofNat n) := by
  have all := Bytes.positional_ofNat.forall_mem
    (p := fun b => b != 0x5C && (b != 0x22 && b != 0x43)) (by decide) n
  exact shut_plain fun b hb => by simpa using all b hb

theorem shut_join {separator : Bytes} {parts : List Bytes} (shut : Shut separator)
    (all : ∀ x ∈ parts, Shut x) : Shut (Bytes.join separator parts) := by
  cases parts with
  | nil => exact shut_nil
  | cons x xs =>
    obtain ⟨first, later⟩ := List.forall_mem_cons.mp all
    rw [Bytes.join_cons]
    refine first.append ?_
    clear all
    induction xs with
    | nil => exact shut_nil
    | cons y ys ih =>
      obtain ⟨next, rest⟩ := List.forall_mem_cons.mp later
      exact (shut.append next).append (ih rest)

theorem shut_listed {opening closing : String} {parts : List Bytes} (first : Shut (bytes opening))
    (last : Shut (bytes closing)) (all : ∀ x ∈ parts, Shut x) :
    Shut (Record.listed opening closing parts) :=
  (first.append (shut_join (shut_plain (by decide)) all)).append last

end Quotes

namespace Options

theorem fields_eq (name : String) (members : List (String × Bytes)) :
    Record.fields name members = bytes name ++ (bytes " \x7b " ++
      (Bytes.join (bytes ", ") (members.map fun (key, value) => bytes key ++ bytes ": " ++ value) ++
        bytes " \x7d")) := by
  simp only [Record.fields, Record.listed, List.append_assoc]

open Quotes

/-- Settings begin with a letter, and have no other one of its kind outside their quotes. -/
theorem exists_shut (o : Options) : ∃ rest, o.describe = 0x43 :: rest ∧ Shut rest := by
  have key (k : String) (plain : ∀ b ∈ bytes k, b ≠ 0x5C ∧ b ≠ 0x22 ∧ b ≠ 0x43) {value : Bytes}
      (h : Shut value) : Shut (bytes k ++ bytes ": " ++ value) :=
    ((shut_plain plain).append (shut_plain (by decide))).append h
  have flag : Shut (bytes (if o.overwrite then "true" else "false")) := by
    cases o.overwrite <;> exact shut_plain (by decide)
  have includes : Shut (Record.listed "[" "]" (o.includes.map Quoted.quote)) :=
    shut_listed (shut_plain (by decide)) (shut_plain (by decide))
      (List.forall_mem_map.mpr fun x _ => shut_quote x)
  have calls : Shut (Record.listed "[" "]" (o.calls.map fun call =>
      Record.listed "(" ")" [Quoted.quote call.1, Bytes.ofNat call.2])) :=
    shut_listed (shut_plain (by decide)) (shut_plain (by decide))
      (List.forall_mem_map.mpr fun x _ => shut_listed (shut_plain (by decide))
        (shut_plain (by decide)) (List.forall_mem_cons.mpr ⟨shut_quote _,
          List.forall_mem_cons.mpr ⟨shut_ofNat _, List.forall_mem_nil _⟩⟩))
  refine ⟨_, rfl, (shut_plain (x := bytes "ompileOptions") (by decide)).append
    (shut_listed (shut_plain (by decide)) (shut_plain (by decide)) ?_)⟩
  simp only [List.map_cons, List.map_nil, List.forall_mem_cons]
  exact ⟨key _ (by decide) (shut_quote _), key _ (by decide) (shut_quote _),
    key _ (by decide) (shut_quote _), key _ (by decide) (shut_quote _),
    key _ (by decide) (shut_quote _), key _ (by decide) includes, key _ (by decide) flag,
    key _ (by decide) calls, List.forall_mem_nil _⟩

/-- No settings end with other settings. -/
theorem eq_nil_of_describe {o o' : Options} {x : Bytes}
    (same : x ++ o.describe = o'.describe) : x = [] := by
  obtain ⟨rest, first, shut⟩ := o.exists_shut
  obtain ⟨rest', second, shut'⟩ := o'.exists_shut
  rw [first, second] at same
  cases x with
  | nil => rfl
  | cons b x =>
    have split : x ++ 0x43 :: rest = rest' := (List.cons.inj same).2
    rw [← split] at shut'
    -- The inner settings would begin between quotes, so the outer ones would end between quotes.
    have inside := (hides_append.mp shut'.hides).2.1 rfl
    have closed := shut'.behind false
    rw [behind_append] at closed
    generalize Quotes.behind ⟨false, false⟩ x = q at inside closed
    have begun : q.step 0x43 = ⟨true, false⟩ := by
      obtain ⟨_, escaped⟩ := q
      obtain rfl : _ = true := inside
      cases escaped <;> rfl
    have ends : Quotes.behind (q.step 0x43) rest = ⟨false, false⟩ := closed
    rw [begun, shut.behind] at ends
    contradiction

theorem flag_prefixFree : PrefixFree (fun _ => True)
    fun b : Bool => bytes (if b then "true" else "false") := by
  intro a b _ _ r r' same
  cases a <;> cases b
  · exact ⟨rfl, List.append_cancel_left same⟩
  · exact absurd (List.cons.inj same).1 (by decide)
  · exact absurd (List.cons.inj same).1 (by decide)
  · exact ⟨rfl, List.append_cancel_left same⟩

def describeCall (call : Bytes × Nat) : Bytes :=
  Record.listed "(" ")" [Quoted.quote call.1, Bytes.ofNat call.2]

theorem describeCall_prefixFree :
    PrefixFree (fun call => Utf8.isValid call.1 = true) describeCall := by
  rintro ⟨name, index⟩ ⟨name', index'⟩ valid valid' r r' same
  have digits (n : Nat) := Bytes.positional_ofNat.forall_mem (p := Bytes.isDigit) (by decide) n
  simp only [describeCall, Record.listed, Bytes.join, List.intercalate_cons_cons,
    List.intercalate_singleton, List.append_assoc] at same
  obtain ⟨rfl, later⟩ := Quoted.quote_prefixFree _ _ valid valid' _ _ (List.append_cancel_left same)
  obtain ⟨number, rest⟩ := Bytes.run_inj (digits index) (digits index') (by decide)
    (List.append_cancel_left later)
  exact ⟨by rw [Bytes.positional_ofNat.inj number], rest⟩

def Valid (o : Options) : Prop := ∀ text ∈ o.texts, Utf8.isValid text = true

instance (o : Options) : Decidable o.Valid := inferInstanceAs (Decidable (∀ _ ∈ _, _))

/-- Settings that are written alike are the same. -/
theorem describe_inj {o o' : Options} (valid : o.Valid) (valid' : o'.Valid)
    (same : o.describe = o'.describe) : o = o' := by
  simp only [Valid, texts, List.forall_mem_append, List.forall_mem_cons, List.forall_mem_map]
    at valid valid'
  obtain ⟨⟨⟨context, frame, pool, device, primary, _⟩, includes⟩, calls⟩ := valid
  obtain ⟨⟨⟨context', frame', pool', device', primary', _⟩, includes'⟩, calls'⟩ := valid'
  obtain ⟨_, _, _, _, _, _, _, _⟩ := o
  obtain ⟨_, _, _, _, _, _, _, _⟩ := o'
  -- The fields one after the other, from the first to the last.
  simp only [describe, fields_eq, List.map_cons, List.map_nil, Bytes.join_cons, List.flatMap_cons,
    List.flatMap_nil, List.append_assoc, List.append_cancel_left_eq] at same
  obtain ⟨rfl, same⟩ := Quoted.quote_prefixFree _ _ context context' _ _ same
  simp only [List.append_cancel_left_eq] at same
  obtain ⟨rfl, same⟩ := Quoted.quote_prefixFree _ _ frame frame' _ _ same
  simp only [List.append_cancel_left_eq] at same
  obtain ⟨rfl, same⟩ := Quoted.quote_prefixFree _ _ pool pool' _ _ same
  simp only [List.append_cancel_left_eq] at same
  obtain ⟨rfl, same⟩ := Quoted.quote_prefixFree _ _ device device' _ _ same
  simp only [List.append_cancel_left_eq] at same
  obtain ⟨rfl, same⟩ := Quoted.quote_prefixFree _ _ primary primary' _ _ same
  simp only [List.append_cancel_left_eq] at same
  obtain ⟨rfl, same⟩ := (Quoted.quote_prefixFree.listed fun _ _ _ _ h =>
    absurd (List.cons.inj h).1 (by decide)) _ _ includes includes' _ _ same
  simp only [List.append_cancel_left_eq] at same
  obtain ⟨rfl, same⟩ := flag_prefixFree _ _ trivial trivial _ _ same
  simp only [List.append_cancel_left_eq] at same
  obtain ⟨rfl, _⟩ := (describeCall_prefixFree.listed fun _ _ _ _ h =>
    absurd (List.cons.inj h).1 (by decide)) _ _ calls calls' _ _ same
  rfl

end Options

theorem Bytes.firstLine?_append {line rest : Bytes} (h : ∀ b ∈ line, 0x20 ≤ b) :
    firstLine? (line ++ 0x0A :: rest) = some line := by
  have other : ∀ b ∈ line, (b != 0x0A) = true := by
    intro b member
    refine bne_iff_ne.mpr fun same => ?_
    exact absurd (h b member) (by rw [same]; decide)
  have taken : (line ++ 0x0A :: rest).takeWhile (· != 0x0A) = line := by
    rw [List.takeWhile_append_of_pos other, List.takeWhile_cons_of_neg (by simp), List.append_nil]
  have last : (line.getLast? == some 0x0D) = false := by
    refine beq_eq_false_iff_ne.mpr fun same => ?_
    exact absurd (h _ (List.mem_of_getLast? same)) (by decide)
  simp [firstLine?, taken, last]

namespace Banner

theorem frames_inj {f f' : Frames} (same : f.count.toUInt8 = f'.count.toUInt8) : f = f' := by
  have numbers := congrArg UInt8.toNat same
  have le := f.le
  have le' := f'.le
  simp only [Nat.toUInt8, UInt8.toNat_ofNat'] at numbers
  rw [Frames.mk.injEq]
  omega

theorem input_inj {source source' : Bytes} {f f' : Frames} {o o' : Options} (valid : o.Valid)
    (valid' : o'.Valid) (same : input source f o = input source' f' o') :
    source = source' ∧ f = f' ∧ o = o' := by
  unfold input at same
  have settings : o.describe = o'.describe := by
    rcases List.append_eq_append_iff.mp same with ⟨x, _, split⟩ | ⟨x, _, split⟩
    · rw [split, Options.eq_nil_of_describe split.symm, List.nil_append]
    · rw [split, Options.eq_nil_of_describe split.symm, List.nil_append]
  rw [settings] at same
  obtain ⟨rfl, frame⟩ := List.append_inj' (List.append_cancel_right same) rfl
  exact ⟨rfl, frames_inj (List.cons.inj frame).1, Options.describe_inj valid valid' settings⟩

theorem hexadecimal_inj {m n width : Nat} (same : hexadecimal m width = hexadecimal n width) :
    m % 16 ^ width = n % 16 ^ width := by
  induction width generalizing m n with
  | zero => simp [Nat.mod_one]
  | succ width ih =>
    obtain ⟨rest, last⟩ := List.append_inj' same rfl
    have high := ih rest
    have low := Quoted.positional_hexadecimal.digits _ (Nat.mod_lt m (by decide)) _
      (Nat.mod_lt n (by decide)) (List.cons.inj last).1
    rw [Nat.pow_succ', Nat.mod_mul, Nat.mod_mul, high, low]

theorem forall_mem_hexadecimal {p : UInt8 → Prop} (digits : ∀ m < 16, p (Bytes.hexDigit m))
    (n width : Nat) : ∀ b ∈ hexadecimal n width, p b := by
  induction width generalizing n with
  | zero => nofun
  | succ width ih =>
    exact List.forall_mem_append.mpr
      ⟨ih _, List.forall_mem_singleton.mpr (digits _ (Nat.mod_lt n (by decide)))⟩

/-- A banner is a line of ASCII text: no byte of it ends one. -/
theorem line_printable (source : Bytes) (f : Frames) (o : Options) :
    ∀ b ∈ line source f o, 0x20 ≤ b ∧ b < 0x80 :=
  List.forall_mem_append.mpr ⟨by decide, forall_mem_hexadecimal (by decide) _ _⟩

theorem line_ge (source : Bytes) (f : Frames) (o : Options) : ∀ b ∈ line source f o, 0x20 ≤ b :=
  fun b member => (line_printable source f o b member).1

theorem line_eq_iff {source source' : Bytes} {f f' : Frames} {o o' : Options} :
    line source f o = line source' f' o' ↔
      Xxh3.digest (input source f o) = Xxh3.digest (input source' f' o') := by
  constructor
  · intro same
    have digits := hexadecimal_inj (List.append_cancel_left same)
    have bound (x : UInt64) : x.toNat % 16 ^ 16 = x.toNat := Nat.mod_eq_of_lt x.toNat_lt
    rw [bound, bound] at digits
    exact UInt64.toNat_inj.mp digits
  · intro same
    rw [line, line, same]

/-- What is digested for two compilations is the same only if they are, and so is the banner unless
the digest itself collides. -/
theorem unambiguous (source source' : Bytes) (f f' : Frames) {o o' : Options} (valid : o.Valid)
    (valid' : o'.Valid) :
    (input source f o = input source' f' o' ↔ source = source' ∧ f = f' ∧ o = o') ∧
      (line source f o = line source' f' o' ↔ (source = source' ∧ f = f' ∧ o = o') ∨
        input source f o ≠ input source' f' o' ∧
          Xxh3.digest (input source f o) = Xxh3.digest (input source' f' o')) := by
  have inputs : input source f o = input source' f' o' ↔ source = source' ∧ f = f' ∧ o = o' := by
    constructor
    · exact input_inj valid valid'
    · rintro ⟨rfl, rfl, rfl⟩
      rfl
  refine ⟨inputs, ?_⟩
  rw [line_eq_iff, ← inputs]
  by_cases same : input source f o = input source' f' o' <;> simp [same]

/-- A source that is all that the digest of another compilation is taken of. -/
theorem unambiguous_imitated :
    let o : Options := { contextParam := bytes "CompileOptions \x7b context_param: \"" }
    input (input [] .standard o) .standard {} ≠ input [] .standard o := by
  intro o same
  have sources := ((unambiguous _ _ _ _ (by decide +kernel) (by decide +kernel)).1.mp same).1
  exact absurd sources (by decide +kernel)

end Banner
end PassCompiler
