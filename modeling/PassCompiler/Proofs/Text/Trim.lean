import Mathlib.Data.List.DropRight
import Mathlib.Data.List.Find
import PassCompiler.Text.Blank

/-! White space is trimmed off up to the first byte that belongs to none of its characters. Main
definition: `Trims`, what the two ways of trimming have in common. -/
namespace PassCompiler.Blank

/-- A byte of no white space character. -/
def Solid (b : UInt8) : Prop := ∀ p ∈ encoded, b ∉ p

instance (b : UInt8) : Decidable (Solid b) :=
  decidable_of_iff (encoded.all (!·.contains b) = true) (by simp [Solid])

variable {patterns : List Bytes} {b : UInt8}

theorem solid_of_isIdent (h : Bytes.isIdent b = true) : Solid b := by
  have others : ∀ p ∈ encoded, ∀ c ∈ p, Bytes.isIdent c = false := by decide
  intro p hp member
  rw [others p hp b member] at h
  contradiction

theorem isPrefixOf_append {p u v : Bytes} (outside : b ∉ p) :
    p.isPrefixOf (u ++ b :: v) = p.isPrefixOf u := by
  rw [Bool.eq_iff_iff, List.isPrefixOf_iff_prefix, List.isPrefixOf_iff_prefix]
  constructor
  · intro h
    rcases List.prefix_or_prefix_of_prefix h (List.prefix_append u (b :: v)) with short | long
    · exact short
    · obtain ⟨rest, rfl⟩ := long
      rw [List.prefix_append_right_inj] at h
      cases rest with
      | nil => simp
      | cons c rest =>
        obtain ⟨rfl, _⟩ := List.cons_prefix_cons.mp h
        simp at outside
  · intro h
    exact h.trans (List.prefix_append u _)

theorem dropLeading_append (outside : ∀ p ∈ patterns, b ∉ p) (u v : Bytes) :
    dropLeading patterns (u ++ b :: v) = dropLeading patterns u ++ b :: v := by
  have same (u : Bytes) : leading patterns (u ++ b :: v) = leading patterns u := by
    have agree : patterns.find? (·.isPrefixOf (u ++ b :: v)) = patterns.find? (·.isPrefixOf u) :=
      List.find?_congr fun p hp => isPrefixOf_append (outside p hp)
    simp only [leading, agree]
  have short (u : Bytes) : leading patterns u ≤ u.length := by
    unfold leading
    split
    · next p hp =>
      have starts : p.isPrefixOf u = true := by simpa using List.find?_some hp
      exact (List.isPrefixOf_iff_prefix.mp starts).length_le
    · exact Nat.zero_le _
  fun_induction dropLeading patterns u with
  | case1 u more ih =>
    rw [dropLeading, same, dif_pos ⟨more.1, by rw [List.length_append]; omega⟩,
      List.drop_append_of_le_length (short u), ih]
  | case2 u none =>
    have le := short u
    rw [dropLeading, same, dif_neg fun more => none ⟨more.1, by omega⟩]

theorem trimStart_append (solid : Solid b) (u v : Bytes) :
    trimStart (u ++ b :: v) = trimStart u ++ b :: v :=
  dropLeading_append solid u v

theorem trimEnd_append (solid : Solid b) (u v : Bytes) :
    trimEnd (u ++ b :: v) = u ++ b :: trimEnd v := by
  have outside : ∀ p ∈ encoded.map List.reverse, b ∉ p := by
    intro p hp
    obtain ⟨q, hq, rfl⟩ := List.mem_map.mp hp
    simpa using solid q hq
  simp only [trimEnd, List.reverse_append, List.reverse_cons, List.append_assoc,
    List.singleton_append, dropLeading_append outside, List.reverse_reverse]

theorem dropLeading_drops (patterns : List Bytes) (x : Bytes) :
    ∃ a, x = a ++ dropLeading patterns x ∧ ∀ b ∈ a, ∃ p ∈ patterns, b ∈ p := by
  fun_induction dropLeading patterns x with
  | case1 x more ih =>
    obtain ⟨a, same, inside⟩ := ih
    refine ⟨x.take (leading patterns x) ++ a, ?_, ?_⟩
    · rw [List.append_assoc, ← same, List.take_append_drop]
    · intro b hb
      rcases List.mem_append.mp hb with hb | hb
      · unfold leading at hb
        split at hb
        · next p hp =>
          have starts : p.isPrefixOf x = true := by simpa using List.find?_some hp
          rw [← List.prefix_iff_eq_take.mp (List.isPrefixOf_iff_prefix.mp starts)] at hb
          exact ⟨p, List.mem_of_find?_eq_some hp, hb⟩
        · simp at hb
      · exact inside b hb
  | case2 => exact ⟨[], rfl, by simp⟩

/-- A way of trimming: what is dropped off the front and what is dropped off the back. -/
structure Trims (trim front back : Bytes → Bytes) : Prop where
  both : ∀ x, trim x = back (front x)
  front_drops : ∀ x, ∃ a, x = a ++ front x ∧ ∀ b ∈ a, ¬ Solid b
  back_drops : ∀ x, ∃ a, x = back x ++ a ∧ ∀ b ∈ a, ¬ Solid b
  front_append : ∀ b, Solid b → ∀ u v, front (u ++ b :: v) = front u ++ b :: v
  back_append : ∀ b, Solid b → ∀ u v, back (u ++ b :: v) = u ++ b :: back v

theorem Trims.frame {trim front back : Bytes → Bytes} (trims : Trims trim front back)
    {o c : UInt8} (opener : Solid o) (closer : Solid c) (u v w : Bytes) :
    trim (u ++ o :: (v ++ c :: w)) = front u ++ o :: (v ++ c :: back w) := by
  have split : front u ++ o :: (v ++ c :: w) = (front u ++ o :: v) ++ c :: w := by simp
  rw [trims.both, trims.front_append o opener, split, trims.back_append c closer]
  simp

theorem Trims.eq_self {trim front back : Bytes → Bytes} (trims : Trims trim front back) {x : Bytes}
    (solid : ∀ b ∈ x, Solid b) : trim x = x := by
  have first : front x = x := by
    obtain ⟨a, split, loose⟩ := trims.front_drops x
    cases a with
    | nil => exact split.symm
    | cons b a => exact absurd (solid b (by rw [split]; simp)) (loose b List.mem_cons_self)
  obtain ⟨a, split, loose⟩ := trims.back_drops x
  rw [trims.both, first]
  cases a with
  | nil => simpa using split.symm
  | cons b a => exact absurd (solid b (by rw [split]; simp)) (loose b List.mem_cons_self)

theorem trims_trim : Trims trim trimStart trimEnd where
  both _ := rfl
  front_drops x := by
    obtain ⟨a, same, inside⟩ := dropLeading_drops encoded x
    refine ⟨a, same, ?_⟩
    intro b hb solid
    obtain ⟨p, hp, member⟩ := inside b hb
    exact solid p hp member
  back_drops x := by
    obtain ⟨a, same, inside⟩ := dropLeading_drops (encoded.map List.reverse) x.reverse
    refine ⟨a.reverse, ?_, ?_⟩
    · rw [trimEnd, ← List.reverse_append, ← same, List.reverse_reverse]
    · intro b hb solid
      obtain ⟨p, hp, member⟩ := inside b (List.mem_reverse.mp hb)
      obtain ⟨q, hq, rfl⟩ := List.mem_map.mp hp
      exact solid q hq (List.mem_reverse.mp member)
  front_append _ solid := trimStart_append solid
  back_append _ solid := trimEnd_append solid

theorem not_isSpace_of_solid (solid : Solid b) : Bytes.isSpace b = false := by
  by_contra space
  simp only [Bool.not_eq_false, Bytes.isSpace, Bytes.isBlank, Bool.or_eq_true, beq_iff_eq] at space
  rcases space with (((rfl | rfl) | rfl) | rfl) | rfl <;> exact absurd solid (by decide)

theorem dropWhile_append_cons {α : Type} {p : α → Bool} {b : α} (outside : p b = false)
    (u v : List α) : (u ++ b :: v).dropWhile p = u.dropWhile p ++ b :: v := by
  induction u with
  | nil => rw [List.nil_append, List.dropWhile_cons_of_neg (by simp [outside])]; rfl
  | cons a u ih =>
    rw [List.cons_append, List.dropWhile_cons, List.dropWhile_cons, ih]
    split <;> rfl

theorem trims_trimSpace :
    Trims Bytes.trimSpace (List.dropWhile Bytes.isSpace) (List.rdropWhile Bytes.isSpace) where
  both _ := rfl
  front_drops x := by
    refine ⟨x.takeWhile Bytes.isSpace, List.takeWhile_append_dropWhile.symm, ?_⟩
    intro b hb solid
    have space := List.mem_takeWhile_imp hb
    rw [not_isSpace_of_solid solid] at space
    contradiction
  back_drops x := by
    refine ⟨x.rtakeWhile Bytes.isSpace, List.rdropWhile_append_rtakeWhile.symm, ?_⟩
    intro b hb solid
    have space := List.mem_rtakeWhile_imp hb
    rw [not_isSpace_of_solid solid] at space
    contradiction
  front_append b solid u v := dropWhile_append_cons (not_isSpace_of_solid solid) u v
  back_append b solid u v := by
    simp only [List.rdropWhile, List.reverse_append, List.reverse_cons, List.append_assoc,
      List.singleton_append, dropWhile_append_cons (not_isSpace_of_solid solid),
      List.reverse_reverse]

/-- A text has nothing to trim off just if none of its ends is white space. -/
theorem trimSpace_eq_self_iff {x : Bytes} :
    Bytes.trimSpace x = x ↔
      ∀ b, x.head? = some b ∨ x.getLast? = some b → Bytes.isSpace b = false := by
  constructor
  · intro same
    have first : x.dropWhile Bytes.isSpace = x := by
      apply (List.dropWhile_suffix Bytes.isSpace).eq_of_length_le
      have short := (List.rdropWhile_prefix Bytes.isSpace (x.dropWhile Bytes.isSpace)).length_le
      rwa [← trims_trimSpace.both, same] at short
    have last : x.rdropWhile Bytes.isSpace = x := by
      rwa [trims_trimSpace.both, first] at same
    rintro b (head | tail)
    · have outside := List.head?_dropWhile_not Bytes.isSpace x
      rwa [first, head] at outside
    · have filled : x ≠ [] := by
        rintro rfl
        contradiction
      rw [List.getLast?_eq_some_getLast filled] at tail
      obtain rfl := Option.some.inj tail
      simpa using List.rdropWhile_eq_self_iff.mp last filled
  · intro ends
    have first : x.dropWhile Bytes.isSpace = x := by
      cases x with
      | nil => rfl
      | cons b x => exact List.dropWhile_cons_of_neg (by simp [ends b (.inl rfl)])
    have last : x.rdropWhile Bytes.isSpace = x :=
      List.rdropWhile_eq_self_iff.mpr fun filled => by
        simp [ends _ (.inr (List.getLast?_eq_some_getLast filled))]
    rw [trims_trimSpace.both, first, last]

theorem trimSpace_of_not_isSpace {x : Bytes} (h : ∀ b ∈ x, Bytes.isSpace b = false) :
    Bytes.trimSpace x = x :=
  trimSpace_eq_self_iff.mpr fun b ends =>
    h b (ends.elim List.mem_of_head? List.mem_of_getLast?)

theorem trimSpace_trimSpace (x : Bytes) :
    Bytes.trimSpace (Bytes.trimSpace x) = Bytes.trimSpace x := by
  obtain ⟨a, split, _⟩ := trims_trimSpace.back_drops (x.dropWhile Bytes.isSpace)
  have head := List.head?_dropWhile_not Bytes.isSpace x
  rw [trims_trimSpace.both x]
  have first : ((x.dropWhile Bytes.isSpace).rdropWhile Bytes.isSpace).dropWhile Bytes.isSpace =
      (x.dropWhile Bytes.isSpace).rdropWhile Bytes.isSpace := by
    cases kept : (x.dropWhile Bytes.isSpace).rdropWhile Bytes.isSpace with
    | nil => rfl
    | cons b y =>
      rw [split, kept] at head
      exact List.dropWhile_cons_of_neg (by simpa using head)
  rw [trims_trimSpace.both, first, List.rdropWhile_idempotent]

theorem trimSpace_ne_nil {x : Bytes} {b : UInt8} (member : b ∈ x)
    (visible : Bytes.isSpace b = false) : Bytes.trimSpace x ≠ [] := by
  intro empty
  have spaces : ∀ c ∈ x.dropWhile Bytes.isSpace, Bytes.isSpace c = true :=
    List.rdropWhile_eq_nil_iff.mp empty
  rw [← List.takeWhile_append_dropWhile (p := Bytes.isSpace) (l := x)] at member
  have space : Bytes.isSpace b = true := by
    rcases List.mem_append.mp member with front | rest
    · exact List.mem_takeWhile_imp front
    · exact spaces b rest
  rw [visible] at space
  contradiction

theorem mem_trim (solid : Solid b) {x : Bytes} (h : b ∈ x) : b ∈ trim x := by
  obtain ⟨u, v, rfl⟩ := List.append_of_mem h
  rw [trim, trimStart_append solid, trimEnd_append solid]
  simp

theorem leading_pos_iff (filled : ∀ p ∈ patterns, p ≠ []) {x : Bytes} :
    0 < leading patterns x ↔ ∃ p ∈ patterns, p <+: x := by
  rw [leading]
  split
  · next p first =>
    have member := List.mem_of_find?_eq_some first
    have starts : p.isPrefixOf x = true := by simpa using List.find?_some first
    exact ⟨fun _ => ⟨p, member, List.isPrefixOf_iff_prefix.mp starts⟩,
      fun _ => List.length_pos_iff.mpr (filled p member)⟩
  · next none =>
    simpa using none

/-- What was dropped once does not turn up again, even where the text is cut short. -/
theorem dropLeading_of_prefix (filled : ∀ p ∈ patterns, p ≠ []) {x y : Bytes}
    (short : y <+: dropLeading patterns x) : dropLeading patterns y = y := by
  fun_induction dropLeading patterns x with
  | case1 x more ih => exact ih short
  | case2 x none =>
    rw [dropLeading, dif_neg]
    rintro ⟨more, long⟩
    obtain ⟨p, member, starts⟩ := (leading_pos_iff filled).mp more
    have longer := short.length_le
    exact none ⟨(leading_pos_iff filled).mpr ⟨p, member, starts.trans short⟩, by omega⟩

theorem trim_trim (x : Bytes) : trim (trim x) = trim x := by
  obtain ⟨tail, split, _⟩ := trims_trim.back_drops (trimStart x)
  have front : trimStart (trim x) = trim x :=
    dropLeading_of_prefix (by decide) (split ▸ List.prefix_append _ _)
  have back : trimEnd (trim x) = trim x := by
    rw [trim, trimEnd, trimEnd, List.reverse_reverse,
      dropLeading_of_prefix (by decide) List.prefix_rfl]
  rw [trims_trim.both, front, back]

end PassCompiler.Blank
