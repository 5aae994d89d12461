import Mathlib.Data.List.TakeWhile
import PassCompiler.Proofs.Source.Filler

/-! The grammar of comments. A text falls into bytes of code, line comments and block comments in
one way only, if it is taken apart from its front. Main statement: a cursor follows that
decomposition. -/
namespace PassCompiler.Source

variable {offset : Nat} {u v x y : Bytes} {b : UInt8} {next : Option UInt8}

inductive Part where
  | code (b : UInt8)
  /-- A line comment, without the line feed that ends it. -/
  | line (body : Bytes)
  | block (body : Bytes)
  /-- A block comment that the text does not close. -/
  | unclosed (body : Bytes)
  deriving DecidableEq, Repr

namespace Part

def text : Part → Bytes
  | code b => [b]
  | line body => 0x2F :: 0x2F :: body
  | block body => 0x2F :: 0x2A :: (body ++ [0x2A, 0x2F])
  | unclosed body => 0x2F :: 0x2A :: body

def region : Part → Region
  | code _ => .code
  | line _ => .line
  | block _ | unclosed _ => .block

def regions (p : Part) : List Region := List.replicate p.text.length p.region

/-- What makes it the first part of a text that goes on with `rest`. A slash is code if no marker
begins with it. A line comment stops at the first line feed, a block comment with the first closing
marker in it that is clear of the opening one. -/
def Fits (rest : Bytes) : Part → Prop
  | code b => ¬ [0x2F, 0x2F] <+: b :: rest ∧ ¬ [0x2F, 0x2A] <+: b :: rest
  | line body => 0x0A ∉ body ∧ ∀ c ∈ rest.head?, c = 0x0A
  | block body => ¬ [0x2A, 0x2F] <:+: body ++ [0x2A]
  | unclosed body => rest = [] ∧ ¬ [0x2A, 0x2F] <:+: body

end Part

inductive Decomposes : Bytes → List Part → Prop
  | nil : Decomposes [] []
  | cons {p : Part} {x : Bytes} {parts : List Part} : p.Fits x → Decomposes x parts →
      Decomposes (p.text ++ x) (p :: parts)

/-- The first closing marker of a text. -/
theorem exists_close_or (x : Bytes) :
    (∃ u v, x = u ++ 0x2A :: 0x2F :: v ∧ ¬ [0x2A, 0x2F] <:+: u ++ [0x2A]) ∨
      ¬ [0x2A, 0x2F] <:+: x := by
  induction x with
  | nil => exact .inr (by decide)
  | cons b rest ih =>
    by_cases here : [0x2A, 0x2F] <+: b :: rest
    · obtain ⟨v, same⟩ := here
      exact .inl ⟨[], v, same.symm, by decide⟩
    · rcases ih with ⟨u, v, rfl, first⟩ | none
      · refine .inl ⟨b :: u, v, rfl, ?_⟩
        rw [List.cons_append, List.infix_cons_iff, not_or]
        refine ⟨fun start => here (start.trans ?_), first⟩
        exact ⟨0x2F :: v, by simp⟩
      · exact .inr (by simp [List.infix_cons_iff, here, none])

/-- Every text but the empty one has a first part. -/
theorem Part.exists_fits (b : UInt8) (x : Bytes) :
    ∃ (p : Part) (rest : Bytes), b :: x = p.text ++ rest ∧ p.Fits rest := by
  by_cases line : [0x2F, 0x2F] <+: b :: x
  · obtain ⟨rest, same⟩ := line
    refine ⟨.line (rest.takeWhile (· != 0x0A)), rest.dropWhile (· != 0x0A), ?_, ?_, ?_⟩
    · simp [text, ← same]
    · intro feed
      simpa using List.mem_takeWhile_imp feed
    · intro c first
      have stopped := List.head?_dropWhile_not (· != (0x0A : UInt8)) rest
      rw [first] at stopped
      simpa using stopped
  · by_cases block : [0x2F, 0x2A] <+: b :: x
    · obtain ⟨rest, same⟩ := block
      rcases exists_close_or rest with ⟨u, v, rfl, first⟩ | none
      · exact ⟨.block u, v, by simp [text, ← same], first⟩
      · exact ⟨.unclosed rest, [], by simp [text, ← same], rfl, none⟩
    · exact ⟨.code b, x, rfl, line, block⟩

theorem exists_decomposes (x : Bytes) : ∃ parts, Decomposes x parts := by
  induction len : x.length using Nat.strongRecOn generalizing x with
  | ind n ih =>
    subst len
    cases x with
    | nil => exact ⟨[], .nil⟩
    | cons b x =>
      obtain ⟨p, rest, same, fits⟩ := Part.exists_fits b x
      have shorter : rest.length < (b :: x).length := by
        rw [same, List.length_append, Nat.lt_add_left_iff_pos]
        cases p <;> simp [Part.text]
      obtain ⟨parts, decomposes⟩ := ih rest.length shorter rest rfl
      exact ⟨p :: parts, same ▸ .cons fits decomposes⟩

/-- The body of a line comment is the rest of its line. -/
theorem takeWhile_of_line (free : 0x0A ∉ u) (ends : ∀ c ∈ x.head?, c = 0x0A) :
    (u ++ x).takeWhile (· != 0x0A) = u := by
  have all : ∀ c ∈ u, (c != 0x0A) = true := by
    intro c member
    simpa using ne_of_mem_of_not_mem member free
  have stop : x.takeWhile (· != 0x0A) = [] := by
    cases x with
    | nil => rfl
    | cons c rest => simp [ends c rfl]
  rw [List.takeWhile_append_of_pos all, stop, List.append_nil]

theorem infix_of_prefix_drop {i : Nat} (begins : u <+: x) (h : v <+: x.drop i)
    (inside : i + v.length ≤ u.length) : v <:+: u := by
  obtain ⟨rest, rfl⟩ := begins
  rw [List.drop_append_of_le_length (by omega)] at h
  have here : v <+: u.drop i :=
    List.prefix_of_prefix_length_le h (List.prefix_append _ _) (by rw [List.length_drop]; omega)
  exact here.isInfix.trans (List.drop_suffix i u).isInfix

/-- The first closing marker is not behind another one. -/
theorem length_le_of_close (first : ¬ [0x2A, 0x2F] <:+: u ++ [0x2A])
    (same : u ++ 0x2A :: 0x2F :: x = v ++ 0x2A :: 0x2F :: y) : u.length ≤ v.length := by
  by_contra longer
  refine first (infix_of_prefix_drop (x := u ++ 0x2A :: 0x2F :: x) (i := v.length) ?_ ?_ ?_)
  · exact ⟨0x2F :: x, by simp⟩
  · rw [same, List.drop_left]
    exact ⟨y, rfl⟩
  · simp only [List.length_append, List.length_cons, List.length_nil]
    omega

namespace Part

variable {p q : Part}

/-- The marker with which a text begins says what its first part is. -/
theorem opening_iff (h : p.Fits x) :
    ([0x2F, 0x2F] <+: p.text ++ x ↔ p.region = .line) ∧
      ([0x2F, 0x2A] <+: p.text ++ x ↔ p.region = .block) := by
  cases p with
  | code b => exact ⟨iff_of_false h.1 nofun, iff_of_false h.2 nofun⟩
  | line | block | unclosed => simp [text, region]

theorem region_eq (hp : p.Fits x) (hq : q.Fits y) (same : p.text ++ x = q.text ++ y) :
    p.region = q.region := by
  obtain ⟨line, block⟩ := opening_iff hp
  obtain ⟨line', block'⟩ := opening_iff hq
  rw [same] at line block
  have lines := line.symm.trans line'
  have blocks := block.symm.trans block'
  cases hr : p.region <;> cases hr' : q.region <;> simp_all

theorem eq_of_fits (hp : p.Fits x) (hq : q.Fits y) (same : p.text ++ x = q.text ++ y) :
    p = q ∧ x = y := by
  have kind := region_eq hp hq same
  cases p with
  | code b =>
    cases q with
    | code c => simpa [text] using same
    | line | block | unclosed => contradiction
  | line u =>
    cases q with
    | line v =>
      have same : u ++ x = v ++ y := by simpa [text] using same
      have bodies := congrArg (List.takeWhile (· != 0x0A)) same
      rw [takeWhile_of_line hp.1 hp.2, takeWhile_of_line hq.1 hq.2] at bodies
      subst bodies
      exact ⟨rfl, List.append_cancel_left same⟩
    | code | block | unclosed => contradiction
  | block u =>
    cases q with
    | block v =>
      have same : u ++ 0x2A :: 0x2F :: x = v ++ 0x2A :: 0x2F :: y := by simpa [text] using same
      have long := Nat.le_antisymm (length_le_of_close hp same) (length_le_of_close hq same.symm)
      obtain ⟨rfl, rest⟩ := List.append_inj same long
      exact ⟨rfl, by simpa using rest⟩
    | unclosed v =>
      obtain ⟨rfl, none⟩ := hq
      exact absurd ⟨u, x, by simpa [text] using same⟩ none
    | code | line => contradiction
  | unclosed u =>
    obtain ⟨rfl, none⟩ := hp
    cases q with
    | block v => exact absurd ⟨v, y, by simpa [text] using same.symm⟩ none
    | unclosed v =>
      obtain ⟨rfl, _⟩ := hq
      simpa [text] using same
    | code | line => contradiction

end Part

theorem Decomposes.unique {parts others : List Part} (h : Decomposes x parts)
    (h' : Decomposes x others) : parts = others := by
  induction h generalizing others with
  | nil =>
    generalize empty : ([] : Bytes) = x at h'
    cases h' with
    | nil => rfl
    | @cons q y others fits => cases q <;> simp [Part.text] at empty
  | @cons p x parts fits _ ih =>
    generalize same : p.text ++ x = s at h'
    cases h' with
    | nil => cases p <;> simp [Part.text] at same
    | cons fits' later =>
      obtain ⟨rfl, rfl⟩ := Part.eq_of_fits fits fits' same
      rw [ih later]

theorem Decomposes.text_eq {parts : List Part} (h : Decomposes x parts) :
    parts.flatMap Part.text = x := by
  induction h with
  | nil => rfl
  | cons _ _ ih => rw [List.flatMap_cons, ih]

/-- What a scan says of each byte. -/
def regionsFrom (phase : Phase) (x : Bytes) : List Region := (scanFrom phase 0 x).map (·.region)

theorem map_region_scanFrom (phase : Phase) (offset : Nat) (x : Bytes) :
    (scanFrom phase offset x).map (·.region) = regionsFrom phase x := by
  rw [← Nat.zero_add offset, scanFrom_add, List.map_map]
  rfl

theorem regionsFrom_cons (phase : Phase) (b : UInt8) (x : Bytes) :
    regionsFrom phase (b :: x) =
      (phase.step b x.head?).1 :: regionsFrom (phase.step b x.head?).2 x := by
  rw [← map_region_scanFrom (phase.step b x.head?).2 1]
  rfl

theorem regionsFrom_line_marker (x : Bytes) :
    regionsFrom .code (0x2F :: 0x2F :: x) = .line :: .line :: regionsFrom .line x := by
  rw [regionsFrom_cons, List.head?_cons, Phase.step]
  exact congrArg (_ :: ·) (regionsFrom_cons .lineMarker 0x2F x)

theorem regionsFrom_block_marker (x : Bytes) :
    regionsFrom .code (0x2F :: 0x2A :: x) = .block :: .block :: regionsFrom .block x := by
  rw [regionsFrom_cons, List.head?_cons, Phase.step]
  exact congrArg (_ :: ·) (regionsFrom_cons .blockMarker 0x2A x)

theorem regionsFrom_close_marker (x : Bytes) :
    regionsFrom .block (0x2A :: 0x2F :: x) = .block :: .block :: regionsFrom .code x := by
  rw [regionsFrom_cons, List.head?_cons, Phase.step]
  exact congrArg (_ :: ·) (regionsFrom_cons .closeMarker 0x2F x)

theorem regionsFrom_line (free : 0x0A ∉ u) (ends : ∀ c ∈ x.head?, c = 0x0A) :
    regionsFrom .line (u ++ x) = List.replicate u.length .line ++ regionsFrom .code x := by
  induction u with
  | nil =>
    cases x with
    | nil => rfl
    | cons c rest =>
      obtain rfl := ends c rfl
      rfl
  | cons b u ih =>
    obtain ⟨other, free⟩ := not_or.mp (List.mem_cons.not.mp free)
    have step : Phase.line.step b (u ++ x).head? = (.line, .line) := by
      simp [Phase.step, Ne.symm other]
    rw [List.cons_append, regionsFrom_cons, step, ih free]
    rfl

/-- A block comment goes on as long as no closing marker begins. -/
theorem regionsFrom_block (free : ∀ i < u.length, ¬ [0x2A, 0x2F] <+: (u ++ x).drop i) :
    regionsFrom .block (u ++ x) = List.replicate u.length .block ++ regionsFrom .block x := by
  induction u with
  | nil => rfl
  | cons b u ih =>
    have step : Phase.block.step b (u ++ x).head? = (.block, .block) := by
      apply Phase.step_block
      rintro ⟨rfl, next⟩
      obtain ⟨rest, same⟩ := List.head?_eq_some_iff.mp next
      exact free 0 (by simp) ⟨rest, by simp [same]⟩
    rw [List.cons_append, regionsFrom_cons, step,
      ih fun i lt => free (i + 1) (Nat.succ_lt_succ lt)]
    rfl

/-- Behind its first part a text is scanned as it is alone. -/
theorem Part.Fits.regionsFrom_append {p : Part} (h : p.Fits x) :
    regionsFrom .code (p.text ++ x) = p.regions ++ regionsFrom .code x := by
  cases p with
  | code b =>
    have plain {c : UInt8} (other : ¬ [0x2F, c] <+: b :: x) : ¬ (b = 0x2F ∧ x.head? = some c) := by
      rintro ⟨rfl, next⟩
      obtain ⟨rest, rfl⟩ := List.head?_eq_some_iff.mp next
      exact other ⟨rest, rfl⟩
    rw [text, List.singleton_append, regionsFrom_cons, Phase.step_code (plain h.1) (plain h.2)]
    rfl
  | line u =>
    rw [text, List.cons_append, List.cons_append, regionsFrom_line_marker,
      regionsFrom_line h.1 h.2]
    rfl
  | block u =>
    have body : regionsFrom .block (u ++ 0x2A :: 0x2F :: x) =
        List.replicate (u.length + 2) .block ++ regionsFrom .code x := by
      rw [regionsFrom_block, regionsFrom_close_marker, List.replicate_add, List.append_assoc]
      · rfl
      · intro i lt closes
        refine h (infix_of_prefix_drop ⟨0x2F :: x, by simp⟩ closes ?_)
        simp only [List.length_append, List.length_cons, List.length_nil]
        omega
    have whole : (Part.block u).text ++ x = 0x2F :: 0x2A :: (u ++ 0x2A :: 0x2F :: x) := by
      simp [text]
    have long : (Part.block u).text.length = u.length + 2 + 2 := by simp [text]
    rw [whole, regionsFrom_block_marker, body, regions, long]
    rfl
  | unclosed u =>
    obtain ⟨rfl, none⟩ := h
    have body := regionsFrom_block (u := u) (x := []) fun i _ closes =>
      none ((List.append_nil u ▸ closes).isInfix.trans (List.drop_suffix i u).isInfix)
    rw [text, List.cons_append, List.cons_append, regionsFrom_block_marker, body]
    rfl

theorem Decomposes.regionsFrom_eq {parts : List Part} (h : Decomposes x parts) :
    regionsFrom .code x = parts.flatMap Part.regions := by
  induction h with
  | nil => rfl
  | cons fits _ ih => rw [fits.regionsFrom_append, ih, List.flatMap_cons]

theorem map_offset_scanFrom (phase : Phase) (offset : Nat) (x : Bytes) :
    (scanFrom phase offset x).map (·.offset) = List.range' offset x.length := by
  induction x generalizing phase offset with
  | nil => rfl
  | cons b x ih =>
    rw [scanFrom_cons, List.map_cons, ih]
    rfl

namespace Cursor

/-- All that a cursor yields until it stops. -/
inductive Yields : Cursor → List Mark → Prop
  | done {c : Cursor} : c.next.1 = none → Yields c []
  | step {c : Cursor} {m : Mark} {marks : List Mark} : c.next.1 = some m →
      Yields c.next.2 marks → Yields c (m :: marks)

theorem yields_iff {c : Cursor} {marks : List Mark} : c.Yields marks ↔ marks = c.ahead := by
  constructor
  · intro h
    induction h with
    | @done c stops =>
      obtain ⟨source, ahead⟩ := c
      cases ahead with
      | nil => rfl
      | cons => contradiction
    | @step c m marks here _ ih =>
      obtain ⟨source, ahead⟩ := c
      cases ahead with
      | nil => contradiction
      | cons n rest =>
        obtain rfl := Option.some.inj here
        rw [ih]
        rfl
  · rintro rfl
    obtain ⟨source, ahead⟩ := c
    dsimp only
    induction ahead with
    | nil => exact .done rfl
    | cons m rest ih => exact .step rfl ih

/-- A cursor yields the offsets from its start on, each once and in order, and puts each of them
where the only decomposition of the text behind the start has it. -/
theorem yields_decomposition (s : Bytes) (start : Nat) :
    ∃ marks parts, (∀ others, (new s start).Yields others ↔ others = marks) ∧
      marks.map (·.offset) = List.range' start (s.length - start) ∧
      (∀ others, Decomposes (s.drop start) others ↔ others = parts) ∧
      parts.flatMap Part.text = s.drop start ∧
      marks.map (·.region) = parts.flatMap Part.regions := by
  obtain ⟨parts, decomposes⟩ := exists_decomposes (s.drop start)
  refine ⟨scan s start, parts, fun _ => yields_iff, ?_, ?_, decomposes.text_eq, ?_⟩
  · rw [scan, map_offset_scanFrom, List.length_drop]
  · exact fun others => ⟨fun h => h.unique decomposes, fun h => h ▸ decomposes⟩
  · rw [scan, map_region_scanFrom, decomposes.regionsFrom_eq]

end Cursor
end PassCompiler.Source
