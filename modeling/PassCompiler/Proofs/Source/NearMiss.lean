import Mathlib.Order.WellFounded
import PassCompiler.Proofs.Source.Search

/-! What is said of a terminator that was not found. A keyword glued to code counts before one in a
comment, and of comments only those count in which a blank stands before the keyword, so a keyword
right behind the marker is passed over in silence: `findTerminator_silent`. -/
namespace PassCompiler.Source

variable {s keyword : Bytes} {range : Span} {i n : Nat}

/-- Places of the keyword in code, at the boundary of a terminator. -/
def terminators (s : Bytes) (range : Span) (keyword : Bytes) : Set Nat :=
  {i | Matches s range keyword .terminator i ∧ CodeAt s range.start i}

/-- Places of the keyword in code, as a word of its own. -/
def words (s : Bytes) (range : Span) (keyword : Bytes) : Set Nat :=
  {i | Matches s range keyword .word i ∧ CodeAt s range.start i}

/-- `keyword` stands at offset `i`, inside `range`, with no identifier byte on either side. -/
structure WholeWord (s : Bytes) (range : Span) (keyword : Bytes) (i : Nat) : Prop where
  after : range.start ≤ i
  inside : i + keyword.length ≤ range.stop
  spelled : keyword <+: s.drop i
  before : 0 < i → (s[i - 1]?).any Bytes.isIdent = false
  behind : (s[i + keyword.length]?).any Bytes.isIdent = false

def remarks (s : Bytes) (range : Span) (keyword : Bytes) : Set Nat :=
  {i | WholeWord s range keyword i ∧ ¬ CodeAt s range.start i}

def Spaced (s : Bytes) (i : Nat) : Prop := (s[i - 1]?).any Bytes.isBlank = true

/-- The answer that names the first place that counts: one of `code` before all others, one of
`glued` before one of `commented`. -/
inductive Verdict (n : Nat) (code glued commented : Set Nat) :
    Except (Option NearMiss) Span → Prop
  | found {j : Nat} : IsLeast code j → Verdict n code glued commented (.ok ⟨j, j + n⟩)
  | glued {j : Nat} : code = ∅ → IsLeast glued j →
      Verdict n code glued commented (.error (some (.glued ⟨j, j + n⟩)))
  | commented {j : Nat} : code = ∅ → glued = ∅ → IsLeast commented j →
      Verdict n code glued commented (.error (some (.commented ⟨j, j + n⟩)))
  | silent : code = ∅ → glued = ∅ → commented = ∅ → Verdict n code glued commented (.error none)

theorem exists_isLeast {places : Set Nat} (filled : places ≠ ∅) : ∃ i, IsLeast places i := by
  obtain ⟨i, member, least⟩ :=
    wellFounded_lt.has_min places (Set.nonempty_iff_ne_empty.mpr filled)
  exact ⟨i, member, fun j there => not_lt.mp (least j there)⟩

/-- A verdict that passes over some comments is right about all of them just if it does not pass
over the first. -/
theorem Verdict.iff_of_subset {code glued some all : Set Nat}
    {answer : Except (Option NearMiss) Span} (h : Verdict n code glued some answer)
    (subset : some ⊆ all) : Verdict n code glued all answer ↔
      (code = ∅ → glued = ∅ → ∀ i, IsLeast all i → i ∈ some) := by
  constructor
  · intro h' noCode noGlued i least
    cases h' with
    | found first => exact absurd first.1 (noCode ▸ Set.notMem_empty _)
    | glued _ first => exact absurd first.1 (noGlued ▸ Set.notMem_empty _)
    | silent _ _ none => exact absurd least.1 (none ▸ Set.notMem_empty _)
    | commented _ _ least' =>
      obtain rfl := least.unique least'
      cases h with
      | commented _ _ first => exact first.1
  · intro first
    cases h with
    | found least => exact .found least
    | glued noCode least => exact .glued noCode least
    | commented noCode noGlued least =>
      obtain ⟨j, least'⟩ := exists_isLeast (Set.nonempty_iff_ne_empty.mp ⟨_, subset least.1⟩)
      have same := least.unique
        ⟨first noCode noGlued j least', fun k here => least'.2 (subset here)⟩
      exact .commented noCode noGlued (same ▸ least')
    | silent noCode noGlued none =>
      refine .silent noCode noGlued ?_
      by_contra filled
      obtain ⟨j, least⟩ := exists_isLeast filled
      exact absurd (first noCode noGlued j least) (none ▸ Set.notMem_empty _)

/-- A scan begins in code, so no keyword in a comment is the first word of its range. -/
theorem codeAt_start (isWord : IsWord keyword) (spelled : keyword <+: s.drop i) : CodeAt s i i := by
  obtain ⟨b, letters, rfl⟩ := List.exists_cons_of_ne_nil isWord.1
  obtain ⟨rest, spelled⟩ := spelled
  have calm : Calm b := neutral_of_isIdent isWord.2 b List.mem_cons_self
  have step : Phase.code.step b (letters ++ rest).head? = (.code, .code) := by
    simp [Phase.step, calm.1]
  refine ⟨⟨i, b, .code⟩, ?_, rfl, rfl⟩
  rw [scan, ← spelled, List.cons_append, scanFrom_cons, step]
  exact List.mem_cons_self

/-- The comments that a search for a terminator looks at. -/
theorem matches_terminator_iff (isWord : IsWord keyword) (comment : ¬ CodeAt s range.start i) :
    Matches s range keyword .terminator i ↔ WholeWord s range keyword i ∧ Spaced s i := by
  have inner (spelled : keyword <+: s.drop i) : i ≠ range.start := by
    rintro rfl
    exact comment (codeAt_start isWord spelled)
  constructor
  · intro h
    have fits := h.accepted
    rw [Boundary.accepts, Bool.and_eq_true, Bool.or_eq_true, Bool.not_eq_true'] at fits
    obtain ⟨first | blank, behind⟩ := fits
    · exact absurd (by simpa using first) (inner h.spelled)
    · refine ⟨⟨h.after, h.inside, h.spelled, fun _ => ?_, behind⟩, blank⟩
      rw [Option.any_eq_true] at blank
      obtain ⟨b, here, blank⟩ := blank
      rw [here, Option.any_some]
      exact Bytes.not_isIdent_of_isBlank blank
  · rintro ⟨h, spaced⟩
    refine ⟨h.after, h.inside, h.spelled, ?_⟩
    rw [Boundary.accepts, h.behind, Bool.not_false, Bool.and_true, Bool.or_eq_true]
    exact .inr spaced

/-- When nothing in code is named, these are all the comments that are looked at. -/
theorem spaced_remarks (isWord : IsWord keyword)
    (none : ∀ i, Matches s range keyword .terminator i → ¬ CodeAt s range.start i) :
    {i ∈ remarks s range keyword | Spaced s i} = {i | Matches s range keyword .terminator i} := by
  ext i
  constructor
  · rintro ⟨⟨word, comment⟩, spaced⟩
    exact (matches_terminator_iff isWord comment).mpr ⟨word, spaced⟩
  · intro here
    obtain ⟨word, spaced⟩ := (matches_terminator_iff isWord (none i here)).mp here
    exact ⟨⟨word, none i here⟩, spaced⟩

theorem findTerminator_glued {span : Span}
    (missing : ∀ span, find s range keyword .terminator ≠ .found span)
    (found : find s range keyword .word = .found span) :
    findTerminator s range keyword = .error (some (.glued span)) := by
  unfold findTerminator
  dsimp only
  split
  · next seen => exact absurd seen (missing _)
  all_goals rw [found]

theorem findTerminator_unglued (missing : ∀ span, find s range keyword .terminator ≠ .found span)
    (missing' : ∀ span, find s range keyword .word ≠ .found span) :
    findTerminator s range keyword = .error
      (match find s range keyword .terminator with
        | .commented span => some (.commented span)
        | _ => none) := by
  unfold findTerminator
  dsimp only
  split
  · next seen => exact absurd seen (missing _)
  all_goals
    next seen =>
    rw [seen]
    split
    · next found => exact absurd found (missing' _)
    all_goals rfl

theorem verdict_findTerminator (isWord : IsWord keyword) (s : Bytes) (range : Span) :
    Verdict keyword.length (terminators s range keyword) (words s range keyword)
      {i ∈ remarks s range keyword | Spaced s i} (findTerminator s range keyword) := by
  have empty {boundary : Boundary} (none : ∀ i, Matches s range keyword boundary i →
      ¬ CodeAt s range.start i) :
      {i | Matches s range keyword boundary i ∧ CodeAt s range.start i} = ∅ :=
    Set.eq_empty_of_forall_notMem fun i here => none i here.1 here.2
  rcases find_cases s range .terminator isWord with
    ⟨i, least, found⟩ | ⟨none, sighting⟩
  · rw [findTerminator, found]
    exact .found least
  rw [spaced_remarks isWord none]
  rcases find_cases s range .word isWord with
    ⟨i, least, found⟩ | ⟨none', sighting'⟩
  · rw [findTerminator_glued (by grind) found]
    exact .glued (empty none) least
  rcases sighting with ⟨i, least, seen⟩ | ⟨absent, seen⟩
  · rw [findTerminator_unglued (by simp [seen]) (by grind), seen]
    exact .commented (empty none) (empty none') least
  · rw [findTerminator_unglued (by simp [seen]) (by grind), seen]
    exact .silent (empty none) (empty none') (Set.eq_empty_of_forall_notMem absent)

/-- Of the comments, a search for a terminator counts those with a blank before the keyword. So it
names what a search that counts all of them would name, unless nothing in code is named and the
first of all comments has no such blank. -/
theorem findTerminator_verdict (isWord : IsWord keyword) (s : Bytes) (range : Span) :
    Verdict keyword.length (terminators s range keyword) (words s range keyword)
        {i ∈ remarks s range keyword | Spaced s i} (findTerminator s range keyword) ∧
      (Verdict keyword.length (terminators s range keyword) (words s range keyword)
          (remarks s range keyword) (findTerminator s range keyword) ↔
        (terminators s range keyword = ∅ → words s range keyword = ∅ →
          ∀ i, IsLeast (remarks s range keyword) i → Spaced s i)) := by
  have verdict := verdict_findTerminator isWord s range
  refine ⟨verdict, (verdict.iff_of_subset fun i here => here.1).trans ?_⟩
  constructor
  · intro first noCode noGlued i least
    exact (first noCode noGlued i least).2
  · intro first noCode noGlued i least
    exact ⟨least.1, first noCode noGlued i least⟩

/-- The first comment is passed over, the second one named. -/
theorem findTerminator_verdict_second :
    let s := bytes "//PASS_END\n/* PASS_END */"
    let range : Span := ⟨0, 25⟩
    let keyword := bytes "PASS_END"
    IsWord keyword ∧ findTerminator s range keyword = .error (some (.commented ⟨14, 22⟩)) ∧
      Verdict keyword.length (terminators s range keyword) (words s range keyword)
        {i ∈ remarks s range keyword | Spaced s i} (findTerminator s range keyword) ∧
      (Verdict keyword.length (terminators s range keyword) (words s range keyword)
          (remarks s range keyword) (findTerminator s range keyword) ↔
        (terminators s range keyword = ∅ → words s range keyword = ∅ →
          ∀ i, IsLeast (remarks s range keyword) i → Spaced s i)) := by
  intro s range keyword
  have isWord : IsWord keyword := ⟨by decide, by decide⟩
  exact ⟨isWord, by decide, findTerminator_verdict isWord s range⟩

/-- A whole word right behind a comment marker is not named. -/
theorem findTerminator_silent :
    let s := bytes "//PASS_END"
    let range : Span := ⟨0, 10⟩
    let keyword := bytes "PASS_END"
    2 ∈ remarks s range keyword ∧ findTerminator s range keyword = .error none ∧
      ¬ Verdict keyword.length (terminators s range keyword) (words s range keyword)
        (remarks s range keyword) (findTerminator s range keyword) := by
  intro s range keyword
  have remark : 2 ∈ remarks s range keyword :=
    ⟨⟨by decide, by decide, by decide, by decide, by decide⟩, by decide⟩
  have silent : findTerminator s range keyword = .error none := by decide
  refine ⟨remark, silent, fun verdict => ?_⟩
  rw [silent] at verdict
  cases verdict with
  | silent _ _ none => exact absurd remark (none ▸ Set.notMem_empty _)

end PassCompiler.Source
