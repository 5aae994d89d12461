import Mathlib.Order.Bounds.Basic
import PassCompiler.Proofs.Source.Group
import PassCompiler.Proofs.Source.Restart

/-! The closer of a group, by counts: the first offset of code through which a scan from the opener
has closed as many delimiters as it has opened. Where the text ends makes no difference to it, and
groups close in the reverse order. Main statement: `matching_of_opener`. -/
namespace PassCompiler.Source

variable {s : Bytes} {kind : Delimiter} {b : UInt8} {start limit o o' c i : Nat} {m : Mark}
  {marks : List Mark}

def occurrences (b : UInt8) (marks : List Mark) : Nat := marks.countP (·.isCodeByte b)

theorem occurrences_cons (b : UInt8) (m : Mark) (marks : List Mark) :
    occurrences b (m :: marks) = occurrences b marks + if m.isCodeByte b then 1 else 0 :=
  List.countP_cons

/-- A depth counts the openers of its kind up and the closers down. -/
theorem Delimiter.closers_add_depth {d e : Nat} (deep : kind.depth d marks = some e) :
    occurrences kind.closer marks + e = occurrences kind.opener marks + d := by
  induction marks generalizing d with
  | nil =>
    obtain rfl := Option.some.inj deep
    rfl
  | cons m marks ih =>
    rw [occurrences_cons, occurrences_cons]
    rw [Delimiter.depth] at deep
    split at deep
    · next opens =>
      have rest := ih deep
      rw [Mark.not_closer_of_opener opens, opens]
      simp only [Bool.false_eq_true, if_false, if_true]
      omega
    · next other =>
      rw [if_neg other]
      split at deep
      · next closes =>
        split at deep
        · contradiction
        · have rest := ih deep
          rw [closes]
          simp only [if_true]
          omega
      · next plain =>
        rw [if_neg plain]
        exact ih deep

namespace Group

/-- The group behind some marks, `none` if one of them closes it. -/
def after (g : Group) (marks : List Mark) : Option Group := marks.foldlM step g

theorem after_eq (d : Nat) (marks : List Mark) :
    (⟨kind, d + 1⟩ : Group).after marks = (kind.depth d marks).map fun e => ⟨kind, e + 1⟩ := by
  induction marks generalizing d with
  | nil => rfl
  | cons m marks ih =>
    rw [after, List.foldlM_cons, step, Delimiter.depth]
    split
    · exact ih (d + 1)
    · split
      · cases d with
        | zero => rfl
        | succ d =>
          rw [if_neg (by dsimp only; omega), if_neg (Nat.succ_ne_zero d)]
          exact ih d
      · exact ih d

theorem close?_eq_none_iff {g : Group} : g.close? marks = none ↔ ∃ g', g.after marks = some g' := by
  induction marks generalizing g with
  | nil => simp [close?, after]
  | cons m marks ih =>
    rw [close?, after, List.foldlM_cons]
    cases stepped : g.step m with
    | none => simp
    | some g' => exact ih

end Group

/-- How often the byte `b` is code from `start` through `stop`, for a scan that starts there. -/
def tally (s : Bytes) (start stop : Nat) (b : UInt8) : Nat :=
  (scan s start).countP fun m => m.isCodeByte b && decide (m.offset ≤ stop)

theorem tally_eq (s : Bytes) (start stop : Nat) (b : UInt8) :
    tally s start stop b = occurrences b ((scan s start).take (stop + 1 - start)) := by
  have offsets : ∀ m ∈ (scan s start).take (stop + 1 - start), m.offset ≤ stop := by
    intro m member
    obtain ⟨k, here⟩ := List.getElem?_of_mem member
    rw [List.getElem?_take] at here
    split at here
    · have := (getElem?_scan_iff.mp here).2
      omega
    · contradiction
  have behind : ∀ m ∈ (scan s start).drop (stop + 1 - start), ¬ m.offset ≤ stop := by
    intro m member
    obtain ⟨k, here⟩ := List.getElem?_of_mem member
    rw [List.getElem?_drop] at here
    have := (getElem?_scan_iff.mp here).2
    omega
  rw [tally, ← List.take_append_drop (stop + 1 - start) (scan s start), List.countP_append,
    List.take_append_drop, occurrences]
  have none : ((scan s start).drop (stop + 1 - start)).countP
      (fun m => m.isCodeByte b && decide (m.offset ≤ stop)) = 0 := by
    rw [List.countP_eq_zero]
    intro m member
    simp [behind m member]
  rw [none, Nat.add_zero]
  refine List.countP_congr fun m member => ?_
  simp [offsets m member]

/-- Behind the opener itself, the counts go on. -/
theorem tally_opener (opens : s[o]? = some kind.opener) (le : o ≤ i) :
    tally s o i kind.opener = occurrences kind.opener ((scan s (o + 1)).take (i - o)) + 1 ∧
      tally s o i kind.closer = occurrences kind.closer ((scan s (o + 1)).take (i - o)) := by
  have first : (⟨o, kind.opener, .code⟩ : Mark).isCodeByte kind.opener = true :=
    Mark.isCodeByte_iff.mpr ⟨rfl, rfl⟩
  rw [tally_eq, tally_eq, scan_cons opens kind.opener_ne_slash,
    show i + 1 - o = i - o + 1 by omega, List.take_succ_cons, occurrences_cons, occurrences_cons,
    if_pos first, Mark.not_closer_of_opener first]
  exact ⟨rfl, rfl⟩

/-- A window changes no structural byte but a slash. -/
theorem isCodeByte_of_scan_take {n : Mark} (whole : m ∈ scan s start)
    (cut : n ∈ scan (s.take limit) start) (same : n.offset = m.offset) (ne : b ≠ 0x2F) :
    n.isCodeByte b = m.isCodeByte b := by
  obtain ⟨byte, region⟩ := scan_take whole cut same
  rw [Mark.isCodeByte, Mark.isCodeByte, byte]
  rcases region with region | cutOff
  · rw [Mark.isCode, Mark.isCode, region]
  · have other : (m.byte == b) = false := by
      rw [cutOff.slash, beq_eq_false_iff_ne]
      exact ne.symm
    rw [other, Bool.and_false, Bool.and_false]

theorem tally_take (ne : b ≠ 0x2F) (inside : i < limit) :
    tally (s.take limit) start i b = tally s start i b := by
  have lengths : (scan (s.take limit) start).length = min limit s.length - start ∧
      (scan s start).length = s.length - start := by
    simp [scan, length_scanFrom, List.length_drop, List.length_take]
  have same : ((scan (s.take limit) start).take (i + 1 - start)).map (·.isCodeByte b) =
      ((scan s start).take (i + 1 - start)).map (·.isCodeByte b) := by
    apply List.ext_getElem?
    intro k
    rw [List.getElem?_map, List.getElem?_map, List.getElem?_take, List.getElem?_take]
    split
    · rcases Nat.lt_or_ge k (scan s start).length with lt | ge
      · have cut := List.getElem?_eq_getElem (show k < (scan (s.take limit) start).length by omega)
        have whole := List.getElem?_eq_getElem lt
        obtain ⟨member, place⟩ := getElem?_scan_iff.mp whole
        obtain ⟨member', place'⟩ := getElem?_scan_iff.mp cut
        rw [cut, whole, Option.map_some, Option.map_some,
          isCodeByte_of_scan_take member member' (place'.trans place.symm) ne]
      · rw [List.getElem?_eq_none ge, List.getElem?_eq_none (by omega)]
    · rfl
  have counts (l : List Mark) : occurrences b l = (l.map (·.isCodeByte b)).countP id := by
    rw [List.countP_map]
    rfl
  rw [tally_eq, tally_eq, counts, counts, same]

/-- From the opener at `o` through the code at `c`, as many of its kind are closed as are opened. -/
structure Evens (s : Bytes) (kind : Delimiter) (o c : Nat) : Prop where
  lt : o < c
  code : CodeAt s o c
  even : tally s o c kind.closer = tally s o c kind.opener

/-- Through offset `i`, the group that opens at `o` waits for as many closers as the openers are
ahead by, and for one at least. -/
def Waits (s : Bytes) (kind : Delimiter) (o i : Nat) : Prop :=
  ∃ depth, Group.after ⟨kind, 1⟩ ((scan s (o + 1)).take (i - o)) = some ⟨kind, depth⟩ ∧
    0 < depth ∧ tally s o i kind.closer + depth = tally s o i kind.opener

theorem Waits.ne (h : Waits s kind o i) :
    tally s o i kind.closer ≠ tally s o i kind.opener := by
  obtain ⟨depth, _, positive, counts⟩ := h
  omega

theorem waits_of_prefix {u : List Mark} {e : Nat} (opens : s[o]? = some kind.opener) (le : o ≤ i)
    (deep : kind.depth 0 u = some e) (part : (scan s (o + 1)).take (i - o) <+: u) :
    Waits s kind o i := by
  obtain ⟨v, rfl⟩ := part
  rw [Delimiter.depth_append] at deep
  obtain ⟨d, deep, _⟩ := Option.bind_eq_some_iff.mp deep
  have counts := Delimiter.closers_add_depth deep
  obtain ⟨ups, downs⟩ := tally_opener opens le
  refine ⟨d + 1, ?_, Nat.succ_pos d, by omega⟩
  rw [Group.after_eq 0, deep, Option.map_some]

/-- A group waits up to its closer, which makes it even, or to the end of the text. -/
theorem matchingClose_cases (opens : s[o]? = some kind.opener) :
    (∃ c, matchingClose s o = some c ∧ Evens s kind o c ∧ ∀ i, o ≤ i → i < c → Waits s kind o i) ∨
      (matchingClose s o = none ∧ ∀ i, o ≤ i → Waits s kind o i) := by
  rw [matchingClose_eq opens]
  cases found : Group.close? ⟨kind, 1⟩ (scan s (o + 1)) with
  | none =>
    right
    refine ⟨rfl, fun i le => ?_⟩
    obtain ⟨g, after⟩ := Group.close?_eq_none_iff.mp found
    rw [Group.after_eq 0] at after
    obtain ⟨e, deep, _⟩ := Option.map_eq_some_iff.mp after
    exact waits_of_prefix opens le deep (List.take_prefix ..)
  | some closed =>
    left
    obtain ⟨closer, behind⟩ := closed
    obtain ⟨inside, split, deep, closes⟩ := Group.close?_eq_some_iff.mp found
    have place : closer.offset = o + 1 + inside.length := by
      have here : (scan s (o + 1))[inside.length]? = some closer := by simp [split]
      exact (getElem?_scan_iff.mp here).2
    have code := (Mark.isCodeByte_iff.mp closes).1
    refine ⟨closer.offset, rfl, ⟨by omega, ⟨closer, ?_, rfl, code⟩, ?_⟩,
      fun i le lt => waits_of_prefix opens le deep ?_⟩
    · rw [scan_cons opens kind.opener_ne_slash, split]
      simp
    · have counts := Delimiter.closers_add_depth deep
      obtain ⟨ups, downs⟩ := tally_opener opens (show o ≤ closer.offset by omega)
      have part : (scan s (o + 1)).take (closer.offset - o) = inside ++ [closer] := by
        rw [split, List.append_cons, List.take_left']
        simp
        omega
      rw [ups, downs, part, occurrences, occurrences, List.countP_append, List.countP_append]
      rw [occurrences, occurrences] at counts
      simp [closes, Mark.not_opener_of_closer closes]
      omega
    · rw [split, List.take_append_of_le_length (by omega)]
      exact List.take_prefix ..

/-- The closer of a group: the first offset of code that makes it even. -/
theorem matchingClose_eq_some_iff (opens : s[o]? = some kind.opener) :
    matchingClose s o = some c ↔ IsLeast {c | Evens s kind o c} c := by
  rcases matchingClose_cases opens with ⟨c', found, evens, waits⟩ | ⟨found, waits⟩
  · have least : IsLeast {c | Evens s kind o c} c' := by
      refine ⟨evens, fun i evens' => ?_⟩
      by_contra early
      exact (waits i (Nat.le_of_lt evens'.lt) (by omega)).ne evens'.even
    rw [found]
    constructor
    · intro same
      exact Option.some.inj same ▸ least
    · intro least'
      rw [least.unique least']
  · rw [found]
    constructor
    · intro same
      contradiction
    · rintro ⟨evens, _⟩
      exact absurd evens.even (waits c (Nat.le_of_lt evens.lt)).ne

theorem matchingClose_eq_none_iff (opens : s[o]? = some kind.opener) :
    matchingClose s o = none ↔ ∀ c, ¬ Evens s kind o c := by
  rcases matchingClose_cases opens with ⟨c, found, evens, _⟩ | ⟨found, waits⟩
  · rw [found]
    constructor
    · intro same
      contradiction
    · intro never
      exact absurd evens (never c)
  · refine ⟨fun _ c evens => ?_, fun _ => found⟩
    exact (waits c (Nat.le_of_lt evens.lt)).ne evens.even

/-- The counts alone give the closer: through every offset before it they differ. -/
theorem matchingClose_iff_counts (opens : s[o]? = some kind.opener) :
    matchingClose s o = some c ↔ o < c ∧ tally s o c kind.closer = tally s o c kind.opener ∧
      ∀ i, o ≤ i → i < c → tally s o i kind.closer ≠ tally s o i kind.opener := by
  rcases matchingClose_cases opens with ⟨c', found, evens, waits⟩ | ⟨found, waits⟩
  · rw [found]
    constructor
    · rintro same
      obtain rfl := Option.some.inj same
      exact ⟨evens.lt, evens.even, fun i le lt => (waits i le lt).ne⟩
    · rintro ⟨lt, even, differ⟩
      rcases Nat.lt_trichotomy c c' with before | rfl | behind
      · exact absurd even (waits c (Nat.le_of_lt lt) before).ne
      · rfl
      · exact absurd evens.even (differ c' (Nat.le_of_lt evens.lt) behind)
  · rw [found]
    constructor
    · intro same
      contradiction
    · rintro ⟨lt, even, _⟩
      exact absurd even (waits c (Nat.le_of_lt lt)).ne

/-- A window has the groups that are closed in it. -/
theorem matchingClose_take (opens : s[o]? = some kind.opener) :
    matchingClose (s.take limit) o = some c ↔ matchingClose s o = some c ∧ c < limit := by
  rcases Nat.lt_or_ge o limit with inside | outside
  · have opens' : (s.take limit)[o]? = some kind.opener := by
      rwa [List.getElem?_take_of_lt inside]
    have counts : c < limit →
        (matchingClose (s.take limit) o = some c ↔ matchingClose s o = some c) := by
      intro short
      rw [matchingClose_iff_counts opens, matchingClose_iff_counts opens',
        tally_take kind.closer_ne_slash short, tally_take kind.opener_ne_slash short]
      refine and_congr_right fun _ => and_congr_right fun _ => forall_congr' fun i => ?_
      refine imp_congr_right fun _ => forall_congr' fun lt => ?_
      rw [tally_take kind.closer_ne_slash (by omega), tally_take kind.opener_ne_slash (by omega)]
    constructor
    · intro found
      have bound := (bounds_of_matchingClose found).2
      rw [List.length_take] at bound
      have short : c < limit := by omega
      exact ⟨(counts short).mp found, short⟩
    · rintro ⟨found, short⟩
      exact (counts short).mpr found
  · constructor
    · intro found
      have bounds := bounds_of_matchingClose found
      rw [List.length_take] at bounds
      omega
    · rintro ⟨found, short⟩
      have bounds := bounds_of_matchingClose found
      omega

/-- A scan counts what it counts before an offset of code and what the scan from there counts. -/
theorem tally_add (code : CodeAt s o o') (lt : o < o') (le : o' ≤ i) (b : UInt8) :
    tally s o i b = tally s o (o' - 1) b + tally s o' i b := by
  have restart : RestartAt s o o' := .inl code
  rw [tally_eq, tally_eq, tally_eq, restart.scan_eq,
    show i + 1 - o = (o' - o) + (i + 1 - o') by omega, List.take_add, occurrences,
    List.countP_append, show o' - 1 + 1 - o = o' - o by omega]
  rfl

/-- Groups close in the reverse order. -/
theorem matchingClose_nested (opens : s[o]? = some kind.opener)
    (opens' : s[o']? = some kind.opener) (code : CodeAt s o o') (lt : o < o')
    (closed : matchingClose s o = some c) (inside : o' < c) :
    ∃ c', matchingClose s o' = some c' ∧ c' < c := by
  -- The openers are ahead before `o'`, so the closers are ahead from there through `c`.
  have ahead : tally s o' c kind.opener < tally s o' c kind.closer := by
    rcases matchingClose_cases opens with ⟨c₁, found, evens, waits⟩ | ⟨found, _⟩
    · obtain rfl := Option.some.inj (closed.symm.trans found)
      obtain ⟨depth, _, positive, counts⟩ := waits (o' - 1) (by omega) (by omega)
      have even := evens.even
      rw [tally_add code lt (Nat.le_of_lt inside), tally_add code lt (Nat.le_of_lt inside)] at even
      omega
    · rw [closed] at found
      contradiction
  have notWaiting : ¬ Waits s kind o' c := by
    rintro ⟨depth, _, positive, counts⟩
    omega
  rcases matchingClose_cases opens' with ⟨c', found, evens, waits⟩ | ⟨_, waits⟩
  · refine ⟨c', found, ?_⟩
    by_contra late
    rcases Nat.eq_or_lt_of_le (Nat.le_of_not_lt late) with rfl | later
    · exact absurd evens.even (Nat.ne_of_gt ahead)
    · exact notWaiting (waits c (Nat.le_of_lt inside) later)
  · exact absurd (waits c (Nat.le_of_lt inside)) notWaiting

/-- What the search for the closer of the group at `o` gives. -/
structure Matching (s : Bytes) (kind : Delimiter) (o : Nat) : Prop where
  found : ∀ c, matchingClose s o = some c ↔ IsLeast {c | Evens s kind o c} c
  missing : matchingClose s o = none ↔ ∀ c, ¬ Evens s kind o c
  /-- The counter is never at zero before the closer. -/
  counter : ∀ i, o ≤ i → (∀ c, matchingClose s o = some c → i < c) → Waits s kind o i
  window : ∀ limit c, matchingClose (s.take limit) o = some c ↔
    matchingClose s o = some c ∧ c < limit
  /-- In every scan that has both openers as code. -/
  nested : ∀ start o' c, CodeAt s start o → CodeAt s start o' → s[o']? = some kind.opener →
    o < o' → matchingClose s o = some c → o' < c → ∃ c', matchingClose s o' = some c' ∧ c' < c

/-- The search finds the first offset of code through which the group is even, in every window that
has it, and groups nest. -/
theorem matching_of_opener (opens : s[o]? = some kind.opener) : Matching s kind o where
  found _ := matchingClose_eq_some_iff opens
  missing := matchingClose_eq_none_iff opens
  counter i le before := by
    rcases matchingClose_cases opens with ⟨c, found, _, waits⟩ | ⟨_, waits⟩
    · exact waits i le (before c found)
    · exact waits i le
  window _ _ := matchingClose_take opens
  nested start o' c code code' opens' lt closed inside := by
    obtain ⟨m, member, rfl, isCode⟩ := code'
    have there : m ∈ scan s o := (RestartAt.mem_iff (.inl code)).mpr ⟨member, Nat.le_of_lt lt⟩
    exact matchingClose_nested opens opens' ⟨m, there, rfl, isCode⟩ lt closed inside

/-- A closer in a comment, and a group inside another one. -/
theorem matching_of_opener_comment :
    let s := bytes "f((a)/*)*/)"
    s[1]? = some Delimiter.paren.opener ∧ Matching s .paren 1 ∧ matchingClose s 1 = some 10 ∧
      matchingClose s 2 = some 4 ∧ matchingClose (s.take 8) 1 = none := by
  intro s
  have opens : s[1]? = some Delimiter.paren.opener := by decide
  exact ⟨opens, matching_of_opener opens, by decide, by decide, by decide⟩

end PassCompiler.Source
