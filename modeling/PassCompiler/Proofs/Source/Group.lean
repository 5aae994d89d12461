import PassCompiler.Proofs.Source.Nesting
import PassCompiler.Proofs.Source.Word

/-! Parentheses by their offsets: which groups a group has inside it, what is left of them in a part
of the text, and how a keyword, a group and a later keyword make up one stretch of text. Main
statement: `Stretch.cases`. -/
namespace PassCompiler.Source

variable {x keyword opening closing : Bytes} {p o c i start last : Nat} {kind : Delimiter}
  {m : Mark} {front marks behind : List Mark}

theorem getElem?_matchingClose (opens : x[o]? = some kind.opener)
    (closed : matchingClose x o = some c) : x[c]? = some kind.closer := by
  rw [matchingClose_eq opens] at closed
  obtain ⟨⟨m, behind⟩, found, rfl⟩ := Option.map_eq_some_iff.mp closed
  obtain ⟨inside, split, _, closes⟩ := Group.close?_eq_some_iff.mp found
  have member : m ∈ scan (x.take x.length) (o + 1) := by simp [split]
  rw [getElem?_of_mem_window member, (Mark.isCodeByte_iff.mp closes).2]

/-- The group that a scan has next is closed where its parenthesis is. -/
theorem close?_eq_matchingClose (split : scan x 0 = front ++ m :: behind)
    (opens : m.isCodeByte Delimiter.paren.opener = true) :
    (Group.close? ⟨.paren, 1⟩ behind).map (·.1.offset) = matchingClose x m.offset := by
  have member : m ∈ scan x 0 := by simp [split]
  obtain ⟨code, byte⟩ := Mark.isCodeByte_iff.mp opens
  have here : x[m.offset]? = some Delimiter.paren.opener := byte ▸ getElem?_of_mem_scan member
  have rest : scan x (m.offset + 1) = behind := by
    rw [scan_drop (resumes_of_mem member code), offset_of_split split, split,
      List.append_cons, List.drop_left' (by simp)]
  rw [matchingClose_eq here, rest]

/-- The parenthesis of code at `o`, and the one at `c` that closes it. -/
structure GroupAt (x : Bytes) (o c : Nat) : Prop where
  code : CodeAt x 0 o
  opener : x[o]? = some Delimiter.paren.opener
  matching : matchingClose x o = some c

structure GroupBehind (x : Bytes) (p o c : Nat) : Prop where
  next : NextCode x p o
  group : GroupAt x o c

theorem Delimiter.depth_append (kind : Delimiter) (d : Nat) (u v : List Mark) :
    kind.depth d (u ++ v) = (kind.depth d u).bind (kind.depth · v) := by
  induction u generalizing d with
  | nil => rfl
  | cons m u ih =>
    simp only [List.cons_append, depth, ih]
    split
    · rfl
    · split
      · split <;> rfl
      · rfl

/-- A depth that is left again is left with a closer. -/
theorem Group.exists_close? {d k e : Nat} {marks : List Mark}
    (deep : kind.depth (d + k + 1) marks = some e) (le : e ≤ d) :
    ∃ closed, Group.close? ⟨kind, k + 1⟩ marks = some closed := by
  induction marks generalizing k with
  | nil =>
    have same := Option.some.inj deep
    omega
  | cons m marks ih =>
    rw [Delimiter.depth] at deep
    rw [Group.close?, Group.step]
    split at deep
    · next opens =>
      rw [if_pos opens]
      exact @ih (k + 1) deep
    · next other =>
      rw [if_neg other]
      split at deep
      · next closes =>
        rw [if_pos closes]
        cases k with
        | zero => exact ⟨_, rfl⟩
        | succ k =>
          rw [if_neg (by dsimp only; omega)]
          exact @ih k deep
      · next plain =>
        rw [if_neg plain]
        exact ih deep

theorem groupAt_iff : GroupAt x o c ↔ ∃ front opener inside closer behind,
    scan x 0 = front ++ opener :: (inside ++ closer :: behind) ∧
      opener.isCodeByte Delimiter.paren.opener = true ∧ Delimiter.paren.Balanced inside ∧
      closer.isCodeByte Delimiter.paren.closer = true ∧ opener.offset = o ∧ closer.offset = c := by
  constructor
  · rintro ⟨⟨m, member, rfl, code⟩, opens, matching⟩
    rw [getElem?_of_mem_scan member, Option.some.injEq] at opens
    have opens := Mark.isCodeByte_iff.mpr ⟨code, opens⟩
    obtain ⟨front, marks, split⟩ := List.append_of_mem member
    rw [← close?_eq_matchingClose split opens] at matching
    obtain ⟨⟨closer, behind⟩, closed, rfl⟩ := Option.map_eq_some_iff.mp matching
    obtain ⟨inside, rfl, balanced, closes⟩ := Group.close?_eq_some_iff.mp closed
    exact ⟨front, m, inside, closer, behind, split, opens, balanced, closes, rfl, rfl⟩
  · rintro ⟨front, m, inside, closer, behind, split, opens, balanced, closes, rfl, rfl⟩
    have member : m ∈ scan x 0 := by simp [split]
    obtain ⟨code, byte⟩ := Mark.isCodeByte_iff.mp opens
    refine ⟨⟨m, member, rfl, code⟩, byte ▸ getElem?_of_mem_scan member, ?_⟩
    rw [← close?_eq_matchingClose split opens,
      Group.close?_eq_some_iff.mpr ⟨inside, rfl, balanced, closes⟩, Option.map_some]

namespace GroupAt

theorem lt (h : GroupAt x o c) : o < c := (bounds_of_matchingClose h.matching).1

theorem closer (h : GroupAt x o c) : x[c]? = some Delimiter.paren.closer :=
  getElem?_matchingClose h.opener h.matching

theorem unique {c' : Nat} (h : GroupAt x o c) (h' : GroupAt x o c') : c = c' :=
  Option.some.inj (h.matching.symm.trans h'.matching)

/-- A group that opens inside another one is closed there. -/
theorem nested (h : GroupAt x o c) (code : CodeAt x 0 i)
    (opens : x[i]? = some Delimiter.paren.opener) (low : o < i) (high : i < c) :
    ∃ c', GroupAt x i c' ∧ c' < c := by
  obtain ⟨front, m, inside, closer, behind, split, _, balanced, _, rfl, rfl⟩ := groupAt_iff.mp h
  obtain ⟨n, member, rfl, code⟩ := code
  rw [getElem?_of_mem_scan member, Option.some.injEq] at opens
  have opens := Mark.isCodeByte_iff.mpr ⟨code, opens⟩
  have split' : scan x 0 = (front ++ [m]) ++ (inside ++ closer :: behind) := by simp [split]
  have split'' : scan x 0 = (front ++ m :: inside) ++ closer :: behind := by simp [split]
  have first := offset_of_split split
  have last := offset_of_split split''
  have member : n ∈ inside := by
    have ahead := (mem_behind_iff split').mpr ⟨member, by simp; omega⟩
    refine (List.mem_append.mp ahead).resolve_right fun late => ?_
    have := ((mem_behind_iff split'').mp late).2
    omega
  obtain ⟨a, b, rfl⟩ := List.append_of_mem member
  rw [Delimiter.Balanced, Delimiter.depth_append] at balanced
  obtain ⟨d, _, deep⟩ := Option.bind_eq_some_iff.mp balanced
  rw [depth_opener opens, if_pos rfl] at deep
  obtain ⟨⟨closer', behind'⟩, closed⟩ := @Group.exists_close? _ d 0 _ _ deep (Nat.zero_le _)
  obtain ⟨inside', rfl, balanced', closes'⟩ := Group.close?_eq_some_iff.mp closed
  refine ⟨closer'.offset, groupAt_iff.mpr ⟨front ++ m :: a, n, inside', closer',
    behind' ++ closer :: behind, by simp [split], opens, balanced', closes', rfl, rfl⟩, ?_⟩
  have inner : scan x 0 = (front ++ m :: (a ++ n :: inside')) ++ closer' ::
      (behind' ++ closer :: behind) := by simp [split]
  have := offset_of_split inner
  simp only [List.length_append, List.length_cons] at this last
  omega

end GroupAt

def isSolid (m : Mark) : Bool := m.isCode && !Bytes.isBlank m.byte

theorem isSolid_iff (h : m ∈ scan x 0) : isSolid m = true ↔
    CodeAt x 0 m.offset ∧ (x[m.offset]?).any Bytes.isBlank = false := by
  rw [codeAt_iff h, getElem?_of_mem_scan h, Option.any_some, isSolid, Bool.and_eq_true,
    Bool.not_eq_true']

/-- The first such mark of a scan is the next code. -/
theorem find?_solid_iff (split : scan x 0 = front ++ marks) :
    marks.find? isSolid = some m ↔ m ∈ marks ∧ NextCode x front.length m.offset := by
  have sorted : marks.Pairwise (·.offset < ·.offset) := by
    have whole := sorted_scanFrom .code 0 x
    rw [← List.drop_zero (l := x), ← scan, split] at whole
    exact (List.pairwise_append.mp whole).2.1
  rw [find?_eq_some_iff_of_sorted sorted]
  refine and_congr_right fun member => ?_
  obtain ⟨whole, after⟩ := (mem_behind_iff split).mp member
  constructor
  · rintro ⟨solid, least⟩
    obtain ⟨code, solid⟩ := (isSolid_iff whole).mp solid
    refine ⟨after, code, solid, fun k low lt codeHere => ?_⟩
    have codeHere' := codeHere
    obtain ⟨n, there, rfl, _⟩ := codeHere'
    by_contra other
    have := least n ((mem_behind_iff split).mpr ⟨there, low⟩)
      ((isSolid_iff there).mpr ⟨codeHere, by simpa using other⟩)
    omega
  · intro next
    refine ⟨(isSolid_iff whole).mpr ⟨next.code, next.solid⟩, fun n member' solid => ?_⟩
    obtain ⟨whole', after'⟩ := (mem_behind_iff split).mp member'
    obtain ⟨code, solid⟩ := (isSolid_iff whole').mp solid
    by_contra earlier
    have blank := next.blank n.offset after' (by omega) code
    rw [solid] at blank
    contradiction

theorem nextCode_of_search (resumes : Resumes x p) (h : nextCode x p x.length = some m) :
    NextCode x p m.offset := by
  have bounds := bounds_of_nextCode h
  have split : scan x 0 = (scan x 0).take p ++ scan x p := by
    rw [scan_drop resumes, List.take_append_drop]
  have long : ((scan x 0).take p).length = p := by
    rw [List.length_take, length_scan_zero]
    omega
  rw [nextCode, List.take_length] at h
  have next := ((find?_solid_iff split).mp h).2
  rwa [long] at next

/-- A group that a scan has next, and what stands behind it. -/
theorem groupBehind_of_nextGroup? {start stop : Nat} (split : scan x 0 = front ++ marks)
    (h : nextGroup? marks = some ⟨start, some (stop, behind)⟩) :
    GroupBehind x front.length start stop ∧
      ∃ front', scan x 0 = front' ++ behind ∧ front'.length = stop + 1 := by
  obtain ⟨m, rest, next, opens, same⟩ := nextGroup?_eq_some_iff.mp h
  obtain ⟨rfl, closed⟩ := Parenthesised.mk.inj same
  obtain ⟨⟨closer, others⟩, found, same⟩ := Option.map_eq_some_iff.mp closed.symm
  obtain ⟨rfl, rfl⟩ := Prod.mk.inj same
  obtain ⟨inside, rfl, balanced, closes⟩ := Group.close?_eq_some_iff.mp found
  have first : marks.find? isSolid = some m := by
    rw [List.find?_eq_head?_dropWhile_not, List.head?_eq_some_iff]
    simp only [isSolid, Bool.not_and, Bool.not_not]
    exact ⟨_, next⟩
  have nextCode := ((find?_solid_iff split).mp first).2
  obtain ⟨gap, rfl⟩ : ∃ gap, marks = gap ++ m :: (inside ++ closer :: others) := by
    rw [← next]
    exact ⟨_, (List.takeWhile_append_dropWhile ..).symm⟩
  have split' : scan x 0 = (front ++ gap) ++ m :: (inside ++ closer :: others) := by
    simp [split]
  have last : scan x 0 = (front ++ gap ++ m :: inside) ++ closer :: others := by simp [split]
  refine ⟨⟨nextCode, groupAt_iff.mpr ⟨_, m, inside, closer, others, split', opens, balanced,
    closes, rfl, rfl⟩⟩, front ++ gap ++ m :: inside ++ [closer], by simp [split], ?_⟩
  rw [List.length_append, ← offset_of_split last, List.length_singleton]

namespace GroupBehind

theorem unique {o' c' : Nat} (h : GroupBehind x p o c) (h' : GroupBehind x p o' c') :
    o = o' ∧ c = c' := by
  obtain rfl := h.next.unique h'.next
  exact ⟨rfl, Option.some.inj (h.group.matching.symm.trans h'.group.matching)⟩

/-- No word stands before the group. -/
theorem lt_of_occurs (h : GroupBehind x p o c) (isWord : IsWord keyword)
    (occurs : Occurs x keyword i) (le : p ≤ i) : o < i := by
  have ident := occurs.any_isIdent isWord
  rcases Nat.lt_trichotomy i o with before | rfl | behind
  · have blank := h.next.blank i le before occurs.code
    rw [List.getElem?_eq_getElem occurs.lt_length, Option.any_some] at blank ident
    rw [Bytes.not_isIdent_of_isBlank blank] at ident
    contradiction
  · rw [h.group.opener] at ident
    contradiction
  · exact behind

end GroupBehind

/-- Offset `i` stands in a group that opens at `start` or behind it. -/
def InGroup (x : Bytes) (start i : Nat) : Prop := ∃ o c, GroupAt x o c ∧ start ≤ o ∧ o < i ∧ i < c

instance (x : Bytes) (start i : Nat) : Decidable (InGroup x start i) :=
  decidable_of_iff (∃ o, o < i ∧ start ≤ o ∧ CodeAt x 0 o ∧
      x[o]? = some Delimiter.paren.opener ∧ (matchingClose x o).any (i < ·) = true) <| by
    simp only [Option.any_eq_true, decide_eq_true_iff]
    constructor
    · rintro ⟨o, lt, low, code, opener, c, matching, inside⟩
      exact ⟨o, c, ⟨code, opener, matching⟩, low, lt, inside⟩
    · rintro ⟨o, c, ⟨code, opener, matching⟩, low, lt, inside⟩
      exact ⟨o, lt, low, code, opener, c, matching, inside⟩

theorem InGroup.mono (h : InGroup x start i) (le : p ≤ start) : InGroup x p i := by
  obtain ⟨o, c, group, after, inside⟩ := h
  exact ⟨o, c, group, Nat.le_trans le after, inside⟩

/-- From `p` to `q`, every group that opens is closed, and every brace that opens stands in one. -/
structure Contained (x : Bytes) (p q : Nat) : Prop where
  closed : ∀ o, p ≤ o → o < q → CodeAt x 0 o → x[o]? = some Delimiter.paren.opener →
    ∃ c, GroupAt x o c ∧ c < q
  braced : ∀ i, p ≤ i → i < q → CodeAt x 0 i → x[i]? = some Delimiter.brace.opener →
    InGroup x p i

namespace Contained

variable {q r : Nat}

/-- Behind such a stretch it does not matter whether the groups are counted from its start. -/
theorem inGroup_iff (h : Contained x p q) (le : p ≤ q) (after : q ≤ i) :
    InGroup x p i ↔ InGroup x q i := by
  constructor
  · rintro ⟨o, c, group, low, lt, inside⟩
    refine ⟨o, c, group, ?_, lt, inside⟩
    by_contra early
    obtain ⟨c', group', short⟩ := h.closed o low (by omega) group.code group.opener
    have := group.unique group'
    omega
  · intro inside
    exact inside.mono le

theorem trans (h : Contained x p q) (h' : Contained x q r) (le : p ≤ q) (le' : q ≤ r) :
    Contained x p r where
  closed o low high code opens := by
    rcases Nat.lt_or_ge o q with first | second
    · obtain ⟨c, group, short⟩ := h.closed o low first code opens
      exact ⟨c, group, Nat.lt_of_lt_of_le short le'⟩
    · exact h'.closed o second high code opens
  braced i low high code opens := by
    rcases Nat.lt_or_ge i q with first | second
    · exact h.braced i low first code opens
    · exact (h'.braced i second high code opens).mono le

theorem plain (h : ∀ i, p ≤ i → i < q → CodeAt x 0 i → ∀ kind : Delimiter,
    x[i]? ≠ some kind.opener) : Contained x p q where
  closed o low high code opens := absurd opens (h o low high code .paren)
  braced i low high code opens := absurd opens (h i low high code .brace)

theorem word (isWord : IsWord keyword) (h : WordAt x keyword p) :
    Contained x p (p + keyword.length) := by
  refine plain fun i low high _ kind opens => ?_
  have ident := h.any_isIdent isWord low high
  rw [opens] at ident
  cases kind <;> contradiction

theorem gap (h : NextCode x p o) : Contained x p o := by
  refine plain fun i low high code kind opens => ?_
  have blank := h.blank i low high code
  rw [opens] at blank
  cases kind <;> contradiction

theorem group (h : GroupAt x o c) : Contained x o (c + 1) where
  closed i low high code opens := by
    rcases Nat.eq_or_lt_of_le low with rfl | later
    · exact ⟨c, h, Nat.lt_succ_self c⟩
    · rcases Nat.eq_or_lt_of_le (Nat.le_of_lt_succ high) with rfl | inside
      · rw [h.closer] at opens
        contradiction
      · obtain ⟨c', group, short⟩ := h.nested code opens later inside
        exact ⟨c', group, Nat.lt_succ_of_lt short⟩
  braced i low high _ opens := by
    refine ⟨o, c, h, Nat.le_refl _, Nat.lt_of_le_of_ne low fun same => ?_,
      Nat.lt_of_le_of_ne (Nat.le_of_lt_succ high) fun same => ?_⟩
    · rw [← same, h.opener] at opens
      contradiction
    · rw [same, h.closer] at opens
      contradiction

/-- Such a stretch does not end in a group. -/
theorem not_inGroup (h : Contained x p q) : ¬ InGroup x p q := by
  rintro ⟨o, c, group, low, lt, inside⟩
  obtain ⟨c', group', short⟩ := h.closed o low lt group.code group.opener
  have := group.unique group'
  omega

end Contained

section Cut

variable {stop : Nat} (stops : Stops x stop)
include stops

theorem codeAt_take : CodeAt (x.take stop) 0 i ↔ CodeAt x 0 i ∧ i < stop := by
  constructor
  · rintro ⟨m, member, rfl, code⟩
    obtain ⟨member, _, inside⟩ := (mem_window_iff resumes_zero stops).mp member
    exact ⟨⟨m, member, rfl, code⟩, inside⟩
  · rintro ⟨⟨m, member, rfl, code⟩, inside⟩
    exact ⟨m, (mem_window_iff resumes_zero stops).mpr ⟨member, Nat.zero_le _, inside⟩, rfl, code⟩

theorem groupAt_take : GroupAt (x.take stop) o c ↔ GroupAt x o c ∧ c < stop := by
  have window : scan (x.take stop) 0 = (scan x 0).take stop := scan_window resumes_zero stops
  constructor
  · intro h
    have inside := (bounds_of_matchingClose h.matching).2
    rw [List.length_take] at inside
    obtain ⟨front, opener, inner, closer, behind, split, group⟩ := groupAt_iff.mp h
    refine ⟨groupAt_iff.mpr ⟨front, opener, inner, closer, behind ++ (scan x 0).drop stop, ?_,
      group⟩, by omega⟩
    have whole := List.take_append_drop stop (scan x 0)
    rw [← window, split] at whole
    exact whole.symm.trans (by simp)
  · rintro ⟨h, inside⟩
    obtain ⟨front, opener, inner, closer, behind, split, opens, balanced, closes, first, rfl⟩ :=
      groupAt_iff.mp h
    have split' : scan x 0 = (front ++ opener :: (inner ++ [closer])) ++ behind := by simp [split]
    have last : scan x 0 = (front ++ opener :: inner) ++ closer :: behind := by simp [split]
    have place := offset_of_split last
    have short : (front ++ opener :: (inner ++ [closer])).length ≤ stop := by
      simp only [List.length_append, List.length_cons, List.length_nil] at place ⊢
      omega
    have cut : (scan x 0).take stop = front ++ opener :: (inner ++ [closer]) ++
        behind.take (stop - (front ++ opener :: (inner ++ [closer])).length) := by
      rw [split', List.take_append, List.take_of_length_le short]
    exact groupAt_iff.mpr ⟨front, opener, inner, closer, _, (window.trans cut).trans (by simp; rfl),
      opens, balanced, closes, first, rfl⟩

theorem wordAt_take (isWord : IsWord keyword) (inside : i + keyword.length < stop) :
    WordAt (x.take stop) keyword i ↔ WordAt x keyword i := by
  have occurs : Occurs (x.take stop) keyword i ↔ Occurs x keyword i := by
    have code := codeAt_take (i := i) stops
    have spelled := prefix_drop_take_iff (y := x) (i := i) (n := stop) isWord.1
    constructor
    · intro h
      exact ⟨(code.mp h.code).1, (spelled.mp h.spelled).1⟩
    · intro h
      exact ⟨code.mpr ⟨h.code, by omega⟩, spelled.mpr ⟨h.spelled, by omega⟩⟩
  rw [wordAt_iff, wordAt_iff, occurs, List.getElem?_take_of_lt inside,
    List.getElem?_take_of_lt (by omega)]

theorem nextCode_take : NextCode (x.take stop) p o ↔ NextCode x p o ∧ o < stop := by
  constructor
  · intro h
    obtain ⟨code, inside⟩ := (codeAt_take stops).mp h.code
    have solid := h.solid
    rw [List.getElem?_take_of_lt inside] at solid
    refine ⟨⟨h.after, code, solid, fun k low high here => ?_⟩, inside⟩
    have blank := h.blank k low high ((codeAt_take stops).mpr ⟨here, by omega⟩)
    rwa [List.getElem?_take_of_lt (by omega)] at blank
  · rintro ⟨h, inside⟩
    refine ⟨h.after, (codeAt_take stops).mpr ⟨h.code, inside⟩, ?_, fun k low high here => ?_⟩
    · rw [List.getElem?_take_of_lt inside]
      exact h.solid
    · rw [List.getElem?_take_of_lt (by omega)]
      exact h.blank k low high ((codeAt_take stops).mp here).1

theorem groupBehind_take : GroupBehind (x.take stop) p o c ↔ GroupBehind x p o c ∧ c < stop := by
  constructor
  · intro h
    obtain ⟨group, inside⟩ := (groupAt_take stops).mp h.group
    exact ⟨⟨((nextCode_take stops).mp h.next).1, group⟩, inside⟩
  · rintro ⟨h, inside⟩
    have lt := h.group.lt
    exact ⟨(nextCode_take stops).mpr ⟨h.next, by omega⟩,
      (groupAt_take stops).mpr ⟨h.group, inside⟩⟩

theorem InGroup.of_take (h : InGroup (x.take stop) p i) : InGroup x p i := by
  obtain ⟨o, c, group, bounds⟩ := h
  exact ⟨o, c, ((groupAt_take stops).mp group).1, bounds⟩

variable {q : Nat} (h : Contained (x.take stop) p q) (le : q ≤ stop)
include h le

theorem Contained.inGroup_take (inside : i ≤ q) : InGroup (x.take stop) p i ↔ InGroup x p i := by
  constructor
  · exact (·.of_take stops)
  · rintro ⟨o, c, group, low, lt, high⟩
    have code := (codeAt_take stops).mpr ⟨group.code, by omega⟩
    have opener := group.opener
    rw [← List.getElem?_take_of_lt (by omega : o < stop)] at opener
    obtain ⟨c', group', short⟩ := h.closed o low (by omega) code opener
    obtain rfl := group.unique ((groupAt_take stops).mp group').1
    exact ⟨o, c, group', low, lt, high⟩

theorem Contained.of_take : Contained x p q where
  closed o low high code opener := by
    rw [← List.getElem?_take_of_lt (by omega : o < stop)] at opener
    obtain ⟨c, group, short⟩ :=
      h.closed o low high ((codeAt_take stops).mpr ⟨code, by omega⟩) opener
    exact ⟨c, ((groupAt_take stops).mp group).1, short⟩
  braced i low high code opener := by
    rw [← List.getElem?_take_of_lt (by omega : i < stop)] at opener
    exact (h.braced i low high ((codeAt_take stops).mpr ⟨code, by omega⟩) opener).of_take stops

end Cut

/-- From the keyword `opening`, with the group behind it, to the first `closing` behind the
group. -/
structure Stretch (x opening closing : Bytes) (start o c last : Nat) : Prop where
  begins : Occurs x opening start
  group : GroupBehind x (start + opening.length) o c
  after : c < last
  ends : Terminates x closing (c + 1) last
  unended : ∀ i, c < i → i < last → ¬ Terminates x closing (c + 1) i

namespace Stretch

variable (h : Stretch x opening closing start o c last)
include h

/-- A keyword inside that is not to be found between the group and the end stands in the group, or
at the end. -/
theorem inside (isWord : IsWord opening) (isWord' : IsWord closing) (isWord'' : IsWord keyword)
    (free : ∀ i, c < i → i < last → ¬ Terminates x keyword (c + 1) i)
    (terminates : Terminates x keyword 0 i) (low : start < i) (high : i < last + closing.length) :
    i = last ∨ o < i ∧ i + keyword.length ≤ c := by
  have begun := terminates.apart (by omega) isWord h.begins low
  have opened := h.group.lt_of_occurs isWord'' terminates.occurs (Nat.le_of_lt begun)
  rcases terminates.occurs.apart isWord'' h.group.group.closer (by decide) with behind | before
  · left
    rcases Nat.lt_trichotomy i last with inside | same | past
    · exact absurd (terminates.from' (by omega) _) (free i behind inside)
    · exact same
    · have := terminates.apart (by omega) isWord' h.ends.occurs past
      omega
  · exact .inr ⟨opened, before⟩

/-- Each closing keyword stands apart from the stretch, ends it or stands in its group. -/
theorem cases (isWord : IsWord opening) (isWord' : IsWord closing)
    (short : closing.length ≤ opening.length) (differ : ¬ closing <+: opening)
    (terminates : Terminates x closing 0 i) :
    (i + closing.length ≤ start ∨ last + closing.length ≤ i) ∨ i = last ∨
      o < i ∧ i + closing.length ≤ c := by
  rcases Nat.lt_or_ge i (last + closing.length) with high | past
  · rcases Nat.lt_trichotomy i start with before | same | low
    · left
      left
      by_contra across
      have ident : (x[i + closing.length]?).any Bytes.isIdent = true :=
        h.begins.any_isIdent_within isWord (by omega) (by omega)
      rw [terminates.behind] at ident
      contradiction
    · have both := List.prefix_of_prefix_length_le terminates.occurs.spelled
        (same ▸ h.begins.spelled) short
      contradiction
    · exact .inr (h.inside isWord isWord' isWord' h.unended terminates low high)
  · exact .inl (.inr past)

end Stretch

end PassCompiler.Source
