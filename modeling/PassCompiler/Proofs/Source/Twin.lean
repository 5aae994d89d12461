import PassCompiler.Proofs.Source.Alike
import PassCompiler.Proofs.Source.Occurrence

/-! A source inside another one. The scan of the second, from `d` on, begins with the scan of the
first, comments apart. Every search of the first that finds something finds the same `d` bytes
further on in the second; where the second ends with the first, or the search is cut short, it
also fails in the second when it fails in the first. -/
namespace PassCompiler.Source

variable {strict final : Prop} {d : Nat} {s s' keyword : Bytes} {boundary : Boundary}

structure Twin (strict final : Prop) (d : Nat) (s s' : Bytes) : Prop where
  base : Resumes s' d
  tracks : ∃ marks more, (scan s' 0).drop d = marks ++ more ∧ Tracks strict d (scan s 0) marks ∧
    (final → more = [])
  /-- No keyword at the end of `s` goes on behind it. -/
  ending : final ∨ ∃ m ∈ scan s 0, m.offset + 1 = s.length ∧ m.isCode = true ∧
    Bytes.isIdent m.byte = false

@[simp] theorem length_scan_zero (s : Bytes) : (scan s 0).length = s.length := by simp [scan]

theorem offset_lt_of_mem {m : Mark} (h : m ∈ scan s 0) : m.offset < s.length :=
  (bounds_of_mem_scan h).2

theorem exists_mem_scan {i : Nat} (h : i < s.length) : ∃ m ∈ scan s 0, m.offset = i := by
  have at' := List.getElem?_eq_getElem (l := scan s 0) (i := i) (by simpa using h)
  refine ⟨_, List.mem_of_getElem? at', ?_⟩
  simpa using offset_of_getElem?_scanFrom at'

theorem eq_of_mem_scan {m n : Mark} (hm : m ∈ scan s 0) (hn : n ∈ scan s 0)
    (same : m.offset = n.offset) : m = n := by
  have left := mem_scan_iff.mp hm
  rw [same, mem_scan_iff.mp hn] at left
  exact (Option.some.inj left).symm

theorem adjacent_of_mem {m n : Mark} (hm : m ∈ scan s 0) (hn : n ∈ scan s 0)
    (next : n.offset = m.offset + 1) : Adjacent m n := by
  have chain := List.isChain_iff_getElem.mp (isChain_scan s 0)
  have lt : m.offset + 1 < (scan s 0).length := by
    rw [length_scan_zero, ← next]
    exact offset_lt_of_mem hn
  have near := chain m.offset lt
  have left := (List.getElem?_eq_some_iff.mp (mem_scan_iff.mp hm)).2
  have right := (List.getElem?_eq_some_iff.mp (next ▸ mem_scan_iff.mp hn)).2
  rwa [left, right] at near

def IsWord (x : Bytes) : Prop := x ≠ [] ∧ ∀ b ∈ x, Bytes.isIdent b = true

instance (x : Bytes) : Decidable (IsWord x) :=
  decidable_of_iff ((!x.isEmpty && x.all Bytes.isIdent) = true) (by simp [IsWord])

/-- A word that starts in code is code throughout. -/
theorem occurs_iff (isWord : IsWord keyword) {i : Nat} :
    Occurs s keyword i ↔ ∀ j b, keyword[j]? = some b →
      ∃ m ∈ scan s 0, m.offset = i + j ∧ m.isCode = true ∧ m.byte = b := by
  obtain ⟨nonempty, idents⟩ := isWord
  constructor
  · intro h j
    have spelt (j : Nat) (b : UInt8) (hb : keyword[j]? = some b) : s[i + j]? = some b := by
      obtain ⟨lt, rfl⟩ := List.getElem?_eq_some_iff.mp hb
      have same := List.prefix_iff_getElem?.mp h.spelled j lt
      rwa [List.getElem?_drop] at same
    induction j with
    | zero =>
      intro b hb
      obtain ⟨m, hm, at', code⟩ := h.code
      refine ⟨m, hm, at', code, ?_⟩
      have byte := getElem?_of_mem_scan hm
      rw [at', ← Nat.add_zero i, spelt 0 b hb] at byte
      exact (Option.some.inj byte).symm
    | succ j ih =>
      intro b hb
      have lt := (List.getElem?_eq_some_iff.mp hb).1
      obtain ⟨m, hm, at', code, _⟩ := ih keyword[j] (List.getElem?_eq_getElem (by omega))
      have here := spelt (j + 1) b hb
      obtain ⟨n, hn, next⟩ := exists_mem_scan (List.getElem?_eq_some_iff.mp here).1
      have byte := getElem?_of_mem_scan hn
      rw [next, here] at byte
      refine ⟨n, hn, next, ?_, (Option.some.inj byte).symm⟩
      by_contra comment
      have slash := (adjacent_of_mem hm hn (by omega)).1 code (by simpa using comment)
      have ident := idents b (List.mem_of_getElem? hb)
      rw [Option.some.inj byte, slash] at ident
      exact absurd ident (by decide)
  · intro h
    obtain ⟨first, rest, rfl⟩ := List.exists_cons_of_ne_nil nonempty
    obtain ⟨m, hm, at', code, _⟩ := h 0 first rfl
    refine ⟨⟨m, hm, at', code⟩, ?_⟩
    rw [List.prefix_iff_getElem?]
    intro j lt
    obtain ⟨n, hn, at', _, byte⟩ := h j _ (List.getElem?_eq_getElem lt)
    rw [List.getElem?_drop, ← at', getElem?_of_mem_scan hn, byte]

namespace Twin

variable (t : Twin strict final d s s')
include t

theorem length_le : s.length + d ≤ s'.length ∧ (final → s'.length = s.length + d) := by
  obtain ⟨marks, more, split, follows, last⟩ := t.tracks
  have long := follows.length_eq
  have whole := congrArg List.length split
  rw [length_scan_zero] at long
  rw [List.length_drop, length_scan_zero, List.length_append, ← long] at whole
  have start : d ≤ s'.length := by
    rcases t.base with rfl | ⟨m, hm, _, rfl⟩
    · exact Nat.zero_le _
    · exact offset_lt_of_mem hm
  constructor
  · omega
  · intro h
    rw [last h, List.length_nil] at whole
    omega

theorem mem {m : Mark} (h : m ∈ scan s 0) : ∃ n ∈ scan s' 0, m.Follows strict d n := by
  obtain ⟨marks, more, split, follows, _⟩ := t.tracks
  obtain ⟨i, hi⟩ := List.getElem?_of_mem h
  obtain ⟨lt, rfl⟩ := List.getElem?_eq_some_iff.mp hi
  have lt' : i < marks.length := follows.length_eq ▸ lt
  refine ⟨marks[i], ?_, follows.get lt lt'⟩
  apply List.mem_of_mem_drop (i := d)
  rw [split]
  exact List.mem_append_left _ (List.getElem_mem lt')

theorem mem_back {n : Mark} (h : n ∈ scan s' 0) (low : d ≤ n.offset)
    (high : n.offset < s.length + d) : ∃ m ∈ scan s 0, m.Follows strict d n := by
  obtain ⟨m, hm, at'⟩ := exists_mem_scan (s := s) (i := n.offset - d) (by omega)
  obtain ⟨n', hn', follows⟩ := t.mem hm
  have same := eq_of_mem_scan hn' h (by rw [follows.offset]; omega)
  exact ⟨m, hm, same ▸ follows⟩

theorem resumes {p : Nat} (h : Resumes s p) : Resumes s' (p + d) := by
  rcases h with rfl | ⟨m, hm, code, rfl⟩
  · rw [Nat.zero_add]
    exact t.base
  · obtain ⟨n, hn, follows⟩ := t.mem hm
    refine .inr ⟨n, hn, follows.isCode.trans code, ?_⟩
    have := follows.offset
    omega

theorem stops {p : Nat} (h : Stops s p) (lt : p < s.length) : Stops s' (p + d) := by
  rcases h with past | ⟨m, hm, code, rfl⟩
  · omega
  · obtain ⟨n, hn, follows⟩ := t.mem hm
    exact .inr ⟨n, hn, follows.isCode.trans code, follows.offset⟩

end Twin

/-- Where corresponding searches end: each at the end of its source, or both before one code
byte. -/
inductive Ends (d : Nat) (s s' : Bytes) : (cut : Prop) → Nat → Nat → Prop where
  | whole : Ends d s s' False s.length s'.length
  | at {stop : Nat} : Stops s stop → stop < s.length → Ends d s s' True stop (stop + d)

/-- What is found is found in the second source, too; `final` says that nothing else is. -/
structure Found {α β : Type} (final : Prop) (R : α → β → Prop) (a : Option α) (b : Option β) :
    Prop where
  some : ∀ x, a = some x → ∃ y, b = some y ∧ R x y
  none : final → a = none → b = none

theorem Found.imp {p q : Prop} {α β : Type} {R : α → β → Prop} {a : Option α} {b : Option β}
    (found : Found q R a b) (h : p → q) : Found p R a b :=
  ⟨found.some, fun last => found.none (h last)⟩

theorem rel_cases {α β : Type} {R : α → β → Prop} {a : Option α} {b : Option β}
    (h : Option.Rel R a b) :
    (a = Option.none ∧ b = Option.none) ∨
      ∃ x y, a = Option.some x ∧ b = Option.some y ∧ R x y := by
  cases h with
  | none => exact .inl ⟨rfl, rfl⟩
  | some both => exact .inr ⟨_, _, rfl, rfl, both⟩

theorem found_of_rel {α β : Type} {R : α → β → Prop} {a : Option α} {b : Option β} (final : Prop)
    (h : Option.Rel R a b) : Found final R a b := by
  cases h with
  | none => exact ⟨by simp, fun _ _ => rfl⟩
  | some both => exact ⟨fun x hx => ⟨_, rfl, Option.some.inj hx ▸ both⟩, by simp⟩

namespace Twin

variable (t : Twin strict final d s s') {cut : Prop} {start stop stop' : Nat}
include t

theorem stops_of_ends (ends : Ends d s s' cut stop stop') : Stops s stop ∧ Stops s' stop' := by
  cases ends with
  | whole => exact ⟨stops_length, stops_length⟩
  | «at» h lt => exact ⟨h, t.stops h lt⟩

theorem window (resumes : Resumes s start) (ends : Ends d s s' cut stop stop') :
    ∃ marks more, scan (s'.take stop') (start + d) = marks ++ more ∧
      Tracks strict d (scan (s.take stop) start) marks ∧ (final ∨ cut → more = []) := by
  obtain ⟨stops, stops'⟩ := t.stops_of_ends ends
  rw [scan_window resumes stops, scan_window (t.resumes resumes) stops']
  obtain ⟨marks, more, split, follows, last⟩ := t.tracks
  have long := follows.length_eq
  rw [length_scan_zero] at long
  cases ends with
  | whole =>
    have start_le : start ≤ marks.length := by
      rw [← long]
      rcases resumes with rfl | ⟨m, hm, _, rfl⟩
      · exact Nat.zero_le _
      · exact offset_lt_of_mem hm
    refine ⟨marks.drop start, more, ?_, ?_, by simpa using last⟩
    · rw [List.take_of_length_le (by simp), Nat.add_comm, ← List.drop_drop, split,
        List.drop_append_of_le_length start_le]
    · rw [List.take_of_length_le (by simp)]
      exact List.forall₂_drop _ follows
  | «at» h lt =>
    refine ⟨(marks.take stop).drop start, [], ?_, List.forall₂_drop _ (List.forall₂_take _ follows),
      fun _ => rfl⟩
    have moved : ((scan s' 0).take (stop + d)).drop (start + d) =
        (((scan s' 0).drop d).take stop).drop start := by
      rw [List.take_drop, Nat.add_comm d stop, List.drop_drop, Nat.add_comm start d]
    rw [moved, split, List.take_append_of_le_length (by omega), List.append_nil]

theorem tracks_window {start stop : Nat} (resumes : Resumes s start) (stops : Stops s stop)
    (lt : stop < s.length) :
    Tracks strict d (scan (s.take stop) start) (scan (s'.take (stop + d)) (start + d)) := by
  obtain ⟨marks, more, split, follows, last⟩ := t.window resumes (.at stops lt)
  rw [last (.inr trivial), List.append_nil] at split
  rwa [split]

theorem nextCode (resumes : Resumes s start) (ends : Ends d s s' cut stop stop') :
    Found (final ∨ cut) (Mark.Follows strict d) (Source.nextCode s start stop)
      (Source.nextCode s' (start + d) stop') := by
  obtain ⟨marks, more, split, follows, last⟩ := t.window resumes ends
  have found := forall₂_find? (p := fun m => m.isCode && !Bytes.isBlank m.byte)
    (q := fun m => m.isCode && !Bytes.isBlank m.byte) (by
      intro m n same
      cases code : m.isCode with
      | false => simp [same.isCode, code]
      | true => simp [same.isCode, code, same.byte (.inr code)]) follows
  unfold Source.nextCode
  rw [split, List.find?_append]
  obtain ⟨some, none⟩ := found_of_rel True found
  constructor
  · intro m hm
    obtain ⟨n, hn, same⟩ := some m hm
    exact ⟨n, by rw [hn, Option.some_or], same⟩
  · intro h hm
    rw [none trivial hm, last h]
    rfl

/-- The group behind an opener of code. -/
theorem matchingClose {m : Mark} {kind : Delimiter} (hm : m ∈ scan s 0)
    (opens : m.isCodeByte kind.opener = true) (inside : m.offset < stop)
    (ends : Ends d s s' cut stop stop') :
    Found (final ∨ cut) (fun c c' => c' = c + d)
      (Source.matchingClose (s.take stop) m.offset)
      (Source.matchingClose (s'.take stop') (m.offset + d)) := by
  obtain ⟨code, byte⟩ := Mark.isCodeByte_iff.mp opens
  obtain ⟨n, hn, same⟩ := t.mem hm
  have inside' : m.offset + d < stop' := by
    cases ends with
    | whole =>
      have := t.length_le.1
      omega
    | «at» => omega
  have here : (s.take stop)[m.offset]? = some kind.opener := by
    rw [List.getElem?_take_of_lt inside, getElem?_of_mem_scan hm, byte]
  have there : (s'.take stop')[m.offset + d]? = some kind.opener := by
    rw [List.getElem?_take_of_lt inside', ← same.offset, getElem?_of_mem_scan hn,
      same.byte (.inr code), byte]
  rw [matchingClose_eq here, matchingClose_eq there, Nat.add_right_comm]
  obtain ⟨marks, more, split, follows, last⟩ := t.window (resumes_of_mem hm code) ends
  rw [split]
  obtain ⟨some, none⟩ := found_of_rel True (Group.close?_tracks (g := ⟨kind, 1⟩) follows)
  constructor
  · intro c hc
    obtain ⟨⟨closer, behind⟩, found, rfl⟩ := Option.map_eq_some_iff.mp hc
    obtain ⟨⟨closer', behind'⟩, found', both⟩ := some _ found
    refine ⟨closer'.offset, ?_, both.1.offset⟩
    rw [Group.close?_append found', Option.map_some]
  · intro h hc
    rw [last h, List.append_nil, none trivial (Option.map_eq_none_iff.mp hc), Option.map_none]

theorem byte_behind {m : Mark} (hm : m ∈ scan s 0) (code : m.isCode = true)
    (inside : m.offset + 1 < s.length) : s'[m.offset + 1 + d]? = s[m.offset + 1]? := by
  obtain ⟨a, ha, next⟩ := exists_mem_scan inside
  obtain ⟨n, hn, follows⟩ := t.mem hm
  obtain ⟨b, hb, follows'⟩ := t.mem ha
  rw [← next, getElem?_of_mem_scan ha, ← follows'.offset, getElem?_of_mem_scan hb]
  cases code' : a.isCode with
  | true => rw [follows'.byte (.inr code')]
  | false =>
    have slash := (adjacent_of_mem hm ha next).1 code code'
    have slash' := (adjacent_of_mem hn hb (by rw [follows'.offset, follows.offset]; omega)).1
      (follows.isCode.trans code) (follows'.isCode.trans code')
    rw [slash, slash']

theorem byte_before {m : Mark} (hm : m ∈ scan s 0) (code : m.isCode = true)
    (sameLine : m.byte ≠ 0x0A) {i : Nat} (at' : m.offset = i + 1) : s'[i + d]? = s[i]? := by
  have lt := offset_lt_of_mem hm
  obtain ⟨a, ha, before⟩ := exists_mem_scan (s := s) (i := i) (by omega)
  obtain ⟨n, hn, follows⟩ := t.mem hm
  obtain ⟨b, hb, follows'⟩ := t.mem ha
  rw [← before, getElem?_of_mem_scan ha, ← follows'.offset, getElem?_of_mem_scan hb]
  cases code' : a.isCode with
  | true => rw [follows'.byte (.inr code')]
  | false =>
    have byte := follows.byte (.inr code)
    have slash := (adjacent_of_mem ha hm (by omega)).2 code' code
    have slash' := (adjacent_of_mem hb hn (by rw [follows'.offset, follows.offset]; omega)).2
      (follows'.isCode.trans code') (follows.isCode.trans code)
    rw [byte] at slash'
    rw [slash.resolve_left sameLine, slash'.resolve_left sameLine]

variable (isWord : IsWord keyword)
include isWord

theorem occurs {i : Nat} (inside : i + keyword.length ≤ s.length) :
    Occurs s' keyword (i + d) ↔ Occurs s keyword i := by
  rw [occurs_iff isWord, occurs_iff isWord]
  constructor
  · intro h j b hb
    have lt := (List.getElem?_eq_some_iff.mp hb).1
    obtain ⟨n, hn, at', code, byte⟩ := h j b hb
    obtain ⟨m, hm, follows⟩ := t.mem_back hn (by omega) (by omega)
    have code' := follows.isCode.symm.trans code
    have := follows.offset
    exact ⟨m, hm, by omega, code', (follows.byte (.inr code')).symm.trans byte⟩
  · intro h j b hb
    obtain ⟨m, hm, at', code, byte⟩ := h j b hb
    obtain ⟨n, hn, follows⟩ := t.mem hm
    have := follows.offset
    exact ⟨n, hn, by omega, follows.isCode.trans code, (follows.byte (.inr code)).trans byte⟩

theorem accepts {i : Nat} (h : Occurs s keyword i) (after : start ≤ i) :
    boundary.accepts s' (start + d) ⟨i + d, i + d + keyword.length⟩ =
      boundary.accepts s start ⟨i, i + keyword.length⟩ := by
  have long := List.length_pos_iff.mpr isWord.1
  have bytes := (occurs_iff isWord).mp h
  obtain ⟨m, hm, at', code, byte⟩ := bytes 0 keyword[0] (List.getElem?_eq_getElem long)
  obtain ⟨z, hz, at'', code', byte'⟩ := bytes (keyword.length - 1) keyword[keyword.length - 1]
    (List.getElem?_eq_getElem (by omega))
  have ident : Bytes.isIdent m.byte = true := byte ▸ isWord.2 _ (List.getElem_mem _)
  have ident' : Bytes.isIdent z.byte = true := byte' ▸ isWord.2 _ (List.getElem_mem _)
  have leading : (i + d == start + d || (s'[i + d - 1]?).any boundary.before) =
      (i == start || (s[i - 1]?).any boundary.before) := by
    rcases Nat.eq_or_lt_of_le after with rfl | later
    · simp
    · obtain ⟨k, rfl⟩ : ∃ k, i = k + 1 := ⟨i - 1, by omega⟩
      have sameLine : m.byte ≠ 0x0A := by
        intro h
        rw [h] at ident
        exact absurd ident (by decide)
      rw [show k + 1 + d - 1 = k + d by omega, Nat.add_sub_cancel,
        t.byte_before hm code sameLine (by omega)]
      simp only [Nat.add_right_cancel_iff, beq_eq_decide]
  have trailing : (s'[i + d + keyword.length]?).any Bytes.isIdent =
      (s[i + keyword.length]?).any Bytes.isIdent := by
    have last := offset_lt_of_mem hz
    rcases Nat.lt_or_ge (z.offset + 1) s.length with inside | outside
    · have same := t.byte_behind hz code' inside
      rw [show i + d + keyword.length = z.offset + 1 + d by omega,
        show i + keyword.length = z.offset + 1 by omega, same]
    · rcases t.ending with h | ⟨e, he, at', _, other⟩
      · have := t.length_le.2 h
        rw [List.getElem?_eq_none (by omega), List.getElem?_eq_none (by omega)]
      · have same := eq_of_mem_scan he hz (by omega)
        rw [same, ident'] at other
        contradiction
  simp only [Boundary.accepts, leading, trailing]

theorem sighted {i : Nat} (resumes : Resumes s start) (ends : Ends d s s' cut stop stop')
    (inside : i + keyword.length ≤ stop) :
    Sighted s' ⟨start + d, stop'⟩ keyword boundary (i + d) ↔
      Sighted s ⟨start, stop⟩ keyword boundary i := by
  obtain ⟨stops, stops'⟩ := t.stops_of_ends ends
  have bounds : stop ≤ s.length ∧ stop + d ≤ stop' := by
    cases ends with
    | whole => exact ⟨Nat.le_refl _, t.length_le.1⟩
    | «at» _ lt => exact ⟨by omega, Nat.le_refl _⟩
  rw [sighted_iff (s := s) isWord.1 resumes stops,
    sighted_iff (s := s') isWord.1 (t.resumes resumes) stops', t.occurs isWord (by omega)]
  dsimp only
  constructor
  · rintro ⟨after, _, h, fits⟩
    rw [t.accepts isWord h (by omega)] at fits
    exact ⟨by omega, inside, h, fits⟩
  · rintro ⟨after, _, h, fits⟩
    rw [← t.accepts isWord h after] at fits
    exact ⟨by omega, by omega, h, fits⟩

theorem find_found (resumes : Resumes s start) (ends : Ends d s s' cut stop stop') {span : Span}
    (h : find s ⟨start, stop⟩ keyword boundary = .found span) :
    find s' ⟨start + d, stop'⟩ keyword boundary = .found ⟨span.start + d, span.stop + d⟩ := by
  obtain ⟨long, here, first⟩ := find_eq_found_iff.mp h
  have inside := ((sighted_iff isWord.1 resumes (t.stops_of_ends ends).1).mp here).2.1
  refine find_eq_found_iff.mpr ⟨?_, ?_, ?_⟩
  · dsimp only
    omega
  · exact (t.sighted isWord resumes ends inside).mpr here
  · intro j lt hj
    dsimp only at lt inside
    obtain ⟨i, rfl⟩ : ∃ i, j = i + d := ⟨j - d, by have := hj.start_le; dsimp only at this; omega⟩
    exact first i (by omega)
      ((t.sighted isWord resumes ends (by omega)).mp hj)

theorem find_absent (resumes : Resumes s start) (ends : Ends d s s' cut stop stop')
    (closed : final ∨ cut) (h : ∀ span, find s ⟨start, stop⟩ keyword boundary ≠ .found span) :
    ∀ span, find s' ⟨start + d, stop'⟩ keyword boundary ≠ .found span := by
  rw [find_ne_found_iff] at h ⊢
  intro j hj
  obtain ⟨i, rfl⟩ : ∃ i, j = i + d := ⟨j - d, by have := hj.start_le; dsimp only at this; omega⟩
  have last : stop' = stop + d := by
    cases ends with
    | whole => exact t.length_le.2 (closed.resolve_right id)
    | «at» => rfl
  have inside := ((sighted_iff isWord.1 (t.resumes resumes) (t.stops_of_ends ends).2).mp hj).2.1
  dsimp only at inside
  exact h i ((t.sighted isWord resumes ends (by omega)).mp hj)

end Twin
end PassCompiler.Source
