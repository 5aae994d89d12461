import PassCompiler.Proofs.Source.Resume

/-! What a keyword search finds. An occurrence is stated by offsets, without the search: the search
gives the first of them, and fails when there is none. -/
namespace PassCompiler.Source

variable {s keyword : Bytes} {range : Span} {boundary : Boundary} {m : Mark} {marks : List Mark}

theorem spells_iff {keyword : Bytes} {marks : List Mark} :
    spells keyword marks = true ↔ keyword <+: text marks := by
  induction keyword generalizing marks with
  | nil => simp [spells]
  | cons b rest ih =>
    cases marks with
    | nil => simp [spells, text]
    | cons m others =>
      have later := @ih others
      simp only [text] at later
      simp only [spells, text, List.map_cons, Bool.and_eq_true, beq_iff_eq, later,
        List.cons_prefix_cons]
      apply and_congr_left
      intro _
      exact eq_comm

theorem mem_spelled_iff :
    m ∈ spelled keyword marks ↔ ∃ k, marks[k]? = some m ∧ keyword <+: text (marks.drop k) := by
  induction marks with
  | nil => simp [spelled]
  | cons a rest ih =>
    have here : m ∈ spelled keyword (a :: rest) ↔
        (a = m ∧ keyword <+: text (a :: rest)) ∨ m ∈ spelled keyword rest := by
      rw [spelled]
      split
      · next spelt => simp [spells_iff.mp spelt, eq_comm]
      · next other => simp [mt spells_iff.mpr other]
    rw [here, ih]
    constructor
    · rintro (⟨rfl, spelt⟩ | ⟨k, at', spelt⟩)
      · exact ⟨0, rfl, spelt⟩
      · exact ⟨k + 1, at', spelt⟩
    · rintro ⟨k, at', spelt⟩
      cases k with
      | zero => exact .inl ⟨Option.some.inj at', spelt⟩
      | succ k => exact .inr ⟨k, at', spelt⟩

abbrev candidates (s : Bytes) (range : Span) (keyword : Bytes) : List Mark :=
  spelled keyword (scan (s.take range.stop) range.start)

theorem text_drop_scan (x : Bytes) (start k : Nat) :
    text ((scan x start).drop k) = x.drop (start + k) := by
  have whole : text (scan x start) = x.drop start := text_scanFrom ..
  rw [text] at whole ⊢
  rw [List.map_drop, whole, List.drop_drop]

theorem mem_candidates_iff_window : m ∈ candidates s range keyword ↔
    m ∈ scan (s.take range.stop) range.start ∧ keyword <+: (s.take range.stop).drop m.offset := by
  rw [mem_spelled_iff]
  constructor
  · rintro ⟨k, at', spelt⟩
    rw [text_drop_scan, ← offset_of_getElem?_scanFrom at'] at spelt
    exact ⟨List.mem_of_getElem? at', spelt⟩
  · rintro ⟨member, spelt⟩
    obtain ⟨k, at'⟩ := List.getElem?_of_mem member
    rw [offset_of_getElem?_scanFrom at', ← text_drop_scan] at spelt
    exact ⟨k, at', spelt⟩

theorem sorted_scanFrom (phase : Phase) (offset : Nat) (x : Bytes) :
    (scanFrom phase offset x).Pairwise (·.offset < ·.offset) := by
  induction x generalizing phase offset with
  | nil => exact .nil
  | cons b rest ih =>
    refine .cons (fun m member => ?_) (ih _ _)
    exact (bounds_of_mem_scanFrom member).1

theorem spelled_sublist : List.Sublist (spelled keyword marks) marks := by
  induction marks with
  | nil => exact .slnil
  | cons a rest ih =>
    rw [spelled]
    split
    · exact ih.cons_cons a
    · exact ih.cons a

/-- The first of sorted marks is the least. -/
theorem find?_eq_some_iff_of_sorted {p : Mark → Bool}
    (sorted : marks.Pairwise (·.offset < ·.offset)) : marks.find? p = some m ↔
      m ∈ marks ∧ p m = true ∧ ∀ a ∈ marks, p a = true → m.offset ≤ a.offset := by
  induction marks with
  | nil => simp
  | cons a rest ih =>
    obtain ⟨before, sorted⟩ := List.pairwise_cons.mp sorted
    cases holds : p a with
    | true =>
      rw [List.find?_cons_of_pos holds]
      constructor
      · intro same
        obtain rfl := Option.some.inj same
        refine ⟨List.mem_cons_self, holds, fun n member _ => ?_⟩
        rcases List.mem_cons.mp member with rfl | later
        · exact Nat.le_refl _
        · exact Nat.le_of_lt (before n later)
      · rintro ⟨member, _, least⟩
        rcases List.mem_cons.mp member with rfl | later
        · rfl
        · have := least a List.mem_cons_self holds
          have := before m later
          omega
    | false =>
      rw [List.find?_cons_of_neg (by simp [holds]), ih sorted]
      constructor
      · rintro ⟨member, here, least⟩
        refine ⟨List.mem_cons_of_mem _ member, here, fun n member holds' => ?_⟩
        rcases List.mem_cons.mp member with rfl | later
        · simp [holds] at holds'
        · exact least n later holds'
      · rintro ⟨member, here, least⟩
        rcases List.mem_cons.mp member with rfl | later
        · simp [holds] at here
        · exact ⟨later, here, fun n member => least n (List.mem_cons_of_mem _ member)⟩

theorem sorted_candidates : (candidates s range keyword).Pairwise (·.offset < ·.offset) :=
  (sorted_scanFrom ..).sublist spelled_sublist

structure Sighted (s : Bytes) (range : Span) (keyword : Bytes) (boundary : Boundary) (i : Nat) :
    Prop where
  code : ∃ m ∈ scan (s.take range.stop) range.start, m.offset = i ∧ m.isCode = true
  spelled : keyword <+: (s.take range.stop).drop i
  accepted : boundary.accepts s range.start ⟨i, i + keyword.length⟩ = true

theorem Sighted.start_le {i : Nat} (h : Sighted s range keyword boundary i) : range.start ≤ i := by
  obtain ⟨m, hm, rfl, _⟩ := h.code
  exact (bounds_of_mem_scan hm).1

theorem sighted_iff_candidate {i : Nat} : Sighted s range keyword boundary i ↔
    ∃ m ∈ candidates s range keyword, m.offset = i ∧ (m.isCode &&
      boundary.accepts s range.start ⟨m.offset, m.offset + keyword.length⟩) = true := by
  simp only [mem_candidates_iff_window, Bool.and_eq_true]
  constructor
  · rintro ⟨⟨m, member, rfl, code⟩, spelt, accepted⟩
    exact ⟨m, ⟨member, spelt⟩, rfl, code, accepted⟩
  · rintro ⟨m, ⟨member, spelt⟩, rfl, code, accepted⟩
    exact ⟨⟨m, member, rfl, code⟩, spelt, accepted⟩

theorem find_eq_found_iff_find? {span : Span} : find s range keyword boundary = .found span ↔
    ∃ m, (candidates s range keyword).find? (fun m => m.isCode &&
        boundary.accepts s range.start ⟨m.offset, m.offset + keyword.length⟩) = some m ∧
      span = ⟨m.offset, m.offset + keyword.length⟩ := by
  unfold find
  dsimp only
  split
  · next m hm =>
    simp only [hm, Sighting.found.injEq, Option.some.injEq, exists_eq_left']
    exact eq_comm
  · next hm => (split <;> simp [hm])

theorem find_eq_found_iff {span : Span} :
    find s range keyword boundary = .found span ↔
      span.stop = span.start + keyword.length ∧ Sighted s range keyword boundary span.start ∧
        ∀ j < span.start, ¬ Sighted s range keyword boundary j := by
  simp only [find_eq_found_iff_find?, find?_eq_some_iff_of_sorted sorted_candidates,
    sighted_iff_candidate]
  constructor
  · rintro ⟨m, ⟨member, holds, least⟩, rfl⟩
    refine ⟨rfl, ⟨m, member, rfl, holds⟩, ?_⟩
    rintro j lt ⟨a, member', rfl, holds'⟩
    exact absurd (least a member' holds') (Nat.not_le.mpr lt)
  · rintro ⟨long, ⟨m, member, place, holds⟩, first⟩
    refine ⟨m, ⟨member, holds, fun a member' holds' => ?_⟩, ?_⟩
    · by_contra before
      exact first a.offset (by omega) ⟨a, member', rfl, holds'⟩
    · obtain ⟨start, stop⟩ := span
      dsimp only at place long
      rw [long, place]

theorem find_ne_found_iff :
    (∀ span, find s range keyword boundary ≠ .found span) ↔
      ∀ i, ¬ Sighted s range keyword boundary i := by
  constructor
  · intro h i
    induction i using Nat.strongRecOn with
    | ind i first =>
      intro hi
      exact h ⟨i, i + keyword.length⟩ (find_eq_found_iff.mpr ⟨rfl, hi, first⟩)
  · intro h span found
    exact h _ (find_eq_found_iff.mp found).2.1

structure Occurs (s keyword : Bytes) (i : Nat) : Prop where
  code : ∃ m ∈ scan s 0, m.offset = i ∧ m.isCode = true
  spelled : keyword <+: s.drop i

theorem prefix_drop_take_iff {x y : Bytes} {i n : Nat} (nonempty : x ≠ []) :
    x <+: (y.take n).drop i ↔ x <+: y.drop i ∧ i + x.length ≤ n := by
  rw [List.drop_take]
  constructor
  · intro h
    have short := h.length_le
    have long := List.length_pos_iff.mpr nonempty
    rw [List.length_take] at short
    exact ⟨h.trans (List.take_prefix _ _), by omega⟩
  · rintro ⟨h, short⟩
    have cut : (y.drop i).take x.length = x := List.prefix_iff_eq_take.mp h |>.symm
    rw [← cut]
    exact List.take_prefix_take_left (by omega)

theorem sighted_iff {i : Nat} (nonempty : keyword ≠ []) (resumes : Resumes s range.start)
    (stops : Stops s range.stop) :
    Sighted s range keyword boundary i ↔
      range.start ≤ i ∧ i + keyword.length ≤ range.stop ∧ Occurs s keyword i ∧
        boundary.accepts s range.start ⟨i, i + keyword.length⟩ = true := by
  constructor
  · intro h
    obtain ⟨m, hm, same, code⟩ := h.code
    obtain ⟨member, after, _⟩ := mem_window resumes stops hm
    obtain ⟨spelt, inside⟩ := (prefix_drop_take_iff nonempty).mp h.spelled
    exact ⟨h.start_le, inside, ⟨⟨m, member, same, code⟩, spelt⟩, h.accepted⟩
  · rintro ⟨after, inside, ⟨⟨m, member, same, code⟩, spelt⟩, fits⟩
    have long := List.length_pos_iff.mpr nonempty
    refine ⟨⟨m, (mem_window_iff resumes stops).mpr ⟨member, ?_, ?_⟩, same, code⟩, ?_, fits⟩
    · omega
    · omega
    · exact (prefix_drop_take_iff nonempty).mpr ⟨spelt, inside⟩

end PassCompiler.Source
