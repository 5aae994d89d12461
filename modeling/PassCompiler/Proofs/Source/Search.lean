import Mathlib.Order.Bounds.Basic
import PassCompiler.Proofs.Source.Phase

/-! All that a keyword search shows. Which places count is said of the whole text: a search cuts its
scan off at the end of the range, which makes no byte of a keyword code or comment that was not.
Main statement: `find_cases`. -/
namespace PassCompiler.Source

variable {s keyword : Bytes} {range span : Span} {boundary : Boundary} {i start stop : Nat}
  {m : Mark}

/-- `keyword` stands at offset `i`, inside `range`, with surroundings that fit a search there. -/
structure Matches (s : Bytes) (range : Span) (keyword : Bytes) (boundary : Boundary) (i : Nat) :
    Prop where
  after : range.start ≤ i
  inside : i + keyword.length ≤ range.stop
  spelled : keyword <+: s.drop i
  accepted : boundary.accepts s range.start ⟨i, i + keyword.length⟩ = true

def CodeAt (s : Bytes) (start i : Nat) : Prop := ∃ m ∈ scan s start, m.offset = i ∧ m.isCode = true

instance (s : Bytes) (start i : Nat) : Decidable (CodeAt s start i) :=
  inferInstanceAs (Decidable (∃ m ∈ scan s start, _))

theorem mem_candidates_iff (nonempty : keyword ≠ []) : m ∈ candidates s range keyword ↔
    m ∈ scan (s.take range.stop) range.start ∧ m.offset + keyword.length ≤ range.stop ∧
      keyword <+: s.drop m.offset := by
  rw [mem_candidates_iff_window, prefix_drop_take_iff nonempty, and_comm (a := keyword <+: _)]

/-- A byte of no marker does not look at the next one. -/
theorem Phase.step_calm {phase : Phase} {b : UInt8} (calm : Calm b) (next next' : Option UInt8) :
    phase.step b next = phase.step b next' := by
  obtain ⟨slash, star⟩ := calm
  cases phase <;> grind [Phase.step]

/-- Where a text is cut off does not matter to the bytes that belong to no marker. -/
theorem region_take {k : Nat} {n : Mark} {x : Bytes}
    (whole : (scanFrom .code start x)[i]? = some m)
    (cut : (scanFrom .code start (x.take k))[i]? = some n) (calm : Calm m.byte) :
    n.region = m.region := by
  have lt : i < k := by
    obtain ⟨lt, _⟩ := List.getElem?_eq_some_iff.mp cut
    rw [length_scanFrom, List.length_take] at lt
    omega
  have same : m.byte = n.byte := by
    have byte := byte_of_getElem?_scanFrom cut
    rw [List.getElem?_take_of_lt lt, byte_of_getElem?_scanFrom whole] at byte
    exact Option.some.inj byte
  have region := region_of_getElem?_scanFrom cut
  rw [List.getElem?_take_of_lt lt, List.take_take, Nat.min_eq_left (Nat.le_of_lt lt), ← same]
    at region
  rw [region, region_of_getElem?_scanFrom whole]
  exact congrArg Prod.fst (Phase.step_calm calm _ _)

theorem getElem?_of_mem_window (h : m ∈ scan (s.take stop) start) : s[m.offset]? = some m.byte := by
  obtain ⟨k, at'⟩ := List.getElem?_of_mem h
  have byte := byte_of_getElem?_scanFrom at'
  rw [List.getElem?_drop, List.getElem?_take] at byte
  split at byte
  · rwa [offset_of_getElem?_scanFrom at']
  · contradiction

theorem calm_of_mem_candidates (isWord : IsWord keyword) (h : m ∈ candidates s range keyword) :
    Calm m.byte := by
  obtain ⟨member, _, spelt⟩ := (mem_candidates_iff isWord.1).mp h
  obtain ⟨b, letters, rfl⟩ := List.exists_cons_of_ne_nil isWord.1
  obtain ⟨rest, spelt⟩ := spelt
  have first : s[m.offset]? = some b := by
    have head := congrArg List.head? spelt
    rw [List.head?_drop] at head
    exact head.symm
  obtain rfl := Option.some.inj (first.symm.trans (getElem?_of_mem_window member))
  exact neutral_of_isIdent isWord.2 _ List.mem_cons_self

/-- A search sees code where the whole text has it. -/
theorem isCode_iff_codeAt (isWord : IsWord keyword) (h : m ∈ candidates s range keyword) :
    m.isCode = true ↔ CodeAt s range.start m.offset := by
  have member := ((mem_candidates_iff isWord.1).mp h).1
  obtain ⟨k, cut⟩ := List.getElem?_of_mem member
  have long : k < (scan s range.start).length := by
    have := (List.getElem?_eq_some_iff.mp cut).1
    simp only [scan, length_scanFrom, List.length_drop, List.length_take] at this ⊢
    omega
  obtain ⟨n, whole⟩ : ∃ n, (scan s range.start)[k]? = some n := ⟨_, List.getElem?_eq_getElem long⟩
  have place := offset_of_getElem?_scanFrom cut
  have place' := offset_of_getElem?_scanFrom whole
  have region : m.region = n.region := by
    have byte := byte_of_getElem?_scanFrom whole
    rw [List.getElem?_drop, ← place, getElem?_of_mem_window member] at byte
    rw [scan, List.drop_take] at cut
    exact region_take whole cut (Option.some.inj byte ▸ calm_of_mem_candidates isWord h)
  constructor
  · intro code
    refine ⟨n, List.mem_of_getElem? whole, place'.trans place.symm, ?_⟩
    rwa [Mark.isCode_iff, ← region, ← Mark.isCode_iff]
  · rintro ⟨a, there, offset, code⟩
    obtain ⟨j, here⟩ := List.getElem?_of_mem there
    have := offset_of_getElem?_scanFrom here
    obtain rfl : j = k := by omega
    obtain rfl := Option.some.inj (here.symm.trans whole)
    rwa [Mark.isCode_iff, region, ← Mark.isCode_iff]

theorem matches_iff (nonempty : keyword ≠ []) : Matches s range keyword boundary i ↔
    ∃ m ∈ candidates s range keyword, m.offset = i ∧
      boundary.accepts s range.start ⟨m.offset, m.offset + keyword.length⟩ = true := by
  constructor
  · rintro ⟨after, inside, spelt, accepted⟩
    have long := List.length_pos_iff.mpr nonempty
    have short := spelt.length_le
    rw [List.length_drop] at short
    have lt : i - range.start < (scan (s.take range.stop) range.start).length := by
      simp only [scan, length_scanFrom, List.length_drop, List.length_take]
      omega
    have at' := List.getElem?_eq_getElem lt
    have place := offset_of_getElem?_scanFrom at'
    rw [Nat.add_sub_cancel' after] at place
    refine ⟨_, (mem_candidates_iff nonempty).mpr ⟨List.mem_of_getElem? at', ?_, ?_⟩, place, ?_⟩
    · rwa [place]
    · rwa [place]
    · rwa [place]
  · rintro ⟨m, member, rfl, accepted⟩
    obtain ⟨marked, inside, spelt⟩ := (mem_candidates_iff nonempty).mp member
    exact ⟨(bounds_of_mem_scan marked).1, inside, spelt, accepted⟩

/-- The first mark that a search may stop at. -/
theorem find?_candidates (s : Bytes) (range : Span) (boundary : Boundary)
    (nonempty : keyword ≠ []) {p : Mark → Bool} {q : Nat → Prop}
    (same : ∀ m ∈ candidates s range keyword, p m = true ↔ q m.offset) :
    (∀ m, (candidates s range keyword).find? (fun m => p m &&
        boundary.accepts s range.start ⟨m.offset, m.offset + keyword.length⟩) = some m →
      IsLeast {i | Matches s range keyword boundary i ∧ q i} m.offset) ∧
    ((candidates s range keyword).find? (fun m => p m &&
        boundary.accepts s range.start ⟨m.offset, m.offset + keyword.length⟩) = none →
      ∀ i, Matches s range keyword boundary i → ¬ q i) := by
  constructor
  · intro m found
    obtain ⟨member, both, least⟩ := (find?_eq_some_iff_of_sorted sorted_candidates).mp found
    obtain ⟨holds, accepted⟩ := Bool.and_eq_true_iff.mp both
    refine ⟨⟨(matches_iff nonempty).mpr ⟨m, member, rfl, accepted⟩, (same m member).mp holds⟩, ?_⟩
    rintro i ⟨here, holds'⟩
    obtain ⟨a, member', rfl, accepted'⟩ := (matches_iff nonempty).mp here
    exact least a member' (Bool.and_eq_true_iff.mpr ⟨(same a member').mpr holds', accepted'⟩)
  · intro none i here holds
    obtain ⟨a, member, rfl, accepted⟩ := (matches_iff nonempty).mp here
    have refused := List.find?_eq_none.mp none a member
    rw [(same a member).mpr holds, accepted] at refused
    contradiction

/-- The answer of a search: the first match in code, else the first match, else none. -/
theorem find_cases (s : Bytes) (range : Span) (boundary : Boundary) (isWord : IsWord keyword) :
    (∃ i, IsLeast {i | Matches s range keyword boundary i ∧ CodeAt s range.start i} i ∧
      find s range keyword boundary = .found ⟨i, i + keyword.length⟩) ∨
    (∀ i, Matches s range keyword boundary i → ¬ CodeAt s range.start i) ∧
      ((∃ i, IsLeast {i | Matches s range keyword boundary i} i ∧
          find s range keyword boundary = .commented ⟨i, i + keyword.length⟩) ∨
        (∀ i, ¬ Matches s range keyword boundary i) ∧
          find s range keyword boundary = .absent) := by
  obtain ⟨first, none⟩ := find?_candidates s range boundary isWord.1
    fun _ member => isCode_iff_codeAt isWord member
  obtain ⟨first', none'⟩ := find?_candidates s range boundary isWord.1 (p := fun _ => true)
    (q := fun _ => True) fun _ _ => by simp
  simp only [Bool.true_and, and_true, not_true] at first' none'
  unfold find
  dsimp only
  split
  · next m found => exact .inl ⟨m.offset, first m found, rfl⟩
  · next missing =>
    refine .inr ⟨none missing, ?_⟩
    split
    · next m found => exact .inl ⟨m.offset, first' m found, rfl⟩
    · next missing' => exact .inr ⟨none' missing', rfl⟩

end PassCompiler.Source
