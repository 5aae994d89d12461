import PassCompiler.Proofs.Source.Phase

/-! Texts put together from parts with a byte between them that belongs to no word and to no marker.
A scan marks each part as it does alone, and a word stands in one of them. -/
namespace PassCompiler.Source

variable {p x y keyword : Bytes} {b : UInt8} {boundary : Boundary} {i n offset : Nat}

/-- A byte that ends words and neither begins nor completes a marker. -/
structure Divides (b : UInt8) : Prop where
  calm : Calm b
  ident : Bytes.isIdent b = false

instance (b : UInt8) : Decidable (Divides b) :=
  decidable_of_iff (Calm b ∧ Bytes.isIdent b = false) ⟨fun h => ⟨h.1, h.2⟩, fun h => ⟨h.1, h.2⟩⟩

theorem divides_of_isBlank (blank : Bytes.isBlank b = true) : Divides b where
  calm := by constructor <;> rintro rfl <;> contradiction
  ident := Bytes.not_isIdent_of_isBlank blank

theorem scanFrom_calm (calm : Calm b) (offset : Nat) (y : Bytes) :
    scanFrom .code offset (b :: y) = ⟨offset, b, .code⟩ :: scanFrom .code (offset + 1) y := by
  have step : Phase.code.step b y.head? = (.code, .code) := by simp [Phase.step, calm.1]
  rw [scanFrom_cons, step]

theorem scanFrom_divided (closed : Closed x) (calm : Calm b) (offset : Nat) (y : Bytes) :
    scanFrom .code offset (x ++ b :: y) = scanFrom .code offset x ++
      ⟨offset + x.length, b, .code⟩ :: scanFrom .code (offset + x.length + 1) y := by
  have seam : Phase.code.behind x (b :: y).head? = .code := (Phase.behind_calm calm).trans closed
  rw [scanFrom_seam seam, scanFrom_calm calm]

theorem Closed.divided (hx : Closed x) (calm : Calm b) (hy : Closed y) : Closed (x ++ b :: y) := by
  have step : Phase.code.step b (y.head?.or none) = (.code, .code) := by
    simp [Phase.step, calm.1]
  rw [Closed, Phase.behind_append, List.head?_cons, Option.some_or, Phase.behind_calm calm, hx,
    Phase.behind, step]
  exact hy

structure WordAt (x keyword : Bytes) (i : Nat) : Prop where
  occurs : Occurs x keyword i
  accepted : Boundary.word.accepts x 0 ⟨i, i + keyword.length⟩ = true

instance (x keyword : Bytes) (i : Nat) : Decidable (WordAt x keyword i) :=
  decidable_of_iff (((∃ m ∈ scan x 0, m.offset = i ∧ m.isCode = true) ∧ keyword <+: x.drop i) ∧
      Boundary.word.accepts x 0 ⟨i, i + keyword.length⟩ = true)
    ⟨fun h => ⟨⟨h.1.1, h.1.2⟩, h.2⟩, fun h => ⟨⟨h.1.code, h.1.spelled⟩, h.2⟩⟩

theorem Terminates.wordAt (h : Terminates x keyword 0 i) : WordAt x keyword i := by
  refine ⟨h.occurs, ?_⟩
  rw [Boundary.accepts, h.behind, Bool.not_false, Bool.and_true, Bool.or_eq_true]
  by_cases first : i = 0
  · exact .inl (by simpa using first)
  · obtain ⟨c, before, blank⟩ := h.blank first
    right
    rw [before, Option.any_some, Boundary.before, Bytes.not_isIdent_of_isBlank blank,
      Bool.not_false]

theorem wordAt_iff_sighted (nonempty : keyword ≠ []) :
    WordAt x keyword i ↔ Sighted x ⟨0, x.length⟩ keyword .word i := by
  rw [sighted_iff nonempty resumes_zero stops_length]
  constructor
  · intro h
    exact ⟨Nat.zero_le _, h.occurs.le_length, h.occurs, h.accepted⟩
  · rintro ⟨_, _, occurs, accepted⟩
    exact ⟨occurs, accepted⟩

/-- A search that starts behind a text does not depend on it. -/
theorem sighted_append : Sighted (p ++ y) ⟨p.length, p.length + n⟩ keyword boundary (p.length + i) ↔
    Sighted y ⟨0, n⟩ keyword boundary i := by
  have cut : (p ++ y).take (p.length + n) = p ++ y.take n := List.take_length_add_append n
  have window : scan ((p ++ y).take (p.length + n)) p.length =
      (scan (y.take n) 0).map (Mark.shift p.length) := by
    have shifted := scanFrom_add .code 0 p.length (y.take n)
    rw [Nat.zero_add] at shifted
    rw [cut, scan, List.drop_left, shifted]
    rfl
  have get (k : Nat) : (p ++ y)[p.length + k]? = y[k]? := by
    rw [List.getElem?_append_right (Nat.le_add_right _ _), Nat.add_sub_cancel_left]
  have same : boundary.accepts (p ++ y) p.length ⟨p.length + i, p.length + i + keyword.length⟩ =
      boundary.accepts y 0 ⟨i, i + keyword.length⟩ := by
    simp only [Boundary.accepts, Nat.add_assoc, get]
    cases i with
    | zero => simp
    | succ i =>
      have later : (p.length + (i + 1) == p.length) = false := beq_false_of_ne (by omega)
      rw [show p.length + (i + 1) - 1 = p.length + i by omega, get, later]
      simp
  constructor
  · rintro ⟨⟨m, hm, place, code⟩, spelled, accepted⟩
    dsimp only at hm spelled
    rw [window] at hm
    obtain ⟨k, hk, rfl⟩ := List.mem_map.mp hm
    refine ⟨⟨k, hk, ?_, code⟩, ?_, same ▸ accepted⟩
    · simp only [Mark.shift] at place
      omega
    · rwa [cut, List.drop_length_add_append] at spelled
  · rintro ⟨⟨m, hm, place, code⟩, spelled, accepted⟩
    refine ⟨⟨m.shift p.length, ?_, ?_, code⟩, ?_, same ▸ accepted⟩
    · dsimp only
      rw [window]
      exact List.mem_map_of_mem hm
    · simp only [Mark.shift]
      omega
    · dsimp only
      rwa [cut, List.drop_length_add_append]

theorem find_append : find (p ++ y) ⟨p.length, p.length + n⟩ keyword boundary =
      .found ⟨p.length + i, p.length + i + keyword.length⟩ ↔
    Sighted y ⟨0, n⟩ keyword boundary i ∧ ∀ j < i, ¬ Sighted y ⟨0, n⟩ keyword boundary j := by
  rw [find_eq_found_iff, sighted_append]
  constructor
  · rintro ⟨_, here, first⟩
    exact ⟨here, fun j lt sighted =>
      first _ (Nat.add_lt_add_left lt p.length) (sighted_append.mpr sighted)⟩
  · rintro ⟨here, first⟩
    refine ⟨rfl, here, fun j lt sighted => ?_⟩
    obtain ⟨k, rfl⟩ := Nat.exists_eq_add_of_le sighted.start_le
    dsimp only at lt sighted
    exact first k (by omega) (sighted_append.mp sighted)

theorem find_append_ne_found :
    (∀ span, find (p ++ y) ⟨p.length, p.length + n⟩ keyword boundary ≠ .found span) ↔
      ∀ i, ¬ Sighted y ⟨0, n⟩ keyword boundary i := by
  rw [find_ne_found_iff]
  constructor
  · intro h i sighted
    exact h _ (sighted_append.mpr sighted)
  · intro h i sighted
    obtain ⟨k, rfl⟩ := Nat.exists_eq_add_of_le sighted.start_le
    exact h k (sighted_append.mp sighted)

/-- A keyword behind a blank ends what stands before it. -/
theorem terminates_last (isWord : IsWord keyword) (closed : Closed x)
    (blank : Bytes.isBlank b = true) : Terminates (x ++ b :: keyword) keyword 0 (x.length + 1) := by
  have divides := divides_of_isBlank blank
  have here : (x ++ b :: keyword).drop (x.length + 1) = keyword := by
    rw [List.append_cons]
    exact List.drop_left' (by simp)
  have member : ∃ m ∈ scan (x ++ b :: keyword) 0, m.offset = x.length + 1 ∧ m.isCode = true := by
    obtain ⟨c, letters, rfl⟩ := List.exists_cons_of_ne_nil isWord.1
    have calm : Calm c := neutral_of_isIdent isWord.2 c List.mem_cons_self
    refine ⟨⟨x.length + 1, c, .code⟩, ?_, rfl, rfl⟩
    rw [scan, List.drop_zero, scanFrom_divided closed divides.calm, Nat.zero_add,
      scanFrom_calm calm]
    exact List.mem_append_right _ (List.mem_cons_of_mem _ List.mem_cons_self)
  refine ⟨⟨member, here.symm ▸ List.prefix_rfl⟩, ?_⟩
  have last : (x ++ b :: keyword)[x.length + 1 + keyword.length]? = none := by
    apply List.getElem?_eq_none
    simp only [List.length_append, List.length_cons]
    omega
  simp [Boundary.accepts, last, Boundary.before, blank]

/-- A balanced text in delimiters of its kind, wherever it stands. -/
theorem matchingClose_append {kind : Delimiter} (closed : Closed x)
    (balanced : kind.Balanced (scan x 0)) :
    matchingClose (p ++ kind.opener :: (x ++ kind.closer :: y)) p.length =
      some (p.length + 1 + x.length) := by
  have calm : Calm kind.closer := by cases kind <;> decide
  have here : (p ++ kind.opener :: (x ++ kind.closer :: y))[p.length]? = some kind.opener := by
    simp
  have ahead : scan (p ++ kind.opener :: (x ++ kind.closer :: y)) (p.length + 1) =
      scanFrom .code (p.length + 1) (x ++ kind.closer :: y) := by
    have front : (p ++ [kind.opener]).length = p.length + 1 := by simp
    rw [scan, List.append_cons, List.drop_left' front]
  have deep : kind.depth 0 (scanFrom .code (p.length + 1) x) = some 0 :=
    (Delimiter.depth_alike (alike_scanFrom .code 0 (p.length + 1) x)).trans balanced
  have found := Group.close?_eq_some_iff.mpr
    ⟨_, scanFrom_divided closed calm (p.length + 1) y, deep, Mark.isCodeByte_iff.mpr ⟨rfl, rfl⟩⟩
  rw [matchingClose_eq here, ahead, found]
  rfl

/-- A word of a divided text stands in one of its parts. -/
theorem wordAt_of_divided (isWord : IsWord keyword) (closed : Closed x) (divides : Divides b)
    (h : WordAt (x ++ b :: y) keyword i) :
    WordAt x keyword i ∨ ∃ j, i = x.length + 1 + j ∧ WordAt y keyword j := by
  have divider : ⟨x.length, b, .code⟩ ∈ scan (x ++ b :: y) 0 := by
    have marks := scanFrom_divided closed divides.calm 0 y
    rw [Nat.zero_add] at marks
    rw [scan, List.drop_zero, marks]
    exact List.mem_append_right _ List.mem_cons_self
  have between : (x ++ b :: y)[x.length]? = some b := by simp
  rcases h.occurs.apart isWord between divides.ident with right | left
  · right
    obtain ⟨j, rfl⟩ := Nat.exists_eq_add_of_le (Nat.succ_le_of_lt right)
    have split : x ++ b :: y = (x ++ [b]) ++ y := by simp
    have long : (x ++ [b]).length = x.length + 1 := by simp
    refine ⟨j, rfl, (wordAt_iff_sighted isWord.1).mpr ?_⟩
    rw [← @sighted_append (x ++ [b]), ← split, long, ← long, ← List.length_append, ← split, long]
    refine (sighted_iff isWord.1 (resumes_of_mem divider rfl) stops_length).mpr
      ⟨Nat.le_add_right _ _, h.occurs.le_length, h.occurs, ?_⟩
    obtain ⟨before, behind⟩ := Bool.and_eq_true_iff.mp h.accepted
    rw [Boundary.accepts, behind, Bool.and_true, Bool.or_eq_true]
    exact .inr ((Bool.or_eq_true_iff.mp before).resolve_left (by simp))
  · left
    have inside : Sighted (x ++ b :: y) ⟨0, x.length⟩ keyword .word i :=
      (sighted_iff isWord.1 resumes_zero (stops_of_mem divider rfl)).mpr
        ⟨Nat.zero_le i, left, h.occurs, h.accepted⟩
    exact (wordAt_iff_sighted isWord.1).mpr
      ((sighted_concat divides.ident isWord.1 (Nat.le_refl _)).mp inside)

end PassCompiler.Source
