import PassCompiler.Proofs.Source.Twin

/-! Text without code: blanks and whole comments. Between two code bytes it is what a scan finds no
code in. -/
namespace PassCompiler.Source

variable {offset : Nat} {x y : Bytes} {b : UInt8} {m : Mark}

inductive Filler : Bytes → Prop
  | nil : Filler []
  | blank {b : UInt8} {x : Bytes} : Bytes.isBlank b = true → Filler x → Filler (b :: x)
  /-- A line comment with the line feed that ends it. -/
  | line {u x : Bytes} : 0x0A ∉ u → Filler x → Filler (0x2F :: 0x2F :: (u ++ 0x0A :: x))
  /-- A block comment, which ends with the first closing marker in it. -/
  | block {u x : Bytes} : ¬ [0x2A, 0x2F] <:+: u ++ [0x2A] → Filler x →
      Filler (0x2F :: 0x2A :: (u ++ 0x2A :: 0x2F :: x))

theorem Phase.step_code {next : Option UInt8} (slashes : ¬ (b = 0x2F ∧ next = some 0x2F))
    (star : ¬ (b = 0x2F ∧ next = some 0x2A)) : Phase.code.step b next = (.code, .code) := by
  grind [Phase.step]

theorem Phase.step_block {next : Option UInt8} (h : ¬ (b = 0x2A ∧ next = some 0x2F)) :
    Phase.block.step b next = (.block, .block) := by
  grind [Phase.step]

theorem region_of_head {phase : Phase} (h : (scanFrom phase offset (b :: y))[0]? = some m) :
    m.region = (phase.step b y.head?).1 := by
  obtain rfl := Option.some.inj h
  rfl

/-- A line comment that ends before a code byte. -/
theorem exists_line_end (last : b ≠ 0x0A)
    (h : (scanFrom .line offset (x ++ b :: y))[x.length]? = some m) (code : m.isCode = true) :
    ∃ u v, x = u ++ 0x0A :: v ∧ 0x0A ∉ u ∧
      (scanFrom .line offset (x ++ b :: y)).drop (u.length + 1) =
        scanFrom .code (offset + (u.length + 1)) (v ++ b :: y) := by
  induction x generalizing offset with
  | nil =>
    rw [Mark.isCode_iff, region_of_head h] at code
    simp [Phase.step, last] at code
  | cons a x ih =>
    rw [List.cons_append, scanFrom_cons] at h ⊢
    by_cases feed : a = 0x0A
    · subst feed
      exact ⟨[], x, rfl, by simp, rfl⟩
    · have stay (next : Option UInt8) : Phase.line.step a next = (.line, .line) := by
        simp [Phase.step, feed]
      rw [stay] at h ⊢
      obtain ⟨u, v, rfl, free, rest⟩ := ih h
      refine ⟨a :: u, v, rfl, ?_, ?_⟩
      · simp only [List.mem_cons, not_or]
        exact ⟨Ne.symm feed, free⟩
      · rw [List.length_cons, List.drop_succ_cons, rest]
        congr 1
        omega

/-- A block comment that ends before a code byte. -/
theorem exists_block_end (h : (scanFrom .block offset (x ++ b :: y))[x.length]? = some m)
    (code : m.isCode = true) :
    ∃ u v, x = u ++ 0x2A :: 0x2F :: v ∧ ¬ [0x2A, 0x2F] <:+: u ++ [0x2A] ∧
      (scanFrom .block offset (x ++ b :: y)).drop (u.length + 2) =
        scanFrom .code (offset + (u.length + 2)) (v ++ b :: y) := by
  induction x generalizing offset with
  | nil =>
    rw [Mark.isCode_iff, region_of_head h] at code
    simp only [Phase.step] at code
    split at code <;> contradiction
  | cons a x ih =>
    rw [List.cons_append, scanFrom_cons] at h ⊢
    by_cases ends : a = 0x2A ∧ (x ++ b :: y).head? = some 0x2F
    · obtain ⟨rfl, next⟩ := ends
      cases x with
      | nil =>
        obtain rfl := Option.some.inj next
        have region : m.region = (Phase.closeMarker.step 0x2F y.head?).1 := region_of_head h
        rw [Mark.isCode_iff, region] at code
        contradiction
      | cons c x =>
        obtain rfl := Option.some.inj next
        exact ⟨[], x, rfl, by decide, rfl⟩
    · rw [Phase.step_block ends] at h ⊢
      obtain ⟨u, v, rfl, free, rest⟩ := ih h
      refine ⟨a :: u, v, rfl, ?_, ?_⟩
      · rw [List.cons_append, List.infix_cons_iff]
        rintro (start | inside)
        · obtain ⟨rfl, next⟩ := List.cons_prefix_cons.mp start
          refine ends ⟨rfl, ?_⟩
          cases u <;> simp_all
        · exact free inside
      · rw [List.length_cons, List.drop_succ_cons, rest]
        congr 1
        omega

/-- What stands before a code byte, with no code in it but blanks. -/
theorem filler_of_scan (last : b ≠ 0x0A)
    (h : (scanFrom .code offset (x ++ b :: y))[x.length]? = some m) (code : m.isCode = true)
    (blank : ∀ n ∈ (scanFrom .code offset (x ++ b :: y)).take x.length, n.isCode = true →
      Bytes.isBlank n.byte = true) : Filler x := by
  induction len : x.length using Nat.strongRecOn generalizing offset x with
  | ind n ih =>
    subst len
    cases x with
    | nil => exact .nil
    | cons a x =>
      have go {k o : Nat} {v : Bytes} (short : v.length + k = x.length + 1) (pos : 0 < k)
          (rest : (scanFrom .code offset (a :: x ++ b :: y)).drop k =
            scanFrom .code o (v ++ b :: y)) : Filler v := by
        refine @ih v.length ?_ o v ?_ ?_ rfl
        · rw [List.length_cons]
          omega
        · rw [← rest, List.getElem?_drop, Nat.add_comm, short]
          exact h
        · intro n hn
          rw [← rest, List.take_drop, Nat.add_comm, short] at hn
          exact blank n (List.mem_of_mem_drop hn)
      by_cases slashes : a = 0x2F ∧ (x ++ b :: y).head? = some 0x2F
      · obtain ⟨rfl, next⟩ := slashes
        cases x with
        | nil =>
          obtain rfl := Option.some.inj next
          have region : m.region = (Phase.lineMarker.step 0x2F y.head?).1 := region_of_head h
          rw [Mark.isCode_iff, region] at code
          contradiction
        | cons c x =>
          obtain rfl := Option.some.inj next
          have h : (scanFrom .line (offset + 1 + 1) (x ++ b :: y))[x.length]? = some m := h
          obtain ⟨u, v, rfl, free, rest⟩ := exists_line_end last h code
          exact .line free (go (k := u.length + 3) (by simp; omega) (by omega) rest)
      by_cases star : a = 0x2F ∧ (x ++ b :: y).head? = some 0x2A
      · obtain ⟨rfl, next⟩ := star
        cases x with
        | nil =>
          obtain rfl := Option.some.inj next
          have region : m.region = (Phase.blockMarker.step 0x2A y.head?).1 := region_of_head h
          rw [Mark.isCode_iff, region] at code
          contradiction
        | cons c x =>
          obtain rfl := Option.some.inj next
          have h : (scanFrom .block (offset + 1 + 1) (x ++ b :: y))[x.length]? = some m := h
          obtain ⟨u, v, rfl, free, rest⟩ := exists_block_end h code
          exact .block free (go (k := u.length + 4) (by simp; omega) (by omega) rest)
      · have plain := Phase.step_code slashes star
        rw [List.cons_append, scanFrom_cons, plain] at h blank
        have here := blank ⟨offset, a, .code⟩ (by simp) rfl
        refine .blank here (go (k := 1) (o := offset + 1) rfl (by omega) ?_)
        rw [List.cons_append, scanFrom_cons, plain]
        rfl

theorem filler_of_nextCode {s : Bytes} {start : Nat} (resumes : Resumes s start)
    (hm : m ∈ scan s 0) (code : m.isCode = true) (sameLine : m.byte ≠ 0x0A)
    (le : start ≤ m.offset) (none : nextCode s start m.offset = none) :
    Filler (Bytes.slice s ⟨start, m.offset⟩) := by
  have lt := offset_lt_of_mem hm
  have long : (Bytes.slice s ⟨start, m.offset⟩).length = m.offset - start := by
    simp only [Bytes.slice, List.length_drop, List.length_take]
    omega
  have split : s.drop start =
      Bytes.slice s ⟨start, m.offset⟩ ++ m.byte :: s.drop (m.offset + 1) := by
    have here : s.drop m.offset = m.byte :: s.drop (m.offset + 1) := by
      rw [List.drop_eq_getElem_cons lt]
      congr 1
      exact (List.getElem?_eq_some_iff.mp (getElem?_of_mem_scan hm)).2
    have whole := List.take_append_drop m.offset s
    conv_lhs => rw [← whole]
    rw [List.drop_append_of_le_length (by rw [List.length_take]; omega), here]
    rfl
  have scanned : scanFrom .code start
      (Bytes.slice s ⟨start, m.offset⟩ ++ m.byte :: s.drop (m.offset + 1)) =
        (scan s 0).drop start := by
    rw [← split, ← scan_drop resumes]
    rfl
  refine @filler_of_scan start _ (s.drop (m.offset + 1)) m.byte m sameLine ?_ code ?_
  · rw [scanned, long, List.getElem?_drop, Nat.add_sub_cancel' le]
    exact mem_scan_iff.mp hm
  · intro n hn codeHere
    rw [scanned, long, List.take_drop, Nat.add_sub_cancel' le,
      ← scan_window resumes (stops_of_mem hm code)] at hn
    simpa [codeHere] using List.find?_eq_none.mp none n hn

end PassCompiler.Source
