import PassCompiler.Proofs.Source.Terminator

/-! The phase in which a scan stands between two bytes. Texts that a scan leaves in code may be put
together: each is then scanned as it is alone. -/
namespace PassCompiler.Source

variable {phase : Phase} {offset i j : Nat} {s x y : Bytes} {next : Option UInt8} {m : Mark}

/-- The phase behind a text that `next` follows. -/
def Phase.behind (phase : Phase) (x : Bytes) (next : Option UInt8) : Phase :=
  match x with
  | [] => phase
  | b :: rest => (phase.step b (rest.head?.or next)).2.behind rest next

theorem Phase.behind_append :
    phase.behind (x ++ y) next = (phase.behind x (y.head?.or next)).behind y next := by
  induction x generalizing phase with
  | nil => rfl
  | cons b rest ih =>
    have look : (rest ++ y).head?.or next = rest.head?.or (y.head?.or next) := by
      cases rest <;> rfl
    rw [List.cons_append, behind, behind, look, ih]

/-- Where a scan stands in code, the texts before and behind are scanned as they are alone. -/
theorem scanFrom_seam (code : phase.behind x y.head? = .code) :
    scanFrom phase offset (x ++ y) =
      scanFrom phase offset x ++ scanFrom .code (offset + x.length) y := by
  induction x generalizing phase offset with
  | nil =>
    rw [show phase = .code from code]
    rfl
  | cons b rest ih =>
    have later := @ih (phase.step b (rest.head?.or y.head?)).2 (offset + 1) code
    cases rest with
    | cons c others =>
      have long : offset + 1 + (c :: others).length = offset + (b :: c :: others).length := by
        simp only [List.length_cons]
        omega
      rw [long] at later
      exact congrArg (_ :: ·) later
    | nil =>
      have last : (phase.step b y.head?).2 = .code := code
      have same : (phase.step b none).1 = (phase.step b y.head?).1 := by
        cases phase <;> grind [Phase.step]
      rw [List.singleton_append, scanFrom_cons, last, scanFrom_cons, List.head?_nil, same]
      rfl

def phaseAt (s : Bytes) (i : Nat) : Phase := Phase.code.behind (s.take i) s[i]?

theorem head?_take_or (x : Bytes) (i : Nat) : (x.take i).head?.or x[i]? = x.head? := by
  cases x with
  | nil => simp
  | cons b rest => cases i <;> rfl

theorem region_of_getElem?_scanFrom (h : (scanFrom phase offset x)[i]? = some m) :
    m.region = ((phase.behind (x.take i) x[i]?).step m.byte x[i + 1]?).1 := by
  induction x generalizing phase offset i with
  | nil => contradiction
  | cons b rest ih =>
    rw [scanFrom_cons] at h
    cases i with
    | zero =>
      obtain rfl := Option.some.inj h
      rw [List.take_zero, Phase.behind, List.getElem?_cons_succ, ← List.head?_eq_getElem?]
    | succ i =>
      rw [List.take_succ_cons, Phase.behind, List.getElem?_cons_succ, List.getElem?_cons_succ,
        head?_take_or]
      exact ih h

theorem region_eq (h : m ∈ scan s 0) :
    m.region = ((phaseAt s m.offset).step m.byte s[m.offset + 1]?).1 :=
  region_of_getElem?_scanFrom (mem_scan_iff.mp h)

theorem phaseAt_succ {b : UInt8} (h : s[i]? = some b) :
    phaseAt s (i + 1) = ((phaseAt s i).step b s[i + 1]?).2 := by
  rw [phaseAt, List.take_add_one, h, Phase.behind_append, phaseAt, h]
  rfl

theorem phaseAt_of_le (le : i ≤ j) :
    phaseAt s j = (phaseAt s i).behind (Bytes.slice s ⟨i, j⟩) s[j]? := by
  have split : s.take j = s.take i ++ Bytes.slice s ⟨i, j⟩ := by
    have cut := Bytes.slice_append (x := s) (Nat.zero_le i) le
    simpa only [Bytes.slice, List.drop_zero] using cut
  have look := head?_take_or (s.drop i) (j - i)
  rw [List.getElem?_drop, Nat.add_sub_cancel' le, ← List.drop_take] at look
  rw [phaseAt, split, Phase.behind_append, Bytes.slice, look, List.head?_drop]
  rfl

theorem phaseAt_of_resumes (h : Resumes s i) : phaseAt s i = .code := by
  rcases h with rfl | ⟨m, hm, code, rfl⟩
  · rfl
  · rw [phaseAt_succ (getElem?_of_mem_scan hm)]
    exact Phase.step_of_code ((region_eq hm).symm.trans (Mark.isCode_iff.mp code))

theorem phaseAt_of_mem (hm : m ∈ scan s 0) (code : m.isCode = true) (feed : m.byte ≠ 0x0A) :
    phaseAt s m.offset = .code := by
  by_contra comment
  have region := (region_eq hm).symm.trans (Mark.isCode_iff.mp code)
  exact feed (Phase.feed_of_code region comment)

def Closed (x : Bytes) : Prop := Phase.code.behind x none = .code

instance (x : Bytes) : Decidable (Closed x) := inferInstanceAs (Decidable (_ = _))

/-- A scan leaves the text in code, and no marker begins with its last byte, whatever follows. -/
def Sealed (x : Bytes) : Prop := ∀ next, Phase.code.behind x next = .code

/-- A byte that does not begin a comment, nor does it complete a marker. -/
def Calm (b : UInt8) : Prop := b ≠ 0x2F ∧ b ≠ 0x2A

instance (b : UInt8) : Decidable (Calm b) := inferInstanceAs (Decidable (_ ∧ _))

theorem Phase.behind_calm {b : UInt8} (calm : Calm b) :
    phase.behind x (some b) = phase.behind x none := by
  induction x generalizing phase with
  | nil => rfl
  | cons c rest ih =>
    rw [behind, behind, ih]
    cases rest with
    | cons _ _ => rfl
    | nil =>
      have same : phase.step c (some b) = phase.step c none := by
        obtain ⟨slash, star⟩ := calm
        cases phase <;> grind [Phase.step]
      rw [List.head?_nil, Option.none_or, Option.none_or, same]

theorem Phase.behind_concat_calm {b : UInt8} (calm : Calm b) (next next' : Option UInt8) :
    phase.behind (x ++ [b]) next = phase.behind (x ++ [b]) next' := by
  have same (phase : Phase) : phase.step b next = phase.step b next' := by
    obtain ⟨slash, star⟩ := calm
    cases phase <;> grind [Phase.step]
  simp only [behind_append, behind, List.head?_cons, List.head?_nil, Option.some_or,
    Option.none_or, same]

theorem closed_of_code {b : UInt8} (calm : Calm b) (h : Phase.code.behind x (some b) = .code) :
    Closed x := (Phase.behind_calm calm).symm.trans h

theorem closed_of_resumes (h : Resumes x x.length) : Closed x := by
  have here := phaseAt_of_resumes h
  rwa [phaseAt, List.take_length, List.getElem?_eq_none (Nat.le_refl _)] at here

theorem closed_of_last (code : ∀ m, (scan x 0).getLast? = some m → m.isCode = true) :
    Closed x := by
  apply closed_of_resumes
  rcases List.eq_nil_or_concat' x with rfl | ⟨y, b, rfl⟩
  · exact .inl rfl
  · obtain ⟨m, hm, place⟩ := exists_mem_scan (s := y ++ [b]) (i := y.length) (by simp)
    refine .inr ⟨m, hm, code m ?_, by rw [place, List.length_append, List.length_singleton]⟩
    rw [List.getLast?_eq_getElem?, length_scan_zero, List.length_append, List.length_singleton,
      Nat.add_sub_cancel, ← place]
    exact mem_scan_iff.mp hm

/-- What stands before a byte of code that is neither part of a marker nor the end of a line. -/
theorem closed_take (hm : m ∈ scan s 0) (code : m.isCode = true) (calm : Calm m.byte)
    (feed : m.byte ≠ 0x0A) : Closed (s.take m.offset) := by
  have here := phaseAt_of_mem hm code feed
  rw [phaseAt, getElem?_of_mem_scan hm] at here
  exact closed_of_code calm here

theorem closed_slice {o c : Mark} (ho : o ∈ scan s 0) (code : o.isCode = true) (hc : c ∈ scan s 0)
    (code' : c.isCode = true) (calm : Calm c.byte) (feed : c.byte ≠ 0x0A)
    (lt : o.offset < c.offset) : Closed (Bytes.slice s ⟨o.offset + 1, c.offset⟩) := by
  have here := phaseAt_of_mem hc code' feed
  rw [phaseAt_of_le lt, phaseAt_of_resumes (resumes_of_mem ho code), getElem?_of_mem_scan hc] at here
  exact closed_of_code calm here

namespace Sealed

theorem closed (h : Sealed x) : Closed x := h none

theorem nil : Sealed [] := fun _ => rfl

theorem append (hx : Sealed x) (hy : Sealed y) : Sealed (x ++ y) := by
  intro next
  rw [Phase.behind_append, hx, hy]

theorem append_closed (hx : Sealed x) (hy : Closed y) : Closed (x ++ y) := by
  rw [Closed, Phase.behind_append, hx]
  exact hy

theorem of_append (hx : Sealed x) (h : Sealed (x ++ y)) : Sealed y := by
  intro next
  have whole := h next
  rwa [Phase.behind_append, hx] at whole

/-- Behind a sealed text a scan starts anew. -/
theorem scan_append (hx : Sealed x) (y : Bytes) :
    scan (x ++ y) 0 = scan x 0 ++ scanFrom .code x.length y := by
  have whole := @scanFrom_seam .code 0 x y (hx y.head?)
  rw [Nat.zero_add] at whole
  exact whole

theorem flatten {parts : List Bytes} (h : ∀ x ∈ parts, Sealed x) : Sealed parts.flatten := by
  induction parts with
  | nil => exact nil
  | cons x rest ih =>
    obtain ⟨first, later⟩ := List.forall_mem_cons.mp h
    exact first.append (ih later)

end Sealed

theorem behind_drop (code : phaseAt x i = .code) (lt : i < x.length) :
    Phase.code.behind (x.drop i) next = Phase.code.behind x next := by
  have here := List.getElem?_eq_getElem lt
  have whole : Phase.code.behind (x.take i ++ x.drop i) next =
      (phaseAt x i).behind (x.drop i) next := by
    rw [Phase.behind_append, List.head?_drop, phaseAt, here, Option.some_or]
  rw [List.take_append_drop, code] at whole
  exact whole.symm

theorem Sealed.drop (h : Sealed x) (code : phaseAt x i = .code) (lt : i < x.length) :
    Sealed (x.drop i) := fun next => (behind_drop code lt).trans (h next)

theorem Closed.drop (h : Closed x) (code : phaseAt x i = .code) : Closed (x.drop i) := by
  rcases Nat.lt_or_ge i x.length with lt | ge
  · exact (behind_drop code lt).trans h
  · rw [List.drop_eq_nil_of_le ge]
    rfl

theorem Closed.append {b : UInt8} (hx : Closed x) (calm : Calm b) (hy : Sealed (b :: y)) :
    Sealed (x ++ b :: y) := by
  intro next
  rw [Phase.behind_append, List.head?_cons, Option.some_or, Phase.behind_calm calm, hx, hy]

/-- A text is sealed through a byte of code that is no slash. -/
theorem sealed_take (hm : m ∈ scan s 0) (code : m.isCode = true) (slash : m.byte ≠ 0x2F) :
    Sealed (s.take (m.offset + 1)) := by
  intro next
  have here := getElem?_of_mem_scan hm
  have region := (region_eq hm).symm.trans (Mark.isCode_iff.mp code)
  rw [List.take_add_one, here, Phase.behind_append]
  have before : Phase.code.behind (s.take m.offset) (some m.byte) = phaseAt s m.offset := by
    rw [phaseAt, here]
  exact (congrArg (fun p => (p.step m.byte next).2) before).trans
    (congrArg Prod.snd (Phase.step_of_ne_slash region slash next))

theorem offset_of_split {a b : List Mark} {m : Mark} (h : scan x 0 = a ++ m :: b) :
    m.offset = a.length := by
  have here : (scan x 0)[a.length]? = some m := by simp [h]
  simpa using offset_of_getElem?_scanFrom here

/-- A text is sealed by its last byte, if that is code and no slash. -/
theorem sealed_of_scan {v : List Mark} (h : scan x 0 = v ++ [m]) (code : m.isCode = true)
    (slash : m.byte ≠ 0x2F) : Sealed x := by
  have whole := sealed_take (s := x) (m := m) (by simp [h]) code slash
  have long : x.length = v.length + 1 := by
    rw [← length_scan_zero, h, List.length_append, List.length_singleton]
  rwa [offset_of_split h, List.take_of_length_le (Nat.le_of_eq long)] at whole

/-- A text is sealed where a terminator stands. -/
theorem sealed_slice {keyword : Bytes} (isWord : IsWord keyword) (code : phaseAt s i = .code)
    (h : Terminates s keyword i j) (le : i ≤ j) : Sealed (Bytes.slice s ⟨i, j⟩) := by
  obtain ⟨m, hm, place, codeHere, byte⟩ := (occurs_iff isWord).mp h.occurs 0 _
    (List.getElem?_eq_getElem (List.length_pos_iff.mpr isWord.1))
  obtain rfl : m.offset = j := place
  have feed : m.byte ≠ 0x0A := by
    intro feed
    have ident := isWord.2 _ (List.getElem_mem (List.length_pos_iff.mpr isWord.1))
    rw [← byte, feed] at ident
    contradiction
  have behind := phaseAt_of_mem hm codeHere feed
  rw [phaseAt_of_le le, code] at behind
  rcases Nat.eq_or_lt_of_le le with rfl | lt
  · rw [Bytes.slice, List.drop_eq_nil_of_le (List.length_take_le _ _)]
    exact .nil
  · obtain ⟨b, before, blank⟩ := h.blank (by omega)
    have calm : Calm b := by grind [Calm, Bytes.isBlank]
    have split : Bytes.slice s ⟨i, m.offset⟩ = Bytes.slice s ⟨i, m.offset - 1⟩ ++ [b] := by
      have last := Bytes.slice_single before
      rw [Nat.sub_add_cancel (by omega)] at last
      rw [Bytes.slice_append (b := m.offset - 1) (by omega) (by omega), last]
    intro next
    rw [split] at behind ⊢
    rw [Phase.behind_concat_calm calm next s[m.offset]?, behind]

/-- A line comment ends with its line. -/
theorem sealed_comment (feed : 0x0A ∉ x) : Sealed (0x2F :: 0x2F :: x ++ [0x0A]) := by
  have stays (next : Option UInt8) : Phase.line.behind x next = .line := by
    induction x with
    | nil => rfl
    | cons b rest ih =>
      obtain ⟨here, later⟩ := not_or.mp (List.mem_cons.not.mp feed)
      have step : Phase.line.step b (rest.head?.or next) = (.line, .line) := by
        simp [Phase.step, Ne.symm here]
      rw [Phase.behind, step]
      exact ih later
  intro next
  have opened : Phase.code.behind (0x2F :: 0x2F :: (x ++ [0x0A])) next =
      Phase.line.behind (x ++ [0x0A]) next := rfl
  rw [List.cons_append, List.cons_append, opened, Phase.behind_append, stays]
  rfl

def Neutral (x : Bytes) : Prop := ∀ b ∈ x, Calm b

instance (x : Bytes) : Decidable (Neutral x) := inferInstanceAs (Decidable (∀ b ∈ x, _))

theorem Neutral.append (hx : Neutral x) (hy : Neutral y) : Neutral (x ++ y) :=
  List.forall_mem_append.mpr ⟨hx, hy⟩

theorem neutral_of_isIdent (h : ∀ b ∈ x, Bytes.isIdent b = true) : Neutral x := by
  intro b hb
  have ident := h b hb
  constructor <;> rintro rfl <;> contradiction

theorem Neutral.sealed (h : Neutral x) : Sealed x := by
  intro next
  induction x with
  | nil => rfl
  | cons b rest ih =>
    obtain ⟨⟨slash, _⟩, later⟩ := List.forall_mem_cons.mp h
    have step : Phase.code.step b (rest.head?.or next) = (.code, .code) := by
      simp [Phase.step, slash]
    rw [Phase.behind, step]
    exact ih later

theorem Closed.append_neutral (hx : Closed x) (hy : Neutral y) (filled : y ≠ []) :
    Sealed (x ++ y) := by
  cases y with
  | nil => contradiction
  | cons b y => exact hx.append (hy b List.mem_cons_self) hy.sealed

/-- A text without a marker of its own. -/
theorem closed_of_no_marker (lines : ¬ bytes "//" <:+: x) (blocks : ¬ bytes "/*" <:+: x) :
    Closed x := by
  induction x with
  | nil => rfl
  | cons b rest ih =>
    rw [List.infix_cons_iff, not_or] at lines blocks
    have step : Phase.code.step b (rest.head?.or none) = (.code, .code) := by
      have opens {c : UInt8} (slash : b = 0x2F) (h : rest.head? = some c) :
          [0x2F, c] <+: b :: rest := by
        obtain ⟨others, rfl⟩ := List.head?_eq_some_iff.mp h
        rw [slash]
        exact ⟨others, rfl⟩
      have line : ¬ (b = 0x2F ∧ rest.head? = some 0x2F) := fun h => lines.1 (opens h.1 h.2)
      have block : ¬ (b = 0x2F ∧ rest.head? = some 0x2A) := fun h => blocks.1 (opens h.1 h.2)
      simp only [Option.or_none, Phase.step, Bool.and_eq_true, beq_iff_eq, if_neg line,
        if_neg block]
    rw [Closed, Phase.behind, step]
    exact ih lines.2 blocks.2

theorem closed_join {separator : Bytes} {parts : List Bytes} (neutral : Neutral separator)
    (filled : separator ≠ []) (h : ∀ x ∈ parts, Closed x) :
    Closed (Bytes.join separator parts) := by
  induction parts with
  | nil => rfl
  | cons x rest ih =>
    obtain ⟨first, later⟩ := List.forall_mem_cons.mp h
    cases rest with
    | nil => simpa [Bytes.join] using first
    | cons y rest =>
      have split : Bytes.join separator (x :: y :: rest) =
          (x ++ separator) ++ Bytes.join separator (y :: rest) := by
        rw [Bytes.join, List.intercalate_cons_cons]
        rfl
      rw [split]
      exact (first.append_neutral neutral filled).append_closed (ih later)

end PassCompiler.Source
