import Mathlib.Data.List.Chain
import PassCompiler.Source.Position

/-! Where a scan may be taken up again, and where it may be cut off, without changing a mark: behind
a code byte, and before one. Every reader restarts and cuts its scans at such places, so all of
them read windows of one scan of the whole source. -/
namespace PassCompiler.Source

variable {phase : Phase} {offset : Nat} {x : Bytes}

namespace Mark

theorem isCode_iff {m : Mark} : m.isCode = true ↔ m.region = .code := by simp [isCode]

theorem isCodeByte_iff {m : Mark} {b : UInt8} :
    m.isCodeByte b = true ↔ m.isCode = true ∧ m.byte = b := by simp [isCodeByte]

end Mark

theorem Phase.step_of_code {phase : Phase} {b : UInt8} {next : Option UInt8}
    (h : (phase.step b next).1 = .code) : (phase.step b next).2 = .code := by
  cases phase <;> grind [Phase.step]

/-- A byte with code behind it is marked the same where the text ends with it. -/
theorem Phase.step_end {phase : Phase} {b c : UInt8} {next : Option UInt8}
    (h : ((phase.step b (some c)).2.step c next).1 = .code) :
    (phase.step b none).1 = (phase.step b (some c)).1 := by
  cases phase with
  | code | block => grind [Phase.step]
  | line | lineMarker | blockMarker | closeMarker => rfl

/-- A byte of code is one where code stands before it. -/
theorem Phase.code_step {phase : Phase} {b : UInt8} {next : Option UInt8}
    (h : (phase.step b next).1 = .code) : Phase.code.step b next = (.code, .code) := by
  cases phase <;> grind [Phase.step]

/-- Only a line feed is code and ends a comment. -/
theorem Phase.feed_of_code {phase : Phase} {b : UInt8} {next : Option UInt8}
    (h : (phase.step b next).1 = .code) (ne : phase ≠ .code) : b = 0x0A := by
  cases phase <;> grind [Phase.step]

theorem Phase.step_of_ne_slash {phase : Phase} {b : UInt8} {next : Option UInt8}
    (h : (phase.step b next).1 = .code) (ne : b ≠ 0x2F) (next' : Option UInt8) :
    phase.step b next' = (.code, .code) := by
  cases phase <;> grind [Phase.step]

theorem scanFrom_cons (phase : Phase) (offset : Nat) (b : UInt8) (x : Bytes) :
    scanFrom phase offset (b :: x) =
      ⟨offset, b, (phase.step b x.head?).1⟩ :: scanFrom (phase.step b x.head?).2 (offset + 1) x :=
  rfl

@[simp] theorem text_scanFrom (phase : Phase) (offset : Nat) (x : Bytes) :
    text (scanFrom phase offset x) = x := by
  induction x generalizing phase offset with
  | nil => rfl
  | cons b rest ih => exact congrArg (b :: ·) (ih _ _)

theorem offset_of_getElem?_scanFrom {i : Nat} {m : Mark}
    (h : (scanFrom phase offset x)[i]? = some m) : m.offset = offset + i := by
  induction x generalizing phase offset i with
  | nil => simp [scanFrom] at h
  | cons b rest ih =>
    cases i with
    | zero =>
      obtain rfl := Option.some.inj h
      rfl
    | succ i =>
      have := ih h
      omega

theorem byte_of_getElem?_scanFrom {i : Nat} {m : Mark}
    (h : (scanFrom phase offset x)[i]? = some m) : x[i]? = some m.byte := by
  have same : (text (scanFrom phase offset x))[i]? = some m.byte := by
    rw [text, List.getElem?_map, h, Option.map_some]
  rwa [text_scanFrom] at same

theorem drop_scanFrom {n : Nat} {m : Mark} (h : (scanFrom phase offset x)[n]? = some m)
    (code : m.isCode = true) :
    (scanFrom phase offset x).drop (n + 1) =
      scanFrom .code (offset + (n + 1)) (x.drop (n + 1)) := by
  induction x generalizing phase offset n with
  | nil => simp [scanFrom] at h
  | cons b rest ih =>
    cases n with
    | zero =>
      obtain rfl := Option.some.inj h
      have behind := Phase.step_of_code (Mark.isCode_iff.mp code)
      simp only [scanFrom, List.drop_succ_cons, List.drop_zero, Nat.zero_add]
      rw [behind]
    | succ n =>
      have later := @ih (phase.step b rest.head?).2 (offset + 1) n h
      simp only [scanFrom, List.drop_succ_cons]
      rw [later]
      congr 1
      omega

theorem take_scanFrom {n : Nat}
    (h : ∀ m, (scanFrom phase offset x)[n]? = some m → m.isCode = true) :
    (scanFrom phase offset x).take n = scanFrom phase offset (x.take n) := by
  induction x generalizing phase offset n with
  | nil => simp [scanFrom]
  | cons b rest ih =>
    cases n with
    | zero => rfl
    | succ n =>
      have later := @ih (phase.step b rest.head?).2 (offset + 1) n h
      cases rest with
      | nil => simp [scanFrom]
      | cons c others =>
        cases n with
        | zero =>
          have code := Mark.isCode_iff.mp (h _ rfl)
          have region := Phase.step_end code
          simp only [scanFrom, List.take_succ_cons, List.take_zero, List.head?_cons,
            List.head?_nil, region]
        | succ n =>
          simp only [scanFrom, List.take_succ_cons, List.head?_cons] at later ⊢
          rw [later]

/-- Behind a byte of code that is no slash both parts are scanned as they are in the whole. -/
theorem scanFrom_split {a b : List Mark} {m : Mark}
    (h : scanFrom phase offset x = a ++ m :: b) (code : m.isCode = true) (ne : m.byte ≠ 0x2F) :
    scanFrom phase offset (text (a ++ [m])) = a ++ [m] ∧
      scanFrom .code (offset + (a.length + 1)) (text b) = b := by
  induction a generalizing phase offset x with
  | nil =>
    cases x with
    | nil => contradiction
    | cons c rest =>
      rw [scanFrom_cons, List.nil_append] at h
      obtain ⟨rfl, rfl⟩ := List.cons.inj h
      have region : (phase.step c rest.head?).1 = .code := Mark.isCode_iff.mp code
      have alone := Phase.step_of_ne_slash region ne none
      constructor
      · rw [List.nil_append, text, List.map_cons, List.map_nil, scanFrom_cons, List.head?_nil,
          alone, region]
        rfl
      · rw [text_scanFrom, Phase.step_of_code region]
        rfl
  | cons n a ih =>
    cases x with
    | nil => contradiction
    | cons c rest =>
      rw [scanFrom_cons, List.cons_append] at h
      obtain ⟨rfl, later⟩ := List.cons.inj h
      obtain ⟨front, back⟩ := ih later
      have look : (text (a ++ [m])).head? = rest.head? := by
        rw [← text_scanFrom (phase.step c rest.head?).2 (offset + 1) rest, later]
        cases a <;> rfl
      constructor
      · simp only [List.cons_append, text, List.map_cons] at front look ⊢
        rw [scanFrom_cons, look, front]
      · rw [← back]
        simp only [text_scanFrom, List.length_cons]
        congr 1
        omega

def Mark.shift (d : Nat) (m : Mark) : Mark := { m with offset := m.offset + d }

theorem scanFrom_add (phase : Phase) (offset d : Nat) (x : Bytes) :
    scanFrom phase (offset + d) x = (scanFrom phase offset x).map (Mark.shift d) := by
  induction x generalizing phase offset with
  | nil => rfl
  | cons b rest ih =>
    have later := ih (phase.step b rest.head?).2 (offset + 1)
    rw [Nat.add_right_comm] at later
    simp only [scanFrom, List.map_cons, Mark.shift, later]

variable {s : Bytes} {start stop : Nat} {m : Mark}

theorem mem_scan_iff : m ∈ scan s 0 ↔ (scan s 0)[m.offset]? = some m := by
  constructor
  · intro h
    obtain ⟨i, hi⟩ := List.getElem?_of_mem h
    have same := offset_of_getElem?_scanFrom hi
    rw [Nat.zero_add] at same
    rwa [same]
  · exact List.mem_of_getElem?

theorem getElem?_of_mem_scan (h : m ∈ scan s 0) : s[m.offset]? = some m.byte :=
  byte_of_getElem?_scanFrom (mem_scan_iff.mp h)

/-- The byte before `p` is code, or there is none. -/
def Resumes (s : Bytes) (p : Nat) : Prop :=
  p = 0 ∨ ∃ m ∈ scan s 0, m.isCode = true ∧ m.offset + 1 = p

/-- The byte at `p` is code, or there is none. -/
def Stops (s : Bytes) (p : Nat) : Prop :=
  s.length ≤ p ∨ ∃ m ∈ scan s 0, m.isCode = true ∧ m.offset = p

theorem resumes_zero : Resumes s 0 := .inl rfl

theorem stops_length : Stops s s.length := .inl (Nat.le_refl _)

theorem resumes_of_mem (h : m ∈ scan s 0) (code : m.isCode = true) : Resumes s (m.offset + 1) :=
  .inr ⟨m, h, code, rfl⟩

theorem stops_of_mem (h : m ∈ scan s 0) (code : m.isCode = true) : Stops s m.offset :=
  .inr ⟨m, h, code, rfl⟩

/-- The marks of a window of a source that starts and ends at such places. -/
theorem scan_window (resumes : Resumes s start) (stops : Stops s stop) :
    scan (s.take stop) start = ((scan s 0).take stop).drop start := by
  have cut : (scan s 0).take stop = scan (s.take stop) 0 := by
    apply take_scanFrom
    intro m hm
    rcases stops with past | ⟨n, hn, code, rfl⟩
    · have := (List.getElem?_eq_some_iff.mp hm).1
      simp only [List.drop_zero, length_scanFrom] at this
      omega
    · have same := (mem_scan_iff.mp hn).symm.trans hm
      rwa [← Option.some.inj same]
  rw [cut]
  rcases resumes with rfl | ⟨n, hn, code, rfl⟩
  · rfl
  · rcases Nat.lt_or_ge n.offset stop with inside | outside
    · have at' : (scan (s.take stop) 0)[n.offset]? = some n := by
        rw [← cut, List.getElem?_take_of_lt inside, mem_scan_iff.mp hn]
      have later := drop_scanFrom at' code
      simp only [Nat.zero_add, List.drop_zero] at later
      exact later.symm
    · have short : (s.take stop).length ≤ n.offset + 1 := by
        rw [List.length_take]
        omega
      rw [scan, List.drop_eq_nil_of_le short, List.drop_eq_nil_of_le]
      · rfl
      · simpa only [scan, length_scanFrom, List.drop_zero] using short

/-- Such a window is scanned as it is alone. -/
theorem scan_slice (s : Bytes) (start stop : Nat) :
    scan (s.take stop) start =
      (scan (Bytes.slice s ⟨start, stop⟩) 0).map (Mark.shift start) := by
  conv_lhs => rw [scan, ← Nat.zero_add start, scanFrom_add, Nat.zero_add]
  rfl

theorem scan_drop (resumes : Resumes s start) : scan s start = (scan s 0).drop start := by
  have whole := scan_window resumes (stops_length (s := s))
  rwa [List.take_of_length_le (Nat.le_refl _), List.take_of_length_le] at whole
  simp [scan]

theorem mem_window (resumes : Resumes s start) (stops : Stops s stop)
    (h : m ∈ scan (s.take stop) start) :
    m ∈ scan s 0 ∧ start ≤ m.offset ∧ m.offset < stop := by
  have bounds := bounds_of_mem_scan h
  rw [List.length_take] at bounds
  rw [scan_window resumes stops] at h
  exact ⟨List.mem_of_mem_take (List.mem_of_mem_drop h), bounds.1, by omega⟩

theorem mem_window_iff (resumes : Resumes s start) (stops : Stops s stop) :
    m ∈ scan (s.take stop) start ↔ m ∈ scan s 0 ∧ start ≤ m.offset ∧ m.offset < stop := by
  constructor
  · exact mem_window resumes stops
  · rintro ⟨h, after, before⟩
    rw [scan_window resumes stops]
    apply List.mem_of_getElem? (i := m.offset - start)
    rw [List.getElem?_drop, List.getElem?_take_of_lt (by omega), Nat.add_sub_cancel' after]
    exact mem_scan_iff.mp h

/-- What follows what in a scan. A comment opens with a slash. A block comment closes with one, and
only a line feed ends a line comment. -/
def Adjacent (m n : Mark) : Prop :=
  (m.isCode = true → n.isCode = false → n.byte = 0x2F) ∧
    (m.isCode = false → n.isCode = true → n.byte = 0x0A ∨ m.byte = 0x2F)

theorem isChain_scanFrom (ready : phase = .closeMarker → x.head? = some 0x2F) :
    (scanFrom phase offset x).IsChain Adjacent := by
  induction x generalizing phase offset with
  | nil => exact .nil
  | cons b rest ih =>
    cases rest with
    | nil => exact .singleton _
    | cons c others =>
      have later := @ih (phase.step b (some c)).2 (offset + 1) (by
        intro h
        cases phase <;> grind [Phase.step])
      refine List.isChain_cons_cons.mpr ⟨?_, later⟩
      simp only [Adjacent, Mark.isCode, List.head?_cons] at ready ⊢
      cases phase <;> grind [Phase.step]

theorem isChain_scan (s : Bytes) (start : Nat) : (scan s start).IsChain Adjacent :=
  isChain_scanFrom (by simp)

end PassCompiler.Source
