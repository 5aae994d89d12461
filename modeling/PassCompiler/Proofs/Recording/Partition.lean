import PassCompiler.Proofs.Recording.Retarget

/-! The statements of a text are consecutive parts of it, none of them empty. They are cut behind
the semicolons of code that stand outside parentheses, and nowhere else. Main statement:
`ofText_partition`. -/
namespace PassCompiler

open Source

/-- A list is read inside a source as it is read alone. -/
theorem Argument.read_slice {source : Bytes} {span : Span} {args : List Bytes}
    (h : read source span = .ok args) :
    read (Bytes.slice source span) ⟨0, (Bytes.slice source span).length⟩ = .ok args := by
  obtain ⟨r, rs, reading, rfl⟩ := read_eq_ok_iff.mp h
  obtain ⟨r', rs', reading', alike⟩ :=
    reading.alike (alike_scanFrom .code span.start 0 (Bytes.slice source span)) (.none none)
  rw [read_eq_ok_iff, List.take_length]
  exact ⟨r', rs', reading', (trimmed_eq alike).symm⟩

/-- Spans from `start` to `stop`, each of them beginning where the one before it ends. -/
inductive Consecutive : (start : Nat) → List Span → (stop : Nat) → Prop
  | nil {stop : Nat} : Consecutive stop [] stop
  | cons {start middle stop : Nat} {spans : List Span} : start < middle →
      Consecutive middle spans stop → Consecutive start (⟨start, middle⟩ :: spans) stop

namespace Consecutive

variable {start stop : Nat} {spans : List Span} {s : Bytes}

theorem le (h : Consecutive start spans stop) : start ≤ stop := by
  induction h with
  | nil => exact Nat.le_refl _
  | cons lt _ ih => omega

theorem bounds (h : Consecutive start spans stop) :
    ∀ span ∈ spans, span.start < span.stop ∧ span.stop ≤ stop := by
  induction h with
  | nil => nofun
  | cons lt later ih => exact List.forall_mem_cons.mpr ⟨⟨lt, later.le⟩, ih⟩

/-- The slices of consecutive spans make up the slice of them all. -/
theorem flatten_slices (h : Consecutive start spans stop) :
    (spans.map (Bytes.slice s)).flatten = Bytes.slice s ⟨start, stop⟩ := by
  induction h with
  | nil =>
    rw [Bytes.slice, List.drop_eq_nil_of_le (List.length_take_le _ _)]
    rfl
  | cons lt later ih =>
    rw [List.map_cons, List.flatten_cons, ih]
    exact (Bytes.slice_append (Nat.le_of_lt lt) later.le).symm

end Consecutive

namespace Statement

variable {table : CallTable} {d i : Nat} {m : Mark} {u v marks others : List Mark}
  {p s source x : Bytes} {xs : List Bytes} {span : Span}

/-- What stands in the parentheses of a call. -/
theorem Records.list {c : Call} {slot : Slot} {front inside behind : List Mark} {o closer : Mark}
    (h : Records table x c slot front inside behind o closer) :
    Bytes.slice x ⟨o.offset + 1, closer.offset⟩ = text inside := by
  rw [← h.window]
  exact (text_scanFrom ..).symm

theorem Records.whole {c : Call} {slot : Slot} {front inside behind : List Mark} {o closer : Mark}
    (h : Records table x c slot front inside behind o closer) :
    x = text front ++ 0x28 :: (text inside ++ 0x29 :: text behind) := by
  have opener : o.byte = 0x28 := (Mark.isCodeByte_iff.mp h.opens).2
  have closes : closer.byte = 0x29 := (Mark.isCodeByte_iff.mp h.closes).2
  rw [← text_scanFrom .code 0 x, ← show scan x 0 = scanFrom .code 0 x from rfl, h.split]
  simp [text, opener, closes]

/-- How many parentheses are open behind marks before which `d` are open. One that closes nothing
does not count. -/
def openBehind (d : Nat) (marks : List Mark) : Nat := marks.foldl depthBehind d

/-- A statement ends at place `i` of the marks, before which `d` parentheses are open: a semicolon
of code stands there, outside parentheses. -/
def EndAt (d : Nat) (marks : List Mark) (i : Nat) : Prop :=
  ∃ m, marks[i]? = some m ∧ m.isCodeByte 0x3B = true ∧ openBehind d (marks.take i) = 0

theorem openBehind_append : openBehind d (u ++ v) = openBehind (openBehind d u) v :=
  List.foldl_append

theorem openBehind_alike (h : List.Forall₂ (Mark.Alike True) marks others) :
    openBehind d others = openBehind d marks := by
  induction h generalizing d with
  | nil => rfl
  | cons first _ ih =>
    rw [openBehind, List.foldl_cons, depthBehind, first.isCodeByte, first.isCodeByte]
    exact ih

theorem endAt_zero : EndAt d (m :: marks) 0 ↔ m.isCodeByte 0x3B = true ∧ d = 0 := by
  constructor
  · rintro ⟨_, here, semicolon, level⟩
    obtain rfl := Option.some.inj here
    exact ⟨semicolon, level⟩
  · rintro ⟨semicolon, level⟩
    exact ⟨m, rfl, semicolon, level⟩

theorem endAt_succ : EndAt d (m :: marks) (i + 1) ↔ EndAt (depthBehind d m) marks i := Iff.rfl

/-- A statement that its semicolon closes ends there and nowhere before. -/
theorem endAt_of_closed (h : closed? d u = some true) :
    (EndAt d u i ↔ i + 1 = u.length) ∧ openBehind d u = 0 := by
  induction u generalizing d i with
  | nil => simp [closed?] at h
  | cons m u ih =>
    rcases closed?_cons_iff.mp h with ⟨ends, rfl⟩ | ⟨more, later⟩
    · obtain ⟨semicolon, level⟩ : m.isCodeByte 0x3B = true ∧ d = 0 := by simpa using ends
      have noOpener : m.isCodeByte 0x28 = false := Mark.isCodeByte_ne semicolon (by decide)
      have noCloser : m.isCodeByte 0x29 = false := Mark.isCodeByte_ne semicolon (by decide)
      refine ⟨?_, by simp [openBehind, depthBehind, noOpener, noCloser, level]⟩
      cases i with
      | zero => simp [endAt_zero, semicolon, level]
      | succ i => simp [EndAt]
    · refine ⟨?_, (@ih _ 0 later).2⟩
      cases i with
      | zero =>
        have filled : u ≠ [] := by
          rintro rfl
          simp [closed?] at later
        have long := List.length_pos_iff.mpr filled
        rw [endAt_zero, List.length_cons]
        constructor
        · rintro ⟨semicolon, level⟩
          exact absurd (by simp [semicolon, level]) more
        · omega
      | succ i =>
        rw [endAt_succ, (ih later).1, List.length_cons]
        omega

/-- In a statement without a semicolon at its end none ends. -/
theorem not_endAt_of_open (h : closed? d u = some false) : ¬ EndAt d u i := by
  induction u generalizing d i with
  | nil => simp [EndAt]
  | cons m u ih =>
    rw [closed?] at h
    split at h
    · split at h <;> contradiction
    · next more =>
      cases i with
      | zero =>
        rw [endAt_zero]
        rintro ⟨semicolon, level⟩
        exact absurd (by simp [semicolon, level]) more
      | succ i => exact ih h

theorem endAt_append_left (lt : i < u.length) : EndAt d (u ++ v) i ↔ EndAt d u i := by
  rw [EndAt, EndAt, List.getElem?_append_left lt, List.take_append_of_le_length (by omega)]

theorem endAt_append_right :
    EndAt d (u ++ v) (u.length + i) ↔ EndAt (openBehind d u) v i := by
  rw [EndAt, EndAt, List.getElem?_append_right (by omega), Nat.add_sub_cancel_left,
    List.take_length_add_append, openBehind_append]

theorem endAt_alike (h : List.Forall₂ (Mark.Alike True) marks others) :
    EndAt d others i ↔ EndAt d marks i := by
  induction h generalizing d i with
  | nil => exact Iff.rfl
  | cons first _ ih =>
    cases i with
    | zero => rw [endAt_zero, endAt_zero, first.isCodeByte]
    | succ i =>
      rw [endAt_succ, endAt_succ, ih]
      simp only [depthBehind, first.isCodeByte]

/-- The place of a statement: it ends with the text or where a statement ends, and none ends inside
of it. -/
structure Bounded (s : Bytes) (span : Span) : Prop where
  ends : span.stop < s.length → EndAt 0 (scan s 0) (span.stop - 1)
  inside : ∀ i, span.start ≤ i → i + 1 < span.stop → ¬ EndAt 0 (scan s 0) i

/-- Behind statements that are closed, statements end where they end in the rest alone. -/
theorem endAt_behind (front : Sealed p) (level : openBehind 0 (scan p 0) = 0) :
    EndAt 0 (scan (p ++ x) 0) (p.length + i) ↔ EndAt 0 (scan x 0) i := by
  have place := @endAt_append_right 0 i (scan p 0) (scanFrom .code p.length x)
  rw [length_scan_zero, level] at place
  rw [front.scan_append, place]
  exact endAt_alike (alike_scanFrom .code 0 p.length x)

/-- The places of the statements of `x` behind `p`. -/
theorem Cuts.exists_spans (h : Cuts x xs) (front : Sealed p)
    (level : openBehind 0 (scan p 0) = 0) :
    ∃ spans, Consecutive p.length spans (p ++ x).length ∧
      spans.map (Bytes.slice (p ++ x)) = xs ∧ ∀ span ∈ spans, Bounded (p ++ x) span := by
  induction h generalizing p with
  | done => exact ⟨[], by simpa using Consecutive.nil, rfl, nofun⟩
  | @last x filled single =>
    have long := List.length_pos_iff.mpr filled
    refine ⟨[⟨p.length, (p ++ x).length⟩], .cons ?_ .nil, ?_, List.forall_mem_singleton.mpr ?_⟩
    · rw [List.length_append]
      omega
    · rw [List.map_singleton, Bytes.slice_to_end, List.drop_left]
    · refine ⟨fun before => absurd before (Nat.lt_irrefl _), ?_⟩
      intro i after before ends
      obtain ⟨k, rfl⟩ := Nat.exists_eq_add_of_le after
      exact not_endAt_of_open single ((endAt_behind front level).mp ends)
  | @next x y xs single _ ih =>
    have closes {i : Nat} (lt : i < x.length) :
        EndAt 0 (scan (p ++ (x ++ y)) 0) (p.length + i) ↔ i + 1 = x.length := by
      rw [endAt_behind front level, scan_append_of_closed single,
        endAt_append_left (by simpa using lt), (endAt_of_closed single).1, length_scan_zero]
    have level' : openBehind 0 (scan (p ++ x) 0) = 0 := by
      rw [front.scan_append, openBehind_append, level,
        openBehind_alike (alike_scanFrom .code 0 p.length x)]
      exact (@endAt_of_closed _ 0 _ single).2
    obtain ⟨spans, consecutive, slices, bounded⟩ :=
      ih (front.append (sealed_of_closed? single)) level'
    rw [List.append_assoc] at consecutive slices bounded
    have filled : 0 < x.length := by
      rw [← length_scan_zero]
      obtain ⟨v, m, split, _⟩ := exists_of_closed? single
      simp [split]
    have long : (p ++ x).length = p.length + x.length := List.length_append
    refine ⟨⟨p.length, (p ++ x).length⟩ :: spans, .cons (by omega) consecutive, ?_,
      List.forall_mem_cons.mpr ⟨⟨fun _ => ?_, ?_⟩, bounded⟩⟩
    · rw [List.map_cons, slices, long, Bytes.slice_of_prefix]
      rw [List.drop_left]
      exact List.prefix_append x y
    · rw [long, show p.length + x.length - 1 = p.length + (x.length - 1) by omega,
        closes (by omega)]
      omega
    · intro i after before ends
      obtain ⟨k, rfl⟩ := Nat.exists_eq_add_of_le after
      dsimp only at before ends
      have := (closes (by omega)).mp ends
      omega

theorem isBoundary_start (valid : Utf8.isValid (Bytes.slice s span) = true)
    (filled : span.start < span.stop) (inside : span.stop ≤ s.length) :
    Utf8.isBoundary s span.start = true := by
  have lt : span.start < (s.take span.stop).length := by
    rw [List.length_take]
    omega
  have here : s[span.start]? = some (s.take span.stop)[span.start] := by
    rw [← List.getElem?_eq_getElem lt, List.getElem?_take_of_lt filled]
  rw [Bytes.slice, List.drop_eq_getElem_cons lt] at valid
  rw [Utf8.isBoundary, here]
  exact Utf8.isBoundaryByte_of_valid valid

theorem Bounded.isBoundary_stop (h : Bounded s span) (valid : Utf8.isValid s = true)
    (filled : span.start < span.stop) (inside : span.stop ≤ s.length) :
    Utf8.isBoundary s span.stop = true := by
  rcases Nat.eq_or_lt_of_le inside with last | before
  · rw [Utf8.isBoundary, last, List.getElem?_eq_none (Nat.le_refl _)]
    exact beq_self_eq_true _
  · obtain ⟨m, here, semicolon, _⟩ := h.ends before
    have behind := Utf8.isBoundary_behind valid (byte_of_getElem?_scanFrom here)
      ((Mark.isCodeByte_iff.mp semicolon).2 ▸ by decide)
    rwa [Nat.sub_add_cancel (by omega)] at behind

/-- What a statement is made of: its text, or what stands on the two sides of its list, and a list
that is read as its arguments. No character is cut. -/
def MadeOf (x : Bytes) : Statement → Prop
  | raw text _ => text = x ∧ Utf8.isValid x = true
  | call c => ∃ list, x = c.head ++ list ++ c.tail ∧
      Argument.read list ⟨0, list.length⟩ = .ok c.args ∧
      Utf8.isValid c.head = true ∧ Utf8.isValid list = true ∧ Utf8.isValid c.tail = true

theorem madeOf_classify (valid : Utf8.isValid x = true) : (classify table x).MadeOf x := by
  cases kind : classify table x with
  | raw text refusal => exact ⟨text_of_classify kind, valid⟩
  | call c =>
    obtain ⟨slot, front, inside, behind, o, closer, records⟩ := exists_records kind
    obtain ⟨head, tail⟩ := records.texts
    have opener : o.byte = 0x28 := (Mark.isCodeByte_iff.mp records.opens).2
    have closes : closer.byte = 0x29 := (Mark.isCodeByte_iff.mp records.closes).2
    have read := Argument.read_slice records.read
    rw [records.list] at read
    rw [text, List.map_append, List.map_singleton, opener] at head
    rw [text, List.map_cons, closes] at tail
    rw [records.whole, Utf8.isValid_append_ascii (by decide),
      Utf8.isValid_append_ascii (by decide)] at valid
    obtain ⟨before, inner, after⟩ := valid
    refine ⟨text inside, ?_, read, ?_, inner, ?_⟩
    · rw [head, tail, List.append_assoc, List.append_assoc]
      exact records.whole
    · rw [head]
      exact (Utf8.isValid_append_ascii (by decide)).mpr ⟨before, rfl⟩
    · rw [tail]
      exact (Utf8.isValid_append_ascii (x := []) (by decide)).mpr ⟨rfl, after⟩

/-- The statements of a text. -/
theorem ofText_partition (valid : Utf8.isValid source = true) :
    ∃ spans, Consecutive 0 spans source.length ∧
      (spans.map (Bytes.slice source)).flatten = source ∧
      List.Forall₂ (fun span s => s.MadeOf (Bytes.slice source span)) spans
        (ofText table source) ∧
      ∀ span ∈ spans, Utf8.isBoundary source span.start = true ∧
        Utf8.isBoundary source span.stop = true ∧
        (span.stop < source.length → EndAt 0 (scan source 0) (span.stop - 1)) ∧
        ∀ i, span.start ≤ i → i + 1 < span.stop → ¬ EndAt 0 (scan source 0) i := by
  obtain ⟨xs, cuts⟩ := exists_cuts source
  obtain ⟨spans, consecutive, slices, bounded⟩ := cuts.exists_spans .nil rfl
  rw [List.nil_append] at consecutive slices bounded
  have whole := @Consecutive.flatten_slices _ _ _ source consecutive
  have all := cuts.valid valid
  have statements : ofText table source = spans.map (classify table ∘ Bytes.slice source) := by
    rw [ofText, cuts.slices_eq, ← slices, List.map_map]
  rw [← slices] at all
  have each := List.forall_mem_map.mp all
  refine ⟨spans, consecutive, ?_, ?_, ?_⟩
  · rw [whole, Bytes.slice, List.take_length]
    rfl
  · rw [statements, List.forall₂_map_right_iff, List.forall₂_same]
    exact fun span member => madeOf_classify (each span member)
  · intro span member
    obtain ⟨filled, inside⟩ := consecutive.bounds span member
    have here := bounded span member
    exact ⟨isBoundary_start (each span member) filled inside,
      here.isBoundary_stop valid filled inside, here.ends, here.inside⟩

/-- A parenthesis that closes nothing, the header of a loop, semicolons in comments, and characters
beyond ASCII. -/
theorem ofText_partition_loop :
    let source := bytes ") é; for (;;) draw(é, cmd // ;\n); /* ; */ é"
    Utf8.isValid source = true ∧
      ∃ spans, spans.length = 3 ∧ Consecutive 0 spans source.length ∧
        List.Forall₂ (fun span s => s.MadeOf (Bytes.slice source span)) spans
          (ofText .standard source) := by
  intro source
  have valid : Utf8.isValid source = true := by decide +kernel
  have three : (ofText .standard source).length = 3 := by decide +kernel
  obtain ⟨spans, consecutive, _, made, _⟩ := @ofText_partition .standard _ valid
  exact ⟨valid, spans, made.length_eq.trans three, consecutive, made⟩

end Statement
end PassCompiler
