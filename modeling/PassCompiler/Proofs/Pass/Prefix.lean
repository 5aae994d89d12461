import PassCompiler.Proofs.Pass.Parts

/-! Passes of a source that is cut off before another pass. Everything that a pass consists of is
found in what is left of the source, so the pass is read from there as it is from the whole. Main
statement: `Pass.read_take`. -/
namespace PassCompiler

open Source

variable {source : Bytes} {b start stop : Nat}

namespace Source

variable {s keyword : Bytes} {boundary : Boundary} {i : Nat} {m : Mark}

theorem slice_take (le : stop ≤ b) :
    Bytes.slice (s.take b) ⟨start, stop⟩ = Bytes.slice s ⟨start, stop⟩ := by
  rw [Bytes.slice, List.take_take, Nat.min_eq_left le, Bytes.slice]

theorem nextCode_take_eq (le : stop ≤ b) :
    nextCode (s.take b) start stop = nextCode s start stop := by
  rw [nextCode, List.take_take, Nat.min_eq_left le, nextCode]

section Cut

variable (stops : Stops s b)
include stops

theorem mem_scan_take : m ∈ scan (s.take b) 0 ↔ m ∈ scan s 0 ∧ m.offset < b := by
  rw [mem_window_iff resumes_zero stops]
  simp

theorem resumes_take (resumes : Resumes s i) (le : i ≤ b) : Resumes (s.take b) i := by
  rcases resumes with zero | ⟨m, hm, code, rfl⟩
  · exact .inl zero
  · exact resumes_of_mem ((mem_scan_take stops).mpr ⟨hm, le⟩) code

theorem stops_take (h : Stops s i) : Stops (s.take b) i := by
  rcases h with past | ⟨m, hm, code, rfl⟩
  · exact .inl (Nat.le_trans (List.length_take_le' ..) past)
  · rcases Nat.lt_or_ge m.offset b with inside | outside
    · exact stops_of_mem ((mem_scan_take stops).mpr ⟨hm, inside⟩) code
    · exact .inl (Nat.le_trans (List.length_take_le ..) outside)

theorem nextCode_cut (resumes : Resumes s start) (inside : m.offset < b)
    (h : nextCode s start s.length = some m) :
    nextCode (s.take b) start (s.take b).length = some m := by
  obtain ⟨member, solid, first⟩ := (find?_eq_some_iff_of_sorted (sorted_scanFrom ..)).mp h
  obtain ⟨whole, after, _⟩ := mem_window resumes stops_length member
  rw [nextCode, List.take_length]
  refine (find?_eq_some_iff_of_sorted (sorted_scanFrom ..)).mpr
    ⟨(mem_window_iff resumes stops).mpr ⟨whole, after, inside⟩, solid, fun n hn holds => ?_⟩
  obtain ⟨whole', after', _⟩ := mem_window resumes stops hn
  exact first n ((mem_window_iff resumes stops_length).mpr
    ⟨whole', after', offset_lt_of_mem whole'⟩) holds

theorem matchingClose_cut {kind : Delimiter} {close : Nat} (hm : m ∈ scan s 0)
    (opens : m.isCodeByte kind.opener = true) (inside : close < b)
    (h : matchingClose s m.offset = some close) :
    matchingClose (s.take b) m.offset = some close := by
  obtain ⟨code, byte⟩ := Mark.isCodeByte_iff.mp opens
  have resumes := resumes_of_mem hm code
  have here : s[m.offset]? = some kind.opener := by rw [getElem?_of_mem_scan hm, byte]
  have after := (bounds_of_matchingClose h).1
  rw [matchingClose_eq here] at h
  obtain ⟨⟨c, behind⟩, closed, rfl⟩ := Option.map_eq_some_iff.mp h
  dsimp only at inside after
  obtain ⟨between, split, deep, closes⟩ := Group.close?_eq_some_iff.mp closed
  have place : c.offset = m.offset + 1 + between.length := by
    have there : (scan s (m.offset + 1))[between.length]? = some c := by simp [split]
    exact offset_of_getElem?_scanFrom there
  have cut : scan (s.take b) (m.offset + 1) =
      between ++ c :: behind.take (b - (c.offset + 1)) := by
    rw [scan_window resumes stops, List.drop_take, ← scan_drop resumes, split,
      List.take_append, List.take_of_length_le (by omega)]
    congr 1
    rw [show b - (m.offset + 1) - between.length = b - (c.offset + 1) + 1 by omega,
      List.take_succ_cons]
  rw [← List.getElem?_take_of_lt (Nat.lt_trans after inside)] at here
  rw [matchingClose_eq here, Group.close?_eq_some_iff.mpr ⟨between, cut, deep, closes⟩,
    Option.map_some]

end Cut

section Twin

variable (t : Twin True False 0 (s.take b) s)
include t

/-- A keyword that ends before the cut is found there, too. -/
theorem find_cut (isWord : IsWord keyword) (resumes : Resumes (s.take b) start) {span : Span}
    (le : span.stop ≤ b) (h : find s ⟨start, s.length⟩ keyword boundary = .found span) :
    find (s.take b) ⟨start, (s.take b).length⟩ keyword boundary = .found span := by
  have upper := stop_le_of_find h
  obtain ⟨long, here, first⟩ := find_eq_found_iff.mp h
  have after := here.start_le
  have filled := List.length_pos_iff.mpr isWord.1
  dsimp only at upper after
  have inside : span.start + keyword.length ≤ (s.take b).length := by
    rw [List.length_take]
    omega
  have same {j : Nat} (le : j ≤ span.start) :
      Sighted s ⟨start, s.length⟩ keyword boundary j ↔
        Sighted (s.take b) ⟨start, (s.take b).length⟩ keyword boundary j :=
    t.sighted isWord resumes .whole (by omega)
  exact find_eq_found_iff.mpr ⟨long, (same (Nat.le_refl _)).mp here,
    fun j lt => mt (same (Nat.le_of_lt lt)).mpr (first j lt)⟩

theorem find_cut_absent (isWord : IsWord keyword) (resumes : Resumes (s.take b) start)
    (stops : Stops (s.take b) stop) (lt : stop < (s.take b).length)
    (h : ∀ span, find s ⟨start, stop⟩ keyword boundary ≠ .found span) (span : Span) :
    find (s.take b) ⟨start, stop⟩ keyword boundary ≠ .found span :=
  fun found => h _ (t.find_found isWord resumes (.at stops lt) found)

end Twin
end Source

namespace Pass

variable {name : Bytes} {offset close : Nat} {ending body : Span}

theorem readName_take (stops : Stops source b) (resumes : Resumes source offset) (lt : close < b)
    (h : (readName source offset).result = .ok (name, close)) :
    (readName (source.take b) offset).result = .ok (name, close) := by
  unfold readName at h ⊢
  obtain ⟨o, opener, h⟩ := Logged.result_bind_ok.mp h
  obtain ⟨c, closer, h⟩ := Logged.result_bind_ok.mp h
  have opener := Logged.result_ofOption_ok.mp opener
  have closer := Logged.result_ofOption_ok.mp closer
  obtain ⟨seen, byte⟩ := Option.filter_eq_some_iff.mp opener
  obtain ⟨member, code⟩ := mem_of_nextCode resumes stops_length seen
  have opens : o.isCodeByte Delimiter.paren.opener = true :=
    Mark.isCodeByte_iff.mpr ⟨code, beq_iff_eq.mp byte⟩
  have same : c = close := by
    dsimp only at h
    split at h
    · exact (Prod.mk.inj (Except.ok.inj h)).2
    · contradiction
  subst same
  have after := (bounds_of_matchingClose closer).1
  refine Logged.result_bind_ok.mpr ⟨o, Logged.result_ofOption_ok.mpr ?_,
    Logged.result_bind_ok.mpr ⟨c, Logged.result_ofOption_ok.mpr ?_, ?_⟩⟩
  · rw [nextCode_cut stops resumes (by omega) seen, Option.filter_some, if_pos byte]
  · exact matchingClose_cut stops member opens lt closer
  · dsimp only at h ⊢
    rw [slice_take (Nat.le_of_lt lt)]
    split at h
    · next named =>
      rw [if_pos named]
      exact h
    · contradiction

theorem readEnd_take (t : Twin True False 0 (source.take b) source) (stops : Stops source b)
    (resumes : Resumes source offset) (le : offset ≤ b) (le' : ending.stop ≤ b)
    (h : (readEnd source name offset start).result = .ok ending) :
    (readEnd (source.take b) name offset start).result = .ok ending := by
  have found := find_of_readEnd h
  have cut := resumes_take stops resumes le
  obtain ⟨occurs, long, _, _⟩ :=
    occurs_of_find Keyword.isWord_passEnd resumes stops_length found
  have lt : ending.start < (source.take b).length := by
    have := occurs.lt_length
    have := List.length_pos_iff.mpr Keyword.isWord_passEnd.1
    rw [List.length_take]
    omega
  unfold readEnd at h ⊢
  obtain ⟨span, seen, h⟩ := Logged.result_bind_ok.mp h
  have free : ∀ other, find source ⟨offset, ending.start⟩ Keyword.passBegin .terminator ≠
      .found other := by
    intro other begun
    split at h
    · contradiction
    all_goals
      next none =>
      obtain rfl := Except.ok.inj h
      rw [none] at begun
      contradiction
  refine Logged.result_bind_ok.mpr ⟨ending, ?_, ?_⟩
  · rw [result_terminator, find_cut t Keyword.isWord_passEnd cut le' found]
  · have free' :=
      find_cut_absent t Keyword.isWord_passBegin cut (stops_take stops occurs.stops) lt free
    cases none : find (source.take b) ⟨offset, ending.start⟩ Keyword.passBegin .terminator with
    | found other => exact absurd none (free' other)
    | commented _ | absent => rfl

theorem readBody_take (stops : Stops source b) {o : Mark} (ho : o ∈ scan source 0)
    (opens : o.isCodeByte Delimiter.brace.opener = true) (lt : stop < b)
    (h : (readBody source o.offset stop).result = .ok body) :
    (readBody (source.take b) o.offset stop).result = .ok body := by
  obtain ⟨c, braces, rfl⟩ := braces_of_readBody ho opens h
  have inside := braces.le
  have closed := matchingClose_cut stops ho opens (Nat.lt_of_le_of_lt inside lt) braces.matching
  unfold readBody
  refine Logged.result_bind_ok.mpr ⟨c.offset, Logged.result_ofOption_ok.mpr closed, ?_⟩
  rw [if_neg (Nat.not_lt.mpr inside), nextCode_take_eq (Nat.le_of_lt lt), braces.clean]
  rfl

theorem readHeader_take (t : Twin True False 0 (source.take b) source) (stops : Stops source b)
    {span : Span} (resumes : Resumes source span.start) (last : Stops source span.stop)
    (le : span.start ≤ b) (le' : span.stop ≤ b) {header : Header}
    (h : (Header.read ⟨source, name, span⟩).result = .ok header) :
    (Header.read ⟨source.take b, name, span⟩).result = .ok header := by
  unfold Header.read at h ⊢
  dsimp only at h ⊢
  have window : (source.take b).take span.stop = source.take span.stop := by
    rw [List.take_take, Nat.min_eq_left le']
  have members (m : Mark) (hm : m ∈ scan (source.take span.stop) span.start) :
      m ∈ scan (source.take b) 0 :=
    (mem_window (resumes_take stops resumes le) (stops_take stops last) (window ▸ hm)).1
  have agree := t.counterpart.header_readFrom name name span _ _ (tracks_refl True _) members
    (isChain_scan ..) (isChain_scan ..) [] Clauses.follows_empty
  obtain ⟨header', read, same⟩ := agree.exists_ok h
  obtain ⟨clauses, bodyOpen⟩ := header
  obtain rfl : clauses = header'.clauses := same.clauses.eq
  obtain rfl : bodyOpen = header'.bodyOpen := same.bodyOpen
  rwa [window]

theorem readBlocks_take (t : Twin True False 0 (source.take b) source) (stops : Stops source b)
    (resumes : Resumes source body.start) (last : Stops source body.stop)
    (le : body.start ≤ b) (lt : body.stop < (source.take b).length) {blocks : List FixedBlock}
    (h : (FixedBlock.readAll source body).result = .ok blocks) :
    (FixedBlock.readAll (source.take b) body).result = .ok blocks := by
  have agree := @Counterpart.fixedBlock_readFrom _ _ _ _ _ _ t.counterpart body body.start
    (resumes_take stops resumes le) (stops_take stops last) lt
  obtain ⟨blocks', read, same⟩ := agree.exists_ok h
  rwa [FixedBlock.eq_of_follows same]

/-- A pass is read from what stands before a later one as it is from the whole source. -/
theorem read_take (t : Twin True False 0 (source.take b) source) (stops : Stops source b)
    (begins : Occurs source Keyword.passBegin start) {p : Pass} (le : stop ≤ b)
    (h : (read source start).result = .ok (p, stop)) :
    (read (source.take b) start).result = .ok (p, stop) := by
  obtain ⟨close, ending, _, _, steps, rfl⟩ := (read_ok_iff begins.spelled).mp h
  -- Where the parts stand: each of them ends before `PASS_END` does, so none reaches the cut.
  have resumes := steps.resumes begins
  obtain ⟨ends, long⟩ := steps.ends begins
  obtain ⟨o, c, braces, named, low, rfl, rfl⟩ := steps.braces begins
  have keyword := List.length_pos_iff.mpr Keyword.isWord_passEnd.1
  have later := braces.lt
  have inside := braces.le
  have short : c.offset < (source.take b).length := by
    have := offset_lt_of_mem braces.closer
    rw [List.length_take]
    omega
  have begins' : Keyword.passBegin <+: (source.take b).drop start :=
    (prefix_drop_take_iff Keyword.isWord_passBegin.1).mpr ⟨begins.spelled, by omega⟩
  refine (read_ok_iff begins').mpr ⟨close, ending, o.offset, ⟨o.offset + 1, c.offset⟩, ?_, rfl⟩
  exact {
    named := readName_take stops (begins.resumes Keyword.isWord_passBegin) (by omega) steps.named
    ended := readEnd_take t stops resumes (by omega) le steps.ended
    headed := readHeader_take t stops resumes ends.stops (by dsimp only; omega)
      (by dsimp only; omega) steps.headed
    bodied := readBody_take stops braces.opener braces.opens (by omega) steps.bodied
    blocked := readBlocks_take t stops
      (resumes_of_mem braces.opener (Mark.isCodeByte_iff.mp braces.opens).1)
      (stops_of_mem braces.closer (Mark.isCodeByte_iff.mp braces.closes).1)
      (by dsimp only; omega) short steps.blocked
    text := by rw [slice_take (by omega), steps.text]
    bare := steps.bare }

end Pass
end PassCompiler
