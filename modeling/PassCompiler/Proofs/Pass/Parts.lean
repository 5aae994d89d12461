import PassCompiler.Proofs.Pass.Concatenation
import PassCompiler.Proofs.Pass.Partition
import PassCompiler.Proofs.Source.Group

/-! The parts of a pass as they were read, and its fixed blocks, which can be read from its body
alone. -/
namespace PassCompiler

open Source

variable {source : Bytes}

/-- Where the parts of a pass were read: its header in `span`, its body between the braces `o` and
`c`. -/
structure Pass.Parts (source : Bytes) (p : Pass) (span : Span) (o c : Mark) : Prop where
  named : Pass.isName p.name = true
  resumes : Resumes source span.start
  stops : Stops source span.stop
  header : (Header.read ⟨source, p.name, span⟩).result = .ok ⟨p.clauses, o.offset⟩
  opener : o ∈ scan source 0
  opens : o.isCodeByte Delimiter.brace.opener = true
  closer : c ∈ scan source 0
  closes : c.isCodeByte Delimiter.brace.closer = true
  lt : o.offset < c.offset
  body : p.body = Bytes.slice source ⟨o.offset + 1, c.offset⟩
  blocks : (FixedBlock.readAll source ⟨o.offset + 1, c.offset⟩).result = .ok p.fixedBlocks

/-- The name of a pass is what stands in the parentheses behind its keyword. -/
theorem Pass.readName_ok {name : Bytes} {offset close : Nat} (resumes : Resumes source offset)
    (h : (readName source offset).result = .ok (name, close)) : isName name = true ∧
      ∃ first, GroupBehind source offset first close ∧
        name = Blank.trim (Bytes.slice source ⟨first + 1, close⟩) := by
  unfold readName at h
  obtain ⟨o, opener, h⟩ := Logged.result_bind_ok.mp h
  obtain ⟨c, closer, h⟩ := Logged.result_bind_ok.mp h
  obtain ⟨seen, opens⟩ := Option.filter_eq_some_iff.mp (Logged.result_ofOption_ok.mp opener)
  dsimp only at h
  split at h
  · next named =>
    obtain ⟨rfl, rfl⟩ := Prod.mk.inj (Except.ok.inj h)
    obtain ⟨member, code⟩ := mem_of_nextCode resumes stops_length seen
    refine ⟨named, o.offset, ⟨nextCode_of_search resumes seen, ⟨o, member, rfl, code⟩, ?_,
      Logged.result_ofOption_ok.mp closer⟩, rfl⟩
    rw [getElem?_of_mem_scan member, beq_iff_eq.mp opens]
  · contradiction

/-- What was read of a pass: its name in parentheses, its parts and its last keyword. -/
theorem Pass.outline_of_read {start stop : Nat} {p : Pass}
    (begins : Occurs source Keyword.passBegin start)
    (h : (read source start).result = .ok (p, stop)) : ∃ first close last o c,
      Stretch source Keyword.passBegin Keyword.passEnd start first close last ∧
        stop = last + Keyword.passEnd.length ∧
        p.name = Blank.trim (Bytes.slice source ⟨first + 1, close⟩) ∧
        p.Parts source ⟨close + 1, last⟩ o c := by
  obtain ⟨close, ending, _, _, steps, rfl⟩ := (read_ok_iff begins.spelled).mp h
  have resumes := steps.resumes begins
  obtain ⟨isName, first, group, spelled⟩ :=
    readName_ok (begins.resumes Keyword.isWord_passBegin) steps.named
  obtain ⟨long, here, unended⟩ := find_eq_found_iff.mp (find_of_readEnd steps.ended)
  have sighted (i : Nat) := sighted_iff_terminates (i := i) Keyword.isWord_passEnd resumes
    stops_length
  obtain ⟨after, _, ends⟩ := (sighted _).mp here
  obtain ⟨o, c, braces, _, _, rfl, rfl⟩ := steps.braces begins
  refine ⟨first, close, ending.start, o, c, ?_, long, spelled, ?_⟩
  · refine ⟨begins, group, after, ends, fun i low high terminates => unended i high ?_⟩
    exact (sighted i).mpr ⟨low, terminates.occurs.le_length, terminates⟩
  · exact { braces with
      named := isName
      resumes
      stops := (steps.ends begins).1.stops
      header := steps.headed
      body := steps.text
      blocks := steps.blocked }

theorem Graph.parts_of_parse {g : Graph} (parsed : (parse source).result = .ok g) {p : Pass}
    (hp : p ∈ g.passes) : ∃ span o c, p.Parts source span o c := by
  obtain ⟨spans, partition, _⟩ := exists_partition parsed
  have all := partition.passes
  obtain ⟨i, lt, rfl⟩ := List.mem_iff_getElem.mp hp
  have stands := all.get lt (all.length_eq ▸ lt)
  obtain ⟨_, _, _, o, c, _, _, _, parts⟩ := Pass.outline_of_read stands.begins stands.read
  exact ⟨_, o, c, { parts with }⟩

namespace FixedBlock

variable {x : Bytes} {b : UInt8}

theorem read_concat (x : Bytes) (b : UInt8) {span : Span} (inside : span.stop ≤ x.length)
    {args : List Bytes} (h : Argument.read (x ++ [b]) span = .ok args) :
    Argument.read x span = .ok args := by
  have cut : (x ++ [b]).take span.stop = x.take span.stop := List.take_append_of_le_length inside
  rw [Argument.read_eq_ok_iff] at h ⊢
  rwa [cut] at h

theorem find_of_terminator {owner keyword : Bytes} {range span : Span} {fault : Fault}
    (h : (terminator source owner keyword range fault).result = .ok span) :
    find source range keyword .terminator = .found span :=
  find_of_findTerminator (findTerminator_of_terminator h)

structure Located.Parts (source : Bytes) (body : Span) (b : Located) (o : Mark) : Prop where
  opener : nextCode source b.beginning.stop body.stop = some o
  opens : o.byte = Delimiter.paren.opener
  closer : matchingClose (source.take body.stop) o.offset = some b.close
  args : Argument.read source ⟨o.offset + 1, b.close⟩ = .ok [b.renderPass, b.subpass]
  ending : find source ⟨b.close + 1, body.stop⟩ Keyword.fixedEnd .terminator = .found b.ending
  free : ∀ span, find source ⟨b.close + 1, b.ending.start⟩ Keyword.fixedBegin .terminator ≠
    .found span

theorem readAt_ok_iff {body beginning : Span} {b : Located} :
    (readAt source body beginning).result = .ok b ↔
      b.beginning = beginning ∧ ∃ o, b.Parts source body o := by
  unfold readAt
  constructor
  · intro h
    obtain ⟨o, hopen, h⟩ := Logged.result_bind_ok.mp h
    obtain ⟨close, hclose, h⟩ := Logged.result_bind_ok.mp h
    obtain ⟨args, hargs, h⟩ := Logged.result_bind_ok.mp h
    obtain ⟨seen, opens⟩ := Option.filter_eq_some_iff.mp (Logged.result_ofOption_ok.mp hopen)
    split at h
    · obtain ⟨ending, hending, h⟩ := Logged.result_bind_ok.mp h
      split at h
      · contradiction
      all_goals
        next free =>
        obtain rfl := Except.ok.inj h
        refine ⟨rfl, o, seen, by simpa using opens, Logged.result_ofOption_ok.mp hclose, hargs,
          find_of_terminator hending, ?_⟩
        intro span found
        rw [free] at found
        contradiction
    · contradiction
  · rintro ⟨rfl, o, opener, opens, closer, args, ending, free⟩
    refine Logged.result_bind_ok.mpr ⟨o, ?_, Logged.result_bind_ok.mpr ⟨b.close, ?_,
      Logged.result_bind_ok.mpr ⟨_, args, Logged.result_bind_ok.mpr ⟨b.ending, ?_, ?_⟩⟩⟩⟩
    · rw [opener, Option.filter_some, if_pos (by simpa using opens)]
      rfl
    · rw [closer]
      rfl
    · rw [result_terminator, ending]
    · cases seen : find source ⟨b.close + 1, b.ending.start⟩ Keyword.fixedBegin .terminator with
      | found span => exact absurd seen (free span)
      | commented _ | absent => rfl

theorem Located.Parts.concat (ident : Bytes.isIdent b = false) {start : Nat} {l : Located}
    {o : Mark} (h : l.Parts (x ++ [b]) ⟨start, x.length⟩ o) : l.Parts x ⟨start, x.length⟩ o := by
  obtain ⟨opener, opens, closer, args, ending, free⟩ := h
  have cut : (x ++ [b]).take x.length = x.take x.length :=
    List.take_append_of_le_length (Nat.le_refl _)
  have whole : (x.take x.length).length = x.length := by rw [List.take_length]
  dsimp only at opener closer
  rw [cut] at closer
  rw [nextCode, cut] at opener
  have closed := (bounds_of_matchingClose closer).2
  have ending := (find_concat ident (by decide) (Nat.le_refl _)).mp ending
  have last := stop_le_of_find ending
  have long := bounds_of_find ending
  dsimp only at last long
  have inside : l.ending.start ≤ x.length := by omega
  refine ⟨opener, opens, closer,
    read_concat x b (Nat.le_trans (Nat.le_of_lt closed) (by omega)) args, ending, ?_⟩
  intro span found
  exact free span ((find_concat ident (by decide) inside).mpr found)

/-- The blocks of a text that something closes are those of the text alone. -/
theorem readFrom_concat (ident : Bytes.isIdent b = false) {start cursor : Nat}
    {blocks : List FixedBlock}
    (h : (readFrom (x ++ [b]) ⟨start, x.length⟩ cursor).result = .ok blocks) :
    (readFrom x ⟨start, x.length⟩ cursor).result = .ok blocks := by
  induction cursor using readFrom_induction (x ++ [b]) ⟨start, x.length⟩ generalizing blocks with
  | block cursor beginning seen ih =>
    rw [result_readFrom, seen] at h
    obtain ⟨located, first, h⟩ := exists_of_bind_ok h
    obtain ⟨later, rest, h⟩ := exists_of_bind_ok h
    obtain ⟨same, o, parts⟩ := readAt_ok_iff.mp first
    have alone := readAt_ok_iff.mpr ⟨same, o, parts.concat ident⟩
    rw [result_readFrom, (find_concat ident (by decide) (Nat.le_refl _)).mp seen]
    dsimp only
    rw [alone]
    dsimp only [Except.bind]
    rw [ih located first rest]
    exact h
  | rest cursor absent =>
    rw [result_readFrom_rest absent] at h
    rw [← h]
    refine result_readFrom_rest fun span alone => absent span ?_
    exact (find_concat ident (by decide) (Nat.le_refl _)).mpr alone

end FixedBlock

/-- The fixed blocks of a pass are those of its body, read as a source of its own. -/
theorem Pass.Parts.readAll_body {p : Pass} {span : Span} {o c : Mark}
    (h : p.Parts source span o c) :
    (FixedBlock.readAll p.body ⟨0, p.body.length⟩).result = .ok p.fixedBlocks := by
  obtain ⟨code, byte⟩ := Mark.isCodeByte_iff.mp h.opens
  obtain ⟨code', byte'⟩ := Mark.isCodeByte_iff.mp h.closes
  have ident : Bytes.isIdent c.byte = false := by
    rw [byte']
    decide
  have twin := twin_enclosed h.opener code h.closer code' h.lt (by rw [byte']; decide) ident
  have ended : Bytes.slice source ⟨o.offset + 1, c.offset + 1⟩ = p.body ++ [c.byte] := by
    rw [Bytes.slice_append (b := c.offset) h.lt (Nat.le_succ _), ← h.body,
      Bytes.slice_single (getElem?_of_mem_scan h.closer)]
  have long : p.body.length + (o.offset + 1) = c.offset := by
    have := h.lt
    rw [h.body, Bytes.length_slice (Nat.le_of_lt (offset_lt_of_mem h.closer))]
    omega
  rw [ended] at twin
  -- The body is followed by its brace in the source, so both are read up to it.
  have stops : Stops (p.body ++ [c.byte]) p.body.length := by
    obtain ⟨m, hm, last, code, _⟩ := twin.ending.resolve_left id
    rw [List.length_append, List.length_singleton, Nat.add_right_cancel_iff] at last
    exact .inr ⟨m, hm, code, last⟩
  have agree := @Counterpart.fixedBlock_readFrom _ _ _ _ _ _ twin.counterpart ⟨0, p.body.length⟩ 0
    resumes_zero stops (by simp)
  dsimp only at agree
  rw [Nat.zero_add, long] at agree
  have read := h.blocks
  unfold FixedBlock.readAll at read ⊢
  dsimp only at read ⊢
  obtain ⟨blocks, alone, same⟩ := agree.exists_ok read
  rw [FixedBlock.eq_of_follows same]
  exact FixedBlock.readFrom_concat ident alone

end PassCompiler
