import PassCompiler.Proofs.Pass.Steps
import PassCompiler.Proofs.Source.Phase

/-! Sources put one behind the other. A source that ends with a line feed in code can be parsed by
itself: what follows it is parsed as if it stood alone, and changes nothing that stands before
it. -/
namespace PassCompiler

open Source

variable {s t : Bytes}

/-- The last byte is a line feed, in code. -/
def EndsLine (s : Bytes) : Prop :=
  ∃ m, (scan s 0).getLast? = some m ∧ m.isCodeByte 0x0A = true

theorem EndsLine.exists_mem (h : EndsLine s) :
    ∃ m ∈ scan s 0, m.offset + 1 = s.length ∧ m.isCode = true ∧ m.byte = 0x0A := by
  obtain ⟨m, last, ends⟩ := h
  have member := List.mem_of_getLast? last
  rw [List.getLast?_eq_getElem?, length_scan_zero] at last
  have place := offset_of_getElem?_scanFrom last
  have := offset_lt_of_mem member
  exact ⟨m, member, by omega, Mark.isCodeByte_iff.mp ends⟩

theorem scan_append (h : EndsLine s) (t : Bytes) :
    scan (s ++ t) 0 = scan s 0 ++ (scan t 0).map (Mark.shift s.length) := by
  obtain ⟨m, last, ends⟩ := h
  obtain ⟨code, byte⟩ := Mark.isCodeByte_iff.mp ends
  have split : scanFrom .code 0 (s ++ t) =
      scanFrom .code 0 s ++ scanFrom .code (0 + s.length) t := by
    obtain ⟨v, ends⟩ := List.getLast?_eq_some_iff.mp last
    exact scanFrom_seam (sealed_of_scan ends code (byte ▸ by decide) _)
  rw [scanFrom_add] at split
  exact split

/-- What is read from the first part is read from the whole. -/
theorem twin_left (h : EndsLine s) (t : Bytes) : Twin True False 0 s (s ++ t) where
  base := resumes_zero
  tracks := ⟨_, _, scan_append h t, tracks_refl .., False.elim⟩
  ending := by
    obtain ⟨m, hm, at', code, byte⟩ := h.exists_mem
    exact .inr ⟨m, hm, at', code, byte ▸ by decide⟩

/-- The whole is read from where the second part starts as the second part is. -/
theorem twin_right (h : EndsLine s) (t : Bytes) : Twin True True s.length t (s ++ t) where
  base := by
    obtain ⟨m, hm, at', code, _⟩ := h.exists_mem
    exact .inr ⟨m, scan_append h t ▸ List.mem_append_left _ hm, code, at'⟩
  tracks := by
    refine ⟨_, [], ?_, tracks_shift True s.length (scan t 0), fun _ => rfl⟩
    rw [scan_append h t, List.append_nil, List.drop_left' (length_scan_zero s)]
  ending := .inl trivial

theorem FixedBlock.Follows.eq {b b' : FixedBlock} (h : b.Follows Eq b') : b' = b := by
  obtain ⟨span, interior, ⟨_, _, rfl, first, first'⟩, ⟨_, _, rfl, second, second'⟩⟩ := h
  obtain ⟨_, _, _, _⟩ := b
  obtain ⟨_, _, _, _⟩ := b'
  dsimp only at *
  subst span interior first first' second second'
  rfl

theorem FixedBlock.eq_of_follows {l l' : List FixedBlock}
    (h : List.Forall₂ (FixedBlock.Follows Eq) l l') : l' = l := by
  have alike := h.imp fun b b' follows => (FixedBlock.Follows.eq follows).symm
  rw [List.forall₂_eq_eq_eq] at alike
  exact alike.symm

theorem Clauses.Follows.eq {c c' : Clauses} (h : c.Follows Eq c') : c' = c :=
  Clauses.eq_of_get fun k => by
    have alike := h k
    rw [List.forall₂_eq_eq_eq] at alike
    exact alike.symm

theorem Pass.Follows.eq {p p' : Pass} (h : p.Follows True Eq p') : p' = p := by
  obtain ⟨name, clauses, blocks, body, epilogue⟩ := h
  obtain ⟨_, c, l, _, _⟩ := p
  obtain ⟨_, c', l', _, _⟩ := p'
  have sameClauses : c' = c := clauses.eq
  have sameBlocks : l' = l := FixedBlock.eq_of_follows blocks
  dsimp only at *
  rw [name, sameClauses, sameBlocks, body.2 trivial, epilogue.2 trivial]

theorem length_le_of_resumes {cursor : Nat} (h : Resumes s cursor) : cursor ≤ s.length := by
  rcases h with rfl | ⟨m, hm, _, rfl⟩
  · exact Nat.zero_le _
  · exact offset_lt_of_mem hm

/-- No word reaches over the end of the first part. -/
theorem EndsLine.not_over (h : EndsLine s) {keyword : Bytes} (isWord : IsWord keyword) {i : Nat}
    (occurs : Occurs (s ++ t) keyword i) (before : i < s.length) :
    i + keyword.length ≤ s.length := by
  by_contra beyond
  obtain ⟨m, hm, at', _, byte⟩ := h.exists_mem
  have inside : m.offset - i < keyword.length := by omega
  obtain ⟨n, hn, at'', _, byte'⟩ := (occurs_iff isWord).mp occurs (m.offset - i) _
    (List.getElem?_eq_getElem inside)
  have same : m = n := eq_of_mem_scan (scan_append h t ▸ List.mem_append_left _ hm) hn (by omega)
  have ident := isWord.2 _ (List.getElem_mem inside)
  rw [← byte', ← same, byte] at ident
  exact absurd ident (by decide)

/-- A search that finds nothing in the first part goes on as one that starts behind it. -/
theorem sighted_behind (h : EndsLine s) {keyword : Bytes} (isWord : IsWord keyword)
    {cursor : Nat} (resumes : Resumes s cursor)
    (absent : ∀ span, find s ⟨cursor, s.length⟩ keyword .terminator ≠ .found span) (i : Nat) :
    Sighted (s ++ t) ⟨cursor, (s ++ t).length⟩ keyword .terminator i ↔
      Sighted (s ++ t) ⟨s.length, (s ++ t).length⟩ keyword .terminator i := by
  have left := twin_left h t
  have le := length_le_of_resumes resumes
  rw [sighted_iff (s := s ++ t) isWord.1 (left.resumes resumes) stops_length,
    sighted_iff (s := s ++ t) isWord.1 (twin_right h t).base stops_length]
  dsimp only
  rcases Nat.lt_or_ge i s.length with before | behind
  · constructor
    · rintro ⟨after, inside, occurs, fits⟩
      have short := h.not_over isWord occurs before
      refine absurd ?_ (find_ne_found_iff.mp absent i)
      rw [← left.sighted isWord resumes .whole short]
      exact (sighted_iff (s := s ++ t) isWord.1 (left.resumes resumes) stops_length).mpr
        ⟨after, inside, occurs, fits⟩
    · rintro ⟨after, _⟩
      omega
  · have same : Boundary.terminator.accepts (s ++ t) cursor ⟨i, i + keyword.length⟩ =
        Boundary.terminator.accepts (s ++ t) s.length ⟨i, i + keyword.length⟩ := by
      unfold Boundary.accepts
      dsimp only
      rcases Nat.eq_or_lt_of_le behind with rfl | later
      · obtain ⟨m, hm, at', _, byte⟩ := h.exists_mem
        have blank : ((s ++ t)[s.length - 1]?).any Boundary.terminator.before = true := by
          rw [← at', Nat.add_sub_cancel, List.getElem?_append_left (offset_lt_of_mem hm),
            getElem?_of_mem_scan hm, byte]
          rfl
        simp only [blank, Bool.or_true]
      · rw [beq_false_of_ne (by omega : i ≠ cursor), beq_false_of_ne (by omega : i ≠ s.length)]
    rw [same]
    constructor
    · rintro ⟨_, both⟩
      exact ⟨behind, both⟩
    · rintro ⟨_, both⟩
      exact ⟨by omega, both⟩

theorem find_found_of_sighted {keyword : Bytes} {boundary : Boundary} {range range' : Span}
    (same : ∀ i, Sighted s range keyword boundary i ↔ Sighted s range' keyword boundary i)
    {span : Span} (h : find s range keyword boundary = .found span) :
    find s range' keyword boundary = .found span := by
  obtain ⟨long, here, first⟩ := find_eq_found_iff.mp h
  exact find_eq_found_iff.mpr ⟨long, (same _).mp here, fun j lt => mt (same j).mpr (first j lt)⟩

namespace Graph

/-- The passes of both, what stands before those of the second being kept behind those of the
first. -/
def append (g h : Graph) : Graph :=
  match g.passes.getLast? with
  | none => ⟨g.prelude ++ h.prelude, h.passes⟩
  | some last =>
    ⟨g.prelude,
      g.passes.dropLast ++ { last with epilogue := last.epilogue ++ h.prelude } :: h.passes⟩

theorem append_cons (prelude epilogue : Bytes) (p : Pass) (later : List Pass) (h : Graph) :
    append ⟨prelude, { p with epilogue } :: later⟩ h =
      ⟨prelude, { p with epilogue := (append ⟨epilogue, later⟩ h).prelude } ::
        (append ⟨epilogue, later⟩ h).passes⟩ := by
  cases later with
  | nil => rfl
  | cons q rest =>
    have last : (({ p with epilogue } : Pass) :: q :: rest).getLast? = (q :: rest).getLast? :=
      List.getLast?_cons_cons
    simp only [append, last]
    cases seen : (q :: rest).getLast? with
    | none => simp at seen
    | some z => simp

theorem slice_append_left {cursor stop : Nat} (le : cursor ≤ s.length) (behind : s.length ≤ stop) :
    Bytes.slice (s ++ t) ⟨cursor, stop⟩ =
      s.drop cursor ++ Bytes.slice (s ++ t) ⟨s.length, stop⟩ := by
  simp only [Bytes.slice, List.take_append, List.take_of_length_le behind,
    List.drop_append_of_le_length le, List.drop_left]

/-- What is read from some place of the first part on, and then from the second. -/
theorem readFrom_append (h : EndsLine s) {cursor : Nat} (resumes : Resumes s cursor)
    {prelude : Bytes} {passes : List Pass}
    (read : (readFrom s cursor).result = .ok (prelude, passes)) :
    (readFrom (s ++ t) cursor).result =
      (readFrom (s ++ t) s.length).result.map fun y =>
        ((append ⟨prelude, passes⟩ ⟨y.1, y.2⟩).prelude,
          (append ⟨prelude, passes⟩ ⟨y.1, y.2⟩).passes) := by
  have left := (twin_left h t).counterpart
  obtain ⟨spans, reads⟩ := exists_reads resumes read
  clear resumes read
  induction reads with
  | @pass cursor stop beginning p epilogue later spans resumes seen first _ ih =>
    have occurs := (occurs_of_find Keyword.isWord_passBegin resumes stops_length seen).1
    have found : find (s ++ t) ⟨cursor, (s ++ t).length⟩ Keyword.passBegin .terminator =
      .found beginning := left.find_found Keyword.isWord_passBegin resumes .whole seen
    obtain ⟨⟨p', stop'⟩, first', same, at', _⟩ := (left.pass_read occurs).ok _ first
    dsimp only [Nat.add_zero] at same at'
    rw [same.eq, at'] at first'
    have sameText : Bytes.slice (s ++ t) ⟨cursor, beginning.start⟩ =
        Bytes.slice s ⟨cursor, beginning.start⟩ :=
      (left.slice resumes occurs.stops occurs.lt_length).2 trivial
    rw [result_readFrom (s ++ t) cursor, found]
    dsimp only
    rw [Nat.add_zero] at first'
    rw [first', sameText]
    simp only [append_cons]
    dsimp only [Except.bind]
    rw [ih]
    cases (readFrom (s ++ t) s.length).result <;> rfl
  | @rest cursor resumes absent =>
    have le := length_le_of_resumes resumes
    have same := sighted_behind (t := t) h Keyword.isWord_passBegin resumes absent
    cases seen' : find (s ++ t) ⟨s.length, (s ++ t).length⟩ Keyword.passBegin .terminator with
    | found beginning =>
      rw [result_readFrom, result_readFrom (s ++ t) s.length, seen',
        find_found_of_sighted (fun i => (same i).symm) seen']
      have behind := (find_eq_found_iff.mp seen').2.1.start_le
      dsimp only at behind ⊢
      rw [slice_append_left le behind]
      cases (Pass.read (s ++ t) beginning.start).result with
      | error e => rfl
      | ok x =>
        dsimp only [Except.bind]
        cases (readFrom (s ++ t) x.2).result <;> rfl
    | commented _ | absent =>
      have rest : (s ++ t).drop cursor = s.drop cursor ++ (s ++ t).drop s.length := by
        rw [List.drop_append_of_le_length le, List.drop_left]
      have absent' : ∀ span, find (s ++ t) ⟨s.length, (s ++ t).length⟩ Keyword.passBegin
          .terminator ≠ .found span := fun _ seen => nomatch seen'.symm.trans seen
      rw [result_readFrom_rest absent', result_readFrom_rest fun span seen =>
        absent' span (find_found_of_sighted same seen), rest]
      rfl

end Graph

theorem EndsLine.eq_append (h : EndsLine s) : ∃ lines, s = lines ++ [0x0A] := by
  obtain ⟨m, hm, at', _, byte⟩ := h.exists_mem
  have last : s.getLast? = some 0x0A := by
    rw [List.getLast?_eq_getElem?, ← at', Nat.add_sub_cancel, getElem?_of_mem_scan hm, byte]
  exact List.getLast?_eq_some_iff.mp last

theorem Source.position_append (h : EndsLine s) (t : Bytes) (offset : Nat) :
    position (s ++ t) (offset + s.length) =
      ⟨(position t offset).line + s.count 0x0A, (position t offset).column⟩ := by
  obtain ⟨lines, same⟩ := h.eq_append
  have before : (s ++ t).take (offset + s.length) = s ++ t.take offset := by
    rw [Nat.add_comm, List.take_length_add_append]
  have column : ((s ++ t.take offset).reverse.takeWhile (· != 0x0A)).length =
      ((t.take offset).reverse.takeWhile (· != 0x0A)).length := by
    rw [List.reverse_append, same, List.reverse_append, List.takeWhile_append]
    split
    · next all => simp [all]
    · rfl
  simp only [position, before, column, List.count_append, List.length_append]
  congr 1
  · omega
  · omega

/-- The fault of a source, in one that has `s` before it. -/
def Fault.after (s : Bytes) (e : Fault) : Fault where
  offset := e.offset + s.length
  position := ⟨e.position.line + s.count 0x0A, e.position.column⟩
  cause := e.cause

theorem Fault.Follows.eq {e f : Fault} (h : EndsLine s)
    (follows : Fault.Follows True s.length t (s ++ t) e f) : f = e.after s := by
  obtain ⟨offset, cause, cause', rfl, rfl, _, same⟩ := follows
  rw [same trivial, locate, position_append h, after, locate]

/-- A source whose last byte is a line feed in code is parsed as it is alone, whatever follows, and
what follows as it is alone, further down. -/
theorem Graph.parse_append {g : Graph} (parsed : (parse s).result = .ok g) (h : EndsLine s)
    (t : Bytes) :
    (parse (s ++ t)).result =
      match (parse t).result with
      | .ok later => .ok (g.append later)
      | .error e => .error (e.after s) := by
  rw [result_parse] at parsed
  obtain ⟨⟨prelude, passes⟩, read, rfl⟩ := Argument.exists_of_map_ok parsed
  rw [result_parse, result_parse, readFrom_append h resumes_zero read]
  have rest := (twin_right h t).counterpart.graph_readFrom trivial 0 resumes_zero
  rw [Nat.zero_add] at rest
  cases alone : (readFrom t 0).result with
  | error e =>
    obtain ⟨f, after, follows⟩ := rest.error trivial e alone
    rw [after, follows.eq h]
    rfl
  | ok y =>
    obtain ⟨y', after, ⟨_, prelude⟩, passes⟩ := rest.ok y alone
    have same := passes.imp fun p p' follows => (Pass.Follows.eq follows).symm
    rw [List.forall₂_eq_eq_eq] at same
    have whole : y' = y := Prod.ext (prelude trivial) same.symm
    rw [after, whole]
    rfl

/-- A pass, and a commented keyword behind it. -/
theorem Graph.parse_append_commented :
    (parse (bytes "x\nPASS_BEGIN(a) \x7b\x7d PASS_END\n" ++ bytes "// PASS_BEGIN\n")).result =
      .ok ⟨bytes "x\n", [⟨bytes "a", {}, [], [], bytes "\n// PASS_BEGIN\n"⟩]⟩ :=
  (parse_append (g := ⟨bytes "x\n", [⟨bytes "a", {}, [], [], bytes "\n"⟩]⟩) (by decide +kernel)
    ⟨⟨27, 0x0A, .code⟩, by decide +kernel, rfl⟩ (bytes "// PASS_BEGIN\n")).trans
    (by decide +kernel)

end PassCompiler
