import PassCompiler.Proofs.Pass.Counterpart.FixedBlock
import PassCompiler.Proofs.Pass.Counterpart.Header
import PassCompiler.Proofs.Text.Trim

/-! Names and bodies read from a source and from its counterpart, and from them whole passes and
all passes from some place on. -/
namespace PassCompiler

open Source

variable {strict final : Prop} {d : Nat} {A : Bytes → Bytes → Prop} {s s' : Bytes}

def Sized (strict : Prop) (x x' : Bytes) : Prop := x'.length = x.length ∧ (strict → x' = x)

structure Pass.Follows (strict : Prop) (A : Bytes → Bytes → Prop) (p p' : Pass) : Prop where
  name : p'.name = p.name
  clauses : p.clauses.Follows A p'.clauses
  fixedBlocks : List.Forall₂ (FixedBlock.Follows A) p.fixedBlocks p'.fixedBlocks
  body : Sized strict p.body p'.body
  epilogue : Sized strict p.epilogue p'.epilogue

/-- The first comment of a window behind a code byte opens with a slash. -/
theorem Source.slash_mem_slice {o : Mark} {stop : Nat} (ho : o ∈ scan s 0)
    (code : o.isCode = true) (stops : Stops s stop)
    (comment : ¬ ∀ m ∈ scan (s.take stop) (o.offset + 1), m.isCode = true) :
    0x2F ∈ Bytes.slice s ⟨o.offset + 1, stop⟩ := by
  have whole : text (scan (s.take stop) (o.offset + 1)) = Bytes.slice s ⟨o.offset + 1, stop⟩ :=
    text_scanFrom ..
  have resumes := resumes_of_mem ho code
  rw [← whole]
  cases found : (scan (s.take stop) (o.offset + 1)).find? (!·.isCode) with
  | none =>
    refine absurd ?_ comment
    intro m hm
    simpa using List.find?_eq_none.mp found m hm
  | some m =>
    obtain ⟨holds, i, lt, here, before⟩ := List.find?_eq_some_iff_getElem.mp found
    have at' := List.getElem?_eq_some_iff.mpr ⟨lt, here⟩
    have place := offset_of_getElem?_scanFrom at'
    have member := (mem_window resumes stops (List.mem_of_getElem? at')).1
    have comment : m.isCode = false := by simpa using holds
    refine List.mem_map.mpr ⟨m, List.mem_of_getElem? at', ?_⟩
    cases i with
    | zero => exact (adjacent_of_mem ho member (by omega)).1 code comment
    | succ i =>
      have prior := List.getElem?_eq_getElem (l := scan (s.take stop) (o.offset + 1)) (i := i)
        (by omega)
      have place' := offset_of_getElem?_scanFrom prior
      have member' := (mem_window resumes stops (List.mem_of_getElem? prior)).1
      exact (adjacent_of_mem member' member (by omega)).1 (by simpa using before i (by omega))
        comment

theorem Source.isCode_of_tracks {marks others : List Mark} (h : Tracks strict d marks others)
    (all : ∀ n ∈ others, n.isCode = true) : ∀ m ∈ marks, m.isCode = true := by
  induction h with
  | nil => simp
  | cons first _ ih =>
    simp only [List.forall_mem_cons] at all ⊢
    exact ⟨first.isCode.symm.trans all.1, ih all.2⟩

theorem sized_of_tracks {marks others : List Mark} (h : Tracks strict d marks others) :
    Sized strict (text marks) (text others) := by
  constructor
  · simpa only [text, List.length_map] using h.length_eq.symm
  · intro all
    exact text_eq_of_alike (h.imp fun m n same => ⟨same.region, fun _ => same.byte (.inl all)⟩)

/-- The text up to the first pass and the passes from there on, whatever is logged on the way. -/
theorem Graph.result_readFrom (source : Bytes) (cursor : Nat) :
    (readFrom source cursor).result =
      match find source ⟨cursor, source.length⟩ Keyword.passBegin .terminator with
      | .found beginning => (Pass.read source beginning.start).result.bind fun x =>
          (readFrom source x.2).result.bind fun y =>
            .ok (Bytes.slice source ⟨cursor, beginning.start⟩,
              { x.1 with epilogue := y.1 } :: y.2)
      | .commented _ | .absent => .ok (source.drop cursor, []) := by
  rw [readFrom]
  split <;> rename_i seen <;> rw [seen]
  · dsimp only
    apply (Logged.result_bind _ _).trans
    simp only [Logged.result_bind, Logged.result_pure]
  all_goals rfl

theorem Graph.result_readFrom_rest {source : Bytes} {cursor : Nat}
    (absent : ∀ span, find source ⟨cursor, source.length⟩ Keyword.passBegin .terminator ≠
      .found span) : (readFrom source cursor).result = .ok (source.drop cursor, []) := by
  rw [result_readFrom]
  cases seen : find source ⟨cursor, source.length⟩ Keyword.passBegin .terminator with
  | found span => exact absurd seen (absent span)
  | commented _ | absent => rfl

/-- Along the passes of a source: one is read and the next ones begin behind it, or there is
none. -/
@[elab_as_elim]
theorem Graph.readFrom_induction (source : Bytes) {motive : Nat → Prop}
    (pass : ∀ cursor beginning,
      find source ⟨cursor, source.length⟩ Keyword.passBegin .terminator = .found beginning →
      (∀ p stop, (Pass.read source beginning.start).result = .ok (p, stop) → motive stop) →
      motive cursor)
    (rest : ∀ cursor, (∀ span, find source ⟨cursor, source.length⟩ Keyword.passBegin .terminator ≠
      .found span) → motive cursor) (cursor : Nat) : motive cursor := by
  induction cursor using readFrom.induct source with
  | case1 cursor beginning seen later => exact pass cursor beginning seen later
  | case2 cursor span seen => exact rest cursor (by simp [seen])
  | case3 cursor seen => exact rest cursor (by simp [seen])

theorem Graph.result_parse (source : Bytes) :
    (parse source).result = (readFrom source 0).result.map fun y => ⟨y.1, y.2⟩ := by
  unfold parse
  rw [Logged.result_bind]
  cases (readFrom source 0).result with
  | error e => rfl
  | ok y =>
    obtain ⟨prelude, passes⟩ := y
    cases passes <;> rfl

namespace Counterpart

variable (t : Counterpart strict final d A s s')
include t

theorem slice {start stop : Nat} (resumes : Resumes s start) (stops : Stops s stop)
    (lt : stop < s.length) :
    Sized strict (Bytes.slice s ⟨start, stop⟩) (Bytes.slice s' ⟨start + d, stop + d⟩) := by
  have follows := t.tracks_window resumes stops lt
  have left : text (scan (s.take stop) start) = Bytes.slice s ⟨start, stop⟩ := text_scanFrom ..
  have right : text (scan (s'.take (stop + d)) (start + d)) =
    Bytes.slice s' ⟨start + d, stop + d⟩ := text_scanFrom ..
  rw [← left, ← right]
  exact sized_of_tracks follows

/-- A name with a comment in it is none; without one it is the same in both sources. -/
theorem name {o c : Mark} (ho : o ∈ scan s 0) (opens : o.isCodeByte Delimiter.paren.opener = true)
    (hc : c ∈ scan s 0) (closes : c.isCodeByte Delimiter.paren.closer = true) :
    let x := Blank.trim (Bytes.slice s ⟨o.offset + 1, c.offset⟩)
    let x' := Blank.trim (Bytes.slice s' ⟨o.offset + 1 + d, c.offset + d⟩)
    Pass.isName x' = Pass.isName x ∧ (Pass.isName x = true → x' = x) ∧ (strict → x' = x) := by
  dsimp only
  have code := (Mark.isCodeByte_iff.mp opens).1
  have resumes := resumes_of_mem ho code
  have stops := stops_of_mem hc (Mark.isCodeByte_iff.mp closes).1
  have sized := t.slice resumes stops (offset_lt_of_mem hc)
  have follows := t.tracks_window resumes stops (offset_lt_of_mem hc)
  have left : text (scan (s.take c.offset) (o.offset + 1)) =
    Bytes.slice s ⟨o.offset + 1, c.offset⟩ := text_scanFrom ..
  have right : text (scan (s'.take (c.offset + d)) (o.offset + 1 + d)) =
    Bytes.slice s' ⟨o.offset + 1 + d, c.offset + d⟩ := text_scanFrom ..
  by_cases plain : ∀ m ∈ scan (s.take c.offset) (o.offset + 1), m.isCode = true
  · have same : Bytes.slice s' ⟨o.offset + 1 + d, c.offset + d⟩ =
        Bytes.slice s ⟨o.offset + 1, c.offset⟩ := by
      rw [← left, ← right]
      apply text_eq_of_alike
      have both := (List.forall₂_and_left _ _).mpr ⟨plain, follows⟩
      exact both.imp fun m n ⟨code, same⟩ => ⟨same.region, fun _ => same.byte (.inr code)⟩
    rw [same]
    exact ⟨rfl, fun _ => rfl, fun _ => rfl⟩
  · have slash {x : Bytes} (h : 0x2F ∈ x) : Pass.isName (Blank.trim x) = false := by
      have kept := Blank.mem_trim (b := 0x2F) (by decide) h
      rw [Pass.isName, Bool.and_eq_false_iff]
      exact .inr (List.all_eq_false.mpr ⟨_, kept, by decide⟩)
    obtain ⟨o', ho', at'⟩ := t.mem ho
    have plain' : ¬ ∀ n ∈ scan (s'.take (c.offset + d)) (o'.offset + 1), n.isCode = true := by
      rw [at'.offset, Nat.add_right_comm]
      exact fun all => plain (isCode_of_tracks follows all)
    have refused := slash (slash_mem_slice ho code stops plain)
    have refused' := slash (slash_mem_slice ho' (at'.isCode.trans code)
      (t.stops stops (offset_lt_of_mem hc)) plain')
    rw [at'.offset, Nat.add_right_comm] at refused'
    refine ⟨refused'.trans refused.symm, ?_, ?_⟩
    · intro h
      rw [refused] at h
      contradiction
    · intro h
      rw [sized.2 h]

theorem readName {offset : Nat} (resumes : Resumes s offset) :
    Agree final (Fault.Follows strict d s s')
      (fun x y => y = (x.1, x.2 + d) ∧ Resumes s (x.2 + 1))
      (Pass.readName s offset).result (Pass.readName s' (offset + d)).result := by
  unfold Pass.readName
  simp only [Logged.result_bind]
  refine Agree.bind (.ofOption ((t.opener_filter resumes .whole _).imp .inl)
    (Fault.follows_locate ..)) ?_
  rintro o o' _ _ ⟨ho, opens, same⟩
  have closes := t.matchingClose ho opens (offset_lt_of_mem ho) .whole
  rw [List.take_length, List.take_length, ← same.offset] at closes
  refine Agree.bind (.ofOption (closes.imp .inl) ?_) ?_
  · rw [same.offset]
    exact Fault.follows_locate ..
  · intro c c' hc _ at'
    have found := Logged.result_ofOption_ok.mp hc
    rw [← List.take_length (l := s)] at found
    obtain ⟨m, hm, closes, rfl, _, _⟩ :=
      mem_of_matchingClose ho opens stops_length (offset_lt_of_mem ho) found
    obtain ⟨sameName, agree, exact'⟩ := t.name ho opens hm closes
    subst at'
    rw [same.offset, Nat.add_right_comm o.offset d 1, sameName]
    split
    · next named =>
      rw [agree named]
      exact .of_ok ⟨rfl, resumes_of_mem hm (Mark.isCodeByte_iff.mp closes).1⟩
    · refine .of_error ⟨_, _, _, rfl, rfl, .inr ⟨_, _, rfl, rfl⟩, ?_⟩
      intro h
      rw [exact' h]

theorem readEnd {name : Bytes} {offset start : Nat} (resumes : Resumes s offset) :
    Agree final (Fault.Follows strict d s s')
      (fun x y => y = ⟨x.start + d, x.stop + d⟩ ∧ Resumes s x.stop ∧ Stops s x.start ∧
        x.start < s.length)
      (Pass.readEnd s name offset start).result
      (Pass.readEnd s' name (offset + d) (start + d)).result := by
  unfold Pass.readEnd
  simp only [Logged.result_bind]
  have ending := t.terminator (bytes "pass " ++ name) (bytes "pass " ++ name)
    Keyword.isWord_passEnd resumes .whole
    (Fault.follows_locate strict d s s' start .missingPassEnd)
  apply (ending.imp .inl).bind
  rintro x y _ _ ⟨moved, seen⟩
  subst moved
  obtain ⟨occurs, long, _, _⟩ := occurs_of_find Keyword.isWord_passEnd resumes stops_length seen
  have stops : Ends d s s' True x.start (x.start + d) := .at occurs.stops occurs.lt_length
  cases other : find s ⟨offset, x.start⟩ Keyword.passBegin .terminator with
  | found span =>
    rw [t.find_found Keyword.isWord_passBegin resumes stops other]
    exact .of_error (Fault.follows_locate ..)
  | commented _ | absent =>
    have none : ∀ span, find s' ⟨offset + d, x.start + d⟩ Keyword.passBegin .terminator ≠
        .found span :=
      t.find_absent Keyword.isWord_passBegin resumes stops (.inr trivial) (by simp [other])
    have behind : Resumes s x.stop := long ▸ occurs.resumes Keyword.isWord_passEnd
    cases other' : find s' ⟨offset + d, x.start + d⟩ Keyword.passBegin .terminator with
    | found span => exact absurd other' (none span)
    | commented _ | absent => exact .of_ok ⟨rfl, behind, occurs.stops, occurs.lt_length⟩

theorem readBody {o : Mark} {stop : Nat} (ho : o ∈ scan s 0)
    (opens : o.isCodeByte Delimiter.brace.opener = true) (stops : Stops s stop)
    (lt : stop < s.length) :
    Agree final (Fault.Follows strict d s s')
      (fun x y => y = ⟨x.start + d, x.stop + d⟩ ∧ Resumes s x.start ∧ Stops s x.stop ∧
        x.stop < s.length ∧ x.start ≤ x.stop)
      (Pass.readBody s o.offset stop).result
      (Pass.readBody s' (o.offset + d) (stop + d)).result := by
  unfold Pass.readBody
  simp only [Logged.result_bind]
  have closes := t.matchingClose ho opens (offset_lt_of_mem ho) .whole
  rw [List.take_length, List.take_length] at closes
  refine Agree.bind (.ofOption (closes.imp .inl) (Fault.follows_locate ..)) ?_
  intro c c' hc _ at'
  have found := Logged.result_ofOption_ok.mp hc
  rw [← List.take_length (l := s)] at found
  obtain ⟨m, hm, closes, rfl, after, _⟩ :=
    mem_of_matchingClose ho opens stops_length (offset_lt_of_mem ho) found
  have code := (Mark.isCodeByte_iff.mp closes).1
  subst at'
  by_cases past : stop < m.offset
  · rw [if_pos past, if_pos (by omega)]
    exact .of_error (Fault.follows_locate ..)
  · rw [if_neg past, if_neg (by omega)]
    have stray := t.nextCode (resumes_of_mem hm code) (.at stops lt)
    rw [Nat.add_right_comm] at stray
    cases seen : nextCode s (m.offset + 1) stop with
    | some n =>
      obtain ⟨n', seen', same⟩ := stray.some n seen
      rw [seen']
      dsimp only
      rw [same.offset]
      exact .of_error (Fault.follows_locate ..)
    | none =>
      rw [stray.none (.inr trivial) seen]
      refine .of_ok ⟨?_, resumes_of_mem ho (Mark.isCodeByte_iff.mp opens).1,
        stops_of_mem hm code, offset_lt_of_mem hm, after⟩
      rw [Nat.add_right_comm]

theorem pass_read {start : Nat} (begins : Occurs s Keyword.passBegin start) :
    Agree final (Fault.Follows strict d s s')
      (fun x y => x.1.Follows strict A y.1 ∧ y.2 = x.2 + d ∧ Resumes s x.2)
      (Pass.read s start).result (Pass.read s' (start + d)).result := by
  have inside := begins.resumes Keyword.isWord_passBegin
  have begins' : Occurs s' Keyword.passBegin (start + d) := by
    refine (t.occurs Keyword.isWord_passBegin ?_).mpr begins
    have lt := begins.lt_length
    have short := begins.spelled.length_le
    rw [List.length_drop] at short
    omega
  unfold Pass.read
  rw [if_pos (List.isPrefixOf_iff_prefix.mpr begins.spelled),
    if_pos (List.isPrefixOf_iff_prefix.mpr begins'.spelled)]
  simp only [Logged.result_bind, Logged.result_note, Logged.result_pure]
  rw [Nat.add_right_comm start d]
  apply (t.readName inside).bind
  rintro ⟨name, close⟩ y _ _ ⟨moved, resumes⟩
  subst moved
  dsimp only at resumes ⊢
  rw [Nat.add_right_comm close d 1]
  apply (t.readEnd resumes).bind
  rintro ending y _ _ ⟨moved, behind, stops, lt⟩
  subst moved
  dsimp only
  have member {m : Mark} (hm : m ∈ scan (s.take ending.start) (close + 1)) : m ∈ scan s 0 :=
    (mem_window resumes stops hm).1
  have header := t.header_readFrom name name ⟨close + 1, ending.start⟩ _ _
    (t.tracks_window resumes stops lt) (fun m hm => member hm) (isChain_scan _ _)
    (isChain_scan _ _) [] Clauses.follows_empty
  apply (header.imp fun _ => trivial).bind
  intro h h' read _ same
  obtain ⟨o, ho, opens, at'⟩ := Header.opener_of_readFrom read
  rw [same.bodyOpen, ← at']
  apply (t.readBody (member ho) opens stops lt).bind
  rintro body y _ _ ⟨moved, enters, leaves, lt', le⟩
  subst moved
  have blocks := t.fixedBlock_readFrom body.start enters leaves lt'
  apply (blocks.imp fun _ => trivial).bind
  intro l l' _ _ fixedBlocks
  refine .of_ok ⟨⟨rfl, same.clauses, fixedBlocks, ?_, rfl, fun _ => rfl⟩, rfl, behind⟩
  exact t.slice enters leaves lt'

theorem drop (last : final) {cursor : Nat} (resumes : Resumes s cursor) :
    Sized strict (s.drop cursor) (s'.drop (cursor + d)) := by
  obtain ⟨marks, more, split, follows, closed⟩ := t.window resumes .whole
  rw [closed (.inl last), List.append_nil, List.take_length] at split
  rw [List.take_length, ← split] at follows
  have left : text (scan s cursor) = s.drop cursor := text_scanFrom ..
  have right : text (scan s' (cursor + d)) = s'.drop (cursor + d) := text_scanFrom ..
  rw [← left, ← right]
  exact sized_of_tracks follows

theorem graph_readFrom (last : final) (cursor : Nat) (resumes : Resumes s cursor) :
    Agree True (Fault.Follows strict d s s')
      (fun x y => Sized strict x.1 y.1 ∧ List.Forall₂ (Pass.Follows strict A) x.2 y.2)
      (Graph.readFrom s cursor).result (Graph.readFrom s' (cursor + d)).result := by
  induction cursor using Graph.readFrom_induction s with
  | pass cursor beginning seen ih =>
    rw [Graph.result_readFrom, Graph.result_readFrom, seen,
      t.find_found Keyword.isWord_passBegin resumes .whole seen]
    have occurs := (occurs_of_find Keyword.isWord_passBegin resumes stops_length seen).1
    apply ((t.pass_read occurs).imp fun _ => last).bind
    rintro ⟨p, stop⟩ y read _ ⟨same, at', behind⟩
    rw [at']
    apply (ih p stop read behind).bind
    rintro u v _ _ ⟨epilogue, later⟩
    refine .of_ok ⟨t.slice resumes occurs.stops occurs.lt_length, .cons ?_ later⟩
    exact { same with epilogue }
  | rest cursor absent =>
    rw [Graph.result_readFrom_rest absent, Graph.result_readFrom_rest
      (t.find_absent Keyword.isWord_passBegin resumes .whole (.inl last) absent)]
    exact .of_ok ⟨t.drop last resumes, .nil⟩

end Counterpart
end PassCompiler
