import PassCompiler.Proofs.Pass.Argument.Compare
import PassCompiler.Proofs.Pass.Counterpart.Pass

/-! How a source is read, step by step: the readers of one pass with what each of them returns and
where it stands, and the passes of a source one after the other. -/
namespace PassCompiler

open Source

variable {source : Bytes}

namespace Pass

theorem find_of_readEnd {name : Bytes} {offset start : Nat} {ending : Span}
    (h : (readEnd source name offset start).result = .ok ending) :
    find source ⟨offset, source.length⟩ Keyword.passEnd .terminator = .found ending := by
  unfold readEnd at h
  obtain ⟨span, seen, h⟩ := Logged.result_bind_ok.mp h
  split at h
  · contradiction
  all_goals
    obtain rfl := Except.ok.inj h
    exact find_of_findTerminator (findTerminator_of_terminator seen)

/-- The braces of a body that stands before `stop`, with nothing but filler behind the second. -/
structure Braces (source : Bytes) (stop : Nat) (o c : Mark) : Prop where
  opener : o ∈ scan source 0
  opens : o.isCodeByte Delimiter.brace.opener = true
  closer : c ∈ scan source 0
  closes : c.isCodeByte Delimiter.brace.closer = true
  matching : matchingClose source o.offset = some c.offset
  lt : o.offset < c.offset
  le : c.offset ≤ stop
  clean : nextCode source (c.offset + 1) stop = none

theorem braces_of_readBody {o : Mark} {stop : Nat} {body : Span}
    (ho : o ∈ scan source 0) (opens : o.isCodeByte Delimiter.brace.opener = true)
    (h : (readBody source o.offset stop).result = .ok body) :
    ∃ c, Braces source stop o c ∧ body = ⟨o.offset + 1, c.offset⟩ := by
  unfold readBody at h
  obtain ⟨close, closed, h⟩ := Logged.result_bind_ok.mp h
  have found := Logged.result_ofOption_ok.mp closed
  rw [← List.take_length (l := source)] at found
  obtain ⟨c, hc, closes, rfl, after, _⟩ :=
    mem_of_matchingClose ho opens stops_length (offset_lt_of_mem ho) found
  rw [List.take_length] at found
  split at h
  · contradiction
  · next inside =>
    split at h
    · contradiction
    · next clean =>
      exact ⟨c, ⟨ho, opens, hc, closes, found, after, Nat.not_lt.mp inside, clean⟩,
        (Except.ok.inj h).symm⟩

/-- How a pass is read at `start`: its name up to the parenthesis at `close`, its last keyword, its
header up to the brace at `bodyOpen`, its body and the fixed blocks in it. -/
structure Steps (source : Bytes) (p : Pass) (start close : Nat) (ending : Span) (bodyOpen : Nat)
    (body : Span) : Prop where
  named : (readName source (start + Keyword.passBegin.length)).result = .ok (p.name, close)
  ended : (readEnd source p.name (close + 1) start).result = .ok ending
  headed : (Header.read ⟨source, p.name, ⟨close + 1, ending.start⟩⟩).result =
    .ok ⟨p.clauses, bodyOpen⟩
  bodied : (readBody source bodyOpen ending.start).result = .ok body
  blocked : (FixedBlock.readAll source body).result = .ok p.fixedBlocks
  text : p.body = Bytes.slice source body
  bare : p.epilogue = []

theorem read_ok_iff {start stop : Nat} {p : Pass}
    (begins : Keyword.passBegin <+: source.drop start) :
    (read source start).result = .ok (p, stop) ↔ ∃ close ending bodyOpen body,
      p.Steps source start close ending bodyOpen body ∧ ending.stop = stop := by
  rw [read, if_pos (List.isPrefixOf_iff_prefix.mpr begins)]
  constructor
  · intro h
    obtain ⟨⟨name, close⟩, named, h⟩ := Logged.result_bind_ok.mp h
    obtain ⟨ending, ended, h⟩ := Logged.result_bind_ok.mp h
    obtain ⟨⟨clauses, bodyOpen⟩, headed, h⟩ := Logged.result_bind_ok.mp h
    obtain ⟨body, bodied, h⟩ := Logged.result_bind_ok.mp h
    obtain ⟨blocks, blocked, h⟩ := Logged.result_bind_ok.mp h
    obtain ⟨_, _, h⟩ := Logged.result_bind_ok.mp h
    obtain ⟨rfl, rfl⟩ := Prod.mk.inj (Except.ok.inj h)
    exact ⟨_, _, _, _, ⟨named, ended, headed, bodied, blocked, rfl, rfl⟩, rfl⟩
  · rintro ⟨close, ending, bodyOpen, body, steps, rfl⟩
    obtain ⟨name, clauses, fixedBlocks, text, epilogue⟩ := p
    obtain rfl : text = _ := steps.text
    obtain rfl : epilogue = [] := steps.bare
    exact Logged.result_bind_ok.mpr ⟨_, steps.named, Logged.result_bind_ok.mpr ⟨_, steps.ended,
      Logged.result_bind_ok.mpr ⟨_, steps.headed, Logged.result_bind_ok.mpr ⟨_, steps.bodied,
        Logged.result_bind_ok.mpr ⟨_, steps.blocked, rfl⟩⟩⟩⟩⟩

namespace Steps

variable {p : Pass} {start close bodyOpen : Nat} {ending body : Span}

theorem resumes (steps : p.Steps source start close ending bodyOpen body)
    (begins : Occurs source Keyword.passBegin start) : Resumes source (close + 1) := by
  have names := (Counterpart.refl source).readName (begins.resumes Keyword.isWord_passBegin)
  obtain ⟨_, _, _, resumes⟩ := names.ok _ steps.named
  exact resumes

theorem ends (steps : p.Steps source start close ending bodyOpen body)
    (begins : Occurs source Keyword.passBegin start) :
    Occurs source Keyword.passEnd ending.start ∧
      ending.stop = ending.start + Keyword.passEnd.length := by
  obtain ⟨ends, long, _⟩ := occurs_of_find Keyword.isWord_passEnd (steps.resumes begins)
    stops_length (find_of_readEnd steps.ended)
  exact ⟨ends, long⟩

/-- The braces of the body, and that the first of them stands behind the name. -/
theorem braces (steps : p.Steps source start close ending bodyOpen body)
    (begins : Occurs source Keyword.passBegin start) : ∃ o c, Braces source ending.start o c ∧
      start + Keyword.passBegin.length < close ∧ close < o.offset ∧ bodyOpen = o.offset ∧
      body = ⟨o.offset + 1, c.offset⟩ := by
  obtain ⟨o, ho, opens, rfl⟩ := Header.opener_of_readFrom steps.headed
  obtain ⟨ho, low, _⟩ := mem_window (steps.resumes begins) (steps.ends begins).1.stops ho
  obtain ⟨c, braces, rfl⟩ := braces_of_readBody ho opens steps.bodied
  exact ⟨o, c, braces, lt_of_readName steps.named, low, rfl, rfl⟩

end Steps

theorem resumes_of_read {start stop : Nat} {p : Pass}
    (begins : Occurs source Keyword.passBegin start)
    (h : (read source start).result = .ok (p, stop)) : Resumes source stop := by
  obtain ⟨_, _, _, _, steps, rfl⟩ := (read_ok_iff begins.spelled).mp h
  obtain ⟨ends, long⟩ := steps.ends begins
  exact long ▸ ends.resumes Keyword.isWord_passEnd

end Pass

namespace Graph

/-- How a source is read from `cursor` on: the text up to the first pass, and the passes, each with
the text behind it and the span in which it was read. -/
inductive Reads (source : Bytes) : Nat → Bytes → List Pass → List Span → Prop
  | rest {cursor : Nat} : Resumes source cursor →
      (∀ span, find source ⟨cursor, source.length⟩ Keyword.passBegin .terminator ≠ .found span) →
      Reads source cursor (source.drop cursor) [] []
  | pass {cursor stop : Nat} {beginning : Span} {p : Pass} {epilogue : Bytes} {later : List Pass}
      {spans : List Span} : Resumes source cursor →
      find source ⟨cursor, source.length⟩ Keyword.passBegin .terminator = .found beginning →
      (Pass.read source beginning.start).result = .ok (p, stop) →
      Reads source stop epilogue later spans →
      Reads source cursor (Bytes.slice source ⟨cursor, beginning.start⟩)
        ({ p with epilogue } :: later) (⟨beginning.start, stop⟩ :: spans)

variable {cursor : Nat} {before : Bytes} {passes : List Pass} {spans : List Span}

theorem exists_reads (resumes : Resumes source cursor)
    (h : (readFrom source cursor).result = .ok (before, passes)) :
    ∃ spans, Reads source cursor before passes spans := by
  induction cursor using readFrom_induction source generalizing before passes with
  | pass cursor beginning seen ih =>
    rw [result_readFrom, seen] at h
    obtain ⟨⟨p, stop⟩, first, h⟩ := exists_of_bind_ok h
    obtain ⟨⟨epilogue, later⟩, rest, h⟩ := exists_of_bind_ok h
    obtain ⟨rfl, rfl⟩ := Prod.mk.inj (Except.ok.inj h)
    have occurs := (occurs_of_find Keyword.isWord_passBegin resumes stops_length seen).1
    obtain ⟨spans, reads⟩ := ih p stop first (Pass.resumes_of_read occurs first) rest
    exact ⟨_, .pass resumes seen first reads⟩
  | rest cursor absent =>
    rw [result_readFrom_rest absent] at h
    obtain ⟨rfl, rfl⟩ := Prod.mk.inj (Except.ok.inj h)
    exact ⟨_, .rest resumes absent⟩

theorem Reads.readFrom (h : Reads source cursor before passes spans) :
    (readFrom source cursor).result = .ok (before, passes) := by
  induction h with
  | rest _ absent => exact result_readFrom_rest absent
  | pass _ seen first _ ih =>
    rw [result_readFrom, seen]
    dsimp only
    rw [first, Except.bind]
    dsimp only
    rw [ih]
    rfl

end Graph
end PassCompiler
