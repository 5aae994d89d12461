import PassCompiler.Pass.FixedBlock
import PassCompiler.Pass.Header

/-! One pass: `PASS_BEGIN(name)`, clauses, a body in braces, `PASS_END`. -/
namespace PassCompiler.Pass

open Source

def summary (p : Pass) : LogRecord :=
  .debug (bytes "pass " ++ p.name ++ bytes ": " ++
    Bytes.ofNat p.clauses.read.length ++ bytes " read, " ++
    Bytes.ofNat p.clauses.write.length ++ bytes " write, " ++
    Bytes.ofNat p.clauses.readWrite.length ++ bytes " read-write, " ++
    Bytes.ofNat p.clauses.input.length ++ bytes " input, " ++
    Bytes.ofNat p.fixedBlocks.length ++ bytes " fixed")

/-- The name behind a `PASS_BEGIN` that ends at `offset`, and its closing parenthesis. -/
def readName (source : Bytes) (offset : Nat) : Logged Fault (Bytes × Nat) := do
  let opener ← .ofOption (Fault.locate source offset .missingPassName)
    ((nextCode source offset source.length).filter (·.byte == Delimiter.paren.opener))
  let close ← .ofOption (Fault.locate source opener.offset (.unbalanced .paren))
    (matchingClose source opener.offset)
  let name := Blank.trim (Bytes.slice source ⟨opener.offset + 1, close⟩)
  if isName name then pure (name, close)
  else .fail (Fault.locate source (opener.offset + 1) (.invalidPassName name))

/-- The `PASS_END` behind `offset`, unless another pass begins before it. -/
def readEnd (source name : Bytes) (offset start : Nat) : Logged Fault Span := do
  let missing := Fault.locate source start .missingPassEnd
  let ending ← terminator source (bytes "pass " ++ name) Keyword.passEnd
    ⟨offset, source.length⟩ missing
  match find source ⟨offset, ending.start⟩ Keyword.passBegin .terminator with
  | .found _ => .fail missing
  | .commented _ | .absent => pure ending

/-- The span between the braces, the first of them at `bodyOpen`, of a pass that ends at `stop`. -/
def readBody (source : Bytes) (bodyOpen stop : Nat) : Logged Fault Span := do
  let bodyClose ← .ofOption (Fault.locate source bodyOpen (.unbalanced .brace))
    (matchingClose source bodyOpen)
  if stop < bodyClose then .fail (Fault.locate source bodyOpen .bodyPastPassEnd)
  else
    match nextCode source (bodyClose + 1) stop with
    | some stray => .fail (Fault.locate source stray.offset .trailingTokens)
    | none => pure ⟨bodyOpen + 1, bodyClose⟩

/-- Reads the pass that begins at `start`, with an empty epilogue, and the offset behind it. -/
def read (source : Bytes) (start : Nat) : Logged Fault (Pass × Nat) :=
  if Keyword.passBegin.isPrefixOf (source.drop start) then do
    let (name, nameClose) ← readName source (start + Keyword.passBegin.length)
    let ending ← readEnd source name (nameClose + 1) start
    let header ← Header.read ⟨source, name, ⟨nameClose + 1, ending.start⟩⟩
    let body ← readBody source header.bodyOpen ending.start
    let fixedBlocks ← FixedBlock.readAll source body
    let pass : Pass := ⟨name, header.clauses, fixedBlocks, Bytes.slice source body, []⟩
    .note pass.summary
    pure (pass, ending.stop)
  else .fail (Fault.locate source start .missingPassBegin)

theorem lt_of_readName {source name : Bytes} {offset close : Nat}
    (h : (readName source offset).result = .ok (name, close)) : offset < close := by
  unfold readName at h
  obtain ⟨opener, hopen, h⟩ := Logged.result_bind_ok.mp h
  obtain ⟨stop, hclose, h⟩ := Logged.result_bind_ok.mp h
  have opens := bounds_of_nextCode (Option.eq_some_of_filter_eq_some
    (Logged.result_ofOption_ok.mp hopen))
  have closes := bounds_of_matchingClose (Logged.result_ofOption_ok.mp hclose)
  dsimp only at h
  split at h
  · have same : stop = close := (Prod.mk.inj (Except.ok.inj h)).2
    omega
  · contradiction

theorem bounds_of_readEnd {source name : Bytes} {offset start : Nat} {ending : Span}
    (h : (readEnd source name offset start).result = .ok ending) :
    offset < ending.stop ∧ ending.stop ≤ source.length := by
  unfold readEnd at h
  obtain ⟨span, hspan, h⟩ := Logged.result_bind_ok.mp h
  have seen := find_of_findTerminator (findTerminator_of_terminator hspan)
  have lower := bounds_of_find seen
  have upper := stop_le_of_find seen
  have keyword : Keyword.passEnd.length = 8 := by decide
  have same : span = ending := by
    split at h
    · contradiction
    all_goals exact Except.ok.inj h
  subst same
  dsimp only at lower upper
  omega

theorem bounds_of_read {source : Bytes} {start stop : Nat} {p : Pass}
    (h : (read source start).result = .ok (p, stop)) : start < stop ∧ stop ≤ source.length := by
  unfold read at h
  split at h
  · obtain ⟨⟨name, nameClose⟩, hname, h⟩ := Logged.result_bind_ok.mp h
    obtain ⟨ending, hending, h⟩ := Logged.result_bind_ok.mp h
    obtain ⟨header, _, h⟩ := Logged.result_bind_ok.mp h
    obtain ⟨body, _, h⟩ := Logged.result_bind_ok.mp h
    obtain ⟨blocks, _, h⟩ := Logged.result_bind_ok.mp h
    obtain ⟨_, _, h⟩ := Logged.result_bind_ok.mp h
    have behind := lt_of_readName hname
    have bounds := bounds_of_readEnd hending
    have same : ending.stop = stop := (Prod.mk.inj (Except.ok.inj h)).2
    omega
  · contradiction

end PassCompiler.Pass
