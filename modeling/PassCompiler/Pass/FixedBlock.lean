import PassCompiler.Pass.Argument
import PassCompiler.Pass.Basic
import PassCompiler.Pass.NearMiss
import PassCompiler.Source.Position

/-! The fixed blocks of a body, one behind the other. -/
namespace PassCompiler.FixedBlock

open Source

/-- A block read from a source, with its offsets there. -/
structure Located where
  beginning : Span
  /-- The parenthesis behind its arguments. -/
  close : Nat
  ending : Span
  renderPass : Bytes
  subpass : Bytes

/-- The block with its offsets counted from `origin`. -/
def Located.rebase (b : Located) (origin : Nat) : FixedBlock where
  span := ⟨b.beginning.start - origin, b.ending.stop - origin⟩
  interior := ⟨b.close + 1 - origin, b.ending.start - origin⟩
  renderPass := FixedArg.ofText b.renderPass
  subpass := FixedArg.ofText b.subpass

/-- Reads the block of `body` whose keyword stands at `beginning`. -/
def readAt (source : Bytes) (body beginning : Span) : Logged Fault Located := do
  let opener ← .ofOption (Fault.locate source beginning.stop .missingFixedArgs)
    ((nextCode source beginning.stop body.stop).filter (·.byte == Delimiter.paren.opener))
  let close ← .ofOption (Fault.locate source opener.offset (.unbalanced .paren))
    (matchingClose (source.take body.stop) opener.offset)
  let args ← .ofExcept (Argument.read source ⟨opener.offset + 1, close⟩)
  match args with
  | [renderPass, subpass] =>
    let line := (position source beginning.start).line
    let ending ← terminator source (bytes "fixed block at line " ++ Bytes.ofNat line)
      Keyword.fixedEnd ⟨close + 1, body.stop⟩
      (Fault.locate source beginning.start .missingFixedEnd)
    match find source ⟨close + 1, ending.start⟩ Keyword.fixedBegin .terminator with
    | .found nested => .fail (Fault.locate source nested.start .nestedFixed)
    | .commented _ | .absent => pure ⟨beginning, close, ending, renderPass, subpass⟩
  | _ => .fail (Fault.locate source opener.offset (.fixedArgCount args.length))

theorem bounds_of_readAt {source : Bytes} {body beginning : Span} {b : Located}
    (h : (readAt source body beginning).result = .ok b) :
    beginning.stop < b.ending.stop ∧ b.ending.stop ≤ body.stop := by
  unfold readAt at h
  obtain ⟨opener, hopen, h⟩ := Logged.result_bind_ok.mp h
  obtain ⟨close, hclose, h⟩ := Logged.result_bind_ok.mp h
  obtain ⟨args, _, h⟩ := Logged.result_bind_ok.mp h
  have opens := bounds_of_nextCode (Option.eq_some_of_filter_eq_some
    (Logged.result_ofOption_ok.mp hopen))
  have closes := bounds_of_matchingClose (Logged.result_ofOption_ok.mp hclose)
  split at h
  · obtain ⟨ending, hending, h⟩ := Logged.result_bind_ok.mp h
    have seen := find_of_findTerminator (findTerminator_of_terminator hending)
    have lower := bounds_of_find seen
    have upper := stop_le_of_find seen
    have keyword : Keyword.fixedEnd.length = 9 := by decide
    split at h
    · contradiction
    all_goals
      obtain rfl := Except.ok.inj h
      dsimp only at lower upper ⊢
      omega
  · contradiction

def recorded (block : FixedBlock) : LogRecord :=
  .debug (bytes "fixed block at body offset " ++ Bytes.ofNat block.span.start ++
    bytes ": render pass \x60" ++ block.renderPass.name ++ bytes "\x60, subpass \x60" ++
    block.subpass.name ++ bytes "\x60")

def readFrom (source : Bytes) (body : Span) (cursor : Nat) : Logged Fault (List FixedBlock) :=
  match _seen : find source ⟨cursor, body.stop⟩ Keyword.fixedBegin .terminator with
  | .found beginning =>
    (readAt source body beginning).andThen fun located _read => do
      let block := located.rebase body.start
      .note (recorded block)
      let later ← readFrom source body located.ending.stop
      pure (block :: later)
  | .commented _ | .absent => pure []
termination_by body.stop - cursor
decreasing_by
  have inside := bounds_of_readAt _read
  have ahead := bounds_of_find _seen
  dsimp only at ahead
  omega

/-- The blocks of the body that `body` spans. -/
def readAll (source : Bytes) (body : Span) : Logged Fault (List FixedBlock) :=
  readFrom source body body.start

end PassCompiler.FixedBlock
