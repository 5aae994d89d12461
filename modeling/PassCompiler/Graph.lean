import PassCompiler.Pass.Reader

/-! Graph sources: ordinary text with passes in it. Reading keeps every byte outside the passes,
and fails on the first malformed pass. -/
namespace PassCompiler.Graph

open Source

/-- The source from `cursor` on: the text before its first pass, and its passes. -/
def readFrom (source : Bytes) (cursor : Nat) : Logged Fault (Bytes × List Pass) :=
  match _seen : find source ⟨cursor, source.length⟩ Keyword.passBegin .terminator with
  | .found beginning =>
    (Pass.read source beginning.start).andThen fun (pass, stop) _read => do
      let (epilogue, later) ← readFrom source stop
      pure (Bytes.slice source ⟨cursor, beginning.start⟩, { pass with epilogue } :: later)
  | .commented _ | .absent => pure (source.drop cursor, [])
termination_by source.length - cursor
decreasing_by
  have inside := Pass.bounds_of_read _read
  have ahead := bounds_of_find _seen
  dsimp only at ahead
  omega

def parse (source : Bytes) : Logged Fault Graph := do
  let (prelude, passes) ← readFrom source 0
  if passes.isEmpty then
    .note (.warn (bytes "no PASS_BEGIN found, output will only contain the source text"))
  pure ⟨prelude, passes⟩

end PassCompiler.Graph
