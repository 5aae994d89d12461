import PassCompiler.Log
import PassCompiler.Pass.Fault
import PassCompiler.Source.Keyword

/-! Searches for a terminator that must be there. When it is not, a warning names the closest
thing to it. -/
namespace PassCompiler.Source

def NearMiss.explanation (source owner keyword : Bytes) : NearMiss → LogRecord
  | .commented span =>
    .warn (owner ++ bytes ": " ++ keyword ++ bytes " on line " ++
      Bytes.ofNat (position source span.start).line ++ bytes " is commented out")
  | .glued span =>
    let p := position source span.start
    .warn (owner ++ bytes ": " ++ keyword ++ bytes " at line " ++ Bytes.ofNat p.line ++
      bytes ", column " ++ Bytes.ofNat p.column ++ bytes " must be preceded by whitespace")

def terminator (source owner keyword : Bytes) (range : Span) (fault : Fault) :
    Logged Fault Span :=
  match findTerminator source range keyword with
  | .ok span => pure span
  | .error miss => ⟨.error fault, (miss.map (·.explanation source owner keyword)).toList⟩

theorem findTerminator_of_terminator {source owner keyword : Bytes} {range span : Span}
    {fault : Fault} (h : (terminator source owner keyword range fault).result = .ok span) :
    findTerminator source range keyword = .ok span := by
  unfold terminator at h
  split at h
  · next s hs => rw [hs, ← Except.ok.inj h]
  · contradiction

end PassCompiler.Source
