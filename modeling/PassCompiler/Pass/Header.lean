import PassCompiler.Pass.Basic
import PassCompiler.Pass.Argument
import PassCompiler.Log
import PassCompiler.Source.Word

/-! The header of a pass, between its name and its body. Clause keywords count as whole words
outside parentheses; other words are passed over with a warning. The first brace outside
parentheses opens the body. -/
namespace PassCompiler

structure Header where
  clauses : Clauses
  /-- The offset of the brace that opens the body. -/
  bodyOpen : Nat
  deriving DecidableEq, Repr

namespace Header

open Source

structure Place where
  source : Bytes
  passName : Bytes
  span : Span

namespace Place

def fault {α : Type} (p : Place) (offset : Nat) (cause : Cause) : Logged Fault α :=
  .fail (Fault.locate p.source offset cause)

end Place

/-- Reads the rest of a header, whose clauses so far are `clauses`, declared by `declared`. -/
def readFrom (place : Place) (declared : List Clause) (clauses : Clauses) (marks : List Mark) :
    Logged Fault Header :=
  match marks with
  | [] => place.fault place.span.start .missingBody
  | m :: rest =>
    if !m.isCode then readFrom place declared clauses rest
    else
      match Delimiter.opening? m.byte with
      | some .brace => pure ⟨clauses, m.offset⟩
      | some .paren =>
        match _closed : Group.close? ⟨.paren, 1⟩ rest with
        | none => place.fault m.offset (.unbalanced .paren)
        | some (_, behind) => readFrom place declared clauses behind
      | none =>
        if Bytes.isIdent m.byte then
          let word := Source.word m rest
          match Clause.ofKeyword? word with
          | none => do
            .note (.warn (bytes "pass " ++ place.passName ++ bytes ": ignoring \x60" ++ word ++
              bytes "\x60 before the body"))
            readFrom place declared clauses (behindWord rest)
          | some clause =>
            match _group : nextGroup? (behindWord rest) with
            | none => place.fault (m.offset + word.length) (.missingClauseArgs clause)
            | some ⟨start, none⟩ => place.fault start (.unbalanced .paren)
            | some ⟨start, some (stop, behind)⟩ =>
              if declared.contains clause then place.fault m.offset (.duplicateClause clause)
              else do
                let args ← .ofExcept (Argument.read place.source ⟨start + 1, stop⟩)
                readFrom place (clause :: declared) (clauses.set clause args) behind
        else readFrom place declared clauses rest
termination_by marks.length
decreasing_by
  all_goals simp only [List.length_cons]
  · omega
  · have := Group.length_lt_of_close? _closed
    omega
  · have := length_behindWord_le rest
    omega
  · have := length_behindWord_le rest
    have := length_le_of_nextGroup? _group
    omega
  · omega

def read (place : Place) : Logged Fault Header :=
  readFrom place [] {} (scan (place.source.take place.span.stop) place.span.start)

end Header
end PassCompiler
