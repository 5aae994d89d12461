import PassCompiler.Pass.Clause
import PassCompiler.Source.Delimiter
import PassCompiler.Source.Position
import PassCompiler.Text.Quoted

/-! What can be wrong with a graph source, and where. -/
namespace PassCompiler

inductive Cause where
  | missingPassBegin
  | missingPassName
  | invalidPassName (name : Bytes)
  | missingPassEnd
  | missingBody
  | bodyPastPassEnd
  | trailingTokens
  | unbalanced (kind : Source.Delimiter)
  | missingClauseArgs (clause : Clause)
  | duplicateClause (clause : Clause)
  | missingFixedArgs
  | fixedArgCount (count : Nat)
  | missingFixedEnd
  | nestedFixed
  deriving DecidableEq, Repr

def Cause.message : Cause → Bytes
  | missingPassBegin => bytes "expected PASS_BEGIN"
  | missingPassName => bytes "PASS_BEGIN is missing its (name)"
  | invalidPassName name =>
    bytes "pass name " ++ Quoted.quote name ++ bytes " is not an identifier"
  | missingPassEnd => bytes "PASS_BEGIN is missing PASS_END"
  | missingBody => bytes "pass has no \x7b body \x7d"
  | bodyPastPassEnd => bytes "pass body runs past PASS_END"
  | trailingTokens => bytes "only comments may follow the pass body before PASS_END"
  | unbalanced kind => bytes "unbalanced '" ++ [kind.opener] ++ bytes "'"
  | missingClauseArgs clause => clause.keyword ++ bytes " is missing its (argument list)"
  | duplicateClause clause => clause.keyword ++ bytes " declared twice"
  | missingFixedArgs =>
    bytes "FIXED_BEGIN is missing its (render pass, subpass) arguments"
  | fixedArgCount count =>
    bytes "FIXED_BEGIN takes 2 arguments (render pass, subpass), found " ++ Bytes.ofNat count
  | missingFixedEnd => bytes "FIXED_BEGIN is missing FIXED_END"
  | nestedFixed => bytes "FIXED_BEGIN inside another FIXED_BEGIN"

structure Fault where
  offset : Nat
  position : Source.Position
  cause : Cause
  deriving DecidableEq, Repr

namespace Fault

def locate (source : Bytes) (offset : Nat) (cause : Cause) : Fault :=
  ⟨offset, Source.position source offset, cause⟩

def message (f : Fault) : Bytes :=
  f.cause.message ++ bytes " at line " ++ Bytes.ofNat f.position.line ++ bytes ", column " ++
    Bytes.ofNat f.position.column

end Fault
end PassCompiler
