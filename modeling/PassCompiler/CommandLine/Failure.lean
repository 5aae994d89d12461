import PassCompiler.Compile.Error
import PassCompiler.Settings
import PassCompiler.Text.Quoted

/-! What a run reports when it fails: the error with all its parts, on one line. -/
namespace PassCompiler

namespace FileError

def kind : FileError → String
  | notFound => "NotFound"
  | alreadyExists => "AlreadyExists"
  | notDirectory => "NotADirectory"
  | isDirectory => "IsADirectory"
  | nameTooLong => "InvalidFilename"
  | zeroByte => "InvalidInput"
  | notText => "InvalidData"
  | storageFull => "StorageFull"
  | inputOutput => "Uncategorized"

def record (e : FileError) : Bytes :=
  match e.number? with
  | some number =>
    Record.fields "Os" [("code", Bytes.ofNat number), ("kind", bytes e.kind),
      ("message", Quoted.quote e.words)]
  | none => Record.fields "Error" [("kind", bytes e.kind), ("message", Quoted.quote e.words)]

end FileError

def Clause.title : Clause → String
  | read => "Read"
  | write => "Write"
  | readWrite => "ReadWrite"
  | input => "Input"

namespace Cause

def title : Cause → String
  | missingPassBegin => "MissingPassBegin"
  | missingPassName => "MissingPassName"
  | invalidPassName _ => "InvalidPassName"
  | missingPassEnd => "MissingPassEnd"
  | missingBody => "MissingBody"
  | bodyPastPassEnd => "BodyPastPassEnd"
  | trailingTokens => "TrailingTokens"
  | unbalanced _ => "Unbalanced"
  | missingClauseArgs _ => "MissingClauseArgs"
  | duplicateClause _ => "DuplicateClause"
  | missingFixedArgs => "MissingFixedArgs"
  | fixedArgCount _ => "FixedArgCount"
  | missingFixedEnd => "MissingFixedEnd"
  | nestedFixed => "NestedFixed"

def record (cause : Cause) : Bytes :=
  match cause with
  | invalidPassName name => Record.applied cause.title [Quoted.quote name]
  | unbalanced kind => Record.applied cause.title [bytes "'" ++ [kind.opener] ++ bytes "'"]
  | missingClauseArgs clause | duplicateClause clause =>
    Record.applied cause.title [bytes clause.title]
  | fixedArgCount count => Record.applied cause.title [Bytes.ofNat count]
  | _ => bytes cause.title

end Cause

def Fault.record (f : Fault) : Bytes :=
  Record.fields "ParseError" [("offset", Bytes.ofNat f.offset),
    ("line", Bytes.ofNat f.position.line), ("column", Bytes.ofNat f.position.column),
    ("kind", f.cause.record)]

namespace CompileError

def title : CompileError → String
  | notLoaded => "NotLoaded"
  | noFramesInFlight => "NoFramesInFlight"
  | read _ _ => "Read"
  | write _ _ => "Write"
  | notUtf8 _ => "NotUtf8"
  | noFileStem _ => "NoFileStem"
  | outputExists _ => "OutputExists"
  | listing _ => "Io"
  | parse _ => "Parse"

def record (e : CompileError) : Bytes :=
  match e with
  | notLoaded | noFramesInFlight => bytes e.title
  | read path cause | write path cause =>
    Record.fields e.title [("path", Quoted.quote path), ("source", cause.record)]
  | notUtf8 path | noFileStem path | outputExists path =>
    Record.applied e.title [Quoted.quote path]
  | listing cause => Record.applied e.title [cause.record]
  | parse fault => Record.applied e.title [fault.record]

end CompileError

namespace SettingsError

def title : SettingsError → String
  | read _ _ => "Read"
  | malformed => "Toml"
  | unknownKey _ => "UnknownKey"
  | invalidValue _ _ => "InvalidValue"
  | missingTable => "MissingTable"

def record (e : SettingsError) : Bytes :=
  match e with
  | read path cause =>
    Record.fields e.title [("path", Quoted.quote path), ("source", cause.record)]
  | unknownKey key => Record.applied e.title [Quoted.quote key]
  | invalidValue key expected =>
    Record.fields e.title [("key", Quoted.quote key), ("expected", Quoted.quote expected.words)]
  | malformed | missingTable => bytes e.title

end SettingsError

namespace CommandLine

/-- Why a run fails whose arguments are right. -/
inductive Failure where
  | settings (e : SettingsError)
  | graph (e : CompileError)
  deriving DecidableEq, Repr

namespace Failure

def record : Failure → Bytes
  | settings e => Record.applied "Config" [e.record]
  | graph e => Record.applied "Graph" [e.record]

def line (f : Failure) : Bytes := bytes "Error: " ++ f.record ++ bytes "\n"

end Failure
end CommandLine
end PassCompiler
