import PassCompiler.Pass.Fault
import PassCompiler.Text.Utf8

/-! Argument lists: `READ(…)`, `FIXED_BEGIN(…)`, the arguments of a call. Commas separate
arguments outside groups; a group in parentheses or braces belongs to one argument as it stands.
Comments outside groups are dropped, leaving a gap between what stands on their two sides. -/
namespace PassCompiler.Argument

open Source

/-- What a scanned byte contributes to an argument list. -/
inductive Piece where
  /-- A byte of an argument. -/
  | kept (m : Mark)
  /-- A byte of a comment outside all groups. -/
  | gap
  /-- A comma outside all groups. -/
  | comma
  deriving DecidableEq, Repr

/-- The group a list reader is in, and where it began. -/
structure OpenGroup where
  offset : Nat
  group : Group
  deriving DecidableEq, Repr

/-- The pieces of a scan, or the outermost group that it leaves open. -/
def pieces : Option OpenGroup → List Mark → Except OpenGroup (List Piece)
  | none, [] => .ok []
  | some inside, [] => .error inside
  | some inside, m :: rest =>
    ((pieces ((inside.group.step m).map ({ inside with group := · })) rest)).map (.kept m :: ·)
  | none, m :: rest =>
    if !m.isCode then (pieces none rest).map (.gap :: ·)
    else if m.byte == 0x2C then (pieces none rest).map (.comma :: ·)
    else
      (pieces ((Delimiter.opening? m.byte).map fun kind => ⟨m.offset, ⟨kind, 1⟩⟩) rest).map
        (.kept m :: ·)

/-- What stands between two commas: marks, and `none` for a gap. -/
abbrev Run := List (Option Mark)

def extendFirst (part : Option Mark) : List Run → List Run
  | [] => [[part]]
  | run :: others => (part :: run) :: others

/-- The runs of a list, one more than it has commas. -/
def runs : List Piece → List Run
  | [] => [[]]
  | .comma :: rest => [] :: runs rest
  | .kept m :: rest => extendFirst (some m) (runs rest)
  | .gap :: rest => extendFirst none (runs rest)

/-- The space written for a gap. It stands nowhere in the source. -/
def space : Mark := ⟨0, 0x20, .code⟩

/-- What is written for a run behind the mark `last`. A gap is one space, unless a blank or nothing
stands before it. -/
def marksAfter (last : Option Mark) : Run → List Mark
  | [] => []
  | some m :: rest => m :: marksAfter (some m) rest
  | none :: rest =>
    if last.any fun m => !Bytes.isBlank m.byte then space :: marksAfter (some space) rest
    else marksAfter last rest

/-- The argument a run holds: its text without the space around it. -/
def ofRun (run : Run) : Bytes := Bytes.trimSpace (text (marksAfter none run))

/-- The arguments in a span of `source`, which excludes the enclosing parentheses. Empty
arguments do not count. -/
def read (source : Bytes) (span : Span) : Except Fault (List Bytes) :=
  match pieces none (scan (source.take span.stop) span.start) with
  | .error inside => .error (Fault.locate source inside.offset (.unbalanced inside.group.kind))
  | .ok all => .ok ((((runs all).map ofRun).filter (!·.isEmpty)).map Utf8.repair)

end PassCompiler.Argument
