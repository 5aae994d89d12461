import PassCompiler.Log
import PassCompiler.Pass.Argument
import PassCompiler.Recording.Table
import PassCompiler.Source.Word
import PassCompiler.Text.Blank

/-! Statements and the recording calls in them. Statements end at the semicolons outside
parentheses, so the header of a `for` stays whole. Of the known calls in a statement only the
earliest counts; its arguments are written back without the comments between them. -/
namespace PassCompiler

open Source

/-- A statement with a recording call in it. -/
structure Call where
  name : Bytes
  args : List Bytes
  /-- The index of the command buffer. -/
  slot : Nat
  slot_lt : slot < args.length
  /-- The statement through the opening parenthesis. -/
  head : Bytes
  /-- The statement from the closing parenthesis on. -/
  tail : Bytes
  deriving DecidableEq, Repr

namespace Call

def commandBuffer (c : Call) : Bytes := c.args.get ⟨c.slot, c.slot_lt⟩

def render (c : Call) (buffer : Bytes) : Bytes :=
  c.head ++ Bytes.join (bytes ", ") (c.args.set c.slot buffer) ++ c.tail

end Call

/-- Why a statement with a known call was left as it is. -/
inductive Refusal where
  /-- The call is never closed. -/
  | unbalanced (name : Bytes)
  | badArguments (name : Bytes) (fault : Fault)
  | noSlot (name : Bytes) (arity : Nat)
  deriving DecidableEq, Repr

inductive Statement where
  /-- Copied as it is. -/
  | raw (text : Bytes) (refusal : Option Refusal)
  | call (c : Call)
  deriving DecidableEq, Repr

namespace Statement

def render (s : Statement) (buffer : Bytes) : Bytes :=
  match s with
  | raw text _ => text
  | call c => c.render buffer

def commandBuffer? : Statement → Option Bytes
  | raw _ _ => none
  | call c => some c.commandBuffer

def warning? : Statement → Option LogRecord
  | raw text (some (.unbalanced name)) =>
    some (.warn (bytes "unbalanced call to " ++ name ++ bytes " left as is: " ++ Blank.trim text))
  | raw _ (some (.badArguments name fault)) =>
    some (.warn (bytes "call to " ++ name ++ bytes " left as is: " ++ fault.message))
  | raw _ (some (.noSlot name arity)) =>
    some (.warn (name ++ bytes " with " ++ Bytes.ofNat arity ++
      bytes " arguments has no known command buffer slot, left as is"))
  | raw _ none | call _ => none

/-- A known call found in a statement. -/
structure Candidate where
  name : Bytes
  slot : Slot
  /-- The offset of its opening parenthesis. -/
  start : Nat
  /-- The offset of its closing parenthesis, `none` if it is never closed. -/
  stop : Option Nat

/-- The earliest word of a scan that `table` knows and that a parenthesis follows. -/
def earliest? (table : CallTable) (marks : List Mark) : Option Candidate :=
  match marks with
  | [] => none
  | m :: rest =>
    if m.isCode && Bytes.isIdent m.byte then
      match table.slot? (word m rest) with
      | none => earliest? table (behindWord rest)
      | some slot =>
        match nextGroup? (behindWord rest) with
        | none => earliest? table (behindWord rest)
        | some group => some ⟨word m rest, slot, group.start, group.closed.map (·.1)⟩
    else earliest? table rest
termination_by marks.length
decreasing_by
  all_goals simp only [List.length_cons]
  · have := length_behindWord_le rest
    omega
  · have := length_behindWord_le rest
    omega
  · omega

def classify (table : CallTable) (text : Bytes) : Statement :=
  match earliest? table (scan text 0) with
  | none => raw text none
  | some ⟨name, _, _, none⟩ => raw text (some (.unbalanced name))
  | some ⟨name, slot, start, some stop⟩ =>
    match Argument.read text ⟨start + 1, stop⟩ with
    | .error fault => raw text (some (.badArguments name fault))
    | .ok args =>
      match h : slot.index? args.length with
      | none => raw text (some (.noSlot name args.length))
      | some index =>
        call ⟨name, args, index, Slot.lt_of_index? h, text.take (start + 1), text.drop stop⟩

/-- The depth of parentheses behind a mark. One that closes nothing is ignored. -/
def depthBehind (depth : Nat) (m : Mark) : Nat :=
  if m.isCodeByte 0x28 then depth + 1 else if m.isCodeByte 0x29 then depth - 1 else depth

/-- Cuts a scan behind each semicolon outside parentheses. -/
def slices (depth : Nat) : List Mark → List Bytes
  | [] => []
  | m :: rest =>
    if m.isCodeByte 0x3B && depth == 0 then [m.byte] :: slices depth rest
    else
      match slices (depthBehind depth m) rest with
      | [] => [[m.byte]]
      | first :: others => (m.byte :: first) :: others

/-- The statements of a text. -/
def ofText (table : CallTable) (text : Bytes) : List Statement :=
  (slices 0 (scan text 0)).map (classify table)

/-- The text with `buffer` as the command buffer of every statement that has one. -/
def retarget (table : CallTable) (text buffer : Bytes) : Bytes :=
  (ofText table text).flatMap (·.render buffer)

/-- The command buffer of the first recording call. -/
def firstCommandBuffer? (table : CallTable) (text : Bytes) : Option Bytes :=
  (ofText table text).findSome? commandBuffer?

def warnings (table : CallTable) (text : Bytes) : List LogRecord :=
  (ofText table text).filterMap warning?

end Statement
end PassCompiler
