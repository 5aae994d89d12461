import PassCompiler.Text.Blank

/-! Declarations, such as a parameter or an argument of `FIXED_BEGIN`: the name one declares, and
whether a text is a declaration at all. -/
namespace PassCompiler.Declaration

/-- The name that a declaration declares: `vb` in `const buffer& vb`, `counts` in `int counts[4]`.
Empty if the text does not end in an identifier. -/
def name (declaration : Bytes) : Bytes :=
  let text := Blank.trim declaration
  if text.getLast? == some 0x5D && text.contains 0x5B then
    Bytes.identSuffix (Blank.trimEnd (text.takeWhile (· != 0x5B)))
  else Bytes.identSuffix text

def isOperator (b : UInt8) : Bool := (bytes "(\x7b.-+\"=").contains b

/-- Neither an identifier nor a declaration: evaluated in place. -/
def isExpression (text : Bytes) : Bool :=
  text.isEmpty || text.head?.any Bytes.isDigit || text.any isOperator || (name text).isEmpty

end PassCompiler.Declaration

namespace PassCompiler

/-- An argument of `FIXED_BEGIN`. -/
structure FixedArg where
  /-- The argument as it stands, such as `VkRenderPass pass` or `pass`. -/
  declaration : Bytes
  /-- What generated code refers to: the declared name, or the whole of an expression. -/
  name : Bytes
  deriving DecidableEq, Repr

namespace FixedArg

def ofText (text : Bytes) : FixedArg :=
  let declaration := Blank.trim text
  ⟨declaration,
    if Declaration.isExpression declaration then declaration else Declaration.name declaration⟩

def isExpression (a : FixedArg) : Bool := Declaration.isExpression a.declaration

/-- A plain identifier without a type. -/
def isBare (a : FixedArg) : Bool := a.declaration == a.name && !a.isExpression

end FixedArg
end PassCompiler
