import PassCompiler.Text.Bytes

/-! Comments, the only lexical structure of a source. A scan marks every byte with what governs
it: code, a `//` comment or a `/* */` comment. Both bytes of a marker belong to the comment; the
line feed that ends a line comment is code. String literals are not special. -/
namespace PassCompiler.Source

/-- What governs a byte. Only code is structural. -/
inductive Region where
  | code
  | line
  | block
  deriving DecidableEq, Repr, Inhabited

/-- Where a scan stands before a byte. -/
inductive Phase where
  | code
  | line
  | block
  /-- Between the two bytes that open a line comment. -/
  | lineMarker
  /-- Between the two bytes that open a block comment. -/
  | blockMarker
  /-- Between the two bytes that close a block comment. -/
  | closeMarker
  deriving DecidableEq, Repr

/-- The region of byte `b`, which `next` follows, and the phase behind it. A marker needs both of
its bytes, and no byte serves two markers. -/
def Phase.step (phase : Phase) (b : UInt8) (next : Option UInt8) : Region × Phase :=
  match phase with
  | .code =>
    if b == 0x2F && next == some 0x2F then (.line, .lineMarker)
    else if b == 0x2F && next == some 0x2A then (.block, .blockMarker)
    else (.code, .code)
  | .line => if b == 0x0A then (.code, .code) else (.line, .line)
  | .block => if b == 0x2A && next == some 0x2F then (.block, .closeMarker) else (.block, .block)
  | .lineMarker => (.line, .line)
  | .blockMarker => (.block, .block)
  | .closeMarker => (.block, .code)

structure Mark where
  offset : Nat
  byte : UInt8
  region : Region
  deriving DecidableEq, Repr, Inhabited

namespace Mark

def isCode (m : Mark) : Bool := m.region == .code

def isCodeByte (m : Mark) (b : UInt8) : Bool := m.isCode && m.byte == b

end Mark

def scanFrom (phase : Phase) (offset : Nat) : Bytes → List Mark
  | [] => []
  | b :: rest =>
    let (region, next) := phase.step b rest.head?
    ⟨offset, b, region⟩ :: scanFrom next (offset + 1) rest

/-- The marks of `text` from `start` on, which must not lie inside a comment. To bound a scan, cut
the text: a scan never looks past the end of it. -/
def scan (text : Bytes) (start : Nat) : List Mark := scanFrom .code start (text.drop start)

def text (marks : List Mark) : Bytes := marks.map (·.byte)

structure Cursor where
  source : Bytes
  ahead : List Mark

namespace Cursor

def new (source : Bytes) (start : Nat) : Cursor := ⟨source, scan source start⟩

def next (c : Cursor) : Option Mark × Cursor :=
  match c.ahead with
  | [] => (none, c)
  | m :: rest => (some m, { c with ahead := rest })

/-- Goes on from `offset`, as code. -/
def seek (c : Cursor) (offset : Nat) : Cursor := { c with ahead := scan c.source offset }

end Cursor
end PassCompiler.Source
