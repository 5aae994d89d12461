/-! Byte texts. Offsets, lengths and columns count bytes, so texts are lists of bytes throughout;
characters matter only where a rule is about characters. -/
namespace PassCompiler

abbrev Bytes := List UInt8

/-- Half open: `start` belongs to the span and `stop` does not. -/
structure Span where
  start : Nat
  stop : Nat
  deriving DecidableEq, Repr, Inhabited

def bytes (text : String) : Bytes := text.toUTF8.data.toList

/-- The bytes of a text are checked one by one, even where a type of bytes can be enumerated. -/
instance (priority := high) {p : UInt8 → Prop} [DecidablePred p] (text : Bytes) :
    Decidable (∀ b ∈ text, p b) := List.decidableBAll p text

namespace Bytes

def isDigit (b : UInt8) : Bool := 0x30 ≤ b && b ≤ 0x39

def isLetter (b : UInt8) : Bool := (0x41 ≤ b && b ≤ 0x5A) || (0x61 ≤ b && b ≤ 0x7A)

def isIdent (b : UInt8) : Bool := isLetter b || isDigit b || b == 0x5F

/-- What may stand before a terminator: space, tab, line feed or carriage return. -/
def isBlank (b : UInt8) : Bool := b == 0x20 || b == 0x09 || b == 0x0A || b == 0x0D

/-- The blanks and the form feed: what is trimmed off an argument. -/
def isSpace (b : UInt8) : Bool := isBlank b || b == 0x0C

def slice (text : Bytes) (span : Span) : Bytes := (text.take span.stop).drop span.start

def trimBoth (p : UInt8 → Bool) (text : Bytes) : Bytes :=
  ((text.dropWhile p).reverse.dropWhile p).reverse

def trimSpace (text : Bytes) : Bytes := trimBoth isSpace text

/-- The longest run of identifier bytes at the end of `text`. -/
def identSuffix (text : Bytes) : Bytes := (text.reverse.takeWhile isIdent).reverse

def includes (part : Bytes) : Bytes → Bool
  | [] => part.isEmpty
  | b :: rest => part.isPrefixOf (b :: rest) || includes part rest

def join (separator : Bytes) (parts : List Bytes) : Bytes := separator.intercalate parts

/-- The first line, without its end: a line feed, or a carriage return and a line feed. A text
without bytes has no line. -/
def firstLine? (text : Bytes) : Option Bytes :=
  if text.isEmpty then none
  else
    let line := text.takeWhile (· != 0x0A)
    if line.length < text.length && line.getLast? == some 0x0D then some line.dropLast
    else some line

/-- Decimal digits, the first of several never being a zero. -/
def ofNat (n : Nat) : Bytes :=
  if n < 10 then [0x30 + n.toUInt8] else ofNat (n / 10) ++ [0x30 + (n % 10).toUInt8]

def hexDigit (n : Nat) : UInt8 := if n < 10 then 0x30 + n.toUInt8 else 0x57 + n.toUInt8

/-- Order by the first byte that differs, a proper beginning coming first. -/
def le : Bytes → Bytes → Bool
  | [], _ => true
  | _ :: _, [] => false
  | a :: as, b :: bs => if a < b then true else if b < a then false else le as bs

end Bytes
end PassCompiler
