import PassCompiler.Text.Bytes

/-! UTF-8 as a machine that reads a byte at a time. What cannot be part of a character is read as
the longest beginnings of one, each of which stands for a single replacement character. -/
namespace PassCompiler.Utf8

/-- A character begun: the bits read, the bytes still to come, and the range of the next one. -/
structure Pending where
  bits : Nat
  left : Nat
  low : UInt8
  high : UInt8
  deriving DecidableEq, Repr

/-- What a byte between two characters is: one of its own, the first of several, or neither. The
ranges leave out overlong forms, surrogates and what lies beyond U+10FFFF. -/
def lead (b : UInt8) : Option Char × Option Pending :=
  if b < 0x80 then (some (Char.ofNat b.toNat), none)
  else if b < 0xC2 then (none, none)
  else if b < 0xE0 then (none, some ⟨b.toNat - 0xC0, 1, 0x80, 0xBF⟩)
  else if b < 0xF0 then
    (none, some ⟨b.toNat - 0xE0, 2, if b == 0xE0 then 0xA0 else 0x80,
      if b == 0xED then 0x9F else 0xBF⟩)
  else if b < 0xF5 then
    (none, some ⟨b.toNat - 0xF0, 3, if b == 0xF0 then 0x90 else 0x80,
      if b == 0xF4 then 0x8F else 0xBF⟩)
  else (none, none)

/-- Reads a byte between two characters. An item `none` is an ill-formed part. -/
def begin (b : UInt8) : List (Option Char) × Option Pending :=
  match lead b with
  | (some c, _) => ([some c], none)
  | (none, some p) => ([], some p)
  | (none, none) => ([none], none)

def step (pending : Option Pending) (b : UInt8) : List (Option Char) × Option Pending :=
  match pending with
  | none => begin b
  | some p =>
    if p.low ≤ b && b ≤ p.high then
      let bits := p.bits * 64 + (b.toNat - 0x80)
      if p.left ≤ 1 then ([some (Char.ofNat bits)], none)
      else ([], some ⟨bits, p.left - 1, 0x80, 0xBF⟩)
    else
      let (items, next) := begin b
      (none :: items, next)

def decodeFrom : Option Pending → Bytes → List (Option Char)
  | none, [] => []
  | some _, [] => [none]
  | pending, b :: rest =>
    let (items, next) := step pending b
    items ++ decodeFrom next rest

/-- The characters of a text, `none` standing for an ill-formed part. -/
def decode (text : Bytes) : List (Option Char) := decodeFrom none text

def isValid (text : Bytes) : Bool := (decode text).all Option.isSome

def encode (chars : List Char) : Bytes := chars.flatMap String.utf8EncodeChar

/-- The characters of a text, U+FFFD standing for an ill-formed part. -/
def chars (text : Bytes) : List Char := (decode text).map (·.getD (Char.ofNat 0xFFFD))

def repair (text : Bytes) : Bytes := encode (chars text)

/-- No byte that continues a character: a cut before it splits none. -/
def isBoundaryByte (b : UInt8) : Bool := b < 0x80 || 0xC0 ≤ b

/-- A cut at `offset` splits no character of a valid text. -/
def isBoundary (text : Bytes) (offset : Nat) : Bool :=
  match text[offset]? with
  | some b => isBoundaryByte b
  | none => offset == text.length

end PassCompiler.Utf8
