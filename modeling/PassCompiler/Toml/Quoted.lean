import PassCompiler.Text.Bytes

/-! Strings and keys. A reader gets the text behind an opening delimiter and yields what it read
and what is left, or nothing if the text is malformed. -/
namespace PassCompiler.Toml

/-- Puts bytes, if there are any to put, before those that were read. -/
def prepend (front : Option Bytes) (r : Option (Bytes × Bytes)) : Option (Bytes × Bytes) :=
  front.bind fun front => r.map fun (text, rest) => (front ++ text, rest)

def isWhitespace (b : UInt8) : Bool := b == 0x20 || b == 0x09

def dropWhitespace (s : Bytes) : Bytes := s.dropWhile isWhitespace

def isControl (b : UInt8) : Bool := (b < 0x20 && b != 0x09) || b == 0x7F

def hexDigit? (b : UInt8) : Option Nat :=
  if Bytes.isDigit b then some (b.toNat - 0x30)
  else if 0x41 ≤ b && b ≤ 0x46 then some (b.toNat - 0x37)
  else if 0x61 ≤ b && b ≤ 0x66 then some (b.toNat - 0x57)
  else none

def codePoint? (digits : Bytes) : Option Bytes := do
  let values ← digits.mapM hexDigit?
  let n := values.foldl (fun n d => n * 16 + d) 0
  if n.isValidChar then some (String.utf8EncodeChar (Char.ofNat n)) else none

def simpleEscape? (b : UInt8) : Option Bytes :=
  match b with
  | 0x62 => some [0x08]
  | 0x74 => some [0x09]
  | 0x6E => some [0x0A]
  | 0x66 => some [0x0C]
  | 0x72 => some [0x0D]
  | 0x65 => some [0x1B]
  | 0x22 => some [0x22]
  | 0x5C => some [0x5C]
  | _ => none

def basicString : Bytes → Option (Bytes × Bytes)
  | [] => none
  | b :: rest =>
    if b == 0x22 then some ([], rest)
    else if b == 0x5C then
      match rest with
      | 0x78 :: c :: d :: rest =>
        prepend (codePoint? [c, d]) (basicString rest)
      | 0x75 :: c :: d :: e :: f :: rest =>
        prepend (codePoint? [c, d, e, f]) (basicString rest)
      | 0x55 :: c :: d :: e :: f :: g :: h :: i :: j :: rest =>
        prepend (codePoint? [c, d, e, f, g, h, i, j]) (basicString rest)
      | e :: rest => prepend (simpleEscape? e) (basicString rest)
      | [] => none
    else if isControl b then none
    else prepend (some [b]) (basicString rest)

/-- A string on one line, as it stands. -/
def literalString : Bytes → Option (Bytes × Bytes)
  | [] => none
  | b :: rest =>
    if b == 0x27 then some ([], rest)
    else if isControl b then none
    else prepend (some [b]) (literalString rest)

def endsLine (s : Bytes) : Bool :=
  match dropWhitespace s with
  | 0x0A :: _ => true
  | 0x0D :: 0x0A :: _ => true
  | _ => false

/-- Whether `b`, which `rest` follows, may stand in a string of several lines. -/
def isMultiLine (b : UInt8) (rest : Bytes) : Bool :=
  if b == 0x0D then rest.head? == some 0x0A else b == 0x0A || !isControl b

/-- A string of several lines, with escapes. While `trimming`, whitespace and ends of lines are
dropped: a backslash at the end of a line joins it to what follows. Up to two quotes may stand
before the closing three. -/
def multiBasicString (trimming : Bool) : Bytes → Option (Bytes × Bytes)
  | [] => none
  | b :: rest =>
    if b == 0x22 then
      match rest with
      | 0x22 :: 0x22 :: 0x22 :: 0x22 :: rest => some ([0x22, 0x22], rest)
      | 0x22 :: 0x22 :: 0x22 :: rest => some ([0x22], rest)
      | 0x22 :: 0x22 :: rest => some ([], rest)
      | rest => prepend (some [b]) (multiBasicString false rest)
    else if b == 0x5C then
      if endsLine rest then multiBasicString true rest
      else
        match rest with
        | 0x78 :: c :: d :: rest =>
          prepend (codePoint? [c, d]) (multiBasicString false rest)
        | 0x75 :: c :: d :: e :: f :: rest =>
          prepend (codePoint? [c, d, e, f]) (multiBasicString false rest)
        | 0x55 :: c :: d :: e :: f :: g :: h :: i :: j :: rest =>
          prepend (codePoint? [c, d, e, f, g, h, i, j]) (multiBasicString false rest)
        | e :: rest => prepend (simpleEscape? e) (multiBasicString false rest)
        | [] => none
    else if !isMultiLine b rest then none
    else if trimming && (isWhitespace b || b == 0x0A || b == 0x0D) then multiBasicString true rest
    else prepend (some [b]) (multiBasicString false rest)

def multiLiteralString : Bytes → Option (Bytes × Bytes)
  | [] => none
  | b :: rest =>
    if b == 0x27 then
      match rest with
      | 0x27 :: 0x27 :: 0x27 :: 0x27 :: rest => some ([0x27, 0x27], rest)
      | 0x27 :: 0x27 :: 0x27 :: rest => some ([0x27], rest)
      | 0x27 :: 0x27 :: rest => some ([], rest)
      | rest => prepend (some [b]) (multiLiteralString rest)
    else if !isMultiLine b rest then none
    else prepend (some [b]) (multiLiteralString rest)

def dropLineEnd : Bytes → Bytes
  | 0x0A :: rest => rest
  | 0x0D :: 0x0A :: rest => rest
  | rest => rest

def isBareKey (b : UInt8) : Bool := Bytes.isIdent b || b == 0x2D

def keyPart (s : Bytes) : Option (Bytes × Bytes) :=
  match s with
  | 0x22 :: rest => basicString rest
  | 0x27 :: rest => literalString rest
  | _ =>
    let bare := s.takeWhile isBareKey
    if bare.isEmpty then none else some (bare, s.dropWhile isBareKey)

/-- Parts of a key with dots between them. Whitespace may stand around each. -/
def keyParts (s : Bytes) : Option (List Bytes × Bytes) :=
  match keyPart (dropWhitespace s) with
  | none => none
  | some (part, rest) =>
    match dropWhitespace rest with
    | 0x2E :: rest =>
      if rest.length < s.length then (keyParts rest).map fun (parts, rest) => (part :: parts, rest)
      else none
    | rest => some ([part], rest)
termination_by s.length

def maxParts : Nat := 80

def key (s : Bytes) : Option (List Bytes × Bytes) :=
  (keyParts s).filter fun (parts, _) => parts.length ≤ maxParts

end PassCompiler.Toml
