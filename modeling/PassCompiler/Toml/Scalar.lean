import PassCompiler.Toml.Quoted
import PassCompiler.Toml.Value

/-! Numbers, booleans, dates and times. -/
namespace PassCompiler.Toml

/-- The digits of a run in which single underscores may stand between two digits. -/
def digits? (isDigit : UInt8 → Bool) : Bytes → Option Bytes
  | [] => none
  | [b] => if isDigit b then some [b] else none
  | b :: 0x5F :: rest => if isDigit b then (digits? isDigit rest).map (b :: ·) else none
  | b :: rest => if isDigit b then (digits? isDigit rest).map (b :: ·) else none

def numberOf (base : Nat) (digits : Bytes) : Nat :=
  digits.foldl (fun n b => n * base + (hexDigit? b).getD 0) 0

def isHexDigit (b : UInt8) : Bool := (hexDigit? b).isSome
def isOctalDigit (b : UInt8) : Bool := 0x30 ≤ b && b ≤ 0x37
def isBinaryDigit (b : UInt8) : Bool := b == 0x30 || b == 0x31

def unsigned (s : Bytes) : Bytes × Bool :=
  match s with
  | 0x2B :: rest => (rest, false)
  | 0x2D :: rest => (rest, true)
  | _ => (s, false)

/-- The digits of a decimal number, which begins with a zero only if that is all of it. -/
def decimal? (s : Bytes) : Option Bytes :=
  (digits? Bytes.isDigit s).filter fun ds => ds.length == 1 || ds.head? != some 0x30

def integer? (s : Bytes) : Option Value :=
  match s with
  | 0x30 :: 0x78 :: rest => (digits? isHexDigit rest).map fun ds => .integer (numberOf 16 ds)
  | 0x30 :: 0x6F :: rest => (digits? isOctalDigit rest).map fun ds => .integer (numberOf 8 ds)
  | 0x30 :: 0x62 :: rest => (digits? isBinaryDigit rest).map fun ds => .integer (numberOf 2 ds)
  | _ => do
    let (body, negative) := unsigned s
    let n : Int := numberOf 10 (← decimal? body)
    some (.integer (if negative then -n else n))

def exponent? (s : Bytes) : Option Int :=
  match s with
  | [] => some 0
  | _ :: rest => do
    let (body, negative) := unsigned rest
    let n : Int := numberOf 10 (← digits? Bytes.isDigit body)
    some (if negative then -n else n)

def isExponentMark (b : UInt8) : Bool := b == 0x65 || b == 0x45

/-- The digits of a float and the power of ten that they are multiplied by. -/
def decimalFloat? (s : Bytes) : Option (Bytes × Int) := do
  let body := (unsigned s).1
  let mantissa := body.takeWhile (!isExponentMark ·)
  let whole := mantissa.takeWhile (· != 0x2E)
  let exponent ← exponent? (body.dropWhile (!isExponentMark ·))
  let wholeDigits ← decimal? whole
  let fraction ←
    match mantissa.dropWhile (· != 0x2E) with
    | [] => if mantissa.length < body.length then some [] else none
    | _ :: rest => digits? Bytes.isDigit rest
  some (wholeDigits ++ fraction, exponent - fraction.length)

def isSpecialFloat (s : Bytes) : Bool :=
  (unsigned s).1 == bytes "inf" || (unsigned s).1 == bytes "nan"

def float? (s : Bytes) : Option Value :=
  if isSpecialFloat s || (decimalFloat? s).isSome then some (.float s) else none

def fixedDigits (width : Nat) (s : Bytes) : Option (Nat × Bytes) :=
  let ds := s.take width
  if ds.length == width && ds.all Bytes.isDigit then some (numberOf 10 ds, s.drop width) else none

def expect (b : UInt8) (s : Bytes) : Option Bytes :=
  match s with
  | c :: rest => if c == b then some rest else none
  | [] => none

def isLeapYear (year : Nat) : Bool := year % 4 == 0 && (year % 100 != 0 || year % 400 == 0)

def daysIn (year month : Nat) : Nat :=
  if month == 2 then if isLeapYear year then 29 else 28
  else if [4, 6, 9, 11].contains month then 30
  else 31

def date (s : Bytes) : Option Bytes := do
  let (year, s) ← fixedDigits 4 s
  let (month, s) ← fixedDigits 2 (← expect 0x2D s)
  let (day, s) ← fixedDigits 2 (← expect 0x2D s)
  if 1 ≤ month && month ≤ 12 && 1 ≤ day && day ≤ daysIn year month then some s else none

/-- The text behind a fraction of a second at the front, if one is there. -/
def secondFraction (s : Bytes) : Option Bytes :=
  match s with
  | 0x2E :: rest =>
    if rest.head?.any Bytes.isDigit then some (rest.dropWhile Bytes.isDigit) else none
  | _ => some s

/-- The text behind a time of day at the front. Seconds may be left out, and may count to 60. -/
def time (s : Bytes) : Option Bytes := do
  let (hour, s) ← fixedDigits 2 s
  let (minute, s) ← fixedDigits 2 (← expect 0x3A s)
  if hour ≤ 23 && minute ≤ 59 then
    match s with
    | 0x3A :: rest => do
      let (second, rest) ← fixedDigits 2 rest
      if second ≤ 60 then secondFraction rest else none
    | _ => some s
  else none

def isOffset (s : Bytes) : Bool :=
  match s with
  | [] | [0x5A] | [0x7A] => true
  | sign :: rest =>
    (sign == 0x2B || sign == 0x2D) &&
      (do
        let (hour, s) ← fixedDigits 2 rest
        let (minute, s) ← fixedDigits 2 (← expect 0x3A s)
        some (hour ≤ 23 && minute ≤ 59 && s.isEmpty)) == some true

def isDateSeparator (b : UInt8) : Bool := b == 0x54 || b == 0x74 || b == 0x20

def datetime? (s : Bytes) : Option Value :=
  match date s with
  | some [] => some (.datetime s)
  | some (b :: rest) =>
    if isDateSeparator b && ((time rest).any isOffset) then some (.datetime s) else none
  | none => if time s == some [] then some (.datetime s) else none

def scalar? (s : Bytes) : Option Value :=
  if s == bytes "true" then some (.boolean true)
  else if s == bytes "false" then some (.boolean false)
  else integer? s <|> float? s <|> datetime? s

def isDelimiter (b : UInt8) : Bool :=
  isWhitespace b || isControl b || (bytes "#,[]\x7b\x7d=\"'").contains b

/-- A scalar at the front. A date and a time may have one space between them. -/
def scalar (s : Bytes) : Option (Value × Bytes) :=
  let run := s.takeWhile (!isDelimiter ·)
  let rest := s.dropWhile (!isDelimiter ·)
  match rest with
  | 0x20 :: b :: more =>
    if date run == some [] && Bytes.isDigit b then
      let later := (b :: more).takeWhile (!isDelimiter ·)
      (scalar? (run ++ 0x20 :: later)).map fun v => (v, (b :: more).dropWhile (!isDelimiter ·))
    else (scalar? run).map fun v => (v, rest)
  | _ => (scalar? run).map fun v => (v, rest)

end PassCompiler.Toml
