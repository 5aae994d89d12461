import PassCompiler.Toml.Scalar

/-! What the values of a document mean. Integers have 64 bits and written numbers are finite. A
table that begins with the key reserved for dates and times stands for one of these. Main
definition: `meanings`, which yields nothing if a value in a table means nothing. -/
namespace PassCompiler.Toml

def fitsInteger (n : Int) : Bool := Int64.minValue.toInt ≤ n && n ≤ Int64.maxValue.toInt

/-- Whether the number that the digits make, times ten to the `exponent`, is finite when rounded to
53 bits. The number of digits decides it, except near the limit. -/
def isFiniteDecimal (digits : Bytes) (exponent : Int) : Bool :=
  let significant := digits.dropWhile (· == 0x30)
  let magnitude := significant.length + exponent
  let limit := Nat.pow 2 1024 - Nat.pow 2 970
  let n := numberOf 10 significant
  if significant.isEmpty || magnitude ≤ 300 then true
  else if 310 < magnitude then false
  else if 0 ≤ exponent then n * Nat.pow 10 exponent.toNat < limit
  else n < limit * Nat.pow 10 (-exponent).toNat

/-- A float may be infinite only if it says so. -/
def fitsFloat (literal : Bytes) : Bool :=
  (decimalFloat? literal).all fun (digits, exponent) => isFiniteDecimal digits exponent

/-- The key that makes a table stand for a date or a time. -/
def datetimeKey : Bytes := bytes "$__toml_private_datetime"

/-- The value of the reserved key, if that is the first of the keys of a table in their order. -/
def datetimeMark? (t : Table) : Option Value :=
  if t.all fun (key, _) => Bytes.le datetimeKey key then t.lookup datetimeKey else none

mutual

/-- A table that stands for a date or a time has its text under the reserved key; the other keys
are ignored. -/
def Value.meaning? : Value → Option Value
  | .integer n => if fitsInteger n then some (.integer n) else none
  | .float literal => if fitsFloat literal then some (.float literal) else none
  | .array items => (itemMeanings items).map .array
  | .table entries =>
    match datetimeMark? entries with
    | some (.string text) => datetime? text
    | some _ => none
    | none => (meanings entries).map .table
  | v => some v

def itemMeanings : List Value → Option (List Value)
  | [] => some []
  | v :: rest => do some ((← v.meaning?) :: (← itemMeanings rest))

def meanings : List (Bytes × Value) → Option Table
  | [] => some []
  | (key, v) :: rest => do some ((key, ← v.meaning?) :: (← meanings rest))

end

end PassCompiler.Toml
