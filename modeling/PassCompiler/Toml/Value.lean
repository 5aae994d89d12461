import PassCompiler.Text.Bytes

/-! The values of a TOML document. -/
namespace PassCompiler.Toml

inductive Value where
  | string (text : Bytes)
  /-- Of any size. -/
  | integer (n : Int)
  /-- Kept as it is written. -/
  | float (literal : Bytes)
  | boolean (b : Bool)
  /-- A date, a time of day or both, kept as it is written. -/
  | datetime (literal : Bytes)
  | array (items : List Value)
  | table (entries : List (Bytes × Value))
  deriving Inhabited

/-- Keys with their values. No key occurs twice; the order is that of the document. -/
abbrev Table := List (Bytes × Value)

namespace Value

def string? : Value → Option Bytes
  | string text => some text
  | _ => none

def integer? : Value → Option Int
  | integer n => some n
  | _ => none

def boolean? : Value → Option Bool
  | boolean b => some b
  | _ => none

def array? : Value → Option (List Value)
  | array items => some items
  | _ => none

def table? : Value → Option Table
  | table entries => some entries
  | _ => none

end Value
end PassCompiler.Toml
