import PassCompiler.Text.Printable
import PassCompiler.Text.Utf8

/-! Values written out: texts between double quotes, with a backslash before what would end the text
or not show in it, and records of values with their names. -/
namespace PassCompiler
namespace Quoted

/-- The hexadecimal digits of `n`, without leading zeros. -/
def hexadecimal (n : Nat) : Bytes :=
  if n < 16 then [Bytes.hexDigit n] else hexadecimal (n / 16) ++ [Bytes.hexDigit (n % 16)]

def escape (c : Char) : Bytes :=
  match c with
  | '"' => bytes "\\\""
  | '\\' => bytes "\\\\"
  | '\n' => bytes "\\n"
  | '\r' => bytes "\\r"
  | '\t' => bytes "\\t"
  | '\x00' => bytes "\\0"
  | c =>
    if Printable.isPlain c then String.utf8EncodeChar c
    else bytes "\\u\x7b" ++ hexadecimal c.toNat ++ bytes "\x7d"

def quote (text : Bytes) : Bytes :=
  bytes "\"" ++ (Utf8.chars text).flatMap escape ++ bytes "\""

end Quoted

namespace Record

def listed (opening closing : String) (members : List Bytes) : Bytes :=
  bytes opening ++ Bytes.join (bytes ", ") members ++ bytes closing

def applied (name : String) (members : List Bytes) : Bytes :=
  bytes name ++ listed "(" ")" members

def fields (name : String) (members : List (String × Bytes)) : Bytes :=
  bytes name ++ listed " \x7b " " \x7d" (members.map fun (key, value) =>
    bytes key ++ bytes ": " ++ value)

end Record
end PassCompiler
