import PassCompiler.Toml.Assembly
import PassCompiler.Toml.Meaning

/-! Documents: lines that hold a key with its value, or the header of a table. Main definition:
`parse`, which yields the root table, or nothing if the text is no TOML or one of its values means
nothing. -/
namespace PassCompiler.Toml

/-- Drops whitespace, ends of lines and comments; `none` if a comment or an end of a line is
malformed. -/
def trivia (inComment : Bool) : Bytes → Option Bytes
  | [] => some []
  | b :: rest =>
    if b == 0x0A then trivia false rest
    else if b == 0x0D then if rest.head? == some 0x0A then trivia false rest else none
    else if inComment then if isControl b then none else trivia true rest
    else if isWhitespace b then trivia false rest
    else if b == 0x23 then trivia true rest
    else some (b :: rest)

/-- The text behind the end of the line, before which only a comment may stand. -/
def lineEnd (inComment : Bool) : Bytes → Option Bytes
  | [] => some []
  | b :: rest =>
    if b == 0x0A then some rest
    else if b == 0x0D then if rest.head? == some 0x0A then some rest.tail else none
    else if inComment then if isControl b then none else lineEnd true rest
    else if isWhitespace b then lineEnd false rest
    else if b == 0x23 then lineEnd true rest
    else none

/-- Reads a part of a document off the front of a text and gives what is left. -/
abbrev Reader (α : Type) := Bytes → Option (α × Bytes)

def items (item : Reader Value) (s : Bytes) : Option (List Value × Bytes) := do
  let t ← trivia false s
  match t with
  | 0x5D :: rest => some ([], rest)
  | _ =>
    let (v, rest) ← item t
    match ← trivia false rest with
    | 0x5D :: rest => some ([v], rest)
    | 0x2C :: rest =>
      if rest.length < s.length then (items item rest).map fun (vs, rest) => (v :: vs, rest)
      else none
    | _ => none
termination_by s.length

/-- A key with its value. On both sides of the equals sign stands what `gap` drops. -/
def keyValue (gap : Bytes → Option Bytes) (item : Reader Value) :
    Reader (List Bytes × Value) := fun s => do
  let (k, rest) ← key s
  let rest ← expect 0x3D (← gap rest)
  let (v, rest) ← item (← gap rest)
  some ((k, v), rest)

/-- The entries of an inline table behind its brace. They may go over several lines. -/
def inlineEntries (item : Reader Value) (s : Bytes) :
    Option (List (List Bytes × Value) × Bytes) := do
  let t ← trivia false s
  match t with
  | 0x7D :: rest => some ([], rest)
  | _ =>
    let (entry, rest) ← keyValue (trivia false) item t
    match ← trivia false rest with
    | 0x7D :: rest => some ([entry], rest)
    | 0x2C :: rest =>
      if rest.length < s.length then
        (inlineEntries item rest).map fun (entries, rest) => (entry :: entries, rest)
      else none
    | _ => none
termination_by s.length

def tableOf (entries : List (List Bytes × Value)) : Option Table := do
  let (_, es) ← entries.foldlM (fun (origin, es) (k, v) => Entries.insert k v origin es)
    (Origin.header, [])
  some (entriesToTable es)

def plainValue (s : Bytes) : Option (Value × Bytes) :=
  match s with
  | 0x22 :: 0x22 :: 0x22 :: rest =>
    (multiBasicString false (dropLineEnd rest)).map fun (t, rest) => (.string t, rest)
  | 0x22 :: rest => (basicString rest).map fun (t, rest) => (.string t, rest)
  | 0x27 :: 0x27 :: 0x27 :: rest =>
    (multiLiteralString (dropLineEnd rest)).map fun (t, rest) => (.string t, rest)
  | 0x27 :: rest => (literalString rest).map fun (t, rest) => (.string t, rest)
  | _ => scalar s

/-- A value in which arrays and inline tables are nested at most `levels` deep. -/
def value : (levels : Nat) → Bytes → Option (Value × Bytes)
  | 0, s => plainValue s
  | levels + 1, s =>
    match s with
    | 0x5B :: rest => (items (value levels) rest).map fun (vs, rest) => (.array vs, rest)
    | 0x7B :: rest => do
      let (entries, rest) ← inlineEntries (value levels) rest
      some (.table (← tableOf entries), rest)
    | _ => plainValue s

def maxLevels : Nat := 80

/-- What a line holds. -/
inductive Expression where
  | keyValue (key : List Bytes) (v : Value)
  | header (key : List Bytes)
  | elementHeader (key : List Bytes)

/-- An expression at the front, up to where its line may end. -/
def expression (s : Bytes) : Option (Expression × Bytes) :=
  match s with
  | 0x5B :: 0x5B :: rest => do
    let (k, rest) ← key rest
    let rest ← expect 0x5D (← expect 0x5D rest)
    some (.elementHeader k, rest)
  | 0x5B :: rest => do
    let (k, rest) ← key rest
    some (.header k, ← expect 0x5D rest)
  | _ =>
    (Toml.keyValue (some ∘ dropWhitespace) (value maxLevels) s).map fun ((k, v), rest) =>
      (.keyValue k v, rest)

def expressions (s : Bytes) : Option (List Expression) := do
  let t ← trivia false s
  if t.isEmpty then some []
  else
    let (e, rest) ← expression t
    let rest ← lineEnd false rest
    if rest.length < s.length then (expressions rest).map (e :: ·) else none
termination_by s.length

/-- A document under construction, and the path of the table that keys go into. -/
structure Assembly where
  entries : Entries
  path : List Bytes

def Assembly.add (a : Assembly) : Expression → Option Assembly
  | .keyValue k v => do
    let (_, entries) ← Entries.within false (Entries.insert k v) a.path .header a.entries
    some { a with entries }
  | .header k => do
    let (_, entries) ← Entries.within false (Entries.openTable (k.getLastD [])) k.dropLast .header
      a.entries
    some ⟨entries, k⟩
  | .elementHeader k => do
    let (_, entries) ← Entries.within false (Entries.openElement (k.getLastD [])) k.dropLast
      .header a.entries
    some ⟨entries, k⟩

/-- The root table of a document, with its values as they are written. A byte order mark may stand
before it. -/
def read (text : Bytes) : Option Table := do
  let body := if [0xEF, 0xBB, 0xBF].isPrefixOf text then text.drop 3 else text
  let a ← (← expressions body).foldlM Assembly.add ⟨[], []⟩
  some (entriesToTable a.entries)

/-- The root table of a document. It is a table whatever its keys are. -/
def parse (text : Bytes) : Option Table := (read text).bind meanings

end PassCompiler.Toml
