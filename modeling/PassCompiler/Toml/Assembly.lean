import PassCompiler.Toml.Value

/-! Tables under construction. Headers and dotted keys may add to a table in several places, but
none is defined twice; values, inline tables among them, are closed. -/
namespace PassCompiler.Toml

/-- How a table came about. -/
inductive Origin where
  /-- It has a header of its own. -/
  | header
  /-- A header below it implies it. -/
  | implied
  /-- A dotted key made it. -/
  | dotted
  deriving DecidableEq

inductive Item where
  | value (v : Value)
  | table (origin : Origin) (entries : List (Bytes × Item))
  /-- An array of tables, the latest of them apart. -/
  | tables (latest : List (Bytes × Item)) (earlier : List (List (Bytes × Item)))

abbrev Entries := List (Bytes × Item)

namespace Entries

def alter (key : Bytes) (f : Option Item → Option Item) : Entries → Option Entries
  | [] => (f none).map fun item => [(key, item)]
  | (k, item) :: rest =>
    if k == key then (f (some item)).map fun item => (k, item) :: rest
    else (alter key f rest).map ((k, item) :: ·)

/-- Changes the table that a path leads to, making the tables that are missing. A dotted path does
not lead into a table with a header. -/
def within (dotted : Bool) (f : Origin → Entries → Option (Origin × Entries)) :
    List Bytes → Origin → Entries → Option (Origin × Entries)
  | [], origin, entries => f origin entries
  | key :: path, origin, entries =>
    let change (item : Option Item) : Option Item :=
      match item with
      | none =>
        (within dotted f path (if dotted then .dotted else .implied) []).map fun (o, es) =>
          .table o es
      | some (.value _) => none
      | some (.table o es) =>
        if dotted && o == .header then none
        else (within dotted f path o es).map fun (o, es) => .table o es
      | some (.tables latest earlier) =>
        (within dotted f path .header latest).map fun (_, es) => .tables es earlier
    (alter key change entries).map (origin, ·)

/-- Adds a value under a key. The last of several parts names it in a table made by dotted keys. -/
def insert (key : List Bytes) (v : Value) (origin : Origin) (entries : Entries) :
    Option (Origin × Entries) :=
  match key.getLast? with
  | none => none
  | some name =>
    let add (o : Origin) (es : Entries) : Option (Origin × Entries) :=
      if 1 < key.length && o != .dotted then none
      else (alter name (fun item => if item.isNone then some (.value v) else none) es).map (o, ·)
    within true add key.dropLast origin entries

def openTable (name : Bytes) (origin : Origin) (entries : Entries) : Option (Origin × Entries) :=
  let change (item : Option Item) : Option Item :=
    match item with
    | none => some (.table .header [])
    | some (.table .implied es) => some (.table .header es)
    | _ => none
  (alter name change entries).map (origin, ·)

def openElement (name : Bytes) (origin : Origin) (entries : Entries) :
    Option (Origin × Entries) :=
  let change (item : Option Item) : Option Item :=
    match item with
    | none => some (.tables [] [])
    | some (.tables latest earlier) => some (.tables [] (latest :: earlier))
    | _ => none
  (alter name change entries).map (origin, ·)

end Entries

mutual

def Item.toValue : Item → Value
  | .value v => v
  | .table _ entries => .table (entriesToTable entries)
  | .tables latest earlier => .array (tablesToValues earlier [.table (entriesToTable latest)])

/-- The finished table. -/
def entriesToTable : List (Bytes × Item) → Table
  | [] => []
  | (key, item) :: rest => (key, item.toValue) :: entriesToTable rest

/-- The finished tables of an array, which are given latest first, before `later` ones. -/
def tablesToValues : List (List (Bytes × Item)) → List Value → List Value
  | [], later => later
  | entries :: earlier, later => tablesToValues earlier (.table (entriesToTable entries) :: later)

end

end PassCompiler.Toml
