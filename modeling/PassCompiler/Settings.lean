import PassCompiler.Files.Store
import PassCompiler.Options
import PassCompiler.Text.Quoted
import PassCompiler.Text.Utf8
import PassCompiler.Toml.Document

/-! Settings, read from the table `rendergraph` of a file of their own, or from the table
`package.metadata.mutate.rendergraph` of a manifest. A table is read in the order of its keys,
whatever their order in the document, and the first fault counts. -/
namespace PassCompiler

structure Settings where
  frames : Option Frames := none
  outDir : Option Path := none
  options : Options := {}
  deriving DecidableEq, Repr

/-- What the value of a key has to be. -/
inductive Expectation where
  | string
  | boolean
  | strings
  | table
  | frames
  | index
  deriving DecidableEq, Repr

def Expectation.words : Expectation → Bytes
  | string => bytes "a string"
  | boolean => bytes "a boolean"
  | strings => bytes "an array of strings"
  | table => bytes "a table"
  | frames => bytes "an integer from 1 to 255"
  | index => bytes "a non-negative integer"

inductive SettingsError where
  | read (path : Path) (e : FileError)
  /-- The text is no TOML. -/
  | malformed
  | unknownKey (key : Bytes)
  | invalidValue (key : Bytes) (expected : Expectation)
  | missingTable
  deriving DecidableEq, Repr

def SettingsError.message : SettingsError → Bytes
  | read path e => bytes "read failed for " ++ Quoted.quote path ++ bytes ": " ++ e.message
  | malformed => bytes "TOML: malformed"
  | unknownKey key => bytes "unknown key \x60" ++ key ++ bytes "\x60"
  | invalidValue key expected => bytes "\x60" ++ key ++ bytes "\x60 must be " ++ expected.words
  | missingTable => bytes "no [rendergraph] table"

namespace Settings

inductive Key where
  | framesInFlight
  | outDir
  | contextParam
  | frameIndex
  | commandPool
  | device
  | primaryCommandBuffer
  | includes
  | overwrite
  | calls
  deriving DecidableEq, Repr

namespace Key

def all : List Key :=
  [framesInFlight, outDir, contextParam, frameIndex, commandPool, device, primaryCommandBuffer,
    includes, overwrite, calls]

def name : Key → Bytes
  | framesInFlight => bytes "frames_in_flight"
  | outDir => bytes "out_dir"
  | contextParam => bytes "context_param"
  | frameIndex => bytes "frame_index"
  | commandPool => bytes "command_pool"
  | device => bytes "device"
  | primaryCommandBuffer => bytes "primary_command_buffer"
  | includes => bytes "includes"
  | overwrite => bytes "overwrite"
  | calls => bytes "calls"

def ofName? (name : Bytes) : Option Key := all.find? (·.name == name)

end Key

/-- A value of the right kind, or the error that it is not. -/
def require {α : Type} (key : Bytes) (expected : Expectation) (value : Option α) :
    Except SettingsError α :=
  match value with
  | some a => .ok a
  | none => .error (.invalidValue key expected)

def inKeyOrder (t : Toml.Table) : Toml.Table := t.mergeSort fun a b => Bytes.le a.1 b.1

def natural? (v : Toml.Value) : Option Nat :=
  v.integer?.bind fun n => if 0 ≤ n then some n.toNat else none

def frames? (v : Toml.Value) : Option Frames := (natural? v).bind Frames.ofNat?

def strings? (v : Toml.Value) : Option (List Bytes) :=
  v.array?.bind fun items => items.mapM Toml.Value.string?

/-- The recording calls of a table, with the index of the command buffer. -/
def callsOf (t : Toml.Table) : Except SettingsError (List (Bytes × Nat)) :=
  (inKeyOrder t).mapM fun (name, v) => do
    return (name, ← require (bytes "calls." ++ name) .index (natural? v))

/-- The settings with the value of a key. -/
def put (s : Settings) (key : Key) (v : Toml.Value) : Except SettingsError Settings :=
  let string : Except SettingsError Bytes := require key.name .string v.string?
  let o := s.options
  match key with
  | .framesInFlight => do
    return { s with frames := some (← require key.name .frames (frames? v)) }
  | .outDir => do return { s with outDir := some (← string) }
  | .contextParam => do return { s with options := { o with contextParam := ← string } }
  | .frameIndex => do return { s with options := { o with frameIndex := ← string } }
  | .commandPool => do return { s with options := { o with commandPool := ← string } }
  | .device => do return { s with options := { o with device := ← string } }
  | .primaryCommandBuffer => do
    return { s with options := { o with primaryCommandBuffer := ← string } }
  | .includes => do
    return { s with options := { o with includes := ← require key.name .strings (strings? v) } }
  | .overwrite => do
    return { s with options := { o with overwrite := ← require key.name .boolean v.boolean? } }
  | .calls => do
    let t ← require key.name .table v.table?
    return { s with options := { o with calls := ← callsOf t } }

def putEntry (s : Settings) (entry : Bytes × Toml.Value) : Except SettingsError Settings :=
  match Key.ofName? entry.1 with
  | some key => s.put key entry.2
  | none => .error (.unknownKey entry.1)

/-- The settings that a table gives; what it does not give has its standard value. -/
def ofTable (t : Toml.Table) : Except SettingsError Settings :=
  (inKeyOrder t).foldlM putEntry {}

def tableName : Bytes := bytes "rendergraph"

def ofRoot (root : Toml.Table) : Except SettingsError Settings :=
  match root.lookup tableName with
  | some (.table t) => ofTable t
  | some _ => .error (.invalidValue tableName .table)
  | none => .error .missingTable

/-- The table that a path of keys leads to. -/
def subtable? (t : Toml.Table) : List Bytes → Option Toml.Table
  | [] => some t
  | key :: path =>
    match t.lookup key with
    | some (.table inner) => subtable? inner path
    | _ => none

/-- The settings that the root table of a manifest gives. A manifest without the table gives the
standard ones. -/
def ofManifestRoot (root : Toml.Table) : Except SettingsError Settings :=
  match subtable? root [bytes "package", bytes "metadata", bytes "mutate", tableName] with
  | some t => ofTable t
  | none => .ok {}

def parse (text : Bytes) : Except SettingsError Toml.Table :=
  match Toml.parse text with
  | some root => .ok root
  | none => .error .malformed

/-- The settings with a relative output directory taken from where `file` is. -/
def resolveOutDir (s : Settings) (file : Path) : Settings :=
  match s.outDir, file.parent? with
  | some dir, some parent =>
    if dir.isAbsolute then s else { s with outDir := some (parent.join dir) }
  | _, _ => s

def readText (store : Store) (path : Path) : Except FileError Bytes :=
  match store.read path with
  | .ok content => if Utf8.isValid content then .ok content else .error .notText
  | .error e => .error e

def readWith (ofRoot : Toml.Table → Except SettingsError Settings) (store : Store) (path : Path) :
    Except SettingsError Settings := do
  let text ← (readText store path).mapError (.read path)
  return (← ofRoot (← parse text)).resolveOutDir path

/-- The settings in a file of their own. -/
def ofFile (store : Store) (path : Path) : Except SettingsError Settings :=
  readWith ofRoot store path

def ofManifest (store : Store) (path : Path) : Except SettingsError Settings :=
  readWith ofManifestRoot store path

end Settings
end PassCompiler
