import PassCompiler.Files.Path
import PassCompiler.Options

/-! The arguments of the command line. A word that begins with a dash gives an option, either the
one named behind two dashes or the one of the letter behind a single dash, and a lone dash is a
plain word. Behind the word `--` every word is plain. -/
namespace PassCompiler.CommandLine

inductive OptionName where
  | frames
  | outDir
  | config
  deriving DecidableEq, Repr

namespace OptionName

def all : List OptionName := [frames, outDir, config]

def word : OptionName → Bytes
  | frames => bytes "frames"
  | outDir => bytes "out-dir"
  | config => bytes "config"

def letter : OptionName → UInt8
  | frames => 0x66
  | outDir => 0x6F
  | config => 0x63

end OptionName

/-- What one or two words give. -/
inductive Argument where
  | plain (word : Bytes)
  | option (name : OptionName) (value : Bytes)
  deriving DecidableEq, Repr

/-- Whether a word gives no option. -/
def isPlain (word : Bytes) : Bool := word == bytes "-" || word.head? != some 0x2D

/-- The allowed option that a word gives, and the value if the word holds it. -/
def option? (allowed : List OptionName) : Bytes → Option (OptionName × Option Bytes)
  | 0x2D :: 0x2D :: rest =>
    let word := rest.takeWhile (· != 0x3D)
    (allowed.find? (·.word == word)).map fun name => (name, (rest.drop word.length).tail?)
  | 0x2D :: letter :: rest =>
    (allowed.find? (·.letter == letter)).map fun name =>
      (name, match rest with
        | [] => none
        | 0x3D :: value => some value
        | value => some value)
  | _ => none

/-- The arguments that words give. A value in a word of its own is a plain word. -/
def arguments? (allowed : List OptionName) : List Bytes → Option (List Argument)
  | [] => some []
  | word :: rest =>
    if word = bytes "--" then some (rest.map .plain)
    else if isPlain word then (arguments? allowed rest).map (.plain word :: ·)
    else
      match option? allowed word, rest with
      | some (name, some value), rest => (arguments? allowed rest).map (.option name value :: ·)
      | some (name, none), value :: rest =>
        if isPlain value then (arguments? allowed rest).map (.option name value :: ·) else none
      | _, _ => none

/-- A number of frames: digits, behind a plus or not. -/
def frames? (text : Bytes) : Option Frames :=
  let digits := if text.head? = some 0x2B then text.tail else text
  if digits.isEmpty || !digits.all Bytes.isDigit then none
  else Frames.ofNat? (digits.foldl (fun n d => n * 10 + (d - 0x30).toNat) 0)

def path? (text : Bytes) : Option Path := if text.isEmpty then none else some text

/-- A value that may be missing, but has to be right where it is given. -/
def given? {α : Type} (read : Bytes → Option α) : Option Bytes → Option (Option α)
  | none => some none
  | some text => (read text).map some

/-- What a run has to do. -/
inductive Command where
  /-- Write the output of a source. -/
  | compile (source : Path) (frames : Option Frames) (outDir config : Option Path)
  /-- Show the passes of a source. -/
  | check (source : Path)
  deriving DecidableEq, Repr

namespace Command

def plains (args : List Argument) : List Bytes :=
  args.filterMap fun
    | .plain word => some word
    | .option _ _ => none

/-- The values of an option, one for every time it is given. -/
def values (name : OptionName) (args : List Argument) : List Bytes :=
  args.filterMap fun
    | .option n value => if n = name then some value else none
    | .plain _ => none

/-- The value of an option that is given at most once. -/
def value? (name : OptionName) (args : List Argument) : Option (Option Bytes) :=
  match values name args with
  | [] => some none
  | [value] => some (some value)
  | _ => none

/-- The source, which is the only plain word. -/
def source? (args : List Argument) : Option Path :=
  match plains args with
  | [word] => path? word
  | _ => none

def ofWords? (words : List Bytes) : Option Command :=
  match words with
  | [] => none
  | name :: rest =>
    if name = bytes "compile" then do
      let args ← arguments? OptionName.all rest
      let frames ← given? frames? (← value? .frames args)
      let outDir ← given? path? (← value? .outDir args)
      let config ← given? path? (← value? .config args)
      return .compile (← source? args) frames outDir config
    else if name = bytes "check" then do
      return .check (← source? (← arguments? [] rest))
    else none

end Command
end PassCompiler.CommandLine
