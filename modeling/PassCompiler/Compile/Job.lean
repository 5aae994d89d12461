import PassCompiler.Compile.Error
import PassCompiler.Files.Action
import PassCompiler.Preprocess

/-! A compilation, from loading a source to writing its output. A source is compiled at most once:
whatever comes of it, it has to be loaded again. The output is written only when all of it is
there, and an output that is up to date is left alone. If the medium takes no more, the part of the
output that it took stays. -/
namespace PassCompiler

inductive Stage where
  | unloaded
  | loaded
  | preprocessed
  | written
  | failed
  deriving DecidableEq, Repr

structure Job where
  options : Options := {}
  stage : Stage := .unloaded
  /-- The path of the last load, successful or not. -/
  sourcePath : Option Path := none
  /-- The source, from a successful load to the next compilation. -/
  source : Option Bytes := none
  deriving DecidableEq, Repr

def outputSuffix : Bytes := bytes "__processed.hpp"

/-- Where the output of a source goes: into `dir`, or beside the source. -/
def outputPath (source : Path) (dir : Option Path) : Except CompileError Path :=
  match source.stem? with
  | none => .error (.noFileStem source)
  | some stem => .ok ((dir.getD (source.parent?.getD [])).join (stem ++ outputSuffix))

/-- Whether the first line of an existing output is `banner`. What follows it does not matter. -/
def isCurrent (store : Store) (path : Path) (banner : Bytes) : Bool :=
  match store.read path with
  | .ok content => Utf8.isValid content && Bytes.firstLine? content == some banner
  | .error _ => false

/-- Makes the directories that lead to a file. -/
def makeParents (path : Path) (store : Store) : Except FileError Unit × Store :=
  match path.parent? with
  | some dir => store.makeDirectories dir
  | none => (.ok (), store)

/-- Writes an output and makes the directories that lead to it. Its file is opened first, and is
empty then. -/
def writeOutput (path : Path) (output : Bytes) (overwrite : Bool) : Action CompileError Unit := do
  Action.change (.write path) (makeParents path)
  let meaning (e : FileError) : CompileError :=
    if e = .alreadyExists then .outputExists path else .write path e
  Action.change meaning fun store =>
    match store.write path [] overwrite with
    | .ok opened => (.ok (), opened)
    | .error e => (.error e, store)
  Action.change (.write path) fun opened => opened.append path output

/-- An output that is ready to be written. -/
structure Output where
  path : Path
  banner : Bytes
  text : Bytes

namespace Job

/-- Reads the source at `path`. It replaces the one that was loaded before. -/
def load (job : Job) (path : Path) (store : Store) : Job × Logged CompileError Unit :=
  let job := { job with sourcePath := some path, source := none }
  match store.read path with
  | .error e => ({ job with stage := .failed }, .fail (.read path e))
  | .ok content =>
    if Utf8.isValid content then
      ({ job with stage := .loaded, source := some content },
        .note (.debug (bytes "loaded " ++ Quoted.quote path ++ bytes ", " ++
          Bytes.ofNat content.length ++ bytes " bytes")))
    else ({ job with stage := .failed }, .fail (.notUtf8 path))

def output (job : Job) (frames : Nat) (dir : Option Path) : Logged CompileError Output :=
  match job.source, job.sourcePath with
  | some source, some sourcePath => do
    let frames ← .ofOption .noFramesInFlight (Frames.ofNat? frames)
    let path ← .ofExcept (outputPath sourcePath dir)
    let text ← (preprocess source frames job.options).mapError .parse
    pure ⟨path, Banner.line source frames job.options, text⟩
  | _, _ => .fail .notLoaded

/-- Writes an output, unless it is up to date. -/
def deliver (job : Job) (output : Output) : Action CompileError Path := do
  if isCurrent (← Action.look) output.path output.banner then
    Action.note (.info (Quoted.quote output.path ++ bytes " is up to date"))
  else
    writeOutput output.path output.text job.options.overwrite
    Action.note (.info (bytes "wrote " ++ Quoted.quote output.path))
  pure output.path

def Stage.behind {ε α : Type} : Except ε α → Stage
  | .ok _ => .written
  | .error _ => .failed

/-- Compiles the loaded source into `dir`, or beside the source. The result is the path of the
output. -/
def compile (job : Job) (frames : Nat) (dir : Option Path) (store : Store) :
    Job × Outcome CompileError Path :=
  let taken := { job with source := none }
  let ready := job.output frames dir
  match ready.result with
  | .error e => ({ taken with stage := .failed }, ⟨.error e, store, ready.log⟩)
  | .ok output =>
    let preprocessed := { taken with stage := .preprocessed }
    let outcome := preprocessed.deliver output store
    ({ preprocessed with stage := Stage.behind outcome.result },
      { outcome with log := ready.log ++ outcome.log })

end Job
end PassCompiler
