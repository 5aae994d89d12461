import PassCompiler.CommandLine.Arguments
import PassCompiler.CommandLine.Failure
import PassCompiler.CommandLine.Summary
import PassCompiler.Compile.Job

/-! What a run of the command line does. What its arguments give counts first, then what the
settings file gives, then the standard. A path is shown as text, repaired where it is none. -/
namespace PassCompiler.CommandLine

def settingsName : Bytes := bytes "rgc.toml"

/-- The name of a manifest. Any other file holds settings only. -/
def manifestName : Bytes := bytes "Cargo.toml"

def settingsFor (store : Store) (source : Path) (config : Option Path) :
    Except SettingsError Settings :=
  match config with
  | some path =>
    if path.fileName? = some manifestName then Settings.ofManifest store path
    else Settings.ofFile store path
  | none =>
    let beside := source.sibling settingsName
    if store.isFile beside then Settings.ofFile store beside else .ok {}

/-- Writes the output of a source. The result is its path. -/
def compile (source : Path) (frames : Option Frames) (outDir config : Option Path) (store : Store) :
    Except Failure Path × Store :=
  match settingsFor store source config with
  | .error e => (.error (.settings e), store)
  | .ok settings =>
    let frames := (frames.or settings.frames).getD Frames.standard
    let (job, loaded) := Job.load { options := settings.options } source store
    match loaded.result with
    | .error e => (.error (.graph e), store)
    | .ok () =>
      let outcome := (job.compile frames.count (outDir.or settings.outDir) store).2
      (outcome.result.mapError .graph, outcome.store)

def check (source : Path) (store : Store) : Except Failure Bytes :=
  match Settings.readText store source with
  | .error e => .error (.graph (.read source e))
  | .ok text =>
    match (Graph.parse text).result with
    | .error fault => .error (.graph (.parse fault))
    | .ok graph => .ok (Summary.ofGraph (Utf8.repair source) graph)

/-- What a run leaves behind. -/
structure Report where
  exit : Nat
  output : Bytes := []
  errors : Bytes := []
  store : Store

namespace Report

def ofResult (result : Except Failure Bytes) (store : Store) : Report :=
  match result with
  | .ok output => { exit := 0, output := output, store := store }
  | .error failure => { exit := 1, errors := failure.line, store := store }

end Report

def usage : Bytes :=
  bytes "Usage: rgc compile [-f FRAMES] [-o DIRECTORY] [-c SETTINGS] SOURCE\n" ++
    bytes "       rgc check SOURCE\n"

def Command.run (command : Command) (store : Store) : Report :=
  match command with
  | .compile source frames outDir config =>
    let (result, store) := CommandLine.compile source frames outDir config store
    .ofResult (result.map (Utf8.repair · ++ bytes "\n")) store
  | .check source => .ofResult (CommandLine.check source store) store

/-- Runs the command that words give. -/
def run (words : List Bytes) (store : Store) : Report :=
  match Command.ofWords? words with
  | some command => command.run store
  | none => { exit := 2, errors := usage, store := store }

end PassCompiler.CommandLine
