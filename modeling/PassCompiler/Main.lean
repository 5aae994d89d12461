import PassCompiler.CommandLine.Run
import PassCompiler.Text.Utf8

/-! The program. What a run may touch is taken from the system into a store, the run works on the
store, and what it changed is given back to the system. -/
namespace PassCompiler.CommandLine

/-- What a command reads before its settings are known. -/
def Command.inputs : Command → List Path
  | .compile source _ _ config => [source, config.getD (source.sibling settingsName)]
  | .check source => [source]

/-- The output of a command whose inputs are in the store. -/
def Command.target? (store : Store) : Command → Option Path
  | .compile source _ outDir config =>
    match settingsFor store source config with
    | .ok settings => (outputPath source (outDir.or settings.outDir)).toOption
    | .error _ => none
  | .check _ => none

/-- The locations on the way from `l` along segments. -/
def passed (l : Location) : List Bytes → List Location
  | [] => [l]
  | segment :: rest =>
    let next :=
      if Path.isIdle segment then l
      else if segment == [0x2E, 0x2E] then l.dropLast
      else l ++ [segment]
    l :: passed next rest

def systemPath (l : Location) : String := String.ofList (Utf8.chars (0x2F :: Path.ofSegments l))

/-- Takes what the system has at a location. What is there and cannot be read is a directory. -/
def capture (store : Store) (l : Location) : IO Store := do
  if (store.get? l).isSome then return store
  try
    let content ← IO.FS.readBinFile (systemPath l)
    return store.set l (.file content.data.toList)
  catch _ =>
    try
      discard (IO.FS.realPath (systemPath l))
      return store.set l .directory
    catch _ => return store

/-- Takes what the system has on the way of a path. -/
def capturePath (store : Store) (p : Path) : IO Store :=
  match store.origin p with
  | .ok l => (passed l (Path.segments p)).foldlM capture store
  | .error _ => return store

def commit (before after : Store) : IO Unit :=
  for (l, node) in after.entries.reverse do
    if before.get? l ≠ some node then
      match node with
      | .directory => IO.FS.createDir (systemPath l)
      | .file content => IO.FS.writeBinFile (systemPath l) ⟨content.toArray⟩

end PassCompiler.CommandLine

open PassCompiler CommandLine in
def main (args : List String) : IO UInt32 := do
  let words := args.map bytes
  let current := bytes (toString (← IO.currentDir))
  let mut store := Store.startingAt ((Path.segments current).filter (!Path.isIdle ·))
  if let some command := Command.ofWords? words then
    store ← command.inputs.foldlM capturePath store
    if let some target := command.target? store then
      store ← capturePath store target
  let report := run words store
  commit store report.store
  (← IO.getStdout).write ⟨report.output.toArray⟩
  (← IO.getStderr).write ⟨report.errors.toArray⟩
  return report.exit.toUInt32
