import PassCompiler.Files.Store
import PassCompiler.Pass.Fault

/-! What can go wrong on the way from a source to its output file. -/
namespace PassCompiler

inductive CompileError where
  | notLoaded
  | noFramesInFlight
  | read (path : Path) (e : FileError)
  | write (path : Path) (e : FileError)
  | notUtf8 (path : Path)
  | noFileStem (path : Path)
  | outputExists (path : Path)
  /-- A directory could not be listed. -/
  | listing (e : FileError)
  | parse (fault : Fault)
  deriving DecidableEq, Repr

def CompileError.message : CompileError → Bytes
  | notLoaded => bytes "render graph source is not loaded, call load_from_file first"
  | noFramesInFlight => bytes "frames in flight must be at least 1"
  | read path e => bytes "read failed for " ++ Quoted.quote path ++ bytes ": " ++ e.message
  | write path e => bytes "write failed for " ++ Quoted.quote path ++ bytes ": " ++ e.message
  | notUtf8 path => Quoted.quote path ++ bytes " is not UTF-8 text"
  | noFileStem path => Quoted.quote path ++ bytes " has no file stem to name the output after"
  | outputExists path => bytes "output " ++ Quoted.quote path ++ bytes " already exists"
  | listing e => bytes "I/O: " ++ e.message
  | parse fault => bytes "parse failed: " ++ fault.message

end PassCompiler
