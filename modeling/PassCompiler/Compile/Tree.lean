import PassCompiler.Compile.Job
import PassCompiler.Settings

/-! Compiling a tree of sources into a tree of the same shape. Directories are read in the order
of the names in them, so the outputs come in the same order every time. Outputs may lie inside the
tree of sources. -/
namespace PassCompiler.Tree

/-- What all sources of a tree share. -/
structure Plan where
  /-- Where the outputs go. -/
  destination : Path
  frames : Nat
  options : Options := {}
  /-- The extensions of sources. -/
  extensions : List Bytes := [bytes "hpp"]

/-- What a build is told before the sources are read. -/
def notice (root : Path) : Bytes := bytes "cargo:rerun-if-changed=" ++ root ++ [0x0A]

namespace Plan

/-- Whether the name of a file is that of a source. Outputs are none, as far as their names are
text. -/
def admits (p : Plan) (path : Path) : Bool :=
  path.extension?.any p.extensions.contains &&
    !path.fileName?.any fun name => Utf8.isValid name && outputSuffix.isSuffixOf name

/-- A text with a pass in it. Other sources are plain parts of these. -/
def hasPass (store : Store) (path : Path) : Bool :=
  match Settings.readText store path with
  | .ok text => Bytes.includes Keyword.passBegin text
  | .error _ => false

/-- Compiles the file at `path` into the directory `dir`, if it is a source with a pass. -/
def compileFile (p : Plan) (dir : Path) (path : Path) : Action CompileError (List Path) := do
  if p.admits path && hasPass (← Action.look) path then
    let (job, loaded) := Job.load { options := p.options } path (← Action.look)
    Action.ofLogged loaded
    let output ← fun store => (job.compile p.frames (some dir) store).2
    pure [output]
  else pure []

/-- Compiles what is below the directory `dir`, which `relative` leads to from the root of the
tree, down to a depth of `levels`. -/
def compileBelow (p : Plan) : (levels : Nat) → (dir : Path) → (relative : List Bytes) →
    Action CompileError (List Path)
  | 0, _, _ => pure []
  | levels + 1, dir, relative => do
    let names ← Action.ofExcept (((← Action.look).list dir).mapError .listing)
    let outputs ← names.mapM fun name => do
      let path := dir.join name
      if (← Action.look).isDirectory path then
        p.compileBelow levels path (relative ++ [name])
      else p.compileFile (p.destination.join (Path.ofSegments relative)) path
    pure outputs.flatten

/-- As deep as a path can lead: each level takes a name and so makes the path longer. -/
def maxLevels : Nat := Store.maxPath + 1

/-- Compiles the sources below `root`. The result lists the outputs. -/
def compile (p : Plan) (root : Path) : Action CompileError (List Path) := do
  let store ← Action.look
  if store.exists? root then p.compileBelow maxLevels root [] else pure []

end Plan
end PassCompiler.Tree
