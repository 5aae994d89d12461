import PassCompiler.Pass.Declaration
import PassCompiler.Pass.Clause

/-! Passes and graph sources as they are read. -/
namespace PassCompiler

/-- A `FIXED_BEGIN(render pass, subpass) … FIXED_END` block. Offsets count from the start of the
body it stands in. -/
structure FixedBlock where
  /-- From `FIXED_BEGIN` through `FIXED_END`. -/
  span : Span
  /-- From behind the arguments to `FIXED_END`. -/
  interior : Span
  renderPass : FixedArg
  subpass : FixedArg
  deriving DecidableEq, Repr

/-- The argument list of each clause, empty where the header has no such clause. -/
structure Clauses where
  read : List Bytes := []
  write : List Bytes := []
  readWrite : List Bytes := []
  input : List Bytes := []
  deriving DecidableEq, Repr

namespace Clauses

def get (cs : Clauses) : Clause → List Bytes
  | .read => cs.read
  | .write => cs.write
  | .readWrite => cs.readWrite
  | .input => cs.input

def set (cs : Clauses) (clause : Clause) (args : List Bytes) : Clauses :=
  match clause with
  | .read => { cs with read := args }
  | .write => { cs with write := args }
  | .readWrite => { cs with readWrite := args }
  | .input => { cs with input := args }

@[simp] theorem get_set_self (cs : Clauses) (c : Clause) (args : List Bytes) :
    (cs.set c args).get c = args := by
  cases c <;> rfl

@[simp] theorem get_set_of_ne (cs : Clauses) {c d : Clause} (h : c ≠ d) (args : List Bytes) :
    (cs.set c args).get d = cs.get d := by
  cases c <;> cases d <;> first | rfl | exact absurd rfl h

theorem eq_of_get {cs cs' : Clauses} (h : ∀ c, cs.get c = cs'.get c) : cs = cs' := by
  obtain ⟨_, _, _, _⟩ := cs
  obtain ⟨_, _, _, _⟩ := cs'
  exact Clauses.mk.injEq .. ▸ ⟨h .read, h .write, h .readWrite, h .input⟩

end Clauses

structure Pass where
  name : Bytes
  clauses : Clauses
  /-- In increasing order, and disjoint. -/
  fixedBlocks : List FixedBlock
  /-- What stands between the braces. -/
  body : Bytes
  /-- The source behind the pass, up to the next pass or the end. -/
  epilogue : Bytes
  deriving DecidableEq, Repr

def Pass.interior (p : Pass) (block : FixedBlock) : Bytes := Bytes.slice p.body block.interior

structure Graph where
  /-- The source before the first pass. -/
  prelude : Bytes
  passes : List Pass
  deriving DecidableEq, Repr

/-- Identifier bytes, the first of them no digit. -/
def Pass.isName (text : Bytes) : Bool :=
  text.head?.any (fun b => !Bytes.isDigit b) && text.all Bytes.isIdent

end PassCompiler
