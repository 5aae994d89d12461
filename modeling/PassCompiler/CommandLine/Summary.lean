import PassCompiler.Emission.Parameters
import PassCompiler.Pass.Basic

/-! The passes of a graph source, laid out for a reader: the name of each pass, underlined, and a
row for each of its parts. -/
namespace PassCompiler.Summary

def indent : Nat := 2

/-- A label with its colon takes at least this much. -/
def labelWidth : Nat := 16

/-- An underline is as long as its title, but not shorter than this. -/
def titleWidth : Nat := indent + labelWidth + 24

def title (name : Bytes) : Bytes :=
  [0x0A] ++ name ++ [0x0A] ++ List.replicate (max name.length titleWidth) 0x3D ++ [0x0A]

def row (label value : Bytes) : Bytes :=
  let label := label ++ bytes ":"
  List.replicate indent 0x20 ++ label ++ List.replicate (labelWidth - label.length) 0x20 ++
    bytes " " ++ value ++ [0x0A]

/-- A row for each clause that has arguments. -/
def clauseRows (p : Pass) : Bytes :=
  Clause.all.flatMap fun clause =>
    let args := p.clauses.get clause
    if args.isEmpty then [] else row clause.keyword (Bytes.join (bytes ", ") args)

def blockRow (block : FixedBlock) (index : Nat) : Bytes :=
  row (bytes "Fixed " ++ Bytes.ofNat index)
    (bytes "render pass \x60" ++ block.renderPass.declaration ++ bytes "\x60, subpass \x60" ++
      block.subpass.declaration ++ bytes "\x60, " ++
      Bytes.ofNat (block.interior.stop - block.interior.start) ++ bytes " bytes")

def bakeRows (p : Pass) : Bytes :=
  if p.fixedBlocks.isEmpty then []
  else
    row (bytes "Bake") (Pass.bakeName p.name) ++
      (p.fixedBlocks.mapIdx fun index block => blockRow block index).flatten

def ofPass (p : Pass) : Bytes :=
  title p.name ++ row (bytes "Execute") (Pass.executeName p.name) ++ clauseRows p ++ bakeRows p

def ofGraph (path : Bytes) (g : Graph) : Bytes :=
  if g.passes.isEmpty then path ++ bytes ": no passes\n" else g.passes.flatMap ofPass

end PassCompiler.Summary
