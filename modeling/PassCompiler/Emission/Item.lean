import PassCompiler.Text.Bytes

/-! Output as a list of items. A writer turns the items into text; it knows how deep the current
line is nested and whether anything stands on it yet. -/
namespace PassCompiler.Emission

inductive Item where
  /-- A line, indented by one tab for each level. -/
  | line (text : Bytes)
  /-- A line behind which the output is one level deeper. -/
  | opening (text : Bytes)
  /-- A line that ends a level. -/
  | closing (text : Bytes)
  /-- Generated text, as it is. -/
  | generated (text : Bytes)
  /-- Text of the source, as it is. -/
  | source (text : Bytes)
  /-- Ends the current line, unless nothing stands on it. -/
  | lineEnd
  deriving DecidableEq, Repr

structure Writer where
  depth : Nat
  atLineStart : Bool
  deriving DecidableEq, Repr

namespace Writer

def initial : Writer := ⟨0, true⟩

def indented (w : Writer) (text : Bytes) : Bytes :=
  List.replicate w.depth 0x09 ++ text ++ [0x0A]

/-- Whether nothing stands on the line behind `text`. -/
def lineStartBehind (w : Writer) (text : Bytes) : Bool :=
  match text.getLast? with
  | none => w.atLineStart
  | some b => b == 0x0A

/-- The text of an item, and the writer behind it. -/
def write (w : Writer) : Item → Bytes × Writer
  | .line text => (w.indented text, { w with atLineStart := true })
  | .opening text => (w.indented text, ⟨w.depth + 1, true⟩)
  | .closing text => ({ w with depth := w.depth - 1 }.indented text, ⟨w.depth - 1, true⟩)
  | .generated text | .source text => (text, { w with atLineStart := w.lineStartBehind text })
  | .lineEnd => (if w.atLineStart then [] else [0x0A], { w with atLineStart := true })

/-- The texts of the items, one each. -/
def texts (w : Writer) : List Item → List Bytes
  | [] => []
  | item :: rest => (w.write item).1 :: (w.write item).2.texts rest

def behind (w : Writer) (items : List Item) : Writer := items.foldl (fun w i => (w.write i).2) w

end Writer

def text (items : List Item) : Bytes := (Writer.initial.texts items).flatten

end PassCompiler.Emission
