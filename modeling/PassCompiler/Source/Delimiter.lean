import PassCompiler.Source.Comment

/-! Parentheses and braces. A group ends at the closer that brings its depth to zero; only
delimiters of the kind that opened it count, and only in code. -/
namespace PassCompiler.Source

inductive Delimiter where
  | paren
  | brace
  deriving DecidableEq, Repr

namespace Delimiter

def opener : Delimiter → UInt8
  | paren => 0x28
  | brace => 0x7B

def closer : Delimiter → UInt8
  | paren => 0x29
  | brace => 0x7D

def opening? (b : UInt8) : Option Delimiter :=
  if b == 0x28 then some paren else if b == 0x7B then some brace else none

end Delimiter

/-- An open group and how many of its openers wait for their closers. -/
structure Group where
  kind : Delimiter
  depth : Nat
  deriving DecidableEq, Repr

namespace Group

def step (g : Group) (m : Mark) : Option Group :=
  if m.isCodeByte g.kind.opener then some { g with depth := g.depth + 1 }
  else if m.isCodeByte g.kind.closer then
    if g.depth ≤ 1 then none else some { g with depth := g.depth - 1 }
  else some g

/-- The closer of a group in a scan that starts inside it, and the marks behind the closer. -/
def close? (g : Group) : List Mark → Option (Mark × List Mark)
  | [] => none
  | m :: rest =>
    match g.step m with
    | none => some (m, rest)
    | some g' => g'.close? rest

theorem append_of_close? {g : Group} {marks behind : List Mark} {closer : Mark}
    (h : g.close? marks = some (closer, behind)) :
    ∃ inside, marks = inside ++ closer :: behind := by
  induction marks generalizing g with
  | nil => simp [close?] at h
  | cons m rest ih =>
    unfold close? at h
    split at h
    · obtain ⟨rfl, rfl⟩ := Prod.mk.inj (Option.some.inj h)
      exact ⟨[], rfl⟩
    · obtain ⟨inside, rfl⟩ := ih h
      exact ⟨m :: inside, rfl⟩

theorem length_lt_of_close? {g : Group} {marks behind : List Mark} {closer : Mark}
    (h : g.close? marks = some (closer, behind)) : behind.length < marks.length := by
  obtain ⟨inside, rfl⟩ := append_of_close? h
  simp only [List.length_append, List.length_cons]
  omega

end Group

/-- The offset of the closer that matches the opener at `start`; `none` if no opener is there or
the text ends first. -/
def matchingClose (text : Bytes) (start : Nat) : Option Nat :=
  match scan text start with
  | [] => none
  | m :: rest =>
    match Delimiter.opening? m.byte with
    | none => none
    | some kind => (Group.close? ⟨kind, 1⟩ rest).map (·.1.offset)

/-- The first structural byte in `[start, stop)` that is no blank. -/
def nextCode (text : Bytes) (start stop : Nat) : Option Mark :=
  (scan (text.take stop) start).find? fun m => m.isCode && !Bytes.isBlank m.byte

end PassCompiler.Source
