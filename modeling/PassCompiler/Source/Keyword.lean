import PassCompiler.Source.Comment

/-! Keywords in code. A search looks at the keyword's surroundings too: the byte behind an
occurrence is never an identifier byte, and the byte before it fits a `Boundary`. -/
namespace PassCompiler.Source

/-- What may stand before a keyword, unless the search starts with it. -/
inductive Boundary where
  /-- A blank: `MY_PASS_END`, `x.PASS_END` and `}PASS_END` are no terminators. -/
  | terminator
  /-- Anything but an identifier byte. -/
  | word
  deriving DecidableEq, Repr

namespace Boundary

def before (boundary : Boundary) (b : UInt8) : Bool :=
  match boundary with
  | terminator => Bytes.isBlank b
  | word => !Bytes.isIdent b

/-- Whether the surroundings of `span` in `text` fit a search that began at `start`. The byte
behind the span counts even if the search ends before it. -/
def accepts (boundary : Boundary) (text : Bytes) (start : Nat) (span : Span) : Bool :=
  (span.start == start || (text[span.start - 1]?).any boundary.before) &&
    !(text[span.stop]?).any Bytes.isIdent

end Boundary

def spells : Bytes → List Mark → Bool
  | [], _ => true
  | _ :: _, [] => false
  | b :: keyword, m :: rest => m.byte == b && spells keyword rest

def spelled (keyword : Bytes) : List Mark → List Mark
  | [] => []
  | m :: rest =>
    if spells keyword (m :: rest) then m :: spelled keyword rest else spelled keyword rest

inductive Sighting where
  | found (span : Span)
  /-- Nothing in code, but an occurrence inside a comment. -/
  | commented (span : Span)
  | absent
  deriving DecidableEq, Repr

/-- The first occurrence in code that fits its surroundings, else the first one in a comment. -/
def find (text : Bytes) (range : Span) (keyword : Bytes) (boundary : Boundary) : Sighting :=
  let marks := spelled keyword (scan (text.take range.stop) range.start)
  let span (m : Mark) : Span := ⟨m.offset, m.offset + keyword.length⟩
  let fits (m : Mark) : Bool := boundary.accepts text range.start (span m)
  match marks.find? fun m => m.isCode && fits m with
  | some m => .found (span m)
  | none =>
    match marks.find? fits with
    | some m => .commented (span m)
    | none => .absent

inductive NearMiss where
  /-- It only stands inside a comment. -/
  | commented (span : Span)
  /-- It follows code without a blank in between. -/
  | glued (span : Span)
  deriving DecidableEq, Repr

/-- The first terminator in `range`, or the closest thing to one: a glued keyword before a
commented one. -/
def findTerminator (text : Bytes) (range : Span) (keyword : Bytes) :
    Except (Option NearMiss) Span :=
  let sighting := find text range keyword .terminator
  match sighting with
  | .found span => .ok span
  | .commented _ | .absent =>
    match find text range keyword .word with
    | .found span => .error (some (.glued span))
    | .commented _ | .absent =>
      match sighting with
      | .commented span => .error (some (.commented span))
      | _ => .error none

theorem mem_of_mem_spelled {keyword : Bytes} {marks : List Mark} {m : Mark}
    (h : m ∈ spelled keyword marks) : m ∈ marks := by
  induction marks with
  | nil => simp [spelled] at h
  | cons a rest ih =>
    unfold spelled at h
    split at h
    · rcases List.mem_cons.mp h with rfl | h
      · simp
      · exact List.mem_cons_of_mem _ (ih h)
    · exact List.mem_cons_of_mem _ (ih h)

end PassCompiler.Source
