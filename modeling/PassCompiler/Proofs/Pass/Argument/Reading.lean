import Mathlib.Data.List.Forall2
import PassCompiler.Proofs.Source.Alike
import PassCompiler.Pass.Argument

/-! Readings of argument lists, a mark at a time. A reading says what is written for the marks
ahead: the rest of the argument it is in, and the arguments behind the commas ahead. This is a
proof interface to `pieces`, `runs` and `marksAfter`, not another reader. -/
namespace PassCompiler.Argument

open Source

def opens (m : Mark) : Option Group := (Delimiter.opening? m.byte).map (⟨·, 1⟩)

theorem opens_congr {strict : Prop} {m n : Mark} (h : m.Alike strict n) (code : m.isCode = true) :
    opens n = opens m := by
  rw [opens, h.byte (.inr code), opens]

def spaced (last : Option Mark) : Bool := last.any fun m => !Bytes.isBlank m.byte

inductive Reading : Option Group → Option Mark → List Mark → List Mark → List (List Mark) → Prop
  | done {last} : Reading none last [] [] []
  | inside {g : Group} {last m marks r rs} : Reading (g.step m) (some m) marks r rs →
      Reading (some g) last (m :: marks) (m :: r) rs
  | kept {last m marks r rs} : m.isCode = true → m.byte ≠ 0x2C →
      Reading (opens m) (some m) marks r rs → Reading none last (m :: marks) (m :: r) rs
  | comma {last m marks r rs} : m.isCode = true → m.byte = 0x2C →
      Reading none none marks r rs → Reading none last (m :: marks) [] (r :: rs)
  | space {last m marks r rs} : m.isCode = false → spaced last = true →
      Reading none (some Argument.space) marks r rs →
      Reading none last (m :: marks) (Argument.space :: r) rs
  | gap {last m marks r rs} : m.isCode = false → spaced last = false →
      Reading none last marks r rs → Reading none last (m :: marks) r rs

variable {g : Option Group} {last : Option Mark} {marks r : List Mark} {rs : List (List Mark)}

theorem exists_runs (ps : List Piece) : ∃ run more, runs ps = run :: more := by
  cases ps with
  | nil => exact ⟨_, _, rfl⟩
  | cons p ps =>
    cases p with
    | comma => exact ⟨_, _, rfl⟩
    | kept m =>
      rw [runs]
      cases runs ps <;> exact ⟨_, _, rfl⟩
    | gap =>
      rw [runs]
      cases runs ps <;> exact ⟨_, _, rfl⟩

theorem exists_of_map_ok {ε α β : Type} {f : α → β} {x : Except ε α} {b : β}
    (h : x.map f = .ok b) : ∃ a, x = .ok a ∧ f a = b := by
  cases x with
  | error e => contradiction
  | ok a => exact ⟨a, rfl, Except.ok.inj h⟩

theorem group_of_open (offset : Nat) (g : Option Group) :
    (g.map (OpenGroup.mk offset)).map (·.group) = g := by
  cases g <;> rfl

theorem reading_of_pieces {og : Option OpenGroup} {ps : List Piece} {run : Run} {more : List Run}
    (h : pieces og marks = .ok ps) (split : runs ps = run :: more) :
    Reading (og.map (·.group)) last marks (marksAfter last run) (more.map (marksAfter none)) := by
  induction marks generalizing og ps last run more with
  | nil =>
    cases og with
    | some o => contradiction
    | none =>
      obtain rfl := Except.ok.inj h
      obtain ⟨rfl, rfl⟩ := List.cons.inj split
      exact .done
  | cons m marks ih =>
    cases og with
    | some o =>
      obtain ⟨qs, read, rfl⟩ := exists_of_map_ok h
      obtain ⟨run', more', split'⟩ := exists_runs qs
      rw [runs, split'] at split
      obtain ⟨rfl, rfl⟩ := List.cons.inj split
      have later := @ih (some m) _ _ _ _ read split'
      rw [group_of_open o.offset] at later
      exact .inside later
    | none =>
      rw [pieces] at h
      split at h
      · next comment =>
        obtain ⟨qs, read, rfl⟩ := exists_of_map_ok h
        obtain ⟨run', more', split'⟩ := exists_runs qs
        rw [runs, split'] at split
        obtain ⟨rfl, rfl⟩ := List.cons.inj split
        have comment : m.isCode = false := by simpa using comment
        rw [marksAfter]
        split
        · next shown => exact .space comment shown (ih read split')
        · next hidden => exact .gap comment (by simpa [spaced] using hidden) (ih read split')
      · next code =>
        have code : m.isCode = true := by simpa using code
        split at h
        · next comma =>
          obtain ⟨qs, read, rfl⟩ := exists_of_map_ok h
          obtain ⟨run', more', split'⟩ := exists_runs qs
          obtain ⟨rfl, rfl⟩ := List.cons.inj split
          rw [split']
          exact .comma code (by simpa using comma) (ih read split')
        · next other =>
          obtain ⟨qs, read, rfl⟩ := exists_of_map_ok h
          obtain ⟨run', more', split'⟩ := exists_runs qs
          rw [runs, split'] at split
          obtain ⟨rfl, rfl⟩ := List.cons.inj split
          have later := @ih (some m) _ _ _ _ read split'
          rw [Option.map_map] at later
          exact .kept code (by simpa using other) later

theorem pieces_of_reading (h : Reading g last marks r rs) {og : Option OpenGroup}
    (same : og.map (·.group) = g) :
    ∃ ps run more, pieces og marks = .ok ps ∧ runs ps = run :: more ∧ marksAfter last run = r ∧
      more.map (marksAfter none) = rs := by
  induction h generalizing og with
  | done =>
    obtain rfl := Option.map_eq_none_iff.mp same
    exact ⟨[], [], [], rfl, rfl, rfl, rfl⟩
  | @inside g last m marks r rs _ ih =>
    obtain ⟨o, rfl, rfl⟩ := Option.map_eq_some_iff.mp same
    obtain ⟨ps, run, more, read, split, rfl, rfl⟩ := ih (group_of_open o.offset _)
    refine ⟨.kept m :: ps, some m :: run, more, ?_, ?_, rfl, rfl⟩
    · rw [pieces, read]
      rfl
    · rw [runs, split]
      rfl
  | @kept last m marks r rs code other _ ih =>
    obtain rfl := Option.map_eq_none_iff.mp same
    obtain ⟨ps, run, more, read, split, rfl, rfl⟩ :=
      @ih ((Delimiter.opening? m.byte).map (⟨m.offset, ⟨·, 1⟩⟩)) (by rw [Option.map_map]; rfl)
    refine ⟨.kept m :: ps, some m :: run, more, ?_, ?_, rfl, rfl⟩
    · simp [pieces, code, other, read, Except.map]
    · rw [runs, split]
      rfl
  | @comma last m marks r rs code comma _ ih =>
    obtain rfl := Option.map_eq_none_iff.mp same
    obtain ⟨ps, run, more, read, split, rfl, rfl⟩ := @ih none rfl
    refine ⟨.comma :: ps, [], run :: more, ?_, ?_, rfl, rfl⟩
    · simp [pieces, code, comma, read, Except.map]
    · rw [runs, split]
  | @space last m marks r rs comment shown _ ih =>
    obtain rfl := Option.map_eq_none_iff.mp same
    obtain ⟨ps, run, more, read, split, rfl, rfl⟩ := @ih none rfl
    refine ⟨.gap :: ps, none :: run, more, ?_, ?_, ?_, rfl⟩
    · simp [pieces, comment, read, Except.map]
    · rw [runs, split]
      rfl
    · exact if_pos shown
  | @gap last m marks r rs comment hidden _ ih =>
    obtain rfl := Option.map_eq_none_iff.mp same
    obtain ⟨ps, run, more, read, split, rfl, rfl⟩ := @ih none rfl
    refine ⟨.gap :: ps, none :: run, more, ?_, ?_, ?_, rfl⟩
    · simp [pieces, comment, read, Except.map]
    · rw [runs, split]
      rfl
    · exact if_neg (by simpa [spaced] using hidden)

/-- What is read as the arguments that are written as `rs`. -/
def trimmed (rs : List (List Mark)) : List Bytes :=
  ((rs.map fun r => Bytes.trimSpace (text r)).filter (!·.isEmpty)).map Utf8.repair

theorem read_eq_ok_iff {source : Bytes} {span : Span} {args : List Bytes} :
    read source span = .ok args ↔
      ∃ r rs, Reading none none (scan (source.take span.stop) span.start) r rs ∧
        args = trimmed (r :: rs) := by
  unfold read
  constructor
  · intro h
    split at h
    · contradiction
    · next ps read =>
      obtain ⟨run, more, split⟩ := exists_runs ps
      refine ⟨_, _, reading_of_pieces read split, ?_⟩
      rw [← Except.ok.inj h, split, trimmed, List.map_cons, List.map_cons, List.map_map]
      rfl
  · rintro ⟨r, rs, reading, rfl⟩
    obtain ⟨ps, run, more, read, split, rfl, rfl⟩ := @pieces_of_reading _ _ _ _ _ reading none rfl
    rw [read]
    dsimp only
    rw [split, trimmed, List.map_cons, List.map_cons, List.map_map]
    rfl

end PassCompiler.Argument
