import PassCompiler.Proofs.Pass.Argument.Reading
import PassCompiler.Proofs.Pass.Counterpart.Basic

/-! Argument lists read from two scans that differ only inside comments: both are refused at the
same place, or they hold arguments that differ only inside comments. -/
namespace PassCompiler

open Source

namespace Argument

variable {strict : Prop} {d : Nat} {marks others r : List Mark} {rs : List (List Mark)}

/-- The mark written last. Outside groups it is code, so it is a blank in both readings or in
none. -/
structure LastAlike (strict : Prop) (g : Option Group) (last last' : Option Mark) : Prop where
  alike : Option.Rel (Mark.Alike strict) last last'
  code : g = none → ∀ m, last = some m → m.isCode = true

theorem LastAlike.spaced {last last' : Option Mark} (h : LastAlike strict none last last') :
    spaced last' = spaced last := by
  obtain ⟨alike, code⟩ := h
  cases alike with
  | none => rfl
  | some both => simp only [Argument.spaced, Option.any_some, both.byte (.inr (code rfl _ rfl))]

theorem LastAlike.none (g : Option Group) : LastAlike strict g none none :=
  ⟨.none, fun _ _ h => nomatch h⟩

theorem Reading.alike {g : Option Group} {last last' : Option Mark}
    (h : Reading g last marks r rs) (follows : List.Forall₂ (Mark.Alike strict) marks others)
    (lasts : LastAlike strict g last last') :
    ∃ r' rs', Reading g last' others r' rs' ∧
      List.Forall₂ (List.Forall₂ (Mark.Alike strict)) (r :: rs) (r' :: rs') := by
  induction h generalizing others last' with
  | done =>
    cases follows
    exact ⟨[], [], .done, .cons .nil .nil⟩
  | @inside g last m marks r rs _ ih =>
    obtain ⟨n, others, first, rest, rfl⟩ := List.forall₂_cons_left_iff.mp follows
    obtain ⟨r', rs', read, alike⟩ := @ih others (some n) rest
      ⟨.some first, fun closed a same => Option.some.inj same ▸
        (Mark.isCodeByte_iff.mp (Group.closer_of_step closed)).1⟩
    obtain ⟨here, later⟩ := List.forall₂_cons.mp alike
    rw [← Group.step_congr first] at read
    exact ⟨n :: r', rs', .inside read, .cons (.cons first here) later⟩
  | @kept last m marks r rs code other _ ih =>
    obtain ⟨n, others, first, rest, rfl⟩ := List.forall₂_cons_left_iff.mp follows
    have byte := first.byte (.inr code)
    obtain ⟨r', rs', read, alike⟩ := @ih others (some n) rest
      ⟨.some first, fun _ a same => Option.some.inj same ▸ code⟩
    obtain ⟨here, later⟩ := List.forall₂_cons.mp alike
    rw [← opens_congr first code] at read
    exact ⟨n :: r', rs', .kept (first.isCode.trans code) (byte ▸ other) read,
      .cons (.cons first here) later⟩
  | @comma last m marks r rs code comma _ ih =>
    obtain ⟨n, others, first, rest, rfl⟩ := List.forall₂_cons_left_iff.mp follows
    have byte := first.byte (.inr code)
    obtain ⟨r', rs', read, alike⟩ := ih rest (.none none)
    exact ⟨[], r' :: rs', .comma (first.isCode.trans code) (byte.trans comma) read,
      .cons .nil alike⟩
  | @space last m marks r rs comment shown _ ih =>
    obtain ⟨n, others, first, rest, rfl⟩ := List.forall₂_cons_left_iff.mp follows
    obtain ⟨r', rs', read, alike⟩ := @ih others (some Argument.space) rest
      ⟨.some (.refl _), fun _ a same => Option.some.inj same ▸ rfl⟩
    obtain ⟨here, later⟩ := List.forall₂_cons.mp alike
    exact ⟨Argument.space :: r', rs',
      .space (first.isCode.trans comment) (lasts.spaced.trans shown) read,
      .cons (.cons (.refl _) here) later⟩
  | @gap last m marks r rs comment hidden _ ih =>
    obtain ⟨n, others, first, rest, rfl⟩ := List.forall₂_cons_left_iff.mp follows
    obtain ⟨r', rs', read, alike⟩ := ih rest lasts
    exact ⟨r', rs', .gap (first.isCode.trans comment) (lasts.spaced.trans hidden) read, alike⟩

/-- The same group, `d` bytes further on. -/
def OpenGroup.shift (d : Nat) (o : OpenGroup) : OpenGroup := ⟨o.offset + d, o.group⟩

theorem map_eq_error_iff {ε α β : Type} {f : α → β} {x : Except ε α} {e : ε} :
    x.map f = .error e ↔ x = .error e := by
  cases x <;> simp [Except.map]

theorem pieces_error_tracks (follows : Tracks strict d marks others) {og : Option OpenGroup}
    {e : OpenGroup} (h : pieces og marks = .error e) :
    pieces (og.map (·.shift d)) others = .error (e.shift d) := by
  induction follows generalizing og with
  | nil =>
    cases og with
    | none => contradiction
    | some o =>
      obtain rfl := Except.error.inj h
      rfl
  | @cons m n marks others first rest ih =>
    cases og with
    | some o =>
      rw [pieces, map_eq_error_iff] at h
      have later := ih h
      rw [Option.map_some, pieces, map_eq_error_iff, OpenGroup.shift,
        Group.step_congr first.toAlike]
      rwa [Option.map_map] at later
    | none =>
      rw [pieces] at h
      rw [Option.map_none, pieces, first.isCode]
      cases code : m.isCode with
      | false =>
        simp only [code, Bool.not_false, if_true, map_eq_error_iff] at h ⊢
        exact ih h
      | true =>
        simp only [code, Bool.not_true, Bool.false_eq_true, if_false] at h ⊢
        rw [first.byte (.inr code)]
        split at h
        · next comma =>
          rw [if_pos comma, map_eq_error_iff]
          exact ih (map_eq_error_iff.mp h)
        · next other =>
          rw [if_neg other, map_eq_error_iff]
          have later := ih (map_eq_error_iff.mp h)
          rw [Option.map_map] at later
          rw [first.offset]
          exact later

def ReadAlike (strict : Prop) (marks others : List Mark) (args args' : List Bytes) : Prop :=
  ∃ r rs r' rs', Reading none none marks r rs ∧ Reading none none others r' rs' ∧
    List.Forall₂ (List.Forall₂ (Mark.Alike strict)) (r :: rs) (r' :: rs') ∧
    args = trimmed (r :: rs) ∧ args' = trimmed (r' :: rs')

theorem read_tracks {s s' : Bytes} {span : Span}
    (follows : Tracks strict d (scan (s.take span.stop) span.start)
      (scan (s'.take (span.stop + d)) (span.start + d))) :
    Agree True (Fault.Follows strict d s s')
      (ReadAlike strict (scan (s.take span.stop) span.start)
        (scan (s'.take (span.stop + d)) (span.start + d)))
      (read s span) (read s' ⟨span.start + d, span.stop + d⟩) := by
  constructor
  · intro args h
    obtain ⟨r, rs, reading, rfl⟩ := read_eq_ok_iff.mp h
    obtain ⟨r', rs', reading', alike⟩ :=
      reading.alike (follows.imp fun _ _ same => same.toAlike) (.none none)
    exact ⟨_, read_eq_ok_iff.mpr ⟨r', rs', reading', rfl⟩,
      ⟨r, rs, r', rs', reading, reading', alike, rfl, rfl⟩⟩
  · intro _ e h
    unfold read at h ⊢
    split at h
    · next inside refused =>
      have refused' := pieces_error_tracks follows refused
      rw [Option.map_none] at refused'
      rw [← Except.error.inj h, refused']
      exact ⟨_, rfl, Fault.follows_locate ..⟩
    · contradiction

theorem trimmed_eq {rs rs' : List (List Mark)}
    (h : List.Forall₂ (List.Forall₂ (Mark.Alike True)) rs rs') : trimmed rs' = trimmed rs := by
  have same : rs'.map text = rs.map text := by
    rw [← List.forall₂_eq_eq_eq, List.forall₂_map_left_iff, List.forall₂_map_right_iff]
    apply h.flip.imp
    intro r' r alike
    exact text_eq_of_alike alike
  have split (rs : List (List Mark)) :
      rs.map (fun r => Bytes.trimSpace (text r)) = (rs.map text).map Bytes.trimSpace := by
    rw [List.map_map]
    rfl
  rw [trimmed, trimmed, split, split, same]

end Argument

theorem Source.Twin.counterpart {final : Prop} {d : Nat} {s s' : Bytes}
    (twin : Twin True final d s s') : Counterpart True final d Eq s s' where
  toTwin := twin
  reads o ho c hc opens closes := by
    have resumes := resumes_of_mem ho (Mark.isCodeByte_iff.mp opens).1
    have stops := stops_of_mem hc (Mark.isCodeByte_iff.mp closes).1
    have window := twin.tracks_window resumes stops (offset_lt_of_mem hc)
    apply (Argument.read_tracks window).mono
    rintro args args' ⟨r, rs, r', rs', _, _, alike, rfl, rfl⟩
    rw [List.forall₂_eq_eq_eq, Argument.trimmed_eq alike]

/-- A source read beside itself. -/
theorem Counterpart.refl (s : Bytes) : Counterpart True True 0 Eq s s :=
  Source.Twin.counterpart {
    base := resumes_zero
    tracks := ⟨scan s 0, [], by simp, tracks_refl .., fun _ => rfl⟩
    ending := .inl trivial }

end PassCompiler
