import PassCompiler.Proofs.Source.Alike
import PassCompiler.Proofs.Text.Trim
import PassCompiler.Recording.Statement

/-! The call that counts in a statement. It is found by what stands up to its opening parenthesis:
nothing behind the parenthesis makes another call the earliest one. -/
namespace PassCompiler.Statement

open Source

variable {table : CallTable} {marks behind : List Mark} {name : Bytes} {slot : Slot} {o : Mark}

def isGap (m : Mark) : Bool := !m.isCode || Bytes.isBlank m.byte

def Opens (marks : List Mark) (o : Mark) (behind : List Mark) : Prop :=
  marks.dropWhile isGap = o :: behind ∧ o.byte = Delimiter.paren.opener

/-- The earliest known call of a scan, its opening parenthesis and what stands behind that. -/
inductive Earliest (table : CallTable) : List Mark → Bytes → Slot → Mark → List Mark → Prop
  | skip {m marks name slot o behind} : (m.isCode && Bytes.isIdent m.byte) = false →
      Earliest table marks name slot o behind → Earliest table (m :: marks) name slot o behind
  | unknown {m marks name slot o behind} : (m.isCode && Bytes.isIdent m.byte) = true →
      table.slot? (word m marks) = none ∨ nextGroup? (behindWord marks) = none →
      Earliest table (behindWord marks) name slot o behind →
      Earliest table (m :: marks) name slot o behind
  | call {m marks slot o behind} : (m.isCode && Bytes.isIdent m.byte) = true →
      table.slot? (word m marks) = some slot → Opens (behindWord marks) o behind →
      Earliest table (m :: marks) (word m marks) slot o behind

theorem Opens.isCodeByte (h : Opens marks o behind) :
    o.isCodeByte Delimiter.paren.opener = true := by
  have holds := List.head?_dropWhile_not isGap marks
  rw [h.1] at holds
  have code : o.isCode = true := by simp_all [isGap]
  exact Mark.isCodeByte_iff.mpr ⟨code, h.2⟩

theorem nextGroup?_eq (h : Opens marks o behind) :
    nextGroup? marks = some ⟨o.offset, (Group.close? ⟨.paren, 1⟩ behind).map fun (closer, behind) =>
      (closer.offset, behind)⟩ :=
  nextGroup?_eq_some_iff.mpr ⟨o, behind, h.1, h.isCodeByte, rfl⟩

theorem opens_of_nextGroup? {g : Parenthesised} (h : nextGroup? marks = some g) :
    ∃ o behind, Opens marks o behind := by
  obtain ⟨o, behind, next, opens, _⟩ := nextGroup?_eq_some_iff.mp h
  exact ⟨o, behind, next, (Mark.isCodeByte_iff.mp opens).2⟩

def candidate (name : Bytes) (slot : Slot) (o : Mark) (behind : List Mark) : Candidate :=
  ⟨name, slot, o.offset, (Group.close? ⟨.paren, 1⟩ behind).map (·.1.offset)⟩

theorem Earliest.eq_some (h : Earliest table marks name slot o behind) :
    earliest? table marks = some (candidate name slot o behind) := by
  induction h with
  | skip other _ ih =>
    rw [earliest?, if_neg (by simp [other]), ih]
  | @unknown m marks name slot o behind first none _ ih =>
    rw [earliest?, if_pos first]
    split
    · exact ih
    · next known =>
      rw [none.resolve_left (by simp [known])]
      exact ih
  | @call m marks slot o behind first known opens =>
    rw [earliest?, if_pos first, known]
    dsimp only
    rw [nextGroup?_eq opens]
    simp only [candidate, Option.map_map]
    rfl

theorem earliest_of_eq_some {c : Candidate} (h : earliest? table marks = some c) :
    ∃ o behind, Earliest table marks c.name c.slot o behind ∧
      c = candidate c.name c.slot o behind := by
  fun_induction earliest? table marks with
  | case1 => contradiction
  | case2 m marks first unknown ih =>
    obtain ⟨o, behind, earliest, same⟩ := ih h
    exact ⟨o, behind, .unknown first (.inl unknown) earliest, same⟩
  | case3 m marks first slot known bare ih =>
    obtain ⟨o, behind, earliest, same⟩ := ih h
    exact ⟨o, behind, .unknown first (.inr bare) earliest, same⟩
  | case4 m marks first slot known group opens =>
    obtain ⟨o, behind, opens'⟩ := opens_of_nextGroup? opens
    rw [nextGroup?_eq opens'] at opens
    obtain rfl := Option.some.inj opens
    obtain rfl := Option.some.inj h
    refine ⟨o, behind, .call first known opens', ?_⟩
    simp only [candidate, Option.map_map]
    rfl
  | case5 m marks other ih =>
    obtain ⟨o, behind, earliest, same⟩ := ih h
    exact ⟨o, behind, .skip (by simpa using other) earliest, same⟩

theorem span_replace {α : Type} {p : α → Bool} {l a b : List α} {x : α}
    (h : l.dropWhile p = a ++ x :: b) (other : List α) :
    (l.takeWhile p ++ (a ++ x :: other)).takeWhile p = l.takeWhile p ∧
      (l.takeWhile p ++ (a ++ x :: other)).dropWhile p = a ++ x :: other := by
  have inside : ∀ y ∈ l.takeWhile p, p y = true := fun y hy => List.mem_takeWhile_imp hy
  have head := List.head?_dropWhile_not p l
  rw [h] at head
  rw [List.takeWhile_append_of_pos inside, List.dropWhile_append_of_pos inside]
  cases a with
  | nil =>
    have outside : p x = false := by simpa using head
    simp [outside]
  | cons y a =>
    have outside : p y = false := by simpa using head
    simp [outside]

/-- Whether a parenthesis is next does not depend on what stands behind a later one. -/
theorem nextGroup?_replace {front : List Mark} (opens : o.isCodeByte Delimiter.paren.opener = true)
    (h : nextGroup? (front ++ o :: behind) = none) (other : List Mark) :
    nextGroup? (front ++ o :: other) = none := by
  obtain ⟨code, byte⟩ := Mark.isCodeByte_iff.mp opens
  have solid : isGap o = false := by
    rw [isGap, code, byte]
    decide
  have drop (rest : List Mark) : (front ++ o :: rest).dropWhile isGap =
      front.dropWhile isGap ++ o :: rest := Blank.dropWhile_append_cons solid front rest
  apply Option.eq_none_iff_forall_ne_some.mpr
  intro g found
  obtain ⟨m, rest, next, opens'⟩ := opens_of_nextGroup? found
  rw [drop] at next
  have same : ∃ rest', Opens (front ++ o :: behind) m rest' := by
    cases front' : front.dropWhile isGap with
    | nil =>
      rw [front'] at next
      obtain ⟨rfl, _⟩ := List.cons.inj next
      exact ⟨behind, by rw [drop, front', List.nil_append], byte⟩
    | cons n front'' =>
      rw [front'] at next
      obtain ⟨rfl, _⟩ := List.cons.inj next
      exact ⟨front'' ++ o :: behind, by rw [drop, front', List.cons_append], opens'⟩
  obtain ⟨rest', opens''⟩ := same
  rw [nextGroup?_eq opens''] at h
  contradiction

/-- Another text behind the parenthesis leaves the call the earliest one. -/
theorem Earliest.replace (h : Earliest table marks name slot o behind) :
    ∃ front, marks = front ++ o :: behind ∧ o.isCodeByte Delimiter.paren.opener = true ∧
      ∀ other, Earliest table (front ++ o :: other) name slot o other := by
  induction h with
  | @skip m marks name slot o behind first _ ih =>
    obtain ⟨front, rfl, opens, later⟩ := ih
    exact ⟨m :: front, rfl, opens, fun other => .skip first (later other)⟩
  | @unknown m marks name slot o behind first none _ ih =>
    obtain ⟨front, split, opens, later⟩ := ih
    have whole : marks = marks.takeWhile (Bytes.isIdent ·.byte) ++ (front ++ o :: behind) := by
      rw [← split]
      exact List.takeWhile_append_dropWhile.symm
    refine ⟨m :: marks.takeWhile (Bytes.isIdent ·.byte) ++ front, ?_, opens, ?_⟩
    · simpa using whole
    · intro other
      obtain ⟨same, drop⟩ := span_replace split other
      rw [List.append_assoc, List.cons_append]
      refine .unknown first ?_ ?_
      · rw [behindWord, drop, word, same]
        apply none.imp id
        intro bare
        rw [split] at bare
        exact nextGroup?_replace opens bare other
      · rw [behindWord, drop]
        exact later other
  | @call m marks slot o behind first known opens =>
    have split := opens.1
    have gap : behindWord marks = (behindWord marks).takeWhile isGap ++ o :: behind := by
      rw [← split]
      exact List.takeWhile_append_dropWhile.symm
    have whole : marks = marks.takeWhile (Bytes.isIdent ·.byte) ++
        ((behindWord marks).takeWhile isGap ++ o :: behind) := by
      rw [← gap]
      exact List.takeWhile_append_dropWhile.symm
    refine ⟨m :: marks.takeWhile (Bytes.isIdent ·.byte) ++ (behindWord marks).takeWhile isGap, ?_,
      opens.isCodeByte, ?_⟩
    · simpa using whole
    · intro other
      obtain ⟨same, drop⟩ := span_replace gap other
      have next := (@span_replace _ isGap (behindWord marks) [] behind o split other).2
      rw [List.append_assoc, List.cons_append]
      have named : word m (marks.takeWhile (Bytes.isIdent ·.byte) ++
          ((behindWord marks).takeWhile isGap ++ o :: other)) = word m marks := by
        rw [word, same, word]
      rw [← named] at known ⊢
      refine .call first known ⟨?_, opens.2⟩
      rw [behindWord, drop]
      exact next

end PassCompiler.Statement
