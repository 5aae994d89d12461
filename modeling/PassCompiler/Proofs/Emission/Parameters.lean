import Mathlib.Data.List.Basic
import PassCompiler.Emission.Parameters
import PassCompiler.Graph

/-! Which clause arguments become parameters: `params_sifted`. Placeholders are left out, and of the
declarations of one name all but the first. Arguments without a name count as declarations of one
name, the empty one, so of these, too, all but the first are left out. -/
namespace PassCompiler.Pass

variable {excused : List Bytes → Bytes → Prop} {before all kept : List Bytes} {a : Bytes}

/-- `kept` is what is left of `all`, in its order, when each argument is left out that is `excused`
by those kept earlier, of which `before` stand before `all`. -/
inductive Sifts (excused : List Bytes → Bytes → Prop) :
    (before all kept : List Bytes) → Prop
  | nil {before : List Bytes} : Sifts excused before [] []
  | keep {before all kept : List Bytes} {a : Bytes} : ¬ excused before a →
      Sifts excused (before ++ [a]) all kept → Sifts excused before (a :: all) (a :: kept)
  | drop {before all kept : List Bytes} {a : Bytes} : excused before a →
      Sifts excused before all kept → Sifts excused before (a :: all) kept

/-- A placeholder, or another declaration of a name, be it the empty one. -/
def Repeats (before : List Bytes) (a : Bytes) : Prop :=
  isPlaceholder a = true ∨ ∃ b ∈ before, Declaration.name b = Declaration.name a

def RepeatsName (before : List Bytes) (a : Bytes) : Prop :=
  isPlaceholder a = true ∨
    Declaration.name a ≠ [] ∧ ∃ b ∈ before, Declaration.name b = Declaration.name a

/-- All arguments of the clauses, in the order of the clauses. -/
def arguments (p : Pass) : List Bytes :=
  p.clauses.read ++ p.clauses.write ++ p.clauses.readWrite ++ p.clauses.input

def nameless (all : List Bytes) : Nat := all.countP fun a => (Declaration.name a).isEmpty

theorem RepeatsName.repeats (h : RepeatsName before a) : Repeats before a :=
  h.imp_right fun named => named.2

theorem name_ne_nil_of_isPlaceholder (h : isPlaceholder a = true) : Declaration.name a ≠ [] := by
  rw [isPlaceholder, Bool.or_eq_true, beq_iff_eq, beq_iff_eq] at h
  rcases h with rfl | rfl <;> decide +kernel

/-- What is kept neither repeats what was kept before nor is a placeholder. -/
theorem Sifts.fresh (h : Sifts Repeats before all kept) :
    ∀ a ∈ kept, ∀ b ∈ before, Declaration.name b ≠ Declaration.name a := by
  induction h with
  | nil => nofun
  | keep new _ ih =>
    intro a member b earlier same
    rcases List.mem_cons.mp member with rfl | later
    · exact new (.inr ⟨b, earlier, same⟩)
    · exact ih a later b (List.mem_append_left _ earlier) same
  | drop _ _ ih => exact ih

theorem Sifts.sublist (h : Sifts excused before all kept) : kept.Sublist all := by
  induction h with
  | nil => exact .slnil
  | keep _ _ ih => exact ih.cons_cons _
  | drop _ _ ih => exact ih.cons _

theorem Sifts.unique {other : List Bytes} (h : Sifts excused before all kept)
    (h' : Sifts excused before all other) : other = kept := by
  induction h generalizing other with
  | nil =>
    cases h'
    rfl
  | keep new _ ih =>
    cases h' with
    | keep _ later => exact congrArg _ (ih later)
    | drop old _ => exact absurd old new
  | drop old _ ih =>
    cases h' with
    | keep new _ => exact absurd old new
    | drop _ later => exact ih later

theorem sifts_newNames {seen : List Bytes}
    (names : ∀ x, x ∈ seen ↔ ∃ b ∈ before, Declaration.name b = x) :
    Sifts Repeats before all (newNames seen (all.filter (!isPlaceholder ·))) := by
  induction all generalizing before seen with
  | nil => exact .nil
  | cons a all ih =>
    cases placeholder : isPlaceholder a with
    | true =>
      rw [List.filter_cons_of_neg (by simp [placeholder])]
      exact .drop (.inl placeholder) (ih names)
    | false =>
      rw [List.filter_cons_of_pos (by simp [placeholder]), newNames]
      split
      · next known =>
        exact .drop (.inr ((names _).mp (by simpa using known))) (ih names)
      · next fresh =>
        refine .keep ?_ (ih ?_)
        · rintro (isPlaceholder | known)
          · rw [placeholder] at isPlaceholder
            contradiction
          · exact fresh (by simpa using (names _).mpr known)
        · intro x
          rw [List.mem_cons, names]
          constructor
          · rintro (rfl | ⟨b, earlier, same⟩)
            · exact ⟨a, by simp, rfl⟩
            · exact ⟨b, by simp [earlier], same⟩
          · rintro ⟨b, member, rfl⟩
            rcases List.mem_append.mp member with earlier | last
            · exact .inr ⟨b, earlier, rfl⟩
            · exact .inl (congrArg _ (List.mem_singleton.mp last))

theorem sifts_params (p : Pass) : Sifts Repeats [] p.arguments p.params := by
  have order : Clause.all.flatMap p.clauses.get = p.arguments := by
    simp [Clause.all, Clauses.get, arguments]
  rw [params, order]
  exact sifts_newNames (by simp)

theorem sifts_cons_of_not (new : ¬ excused before a) :
    Sifts excused before (a :: all) (a :: kept) ↔ Sifts excused (before ++ [a]) all kept := by
  constructor
  · intro h
    cases h with
    | keep _ later => exact later
    | drop old _ => exact absurd old new
  · exact .keep new

theorem sifts_cons_of_excused (old : excused before a) :
    Sifts excused before (a :: all) kept ↔ Sifts excused before all kept := by
  constructor
  · intro h
    cases h with
    | keep new _ => exact absurd old new
    | drop _ later => exact later
  · exact .drop old

theorem nameless_nil : nameless [] = 0 := rfl

theorem nameless_cons_of_ne (named : Declaration.name a ≠ []) :
    nameless (a :: all) = nameless all := by
  simp [nameless, named]

theorem nameless_cons_of_eq (unnamed : Declaration.name a = []) :
    nameless (a :: all) = nameless all + 1 := by
  simp [nameless, unnamed]

theorem nameless_append_singleton (a : Bytes) :
    nameless (before ++ [a]) = nameless before + nameless [a] := List.countP_append

theorem nameless_eq_zero_iff : nameless before = 0 ↔ ∀ b ∈ before, Declaration.name b ≠ [] := by
  simp [nameless, List.countP_eq_zero]

theorem nameless_eq_zero_of_new (new : ¬ Repeats before a) (unnamed : Declaration.name a = []) :
    nameless before = 0 :=
  nameless_eq_zero_iff.mpr fun b earlier unnamed' =>
    new (.inr ⟨b, earlier, unnamed'.trans unnamed.symm⟩)

theorem Repeats.nameless_ne_zero (old : Repeats before a) (unnamed : Declaration.name a = []) :
    nameless before ≠ 0 := by
  rcases old with placeholder | ⟨b, earlier, same⟩
  · exact absurd unnamed (name_ne_nil_of_isPlaceholder placeholder)
  · intro zero
    exact nameless_eq_zero_iff.mp zero b earlier (same.trans unnamed)

/-- The two rules agree as long as no second argument without a name turns up. -/
theorem Sifts.iff_nameless (h : Sifts Repeats before all kept) :
    Sifts RepeatsName before all kept ↔ min (nameless before) 1 + nameless all ≤ 1 := by
  induction h with
  | @nil before =>
    constructor
    · intro _
      rw [nameless_nil]
      omega
    · intro _
      exact .nil
  | @keep before all kept a new later ih =>
    rw [sifts_cons_of_not (fun old => new old.repeats), ih, nameless_append_singleton]
    by_cases named : Declaration.name a = []
    · have first := nameless_eq_zero_of_new new named
      rw [nameless_cons_of_eq named, nameless_cons_of_eq named, nameless_nil, first]
      omega
    · rw [nameless_cons_of_ne named, nameless_cons_of_ne named, nameless_nil, Nat.add_zero]
  | @drop before all kept a old later ih =>
    by_cases named : RepeatsName before a
    · have hasName : Declaration.name a ≠ [] :=
        named.elim name_ne_nil_of_isPlaceholder fun known => known.1
      rw [sifts_cons_of_excused named, ih, nameless_cons_of_ne hasName]
    · -- the argument was dropped for having no name, as one before it
      obtain ⟨b, earlier, same⟩ := old.resolve_left fun placeholder => named (.inl placeholder)
      have unnamed : Declaration.name a = [] := by
        by_contra hasName
        exact named (.inr ⟨hasName, b, earlier, same⟩)
      have second := old.nameless_ne_zero unnamed
      constructor
      · intro sifted
        cases sifted with
        | keep _ _ => exact absurd same (later.fresh a List.mem_cons_self b earlier)
        | drop known _ => exact absurd known named
      · intro few
        rw [nameless_cons_of_eq unnamed] at few
        omega

/-- What is left of the arguments without a name is the first. -/
theorem Sifts.nameless_kept (h : Sifts Repeats before all kept) :
    min (nameless before) 1 + nameless kept = min (nameless before + nameless all) 1 := by
  induction h with
  | nil => rw [nameless_nil, Nat.add_zero, Nat.add_zero]
  | @keep before all kept a new later ih =>
    rw [nameless_append_singleton] at ih
    by_cases named : Declaration.name a = []
    · have first := nameless_eq_zero_of_new new named
      rw [nameless_cons_of_eq named, nameless_nil, first] at ih
      rw [nameless_cons_of_eq named, nameless_cons_of_eq named, first]
      omega
    · rw [nameless_cons_of_ne named, nameless_nil, Nat.add_zero] at ih
      rwa [nameless_cons_of_ne named, nameless_cons_of_ne named]
  | @drop before all kept a old later ih =>
    by_cases named : Declaration.name a = []
    · have second := old.nameless_ne_zero named
      rw [nameless_cons_of_eq named]
      omega
    · rwa [nameless_cons_of_ne named]

/-- The parameters of a pass. Arguments are lost just if two or more of them have no name. -/
theorem params_sifted (p : Pass) :
    p.params.Sublist p.arguments ∧ (∀ kept, Sifts Repeats [] p.arguments kept ↔ kept = p.params) ∧
      nameless p.params = min (nameless p.arguments) 1 ∧
      (Sifts RepeatsName [] p.arguments p.params ↔ nameless p.arguments ≤ 1) := by
  have sifted := sifts_params p
  refine ⟨sifted.sublist, fun kept => ⟨sifted.unique, ?_⟩, ?_, ?_⟩
  · rintro rfl
    exact sifted
  · have count := sifted.nameless_kept
    rw [nameless_nil] at count
    omega
  · rw [sifted.iff_nameless, nameless_nil]
    omega

/-- Of two pointers to functions the second is lost. -/
theorem params_nameless :
    let p : Pass := ⟨bytes "P",
      { input := [bytes "void (*f)(int)", bytes "void (*g)(int)"] }, [], bytes " ", []⟩
    (Graph.parse (bytes "PASS_BEGIN(P) INPUT(void (*f)(int), void (*g)(int)) { } PASS_END")
        ).result = .ok ⟨[], [p]⟩ ∧
      p.params = [bytes "void (*f)(int)"] ∧ ¬ Sifts RepeatsName [] p.arguments p.params := by
  intro p
  refine ⟨by decide +kernel, by decide +kernel, fun sifted => ?_⟩
  have few := (sifts_params p).iff_nameless.mp sifted
  exact absurd few (by decide +kernel)

end PassCompiler.Pass
