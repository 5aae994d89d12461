import PassCompiler.Proofs.Files.Tree
import PassCompiler.Settings

/-! Tables in the order of their keys, and the first fault of a run over one. -/
namespace PassCompiler.Settings

open Toml (Value Table)

variable {e : SettingsError} {t t' : Table} {entry : Bytes × Value}

theorem inKeyOrder_perm (t : Table) : (inKeyOrder t).Perm t := List.mergeSort_perm _ _

theorem inKeyOrder_sorted (keys : (t.map (·.1)).Nodup) :
    (inKeyOrder t).Pairwise (·.1 < ·.1) := by
  have sorted : (inKeyOrder t).Pairwise (·.1 ≤ ·.1) := Bytes.pairwise_mergeSort (·.1) t
  have keys : ((inKeyOrder t).map (·.1)).Nodup := ((inKeyOrder_perm t).map _).nodup_iff.mpr keys
  refine (sorted.and (List.pairwise_map.mp keys)).imp fun {a b} both => ?_
  exact Std.lt_of_le_of_ne both.1 both.2

theorem eq_of_sorted_perm {l l' : Table} (perm : l.Perm l') (sorted : l.Pairwise (·.1 < ·.1))
    (sorted' : l'.Pairwise (·.1 < ·.1)) : l = l' := by
  refine perm.eq_of_pairwise (fun a b _ _ less more => ?_) sorted sorted'
  exact absurd (Std.lt_trans less more) Std.lt_irrefl

theorem inKeyOrder_congr (perm : t.Perm t') (keys : (t.map (·.1)).Nodup) :
    inKeyOrder t = inKeyOrder t' := by
  have keys' : (t'.map (·.1)).Nodup := (perm.map _).nodup_iff.mp keys
  exact eq_of_sorted_perm ((inKeyOrder_perm t).trans (perm.trans (inKeyOrder_perm t').symm))
    (inKeyOrder_sorted keys) (inKeyOrder_sorted keys')

/-- Values that are read alike stand in the same places. -/
theorem map_inKeyOrder {β : Type} {read : Bytes × Value → β}
    (same : (t.map fun e => (e.1, read e)) = t'.map fun e => (e.1, read e)) :
    (inKeyOrder t).map read = (inKeyOrder t').map read := by
  have sorted (t : Table) : ((inKeyOrder t).map fun e => (e.1, read e)) =
      (t.map fun e => (e.1, read e)).mergeSort fun a b => Bytes.le a.1 b.1 := by
    rw [inKeyOrder]
    exact List.map_mergeSort fun a _ b _ => rfl
  have pairs : ((inKeyOrder t).map fun e => (e.1, read e)) =
      (inKeyOrder t').map fun e => (e.1, read e) := by rw [sorted, same, ← sorted]
  simpa [Function.comp_def] using congrArg (List.map Prod.snd) pairs

/-- The entry with the least key among those with a property. -/
def Least (P : Bytes × Value → Prop) (t : Table) (entry : Bytes × Value) : Prop :=
  entry ∈ t ∧ P entry ∧ ∀ other ∈ t, P other → entry.1 ≤ other.1

theorem Least.perm_iff {P : Bytes × Value → Prop} (perm : t.Perm t') :
    Least P t entry ↔ Least P t' entry := by
  simp only [Least, perm.mem_iff]

theorem least_cons {P : Bytes × Value → Prop} {head : Bytes × Value} {rest : Table}
    (less : ∀ other ∈ rest, head.1 < other.1) : Least P (head :: rest) entry ↔
      P head ∧ entry = head ∨ ¬ P head ∧ Least P rest entry := by
  by_cases has : P head
  · simp only [has, true_and, not_true, false_and, or_false]
    constructor
    · rintro ⟨member, _, least⟩
      refine (List.mem_cons.mp member).resolve_right fun late => ?_
      exact Std.lt_irrefl (Std.lt_of_lt_of_le (less entry late) (least head (by simp) has))
    · rintro rfl
      refine ⟨by simp, has, fun other member _ => ?_⟩
      rcases List.mem_cons.mp member with rfl | late
      · exact Std.le_refl _
      · exact Std.le_of_lt (less other late)
  · simp only [has, false_and, not_false_eq_true, true_and, false_or]
    constructor
    · rintro ⟨member, hasEntry, least⟩
      refine ⟨(List.mem_cons.mp member).resolve_left ?_, hasEntry,
        fun other late => least other (by simp [late])⟩
      rintro rfl
      exact has hasEntry
    · rintro ⟨member, hasEntry, least⟩
      refine ⟨by simp [member], hasEntry, fun other here otherHas => ?_⟩
      rcases List.mem_cons.mp here with rfl | late
      · exact absurd otherHas has
      · exact least other late otherHas

theorem Least.congr {P Q : Bytes × Value → Prop} (same : ∀ entry ∈ t, (P entry ↔ Q entry)) :
    Least P t entry ↔ Least Q t entry := by
  refine and_congr_right fun member => and_congr (same entry member) ?_
  exact forall₂_congr fun other member => imp_congr_left (same other member)

/-- A run over entries in their order fails as its least faulty entry does. -/
theorem foldlM_error_iff {σ : Type} {step : σ → Bytes × Value → Except SettingsError σ}
    {Refused : Bytes × Value → SettingsError → Prop}
    (refused : ∀ a, ∀ entry ∈ t, ∀ e, step a entry = .error e ↔ Refused entry e)
    (sorted : t.Pairwise (·.1 < ·.1)) {a : σ} : t.foldlM step a = .error e ↔
      ∃ entry, Least (fun entry => ∃ e, Refused entry e) t entry ∧ Refused entry e := by
  induction t generalizing a with
  | nil => simp [Least, pure, Except.pure]
  | cons head rest ih =>
    obtain ⟨less, sorted⟩ := List.pairwise_cons.mp sorted
    have first := refused a head (by simp)
    simp only [List.foldlM_cons, least_cons less]
    cases stepped : step a head with
    | error e' =>
      have fault : ∃ e, Refused head e := ⟨e', (first e').mp stepped⟩
      have only : Refused head e ↔ e' = e := by
        rw [← first, stepped, Except.error.injEq]
      simp only [fault, not_true, false_and, or_false, true_and, exists_eq_left, only]
      exact ⟨Except.error.inj, congrArg _⟩
    | ok a' =>
      have none : ¬ ∃ e, Refused head e := by
        rintro ⟨e', fault⟩
        rw [← first, stepped] at fault
        contradiction
      simp only [none, not_false_eq_true, false_and, false_or, true_and]
      exact ih (fun a entry member => refused a entry (List.mem_cons_of_mem _ member)) sorted

theorem mapM_error_iff {β : Type} {read : Bytes × Value → Except SettingsError β}
    (sorted : t.Pairwise (·.1 < ·.1)) : t.mapM read = .error e ↔
      ∃ entry, Least (fun entry => ∃ e, read entry = .error e) t entry ∧ read entry = .error e := by
  induction t with
  | nil => simp [Least, pure, Except.pure]
  | cons head rest ih =>
    obtain ⟨less, sorted⟩ := List.pairwise_cons.mp sorted
    simp only [List.mapM_cons, least_cons less]
    cases first : read head with
    | error e' => simp [bind, Except.bind, first]
    | ok b =>
      simp only [reduceCtorEq, exists_false, not_false_eq_true, false_and, false_or, true_and,
        ← ih sorted]
      cases rest.mapM read <;> simp [bind, Except.bind, pure, Except.pure]

end PassCompiler.Settings
