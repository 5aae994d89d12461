import PassCompiler.Toml.Document

/-! Values in which no table has a key twice. Every document gives such a table, and so does every
other order of its keys. -/
namespace PassCompiler.Toml

def Value.IsPlain (v : Value) : Prop := v.array? = none ∧ v.table? = none

/-- No table in the value has a key twice. -/
inductive Value.Distinct : Value → Prop
  | plain {v : Value} : v.IsPlain → Distinct v
  | array {items : List Value} : (∀ v ∈ items, Distinct v) → Distinct (.array items)
  | table {entries : Table} : (entries.map (·.1)).Nodup → (∀ e ∈ entries, Distinct e.2) →
      Distinct (.table entries)

/-- The same value, with the keys of its tables listed in another order. -/
inductive Value.Reordered : Value → Value → Prop
  | refl (v : Value) : Reordered v v
  | swap {entries listed : Table} : entries.Perm listed →
      Reordered (.table entries) (.table listed)
  | entry {v v' : Value} (front : Table) (key : Bytes) (behind : Table) : Reordered v v' →
      Reordered (.table (front ++ (key, v) :: behind)) (.table (front ++ (key, v') :: behind))
  | item {v v' : Value} (front behind : List Value) : Reordered v v' →
      Reordered (.array (front ++ v :: behind)) (.array (front ++ v' :: behind))
  | trans {v v' v'' : Value} : Reordered v v' → Reordered v' v'' → Reordered v v''

variable {v v' : Value} {items : List Value} {entries : Table}

namespace Value.Distinct

theorem array_iff : (Value.array items).Distinct ↔ ∀ v ∈ items, v.Distinct := by
  constructor
  · intro distinct
    cases distinct with
    | plain plain => cases plain.1
    | array each => exact each
  · exact .array

theorem table_iff : (Value.table entries).Distinct ↔
    (entries.map (·.1)).Nodup ∧ ∀ e ∈ entries, e.2.Distinct := by
  constructor
  · intro distinct
    cases distinct with
    | plain plain => cases plain.2
    | table keys each => exact ⟨keys, each⟩
  · rintro ⟨keys, each⟩
    exact .table keys each

end Value.Distinct

theorem Value.Reordered.distinct (h : v.Reordered v') (distinct : v.Distinct) : v'.Distinct := by
  induction h with
  | refl v => exact distinct
  | swap perm =>
    obtain ⟨keys, each⟩ := Value.Distinct.table_iff.mp distinct
    refine .table ((perm.map _).nodup_iff.mp keys) fun e member => each e (perm.mem_iff.mpr member)
  | entry front key behind _ ih =>
    obtain ⟨keys, each⟩ := Value.Distinct.table_iff.mp distinct
    refine .table (by simpa using keys) fun e member => ?_
    rcases List.mem_append.mp member with inFront | here
    · exact each e (by simp [inFront])
    · rcases List.mem_cons.mp here with rfl | inBehind
      · exact ih (each (key, _) (by simp))
      · exact each e (by simp [inBehind])
  | item front behind _ ih =>
    have each := Value.Distinct.array_iff.mp distinct
    refine .array fun e member => ?_
    rcases List.mem_append.mp member with inFront | here
    · exact each e (by simp [inFront])
    · rcases List.mem_cons.mp here with rfl | inBehind
      · exact ih (each _ (by simp))
      · exact each e (by simp [inBehind])
  | trans _ _ first second => exact second (first distinct)

end PassCompiler.Toml
