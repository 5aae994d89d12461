import Mathlib
import PassCompiler.Proofs.Files.Place
import PassCompiler.Proofs.Settings.Keys

/-! Settings in a file of their own and in a manifest beside it. A table means the same in both.
What is no table is refused in a file of its own; in a manifest it counts for nothing. Main
statement: `ofManifest_beside`. -/
namespace PassCompiler

open Toml (Value Table)

namespace Settings

variable {s : Settings} {store : Store} {p dir parent : Path} {a b : Bytes} {root root' t : Table}
  {path : List Bytes} {v : Value}

def rootOf (store : Store) (p : Path) : Except SettingsError Table := do
  parse (← (readText store p).mapError (SettingsError.read p))

theorem readWith_of_rootOf {ofRoot : Table → Except SettingsError Settings}
    (read : rootOf store p = .ok root) :
    readWith ofRoot store p = (ofRoot root).map (·.resolveOutDir p) := by
  unfold rootOf at read
  unfold readWith
  cases text : (readText store p).mapError (SettingsError.read p) with
  | error e =>
    rw [text] at read
    contradiction
  | ok text' =>
    rw [text] at read
    change parse text' = .ok root at read
    change (do return (← ofRoot (← parse text')).resolveOutDir p) = _
    rw [read]
    change (ofRoot root >>= fun s => pure (s.resolveOutDir p)) = _
    cases ofRoot root <;> rfl

def resolvedFrom (s : Settings) (parent : Path) : Settings :=
  match s.outDir with
  | some dir => if dir.isAbsolute then s else { s with outDir := some (parent.join dir) }
  | none => s

theorem resolveOutDir_eq (up : p.parent? = some parent) :
    s.resolveOutDir p = s.resolvedFrom parent := by
  rw [resolveOutDir, resolvedFrom, up]
  cases s.outDir <;> rfl

/-- Names in one directory have one parent. -/
theorem exists_parent (dir : Path) :
    ∃ parent, ∀ name, Path.IsProper name → (dir.join name).parent? = some parent := by
  obtain ⟨front, split⟩ := Path.exists_segments_join_name dir
  exact ⟨_, fun name proper => Path.parent?_of_segments (split name proper.free) proper.leads⟩

inductive Leads : Table → List Bytes → Value → Prop
  | last {t : Table} {key : Bytes} {v : Value} : t.lookup key = some v → Leads t [key] v
  | step {t inner : Table} {key : Bytes} {path : List Bytes} {v : Value} :
      t.lookup key = some (.table inner) → Leads inner path v → Leads t (key :: path) v

def manifestKeys : List Bytes := [bytes "package", bytes "metadata", bytes "mutate", tableName]

theorem subtable?_of_leads (leads : Leads root path v) : subtable? root path = v.table? := by
  induction leads with
  | @last t key v found =>
    rw [subtable?, found]
    cases v <;> rfl
  | step found _ ih =>
    rw [subtable?, found]
    exact ih

theorem ofManifestRoot_of_leads (leads : Leads root manifestKeys v) :
    ofManifestRoot root = (v.table?.map ofTable).getD (.ok {}) := by
  have found := subtable?_of_leads leads
  rw [manifestKeys] at found
  rw [ofManifestRoot, found]
  cases v.table? <;> rfl

theorem ofRoot_of_lookup (entry : root.lookup tableName = some v) :
    ofRoot root = (v.table?.map ofTable).getD (.error (.invalidValue tableName .table)) := by
  rw [ofRoot, entry]
  cases v <;> rfl

/-- What two files give that have the same entry `v` for the settings: `own` what the one gives as
a file of its own, `manifest` what the other gives as a manifest. -/
structure Beside (parent : Path) (v : Value) (own manifest : Except SettingsError Settings) :
    Prop where
  table : ∀ t, v = .table t → own = (ofTable t).map (·.resolvedFrom parent) ∧ manifest = own
  /-- What is no table is refused in a file of its own alone. -/
  other : v.table? = none → own = .error (.invalidValue tableName .table) ∧ manifest = .ok {}

/-- Two files in one directory with the same entry for the settings, read from the same place. -/
theorem ofManifest_beside (proper : Path.IsProper a) (proper' : Path.IsProper b)
    (own : rootOf store (dir.join a) = .ok root) (entry : root.lookup tableName = some v)
    (manifest : rootOf store (dir.join b) = .ok root') (leads : Leads root' manifestKeys v) :
    ∃ parent, (dir.join a).parent? = some parent ∧ (dir.join b).parent? = some parent ∧
      Beside parent v (ofFile store (dir.join a)) (ofManifest store (dir.join b)) ∧
      (ofManifest store (dir.join b) = ofFile store (dir.join a) ↔ ∃ t, v = .table t) := by
  obtain ⟨parent, up⟩ := exists_parent dir
  have first := up a proper
  have second := up b proper'
  have beside : Beside parent v (ofFile store (dir.join a)) (ofManifest store (dir.join b)) := by
    rw [ofFile, ofManifest, readWith_of_rootOf own, readWith_of_rootOf manifest,
      ofRoot_of_lookup entry, ofManifestRoot_of_leads leads]
    simp only [resolveOutDir_eq first, resolveOutDir_eq second]
    constructor
    · rintro t rfl
      exact ⟨rfl, rfl⟩
    · intro none
      rw [none]
      exact ⟨rfl, rfl⟩
  refine ⟨parent, first, second, beside, ?_⟩
  constructor
  · intro same
    cases table : v.table? with
    | some t => exact ⟨t, table?_eq_some_iff.mp table⟩
    | none =>
      obtain ⟨refused, skipped⟩ := beside.other table
      rw [refused, skipped] at same
      contradiction
  · rintro ⟨t, rfl⟩
    exact (beside.table t rfl).2

def manifestOf (v : Value) : Table :=
  [(bytes "package", .table [(bytes "metadata", .table [(bytes "mutate",
    .table [(tableName, v)])])])]

theorem leads_manifestOf (v : Value) : Leads (manifestOf v) manifestKeys v :=
  .step rfl (.step rfl (.step rfl (.last rfl)))

def directoryWith (own manifest : Bytes) : Store :=
  (((Store.startingAt []).set [bytes "g"] .directory).set [bytes "g", bytes "rgc.toml"]
    (.file own)).set [bytes "g", bytes "Cargo.toml"] (.file manifest)

/-- The same table in both, with a relative output directory. -/
theorem ofManifest_beside_table :
    let store := directoryWith (bytes "[rendergraph]\nout_dir = \"gen\"\n")
      (bytes "package.metadata.mutate.rendergraph.out_dir = \"gen\"\n")
    let a := Path.join (bytes "g") (bytes "rgc.toml")
    let b := Path.join (bytes "g") (bytes "Cargo.toml")
    let v : Value := .table [(bytes "out_dir", .string (bytes "gen"))]
    rootOf store a = .ok [(tableName, v)] ∧ rootOf store b = .ok (manifestOf v) ∧
      (∃ parent, a.parent? = some parent ∧ b.parent? = some parent ∧
        Beside parent v (ofFile store a) (ofManifest store b) ∧
        (ofManifest store b = ofFile store a ↔ ∃ t, v = .table t)) ∧
      ofManifest store b = .ok { outDir := some (bytes "g/gen") } := by
  intro store a b v
  have own : rootOf store a = .ok [(tableName, v)] := by cbv
  have manifest : rootOf store b = .ok (manifestOf v) := by cbv
  exact ⟨own, manifest, ofManifest_beside (by decide) (by decide) own rfl manifest
    (leads_manifestOf v), by cbv⟩

/-- A number in both: the one file is refused, the other one gives the standard settings. -/
theorem ofManifest_passes_over_number :
    let store := directoryWith (bytes "rendergraph = 3\n")
      (bytes "[package.metadata.mutate]\nrendergraph = 3\n")
    let a := Path.join (bytes "g") (bytes "rgc.toml")
    let b := Path.join (bytes "g") (bytes "Cargo.toml")
    let v : Value := .integer 3
    rootOf store a = .ok [(tableName, v)] ∧ rootOf store b = .ok (manifestOf v) ∧
      Leads (manifestOf v) manifestKeys v ∧
      ofFile store a = .error (.invalidValue tableName .table) ∧ ofManifest store b = .ok {} :=
  ⟨by cbv, by cbv, leads_manifestOf _, by cbv, by cbv⟩

end Settings
end PassCompiler
