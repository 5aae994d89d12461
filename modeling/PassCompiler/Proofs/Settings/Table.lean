import Mathlib
import PassCompiler.Proofs.Settings.Keys
import PassCompiler.Proofs.Toml.Document

/-! Tables of settings. A table is taken if every key is known and takes its value; what is reported
otherwise is the fault of its least faulty key. The order in which the keys are listed does not
count, in the table or in its values. Main statement: `ofTable_exact`. -/
namespace PassCompiler.Settings

open Toml (Value Table)

variable {key : Key} {s s' : Settings} {e : SettingsError} {t t' : Table} {v v' : Value}
  {entry : Bytes × Value}

/-- The field `a` has what the key means, and its standard value where the key is absent. -/
def Field {α : Type} (t : Table) (key : Key) (means : Value → α → Prop) (standard a : α) : Prop :=
  (∀ v, (key.name, v) ∈ t → means v a) ∧ ((∀ v, (key.name, v) ∉ t) → a = standard)

theorem Field.perm {α : Type} {means : Value → α → Prop} {standard a : α} (perm : t.Perm t')
    (field : Field t key means standard a) : Field t' key means standard a := by
  simpa only [Field, perm.mem_iff] using field

/-- A field that a key alone sets has the value of that key. -/
theorem field_of_foldlM {α : Type} {get : Settings → α} {means : Value → α → Prop}
    (own : ∀ s s' v, key.Puts s v s' → means v (get s'))
    (other : ∀ s s' v (other : Key), other ≠ key → other.Puts s v s' → get s' = get s)
    (keys : (t.map (·.1)).Nodup) (done : t.foldlM putEntry s = .ok s') :
    Field t key means (get s) (get s') := by
  induction t generalizing s with
  | nil =>
    obtain rfl := Except.ok.inj done
    exact ⟨fun v member => absurd member List.not_mem_nil, fun _ => rfl⟩
  | cons head rest ih =>
    obtain ⟨name, v⟩ := head
    have fresh : name ∉ rest.map (·.1) := (List.nodup_cons.mp keys).1
    have others : (rest.map (·.1)).Nodup := (List.nodup_cons.mp keys).2
    rw [List.foldlM_cons, bind_ok_iff] at done
    obtain ⟨s₁, step, done⟩ := done
    obtain ⟨first, name, puts⟩ := putEntry_ok_iff.mp step
    obtain rfl : first.name = _ := name
    obtain ⟨given, standard⟩ := ih others done
    have absent : ∀ w, (first.name, w) ∉ rest := fun w member =>
      fresh (List.mem_map.mpr ⟨_, member, rfl⟩)
    by_cases same : first = key
    · subst same
      refine ⟨fun w member => ?_, fun none => absurd (by simp) (none v)⟩
      rcases List.mem_cons.mp member with here | later
      · obtain rfl := (Prod.mk.inj here).2
        rw [standard absent]
        exact own s s₁ _ puts
      · exact absurd later (absent w)
    · refine ⟨fun w member => ?_, fun none => ?_⟩
      · rcases List.mem_cons.mp member with here | later
        · exact absurd (Key.name_injective (Prod.mk.inj here).1.symm) same
        · exact given w later
      · rw [standard fun w member => none w (by simp [member]), other s s₁ v first same puts]

theorem Field.imp {α : Type} {means means' : Value → α → Prop} {standard a : α}
    (field : Field t key means standard a)
    (implies : ∀ v, (key.name, v) ∈ t → means v a → means' v a) :
    Field t key means' standard a :=
  ⟨fun v member => implies v member (field.1 v member), field.2⟩

/-- Each field but that of the key is as it was. -/
structure Key.Leaves (key : Key) (s s' : Settings) : Prop where
  frames : key ≠ .framesInFlight → s'.frames = s.frames
  outDir : key ≠ .outDir → s'.outDir = s.outDir
  contextParam : key ≠ .contextParam → s'.options.contextParam = s.options.contextParam
  frameIndex : key ≠ .frameIndex → s'.options.frameIndex = s.options.frameIndex
  commandPool : key ≠ .commandPool → s'.options.commandPool = s.options.commandPool
  device : key ≠ .device → s'.options.device = s.options.device
  primaryCommandBuffer : key ≠ .primaryCommandBuffer →
    s'.options.primaryCommandBuffer = s.options.primaryCommandBuffer
  includes : key ≠ .includes → s'.options.includes = s.options.includes
  overwrite : key ≠ .overwrite → s'.options.overwrite = s.options.overwrite
  calls : key ≠ .calls → s'.options.calls = s.options.calls

theorem Key.Puts.leaves (puts : key.Puts s v s') : key.Leaves s s' := by
  cases puts <;> constructor <;> simp

/-- What a table gives for a field that one key alone sets. -/
theorem field_of_ofTable {α : Type} {means : Value → α → Prop} (get : Settings → α)
    (own : ∀ {s s' v}, key.Puts s v s' → means v (get s'))
    (leaves : ∀ {other : Key} {s s'}, other.Leaves s s' → other ≠ key → get s' = get s)
    (keys : (t.map (·.1)).Nodup) (done : ofTable t = .ok s) :
    Field t key means (get {}) (get s) := by
  have perm := inKeyOrder_perm t
  refine (field_of_foldlM (fun _ _ _ => own) (fun _ _ _ _ ne puts => ?_)
    ((perm.map _).nodup_iff.mpr keys) done).perm perm
  exact leaves puts.leaves ne

/-- The settings that a table gives: for each field the value of its key, or the standard one. -/
structure Gives (t : Table) (s : Settings) : Prop where
  frames : Field t .framesInFlight
    (fun v frames => ∃ f : Frames, v = .integer f.count ∧ frames = some f) none s.frames
  outDir : Field t .outDir (fun v dir => ∃ text, v = .string text ∧ dir = some text) none s.outDir
  contextParam : Field t .contextParam (fun v text => v = .string text)
    ({} : Options).contextParam s.options.contextParam
  frameIndex : Field t .frameIndex (fun v text => v = .string text)
    ({} : Options).frameIndex s.options.frameIndex
  commandPool : Field t .commandPool (fun v text => v = .string text)
    ({} : Options).commandPool s.options.commandPool
  device : Field t .device (fun v text => v = .string text)
    ({} : Options).device s.options.device
  primaryCommandBuffer : Field t .primaryCommandBuffer (fun v text => v = .string text)
    ({} : Options).primaryCommandBuffer s.options.primaryCommandBuffer
  includes : Field t .includes (fun v texts => v = .array (texts.map .string))
    ({} : Options).includes s.options.includes
  overwrite : Field t .overwrite (fun v b => v = .boolean b)
    ({} : Options).overwrite s.options.overwrite
  calls : Field t .calls (fun v calls => ∃ entries, v = .table entries ∧ Lists entries calls)
    ({} : Options).calls s.options.calls

theorem gives_of_ofTable (distinct : (Value.table t).Distinct) (done : ofTable t = .ok s) :
    Gives t s := by
  obtain ⟨keys, each⟩ := Value.Distinct.table_iff.mp distinct
  have calls : Field t .calls (fun v calls => ∃ entries, v = .table entries ∧
      callsOf entries = .ok calls) ({} : Options).calls s.options.calls :=
    field_of_ofTable (·.options.calls) (fun | .calls _ _ read => ⟨_, rfl, read⟩) (·.calls) keys done
  exact {
    frames := field_of_ofTable (·.frames) (fun | .framesInFlight f => ⟨f, rfl, rfl⟩) (·.frames)
      keys done
    outDir := field_of_ofTable (·.outDir) (fun | .outDir text => ⟨text, rfl, rfl⟩) (·.outDir)
      keys done
    contextParam := field_of_ofTable (·.options.contextParam) (fun | .contextParam _ => rfl)
      (·.contextParam) keys done
    frameIndex := field_of_ofTable (·.options.frameIndex) (fun | .frameIndex _ => rfl)
      (·.frameIndex) keys done
    commandPool := field_of_ofTable (·.options.commandPool) (fun | .commandPool _ => rfl)
      (·.commandPool) keys done
    device := field_of_ofTable (·.options.device) (fun | .device _ => rfl) (·.device) keys done
    primaryCommandBuffer := field_of_ofTable (·.options.primaryCommandBuffer)
      (fun | .primaryCommandBuffer _ => rfl) (·.primaryCommandBuffer) keys done
    includes := field_of_ofTable (·.options.includes) (fun | .includes _ => rfl) (·.includes)
      keys done
    overwrite := field_of_ofTable (·.options.overwrite) (fun | .overwrite _ => rfl) (·.overwrite)
      keys done
    calls := calls.imp fun v member given => by
      obtain ⟨entries, rfl, read⟩ := given
      exact ⟨entries, rfl, lists_of_callsOf (Value.Distinct.table_iff.mp (each _ member)).1 read⟩ }

/-- What is reported is the fault of the least faulty key. -/
theorem ofTable_error_iff (distinct : (Value.table t).Distinct) : ofTable t = .error e ↔
    ∃ entry, Least (fun entry => ¬ Valid entry) t entry ∧ Refused entry e := by
  obtain ⟨keys, each⟩ := Value.Distinct.table_iff.mp distinct
  have perm := inKeyOrder_perm t
  have refused (s : Settings) : ∀ entry ∈ inKeyOrder t, ∀ e,
      s.putEntry entry = .error e ↔ Refused entry e := fun entry member e =>
    putEntry_error_iff (each entry (perm.mem_iff.mp member))
  rw [ofTable, foldlM_error_iff refused (inKeyOrder_sorted keys)]
  refine exists_congr fun entry => and_congr_left fun _ => ?_
  rw [Least.perm_iff perm]
  exact Least.congr fun entry member => refused_iff (each entry member)

theorem exists_putEntry_of_foldlM (done : t.foldlM putEntry s = .ok s') (member : entry ∈ t) :
    ∃ s₁ s₂ : Settings, s₁.putEntry entry = .ok s₂ := by
  induction t generalizing s with
  | nil => contradiction
  | cons head rest ih =>
    rw [List.foldlM_cons, bind_ok_iff] at done
    obtain ⟨s₁, step, done⟩ := done
    rcases List.mem_cons.mp member with rfl | later
    · exact ⟨s, s₁, step⟩
    · exact ih done later

theorem valid_of_ofTable (done : ofTable t = .ok s) (member : entry ∈ t) : Valid entry := by
  obtain ⟨s₁, s₂, step⟩ := exists_putEntry_of_foldlM done ((inKeyOrder_perm t).mem_iff.mpr member)
  obtain ⟨key, name, puts⟩ := putEntry_ok_iff.mp step
  exact ⟨key, name, takes_of_puts puts⟩

/-- A table is taken if all of its entries are valid. -/
theorem ofTable_ok_iff (distinct : (Value.table t).Distinct) :
    (∃ s, ofTable t = .ok s) ↔ ∀ entry ∈ t, Valid entry := by
  constructor
  · rintro ⟨s, done⟩ entry member
    exact valid_of_ofTable done member
  · intro valid
    cases done : ofTable t with
    | ok s => exact ⟨s, rfl⟩
    | error e =>
      obtain ⟨entry, ⟨member, notValid, _⟩, _⟩ := (ofTable_error_iff distinct).mp done
      exact absurd (valid entry member) notValid

/-- Values that are read alike, by a list of texts, by the calls and as the value of a key. -/
structure ReadAlike (v v' : Value) : Prop where
  string : v.string? = v'.string?
  natural : natural? v = natural? v'
  put : ∀ (s : Settings) (key : Key), s.put key v = s.put key v'
  ofTable : ∀ t, v = .table t → ∃ t', v' = .table t' ∧ ofTable t = Settings.ofTable t'

theorem readAlike_tables (calls : callsOf t = callsOf t') (settings : ofTable t = ofTable t') :
    ReadAlike (.table t) (.table t') where
  string := rfl
  natural := rfl
  put s key := by
    cases key
    case calls =>
      change (callsOf t >>= _) = (callsOf t' >>= _)
      rw [calls]
    all_goals rfl
  ofTable _ is := ⟨t', rfl, Value.table.inj is ▸ settings⟩

theorem readAlike_of_reordered (h : v.Reordered v') (distinct : v.Distinct) :
    ReadAlike v v' := by
  induction h with
  | refl v => exact ⟨rfl, rfl, fun _ _ => rfl, fun t is => ⟨t, is, rfl⟩⟩
  | swap perm =>
    have order := inKeyOrder_congr perm (Value.Distinct.table_iff.mp distinct).1
    refine readAlike_tables ?_ ?_
    · rw [callsOf, callsOf, order]
    · rw [ofTable, Settings.ofTable, order]
  | @entry v v' front key behind _ ih =>
    have alike := ih ((Value.Distinct.table_iff.mp distinct).2 (key, v) (by simp))
    have mapM_eq (l : Table) : l.mapM callOf = (l.map callOf).mapM id := by
      rw [List.mapM_map]
      rfl
    have foldlM_eq (l : Table) : l.foldlM putEntry {} =
        (l.map fun e s => putEntry s e).foldlM (fun s put => put s) {} := by
      rw [List.foldlM_map]
    have call : callOf (key, v) = callOf (key, v') := by rw [callOf, callOf, alike.natural]
    have entry : (fun s : Settings => s.putEntry (key, v)) = fun s => s.putEntry (key, v') := by
      funext s
      simp only [putEntry, alike.put]
    refine readAlike_tables ?_ ?_
    · rw [callsOf_eq_mapM, callsOf_eq_mapM, mapM_eq, mapM_eq, map_inKeyOrder]
      simp [call]
    · rw [ofTable, Settings.ofTable, foldlM_eq, foldlM_eq, map_inKeyOrder]
      simp [entry]
  | @item v v' front behind _ ih =>
    have alike := ih (Value.Distinct.array_iff.mp distinct v (by simp))
    have texts : strings? (.array (front ++ v :: behind)) =
        strings? (.array (front ++ v' :: behind)) := by
      simp [strings?, Value.array?, alike.string]
    refine ⟨rfl, rfl, fun s key => ?_, fun t is => Value.noConfusion is⟩
    cases key
    case includes => rw [put, put, texts]
    all_goals rfl
  | trans first _ ih ih' =>
    have alike := ih distinct
    have alike' := ih' (first.distinct distinct)
    refine ⟨alike.string.trans alike'.string, alike.natural.trans alike'.natural,
      fun s key => (alike.put s key).trans (alike'.put s key), fun t is => ?_⟩
    obtain ⟨t₁, is, same⟩ := alike.ofTable t is
    obtain ⟨t₂, is, same'⟩ := alike'.ofTable t₁ is
    exact ⟨t₂, is, same.trans same'⟩

structure ReadExactly (t : Table) : Prop where
  accepted : (∃ s, ofTable t = .ok s) ↔ ∀ entry ∈ t, Valid entry
  given : ∀ s, ofTable t = .ok s → Gives t s
  /-- The least faulty key is reported; of a table of calls, the least faulty name. -/
  refused : ∀ e, ofTable t = .error e ↔
    ∃ entry, Least (fun entry => ¬ Valid entry) t entry ∧ Refused entry e
  /-- The keys of the table, and of the tables in its values, may be listed in any order. -/
  reordered : ∀ t', (Value.table t).Reordered (.table t') → ofTable t' = ofTable t

/-- Every table is read exactly: all of its entries or the least fault, whatever their order. -/
theorem ofTable_exact (distinct : (Value.table t).Distinct) : ReadExactly t where
  accepted := ofTable_ok_iff distinct
  given _ := gives_of_ofTable distinct
  refused _ := ofTable_error_iff distinct
  reordered t' reordered := by
    obtain ⟨t₁, is, same⟩ := (readAlike_of_reordered reordered distinct).ofTable t rfl
    rw [same, Value.table.inj is]

/-- A document with two faulty keys, the lesser one with two faulty names. -/
theorem ofTable_exact_calls :
    let text := bytes "[rendergraph]\noverwrite = 3\ncalls.b = -1\ncalls.a = true\n"
    let t : Table := [(bytes "overwrite", .integer 3),
      (bytes "calls", .table [(bytes "b", .integer (-1)), (bytes "a", .boolean true)])]
    Toml.parse text = some [(tableName, .table t)] ∧ (Value.table t).Distinct ∧ ReadExactly t ∧
      ofTable t = .error (.invalidValue (bytes "calls.a") .index) := by
  intro text t
  have parsed : Toml.parse text = some [(tableName, .table t)] := by
    unfold text t
    cbv
  have found : List.lookup tableName [(tableName, Value.table t)] = some (.table t) := rfl
  have distinct := Toml.distinct_of_lookup parsed found
  exact ⟨parsed, distinct, ofTable_exact distinct, by cbv⟩

end PassCompiler.Settings
