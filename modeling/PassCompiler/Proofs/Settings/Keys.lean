import PassCompiler.Proofs.Settings.Order
import PassCompiler.Proofs.Toml.Distinct

/-! The keys of the settings: which values they take, what they do with them, and the error for a
value that they do not take. Main statements: `put_ok_iff` and `put_error_iff` for a key,
`putEntry_ok_iff` and `putEntry_error_iff` for an entry. -/
namespace PassCompiler

open Toml (Value Table)

inductive Expectation.Met : Expectation → Value → Prop
  | string (text : Bytes) : Met .string (.string text)
  | boolean (b : Bool) : Met .boolean (.boolean b)
  | strings (texts : List Bytes) : Met .strings (.array (texts.map .string))
  | table (entries : Table) : Met .table (.table entries)
  | frames (n : Nat) : 1 ≤ n → n ≤ 255 → Met .frames (.integer n)
  | index (n : Nat) : Met .index (.integer n)

namespace Settings

variable {v : Value} {n : Nat} {texts : List Bytes} {key : Key} {s s' : Settings}
  {e : SettingsError} {entries : Table} {entry : Bytes × Value}

theorem string?_eq_some_iff {text : Bytes} : v.string? = some text ↔ v = .string text := by
  cases v <;> simp [Value.string?]

theorem boolean?_eq_some_iff {b : Bool} : v.boolean? = some b ↔ v = .boolean b := by
  cases v <;> simp [Value.boolean?]

theorem table?_eq_some_iff : v.table? = some entries ↔ v = .table entries := by
  cases v <;> simp [Value.table?]

theorem natural?_eq_some_iff : natural? v = some n ↔ v = .integer n := by
  unfold natural?
  cases v with
  | integer i =>
    simp only [Value.integer?, Option.bind_some, Value.integer.injEq]
    split
    · rw [Option.some.injEq]
      omega
    · simp only [reduceCtorEq, false_iff]
      omega
  | string | float | boolean | datetime | array | table => simp [Value.integer?]

theorem frames?_eq_some_iff {f : Frames} : frames? v = some f ↔ v = .integer f.count := by
  rw [frames?, Option.bind_eq_some_iff]
  constructor
  · rintro ⟨n, natural, inRange⟩
    rw [Frames.ofNat?] at inRange
    split at inRange
    · obtain rfl := Option.some.inj inRange
      exact natural?_eq_some_iff.mp natural
    · contradiction
  · intro is
    refine ⟨f.count, natural?_eq_some_iff.mpr is, ?_⟩
    rw [Frames.ofNat?, dif_pos ⟨f.pos, f.le⟩]

theorem strings?_eq_some_iff : strings? v = some texts ↔ v = .array (texts.map .string) := by
  cases v with
  | array items =>
    have read : items.mapM Value.string? = some texts ↔ items = texts.map .string := by
      induction items generalizing texts with
      | nil => cases texts <;> simp
      | cons item items ih =>
        rw [List.mapM_cons]
        cases texts with
        | nil => cases item.string? <;> cases items.mapM Value.string? <;> simp
        | cons text texts =>
          rw [List.map_cons, List.cons.injEq, ← ih, ← string?_eq_some_iff]
          cases item.string? <;> cases items.mapM Value.string? <;> simp
    simpa [strings?, Value.array?] using read
  | string | integer | float | boolean | datetime | table => simp [strings?, Value.array?]

def reads (expected : Expectation) (v : Value) : Bool :=
  match expected with
  | .string => v.string?.isSome
  | .boolean => v.boolean?.isSome
  | .strings => (strings? v).isSome
  | .table => v.table?.isSome
  | .frames => (frames? v).isSome
  | .index => (natural? v).isSome

/-- Every reader takes the values that are as it expects. -/
theorem reads_iff {expected : Expectation} : reads expected v = true ↔ expected.Met v := by
  cases expected <;>
    simp only [reads, Option.isSome_iff_exists, string?_eq_some_iff, boolean?_eq_some_iff,
      strings?_eq_some_iff, table?_eq_some_iff, frames?_eq_some_iff, natural?_eq_some_iff]
  case frames =>
    constructor
    · rintro ⟨f, rfl⟩
      exact .frames f.count f.pos f.le
    · intro met
      cases met with
      | frames n pos le => exact ⟨⟨n, pos, le⟩, rfl⟩
  all_goals
    constructor
    · rintro ⟨a, rfl⟩
      constructor
    · rintro ⟨⟩
      exact ⟨_, rfl⟩

instance (expected : Expectation) (v : Value) : Decidable (expected.Met v) :=
  decidable_of_iff _ reads_iff

section Require

variable {α β : Type} {name : Bytes} {expected : Expectation} {value : Option α} {a : α}

theorem require_ok_iff : require name expected value = .ok a ↔ value = some a := by
  cases value <;> simp [require]

theorem bind_ok_iff {x : Except SettingsError α} {f : α → Except SettingsError β} {b : β} :
    (x >>= f) = .ok b ↔ ∃ a, x = .ok a ∧ f a = .ok b := by
  cases x <;> simp [bind, Except.bind]

theorem bind_error_iff {x : Except SettingsError α} {f : α → Except SettingsError β} :
    (x >>= f) = .error e ↔ x = .error e ∨ ∃ a, x = .ok a ∧ f a = .error e := by
  cases x <;> simp [bind, Except.bind]

/-- A reading fails at a value that is not as expected. -/
theorem require_error_iff (expected : Expectation) (v : Value)
    (same : reads expected v = value.isSome) (f : α → β) :
    (do return f (← require name expected value) : Except SettingsError β) = .error e ↔
      ¬ expected.Met v ∧ .invalidValue name expected = e := by
  rw [← reads_iff, same]
  cases value <;> simp [require, bind, Except.bind, pure, Except.pure]

end Require

/-- The calls that a table lists: its entries sorted by their names, each name once. -/
structure Lists (entries : Table) (calls : List (Bytes × Nat)) : Prop where
  entries : (calls.map fun call => (call.1, Value.integer call.2)).Perm entries
  sorted : calls.Pairwise (·.1 < ·.1)

def callOf (entry : Bytes × Value) : Except SettingsError (Bytes × Nat) := do
  return (entry.1, ← require (bytes "calls." ++ entry.1) .index (natural? entry.2))

theorem callsOf_eq_mapM (t : Table) : callsOf t = (inKeyOrder t).mapM callOf := rfl

theorem callOf_ok_iff {call : Bytes × Nat} :
    callOf entry = .ok call ↔ entry = (call.1, .integer call.2) := by
  obtain ⟨name, v⟩ := entry
  obtain ⟨name', n⟩ := call
  simp only [callOf, bind_ok_iff, require_ok_iff, natural?_eq_some_iff, pure, Except.pure,
    Except.ok.injEq, Prod.mk.injEq]
  constructor
  · rintro ⟨_, rfl, rfl, rfl⟩
    exact ⟨rfl, rfl⟩
  · rintro ⟨rfl, rfl⟩
    exact ⟨n, rfl, rfl, rfl⟩

theorem callOf_error_iff : callOf entry = .error e ↔
    ¬ Expectation.index.Met entry.2 ∧ .invalidValue (bytes "calls." ++ entry.1) .index = e :=
  require_error_iff .index entry.2 rfl _

theorem callsOf_ok_iff {calls : List (Bytes × Nat)} : callsOf entries = .ok calls ↔
    inKeyOrder entries = calls.map fun call => (call.1, .integer call.2) := by
  rw [callsOf_eq_mapM]
  generalize inKeyOrder entries = l
  induction l generalizing calls with
  | nil => cases calls <;> simp [pure, Except.pure]
  | cons head rest ih =>
    simp only [List.mapM_cons, bind_ok_iff, callOf_ok_iff, ih]
    cases calls with
    | nil => simp [pure, Except.pure]
    | cons call calls =>
      simp only [pure, Except.pure, Except.ok.injEq, List.cons.injEq, List.map_cons]
      constructor
      · rintro ⟨_, same, _, others, rfl, rfl⟩
        exact ⟨same, others⟩
      · rintro ⟨same, others⟩
        exact ⟨call, same, calls, others, rfl, rfl⟩

theorem lists_of_callsOf {calls : List (Bytes × Nat)} (keys : (entries.map (·.1)).Nodup)
    (read : callsOf entries = .ok calls) : Lists entries calls := by
  have order := callsOf_ok_iff.mp read
  have sorted := inKeyOrder_sorted keys
  rw [order] at sorted
  exact ⟨order ▸ inKeyOrder_perm entries, by simpa [List.pairwise_map] using sorted⟩

theorem callsOf_error_iff (keys : (entries.map (·.1)).Nodup) : callsOf entries = .error e ↔
    ∃ entry, Least (fun entry => ¬ Expectation.index.Met entry.2) entries entry ∧
      .invalidValue (bytes "calls." ++ entry.1) .index = e := by
  rw [callsOf_eq_mapM, mapM_error_iff (inKeyOrder_sorted keys)]
  simp only [callOf_error_iff, exists_and_left, exists_eq', and_true,
    Least.perm_iff (inKeyOrder_perm entries)]
  refine exists_congr fun entry => and_congr_right fun least => ?_
  simp [least.2.1]

def Key.expected : Key → Expectation
  | .framesInFlight => .frames
  | .outDir | .contextParam | .frameIndex | .commandPool | .device
  | .primaryCommandBuffer => .string
  | .includes => .strings
  | .overwrite => .boolean
  | .calls => .table

/-- The values that a key takes: of the expected kind, and each call with an index. -/
def Key.Takes (key : Key) (v : Value) : Prop :=
  key.expected.Met v ∧ (key = .calls → ∀ entries, v = .table entries →
    ∀ entry ∈ entries, Expectation.index.Met entry.2)

/-- The error for a value that a key does not take. -/
inductive Key.Refuses : Key → Value → SettingsError → Prop
  | kind (key : Key) (v : Value) : ¬ key.expected.Met v →
      Refuses key v (.invalidValue key.name key.expected)
  | call (entries : Table) (entry : Bytes × Value) :
      Least (fun entry => ¬ Expectation.index.Met entry.2) entries entry →
      Refuses .calls (.table entries) (.invalidValue (bytes "calls." ++ entry.1) .index)

inductive Key.Puts (s : Settings) : Key → Value → Settings → Prop
  | framesInFlight (f : Frames) :
      Puts s .framesInFlight (.integer f.count) { s with frames := some f }
  | outDir (text : Bytes) : Puts s .outDir (.string text) { s with outDir := some text }
  | contextParam (text : Bytes) : Puts s .contextParam (.string text)
      { s with options := { s.options with contextParam := text } }
  | frameIndex (text : Bytes) : Puts s .frameIndex (.string text)
      { s with options := { s.options with frameIndex := text } }
  | commandPool (text : Bytes) : Puts s .commandPool (.string text)
      { s with options := { s.options with commandPool := text } }
  | device (text : Bytes) : Puts s .device (.string text)
      { s with options := { s.options with device := text } }
  | primaryCommandBuffer (text : Bytes) : Puts s .primaryCommandBuffer (.string text)
      { s with options := { s.options with primaryCommandBuffer := text } }
  | includes (texts : List Bytes) : Puts s .includes (.array (texts.map .string))
      { s with options := { s.options with includes := texts } }
  | overwrite (b : Bool) : Puts s .overwrite (.boolean b)
      { s with options := { s.options with overwrite := b } }
  | calls (entries : Table) (calls : List (Bytes × Nat)) : callsOf entries = .ok calls →
      Puts s .calls (.table entries) { s with options := { s.options with calls } }

theorem put_ok_iff : s.put key v = .ok s' ↔ key.Puts s v s' := by
  constructor
  · intro done
    cases key <;>
      simp only [put, bind_ok_iff, require_ok_iff, string?_eq_some_iff, boolean?_eq_some_iff,
        table?_eq_some_iff, frames?_eq_some_iff, strings?_eq_some_iff, pure, Except.pure,
        Except.ok.injEq] at done
    case calls =>
      obtain ⟨entries, rfl, calls, read, rfl⟩ := done
      exact .calls entries calls read
    all_goals
      obtain ⟨a, rfl, rfl⟩ := done
      constructor
  · intro puts
    cases puts <;>
      simp only [put, bind_ok_iff, require_ok_iff, string?_eq_some_iff, boolean?_eq_some_iff,
        table?_eq_some_iff, frames?_eq_some_iff, strings?_eq_some_iff, pure, Except.pure,
        Except.ok.injEq]
    case calls entries calls read => exact ⟨entries, rfl, calls, read, rfl⟩
    all_goals exact ⟨_, rfl, rfl⟩

theorem refuses_iff_of_ne (ne : key ≠ .calls) : key.Refuses v e ↔
    ¬ key.expected.Met v ∧ .invalidValue key.name key.expected = e := by
  constructor
  · rintro (⟨_, _, not⟩ | _)
    · exact ⟨not, rfl⟩
    · contradiction
  · rintro ⟨not, rfl⟩
    exact .kind key v not

theorem put_calls_error_iff (keys : (entries.map (·.1)).Nodup) :
    s.put .calls (.table entries) = .error e ↔ Key.Refuses .calls (.table entries) e := by
  have read : s.put .calls (.table entries) = .error e ↔ callsOf entries = .error e := by
    change (callsOf entries >>= _) = .error e ↔ _
    rw [bind_error_iff]
    simp [pure, Except.pure]
  rw [read, callsOf_error_iff keys]
  constructor
  · rintro ⟨entry, least, rfl⟩
    exact .call entries entry least
  · intro refuses
    cases refuses with
    | kind _ _ not => exact absurd (.table entries) not
    | call _ entry least => exact ⟨entry, least, rfl⟩

theorem put_error_iff (distinct : v.Distinct) : s.put key v = .error e ↔ key.Refuses v e := by
  by_cases ne : key = .calls
  · subst ne
    cases table : v.table? with
    | some entries =>
      obtain rfl := table?_eq_some_iff.mp table
      exact put_calls_error_iff (Value.Distinct.table_iff.mp distinct).1
    | none =>
      have not : ¬ Expectation.table.Met v := by
        rw [← reads_iff, reads, table]
        simp
      have read : s.put .calls v = .error (.invalidValue Key.calls.name .table) := by
        rw [put, table]
        rfl
      rw [read, Except.error.injEq]
      constructor
      · rintro rfl
        exact .kind .calls v not
      · intro refuses
        cases refuses with
        | kind => rfl
        | call entries => exact absurd (.table entries) not
  · rw [refuses_iff_of_ne ne]
    cases key
    case calls => contradiction
    case framesInFlight => exact require_error_iff .frames v rfl _
    case includes => exact require_error_iff .strings v rfl _
    case overwrite => exact require_error_iff .boolean v rfl _
    all_goals exact require_error_iff .string v rfl _

/-- A key of the settings, with a value that it takes. -/
def Valid (entry : Bytes × Value) : Prop := ∃ key : Key, key.name = entry.1 ∧ key.Takes entry.2

/-- The error for an entry that is not valid. -/
inductive Refused : Bytes × Value → SettingsError → Prop
  | unknown (name : Bytes) (v : Value) : (∀ key : Key, key.name ≠ name) →
      Refused (name, v) (.unknownKey name)
  | value (key : Key) (v : Value) (e : SettingsError) : key.Refuses v e → Refused (key.name, v) e

theorem ofName?_eq_some_iff {name : Bytes} : Key.ofName? name = some key ↔ key.name = name := by
  constructor
  · intro found
    rw [Key.ofName?] at found
    simpa using List.find?_some found
  · rintro rfl
    cases key <;> decide

theorem Key.name_injective : Function.Injective Key.name := by
  intro k k' same
  exact Option.some.inj ((ofName?_eq_some_iff.mpr same).symm.trans (ofName?_eq_some_iff.mpr rfl))

theorem ofName?_eq_none_iff {name : Bytes} :
    Key.ofName? name = none ↔ ∀ key : Key, key.name ≠ name := by
  rw [Option.eq_none_iff_forall_ne_some]
  exact forall_congr' fun key => not_congr ofName?_eq_some_iff

theorem putEntry_ok_iff : s.putEntry entry = .ok s' ↔
    ∃ key : Key, key.name = entry.1 ∧ key.Puts s entry.2 s' := by
  rw [putEntry]
  cases found : Key.ofName? entry.1 with
  | none =>
    have unknown := ofName?_eq_none_iff.mp found
    simp [unknown]
  | some key =>
    have name := ofName?_eq_some_iff.mp found
    constructor
    · intro done
      exact ⟨key, name, put_ok_iff.mp done⟩
    · rintro ⟨key', name', puts⟩
      obtain rfl := Key.name_injective (name.trans name'.symm)
      exact put_ok_iff.mpr puts

theorem putEntry_error_iff (distinct : entry.2.Distinct) :
    s.putEntry entry = .error e ↔ Refused entry e := by
  obtain ⟨name, v⟩ := entry
  rw [putEntry]
  cases found : Key.ofName? name with
  | none =>
    have unknown := ofName?_eq_none_iff.mp found
    constructor
    · intro failed
      obtain rfl := Except.error.inj failed
      exact .unknown name v unknown
    · intro refused
      cases refused with
      | unknown => rfl
      | value key => exact absurd rfl (unknown key)
  | some key =>
    obtain rfl := ofName?_eq_some_iff.mp found
    dsimp only
    rw [put_error_iff distinct]
    constructor
    · exact .value key v e
    · intro refused
      generalize same : key.name = name at refused
      cases refused with
      | unknown _ _ unknown => exact absurd same (unknown key)
      | value key' _ _ refuses => rwa [Key.name_injective same]

theorem takes_of_puts (puts : key.Puts s v s') : key.Takes v := by
  refine ⟨?_, ?_⟩
  · cases puts with
    | framesInFlight f => exact .frames f.count f.pos f.le
    | _ => constructor
  · rintro rfl entries rfl entry member
    cases puts with
    | calls _ calls read =>
      rw [← (inKeyOrder_perm entries).mem_iff, callsOf_ok_iff.mp read] at member
      obtain ⟨call, _, rfl⟩ := List.mem_map.mp member
      exact .index call.2

theorem Key.Refuses.not_takes (refuses : key.Refuses v e) : ¬ key.Takes v := by
  rintro ⟨met, calls⟩
  cases refuses with
  | kind _ _ not => exact not met
  | call entries entry least => exact least.2.1 (calls rfl entries rfl entry least.1)

/-- What is refused is what is not valid. -/
theorem refused_iff (distinct : entry.2.Distinct) : (∃ e, Refused entry e) ↔ ¬ Valid entry := by
  constructor
  · rintro ⟨e, refused⟩ ⟨key, name, takes⟩
    cases refused with
    | unknown _ _ unknown => exact unknown key name
    | value key' v e refuses =>
      obtain rfl := Key.name_injective name
      exact refuses.not_takes takes
  · intro notValid
    cases done : ({} : Settings).putEntry entry with
    | error e => exact ⟨e, (putEntry_error_iff distinct).mp done⟩
    | ok s' =>
      obtain ⟨key, name, puts⟩ := putEntry_ok_iff.mp done
      exact absurd ⟨key, name, takes_of_puts puts⟩ notValid

end Settings
end PassCompiler
