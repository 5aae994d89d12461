import PassCompiler.Proofs.Toml.Distinct

/-! Documents give tables without a repeated key: what is added to a table under construction is new
in it, and values are closed. Main statement: `distinct_of_parse`. -/
namespace PassCompiler.Toml

variable {s rest : Bytes} {v v' : Value} {key : Bytes} {path : List Bytes} {t : Table}
  {es es' : Entries} {origin origin' : Origin} {dotted : Bool}

theorem entriesToTable_eq (es : Entries) :
    entriesToTable es = es.map fun e => (e.1, e.2.toValue) := by
  induction es with
  | nil => rfl
  | cons e es ih => rw [entriesToTable, ih, List.map_cons]

theorem mem_tablesToValues {earlier : List Entries} {later : List Value} :
    v ∈ tablesToValues earlier later ↔
      v ∈ later ∨ ∃ es ∈ earlier, v = .table (entriesToTable es) := by
  induction earlier generalizing later with
  | nil => simp [tablesToValues]
  | cons es earlier ih =>
    rw [tablesToValues, ih]
    simp only [List.mem_cons, or_and_right, exists_or, exists_eq_left, or_assoc, or_left_comm]

namespace Entries

def Distinct (es : Entries) : Prop := (Value.table (entriesToTable es)).Distinct

theorem distinct_iff : es.Distinct ↔
    (es.map (·.1)).Nodup ∧ ∀ e ∈ es, e.2.toValue.Distinct := by
  rw [Distinct, Value.Distinct.table_iff, entriesToTable_eq, List.map_map, List.forall_mem_map]
  rfl

theorem distinct_nil : Distinct [] := distinct_iff.mpr (by simp)

theorem distinct_tables {latest : Entries} {earlier : List Entries} :
    (Item.tables latest earlier).toValue.Distinct ↔
      latest.Distinct ∧ ∀ es ∈ earlier, Distinct es := by
  rw [Item.toValue, Value.Distinct.array_iff]
  simp only [mem_tablesToValues, List.mem_singleton]
  constructor
  · intro each
    exact ⟨each _ (.inl rfl), fun es member => each _ (.inr ⟨es, member, rfl⟩)⟩
  · rintro ⟨latest, earlier⟩ v (rfl | ⟨es, member, rfl⟩)
    · exact latest
    · exact earlier es member

section Alter

variable {f : Option Item → Option Item}

theorem mem_keys_of_alter (done : alter key f es = some es') {k : Bytes}
    (member : k ∈ es'.map (·.1)) : k = key ∨ k ∈ es.map (·.1) := by
  induction es generalizing es' with
  | nil =>
    obtain ⟨item, _, rfl⟩ := Option.map_eq_some_iff.mp done
    exact .inl (List.mem_singleton.mp member)
  | cons e es ih =>
    rw [alter] at done
    split at done
    · obtain ⟨item, _, rfl⟩ := Option.map_eq_some_iff.mp done
      exact .inr member
    · obtain ⟨others, altered, rfl⟩ := Option.map_eq_some_iff.mp done
      rcases List.mem_cons.mp member with rfl | later
      · exact .inr (by simp)
      · exact (ih altered later).imp_right (List.mem_cons_of_mem _)

/-- A change keeps keys apart if it keeps those in the item that it changes. -/
theorem distinct_alter (keeps : ∀ old new, f old = some new →
    (∀ item, old = some item → item.toValue.Distinct) → new.toValue.Distinct)
    (done : alter key f es = some es') (distinct : es.Distinct) : es'.Distinct := by
  induction es generalizing es' with
  | nil =>
    obtain ⟨item, changed, rfl⟩ := Option.map_eq_some_iff.mp done
    have := keeps none item changed (fun _ none => nomatch none)
    exact distinct_iff.mpr ⟨by simp, List.forall_mem_singleton.mpr this⟩
  | cons e es ih =>
    obtain ⟨keys, each⟩ := distinct_iff.mp distinct
    obtain ⟨first, others⟩ := List.forall_mem_cons.mp each
    obtain ⟨fresh, keys'⟩ := List.nodup_cons.mp keys
    rw [alter] at done
    split at done
    · obtain ⟨item, changed, rfl⟩ := Option.map_eq_some_iff.mp done
      refine distinct_iff.mpr ⟨keys, List.forall_mem_cons.mpr ⟨?_, others⟩⟩
      refine keeps _ item changed fun old same => ?_
      obtain rfl := Option.some.inj same
      exact first
    · next other =>
      obtain ⟨es', altered, rfl⟩ := Option.map_eq_some_iff.mp done
      obtain ⟨apart, each'⟩ := distinct_iff.mp (ih altered (distinct_iff.mpr ⟨keys', others⟩))
      refine distinct_iff.mpr ⟨List.nodup_cons.mpr ⟨fun member => ?_, apart⟩,
        List.forall_mem_cons.mpr ⟨first, each'⟩⟩
      rcases mem_keys_of_alter altered member with same | late
      · exact other (beq_iff_eq.mpr same)
      · exact fresh late

end Alter

def Keeps (f : Origin → Entries → Option (Origin × Entries)) : Prop :=
  ∀ origin es origin' es', f origin es = some (origin', es') → es.Distinct → es'.Distinct

theorem Keeps.within {f : Origin → Entries → Option (Origin × Entries)} (keeps : Keeps f)
    (dotted : Bool) (path : List Bytes) : Keeps (within dotted f path) := by
  induction path with
  | nil => exact keeps
  | cons key path ih =>
    intro origin es origin' es' done distinct
    rw [Entries.within] at done
    obtain ⟨altered, changes, same⟩ := Option.map_eq_some_iff.mp done
    obtain ⟨rfl, rfl⟩ := Prod.mk.inj same
    refine distinct_alter (fun old new changed before => ?_) changes distinct
    -- The table that the path goes on in, and what it becomes.
    have inner {o o' : Origin} {e e' : Entries}
        (ok : Entries.within dotted f path o e = some (o', e')) (distinct : e.Distinct) :
        e'.Distinct := ih o e o' e' ok distinct
    match old with
    | none =>
      obtain ⟨⟨o, e⟩, ok, rfl⟩ := Option.map_eq_some_iff.mp changed
      exact inner ok distinct_nil
    | some (.value _) => contradiction
    | some (.table o e) =>
      dsimp only at changed
      split at changed
      · contradiction
      · obtain ⟨⟨o', e'⟩, ok, rfl⟩ := Option.map_eq_some_iff.mp changed
        exact inner ok (before _ rfl)
    | some (.tables latest earlier) =>
      obtain ⟨⟨o', e'⟩, ok, rfl⟩ := Option.map_eq_some_iff.mp changed
      obtain ⟨latest, earlier⟩ := distinct_tables.mp (before _ rfl)
      exact distinct_tables.mpr ⟨inner ok latest, earlier⟩

theorem Keeps.of_alter {f : Option Item → Option Item} {name : Bytes}
    (keeps : ∀ old new, f old = some new →
      (∀ item, old = some item → item.toValue.Distinct) → new.toValue.Distinct) :
    Keeps fun origin es => (alter name f es).map (origin, ·) := by
  intro origin es origin' es' done distinct
  obtain ⟨altered, changes, same⟩ := Option.map_eq_some_iff.mp done
  obtain ⟨rfl, rfl⟩ := Prod.mk.inj same
  exact distinct_alter keeps changes distinct

theorem keeps_insert (distinct : v.Distinct) (path : List Bytes) : Keeps (insert path v) := by
  intro origin es origin' es' done
  rw [insert] at done
  split at done
  · contradiction
  · refine Keeps.within ?_ true path.dropLast origin es origin' es' done
    intro o es o' es' added
    dsimp only at added
    split at added
    · contradiction
    · refine Keeps.of_alter (fun old new changed _ => ?_) o es o' es' added
      split at changed
      · obtain rfl := Option.some.inj changed
        exact distinct
      · contradiction

theorem keeps_openTable (name : Bytes) : Keeps (openTable name) := by
  refine Keeps.of_alter fun old new changed before => ?_
  split at changed
  · obtain rfl := Option.some.inj changed
    exact distinct_nil
  · obtain rfl := Option.some.inj changed
    exact before (.table .implied _) rfl
  · contradiction

theorem keeps_openElement (name : Bytes) : Keeps (openElement name) := by
  refine Keeps.of_alter fun old new changed before => ?_
  split at changed
  · obtain rfl := Option.some.inj changed
    exact distinct_tables.mpr ⟨distinct_nil, by simp⟩
  · obtain rfl := Option.some.inj changed
    obtain ⟨latest, earlier⟩ := distinct_tables.mp (before _ rfl)
    exact distinct_tables.mpr ⟨distinct_nil, List.forall_mem_cons.mpr ⟨latest, earlier⟩⟩
  · contradiction

end Entries

/-- A step that keeps a property keeps it in a run. -/
theorem foldlM_keeps {α β : Type} {P : β → Prop} {step : β → α → Option β} {l : List α}
    (keeps : ∀ a ∈ l, ∀ b b', step b a = some b' → P b → P b') {b b' : β}
    (done : l.foldlM step b = some b') (holds : P b) : P b' := by
  induction l generalizing b with
  | nil =>
    obtain rfl := Option.some.inj done
    exact holds
  | cons a l ih =>
    obtain ⟨first, later⟩ := List.forall_mem_cons.mp keeps
    rw [List.foldlM_cons, Option.bind_eq_bind, Option.bind_eq_some_iff] at done
    obtain ⟨b₁, step, done⟩ := done
    exact ih later done (first b b₁ step holds)

theorem distinct_tableOf {entries : List (List Bytes × Value)}
    (each : ∀ e ∈ entries, e.2.Distinct) (done : tableOf entries = some t) :
    (Value.table t).Distinct := by
  rw [tableOf, Option.bind_eq_bind, Option.bind_eq_some_iff] at done
  obtain ⟨⟨origin, es⟩, inserted, same⟩ := done
  obtain rfl := Option.some.inj same
  refine foldlM_keeps (P := fun state => Entries.Distinct state.2) ?_ inserted Entries.distinct_nil
  rintro ⟨path, v⟩ member ⟨o, es⟩ ⟨o', es'⟩ step
  exact Entries.keeps_insert (each _ member) path o es o' es' step

def ReadsDistinct (item : Reader Value) : Prop :=
  ∀ s v rest, item s = some (v, rest) → v.Distinct

theorem distinct_items {item : Reader Value} (reads : ReadsDistinct item) {vs : List Value}
    (done : items item s = some (vs, rest)) : ∀ v ∈ vs, v.Distinct := by
  induction s using items.induct generalizing vs with
  | case1 s ih =>
    rw [items] at done
    simp only [Option.bind_eq_bind, Option.bind_eq_some_iff] at done
    obtain ⟨t, _, done⟩ := done
    split at done
    · obtain ⟨rfl, _⟩ := Prod.mk.inj (Option.some.inj done)
      simp
    · simp only [Option.bind_eq_some_iff] at done
      obtain ⟨⟨v, behind⟩, read, t', _, done⟩ := done
      have first := reads _ _ _ read
      dsimp only at done
      split at done
      · obtain ⟨rfl, _⟩ := Prod.mk.inj (Option.some.inj done)
        exact List.forall_mem_singleton.mpr first
      · split at done
        · next shorter =>
          obtain ⟨⟨vs', _⟩, later, same⟩ := Option.map_eq_some_iff.mp done
          obtain ⟨rfl, rfl⟩ := Prod.mk.inj same
          exact List.forall_mem_cons.mpr ⟨first, ih _ shorter later⟩
        · contradiction
      · contradiction

theorem distinct_keyValue {gap : Bytes → Option Bytes} {item : Reader Value}
    (reads : ReadsDistinct item) {entry : List Bytes × Value}
    (done : keyValue gap item s = some (entry, rest)) : entry.2.Distinct := by
  simp only [keyValue, Option.bind_eq_bind, Option.bind_eq_some_iff] at done
  obtain ⟨⟨k, _⟩, _, _, _, _, _, _, _, ⟨v, behind⟩, read, same⟩ := done
  obtain ⟨rfl, _⟩ := Prod.mk.inj (Option.some.inj same)
  exact reads _ v behind read

theorem distinct_inlineEntries {item : Reader Value} (reads : ReadsDistinct item)
    {entries : List (List Bytes × Value)} (done : inlineEntries item s = some (entries, rest)) :
    ∀ e ∈ entries, e.2.Distinct := by
  induction s using inlineEntries.induct generalizing entries with
  | case1 s ih =>
    rw [inlineEntries] at done
    simp only [Option.bind_eq_bind, Option.bind_eq_some_iff] at done
    obtain ⟨t, _, done⟩ := done
    split at done
    · obtain ⟨rfl, _⟩ := Prod.mk.inj (Option.some.inj done)
      simp
    · simp only [Option.bind_eq_some_iff] at done
      obtain ⟨⟨entry, behind⟩, read, t', _, done⟩ := done
      have first := distinct_keyValue reads read
      dsimp only at done
      split at done
      · obtain ⟨rfl, _⟩ := Prod.mk.inj (Option.some.inj done)
        exact List.forall_mem_singleton.mpr first
      · split at done
        · next shorter =>
          obtain ⟨⟨others, _⟩, later, same⟩ := Option.map_eq_some_iff.mp done
          obtain ⟨rfl, rfl⟩ := Prod.mk.inj same
          exact List.forall_mem_cons.mpr ⟨first, ih _ shorter later⟩
        · contradiction
      · contradiction

theorem isPlain_integer? (h : integer? s = some v) : v.IsPlain := by
  unfold integer? at h
  split at h
  · obtain ⟨ds, _, rfl⟩ := Option.map_eq_some_iff.mp h
    exact ⟨rfl, rfl⟩
  · obtain ⟨ds, _, rfl⟩ := Option.map_eq_some_iff.mp h
    exact ⟨rfl, rfl⟩
  · obtain ⟨ds, _, rfl⟩ := Option.map_eq_some_iff.mp h
    exact ⟨rfl, rfl⟩
  · simp only [Option.bind_eq_bind, Option.bind_eq_some_iff] at h
    obtain ⟨ds, _, same⟩ := h
    obtain rfl := Option.some.inj same
    exact ⟨rfl, rfl⟩

theorem isPlain_float? (h : float? s = some v) : v.IsPlain := by
  unfold float? at h
  split at h
  · obtain rfl := Option.some.inj h
    exact ⟨rfl, rfl⟩
  · contradiction

theorem isPlain_datetime? (h : datetime? s = some v) : v.IsPlain := by
  have only : v = .datetime s := by
    unfold datetime? at h
    split at h
    · exact (Option.some.inj h).symm
    · split at h
      · exact (Option.some.inj h).symm
      · contradiction
    · split at h
      · exact (Option.some.inj h).symm
      · contradiction
  exact only ▸ ⟨rfl, rfl⟩

theorem isPlain_scalar? (h : scalar? s = some v) : v.IsPlain := by
  unfold scalar? at h
  split at h
  · obtain rfl := Option.some.inj h
    exact ⟨rfl, rfl⟩
  · split at h
    · obtain rfl := Option.some.inj h
      exact ⟨rfl, rfl⟩
    · cases integer : integer? s with
      | some w =>
        rw [integer] at h
        obtain rfl : w = v := Option.some.inj h
        exact isPlain_integer? integer
      | none =>
        rw [integer] at h
        cases float : float? s with
        | some w =>
          rw [float] at h
          obtain rfl : w = v := Option.some.inj h
          exact isPlain_float? float
        | none =>
          rw [float] at h
          exact isPlain_datetime? h

theorem readsDistinct_scalar : ReadsDistinct scalar := by
  intro s v rest done
  have plain {run : Bytes} {behind : Bytes} (read : (scalar? run).map (fun v => (v, behind)) =
      some (v, rest)) : v.Distinct := by
    obtain ⟨w, scalar, same⟩ := Option.map_eq_some_iff.mp read
    obtain ⟨rfl, _⟩ := Prod.mk.inj same
    exact .plain (isPlain_scalar? scalar)
  unfold scalar at done
  dsimp only at done
  split at done
  · split at done
    · exact plain done
    · exact plain done
  · exact plain done

theorem readsDistinct_plainValue : ReadsDistinct plainValue := by
  intro s v rest done
  have string {read : Option (Bytes × Bytes)}
      (done : read.map (fun part => (Value.string part.1, part.2)) = some (v, rest)) :
      v.Distinct := by
    obtain ⟨part, _, same⟩ := Option.map_eq_some_iff.mp done
    obtain ⟨rfl, _⟩ := Prod.mk.inj same
    exact .plain ⟨rfl, rfl⟩
  unfold plainValue at done
  split at done
  · exact string done
  · exact string done
  · exact string done
  · exact string done
  · exact readsDistinct_scalar _ _ _ done

theorem readsDistinct_value (levels : Nat) : ReadsDistinct (value levels) := by
  induction levels with
  | zero => exact readsDistinct_plainValue
  | succ levels ih =>
    intro s v rest done
    unfold value at done
    split at done
    · obtain ⟨⟨vs, _⟩, read, same⟩ := Option.map_eq_some_iff.mp done
      obtain ⟨rfl, _⟩ := Prod.mk.inj same
      exact .array (distinct_items ih read)
    · simp only [Option.bind_eq_bind, Option.bind_eq_some_iff] at done
      obtain ⟨⟨entries, _⟩, read, t, made, same⟩ := done
      obtain ⟨rfl, _⟩ := Prod.mk.inj (Option.some.inj same)
      exact distinct_tableOf (distinct_inlineEntries ih read) made
    · exact readsDistinct_plainValue _ _ _ done

def Expression.Distinct : Expression → Prop
  | .keyValue _ v => v.Distinct
  | .header _ | .elementHeader _ => True

theorem distinct_expression {e : Expression} (done : expression s = some (e, rest)) :
    e.Distinct := by
  unfold expression at done
  split at done
  · simp only [Option.bind_eq_bind, Option.bind_eq_some_iff] at done
    obtain ⟨_, _, _, _, _, _, same⟩ := done
    obtain ⟨rfl, _⟩ := Prod.mk.inj (Option.some.inj same)
    trivial
  · simp only [Option.bind_eq_bind, Option.bind_eq_some_iff] at done
    obtain ⟨_, _, _, _, same⟩ := done
    obtain ⟨rfl, _⟩ := Prod.mk.inj (Option.some.inj same)
    trivial
  · obtain ⟨⟨entry, _⟩, read, same⟩ := Option.map_eq_some_iff.mp done
    obtain ⟨rfl, _⟩ := Prod.mk.inj same
    exact distinct_keyValue (readsDistinct_value maxLevels) read

theorem distinct_expressions {all : List Expression} (done : expressions s = some all) :
    ∀ e ∈ all, e.Distinct := by
  induction s using expressions.induct generalizing all with
  | case1 s ih =>
    rw [expressions] at done
    simp only [Option.bind_eq_bind, Option.bind_eq_some_iff] at done
    obtain ⟨t, _, done⟩ := done
    split at done
    · obtain rfl := Option.some.inj done
      simp
    · simp only [Option.bind_eq_some_iff] at done
      obtain ⟨⟨e, behind⟩, read, rest, _, done⟩ := done
      split at done
      · next shorter =>
        obtain ⟨others, later, rfl⟩ := Option.map_eq_some_iff.mp done
        exact List.forall_mem_cons.mpr ⟨distinct_expression read, ih _ shorter later⟩
      · contradiction

theorem Assembly.distinct_add {a a' : Assembly} {e : Expression} (distinct : e.Distinct)
    (done : a.add e = some a') (before : a.entries.Distinct) : a'.entries.Distinct := by
  cases e <;>
    simp only [Assembly.add, Option.bind_eq_bind, Option.bind_eq_some_iff] at done <;>
    obtain ⟨⟨o, es⟩, within, same⟩ := done <;>
    obtain rfl := Option.some.inj same
  case keyValue path v =>
    exact (Entries.keeps_insert distinct path).within false a.path _ _ _ _ within before
  case header path => exact (Entries.keeps_openTable _).within false _ _ _ _ _ within before
  case elementHeader path =>
    exact (Entries.keeps_openElement _).within false _ _ _ _ _ within before

theorem distinct_read {text : Bytes} (done : read text = some t) : (Value.table t).Distinct := by
  simp only [read, Option.bind_eq_bind, Option.bind_eq_some_iff] at done
  obtain ⟨all, parsed, a, assembled, same⟩ := done
  obtain rfl := Option.some.inj same
  exact foldlM_keeps (P := fun a => a.entries.Distinct)
    (fun e member a a' added => Assembly.distinct_add (distinct_expressions parsed e member) added)
    assembled Entries.distinct_nil

mutual

theorem distinct_meaning : ∀ {v v' : Value}, v.meaning? = some v' → v.Distinct → v'.Distinct
  | .integer n, v', done, distinct => by
    rw [Value.meaning?] at done
    split at done
    · exact Option.some.inj done ▸ distinct
    · contradiction
  | .float literal, v', done, distinct => by
    rw [Value.meaning?] at done
    split at done
    · exact Option.some.inj done ▸ distinct
    · contradiction
  | .array items, v', done, distinct => by
    rw [Value.meaning?] at done
    obtain ⟨vs, meant, rfl⟩ := Option.map_eq_some_iff.mp done
    exact .array (distinct_itemMeanings meant (Value.Distinct.array_iff.mp distinct))
  | .table entries, v', done, distinct => by
    rw [Value.meaning?] at done
    split at done
    · exact .plain (isPlain_datetime? done)
    · contradiction
    · obtain ⟨t, meant, rfl⟩ := Option.map_eq_some_iff.mp done
      obtain ⟨keys, each⟩ := Value.Distinct.table_iff.mp distinct
      obtain ⟨same, each'⟩ := distinct_meanings meant each
      exact .table (same ▸ keys) each'
  | .string _, v', done, distinct => Option.some.inj done ▸ distinct
  | .boolean _, v', done, distinct => Option.some.inj done ▸ distinct
  | .datetime _, v', done, distinct => Option.some.inj done ▸ distinct

theorem distinct_itemMeanings : ∀ {items vs : List Value}, itemMeanings items = some vs →
    (∀ v ∈ items, v.Distinct) → ∀ v ∈ vs, v.Distinct
  | [], vs, done, each => by
    obtain rfl := Option.some.inj done
    exact each
  | v :: items, vs, done, each => by
    obtain ⟨first, others⟩ := List.forall_mem_cons.mp each
    simp only [itemMeanings, Option.bind_eq_bind, Option.bind_eq_some_iff] at done
    obtain ⟨v', meant, vs', meant', same⟩ := done
    obtain rfl := Option.some.inj same
    exact List.forall_mem_cons.mpr
      ⟨distinct_meaning meant first, distinct_itemMeanings meant' others⟩

/-- A table keeps its keys. -/
theorem distinct_meanings : ∀ {entries t : Table}, meanings entries = some t →
    (∀ e ∈ entries, e.2.Distinct) → t.map (·.1) = entries.map (·.1) ∧ ∀ e ∈ t, e.2.Distinct
  | [], t, done, each => by
    obtain rfl := Option.some.inj done
    exact ⟨rfl, each⟩
  | (key, v) :: entries, t, done, each => by
    obtain ⟨first, others⟩ := List.forall_mem_cons.mp each
    simp only [meanings, Option.bind_eq_bind, Option.bind_eq_some_iff] at done
    obtain ⟨v', meant, t', meant', same⟩ := done
    obtain rfl := Option.some.inj same
    obtain ⟨keys, each'⟩ := distinct_meanings meant' others
    exact ⟨congrArg (key :: ·) keys, List.forall_mem_cons.mpr ⟨distinct_meaning meant first, each'⟩⟩

end

/-- In the table of a document no key occurs twice, and in no table inside it. -/
theorem distinct_of_parse {text : Bytes} (done : parse text = some t) :
    (Value.table t).Distinct := by
  obtain ⟨written, done, meant⟩ := Option.bind_eq_some_iff.mp done
  obtain ⟨keys, each⟩ := Value.Distinct.table_iff.mp (distinct_read done)
  obtain ⟨same, each'⟩ := distinct_meanings meant each
  exact .table (same ▸ keys) each'

/-- Nor in what a key of the document leads to. -/
theorem distinct_of_lookup {text : Bytes} (done : parse text = some t)
    (found : t.lookup key = some v) : v.Distinct := by
  obtain ⟨before, behind, rfl, _⟩ := List.lookup_eq_some_iff.mp found
  exact (Value.Distinct.table_iff.mp (distinct_of_parse done)).2 (key, v) (by simp)

end PassCompiler.Toml
