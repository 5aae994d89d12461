import Mathlib.Data.List.Induction
import PassCompiler.Proofs.Files.Place

/-! Stores as trees. A directory lists the names below it in increasing order, and a path that goes
down from a directory name by name leads where the names lead, as long as the system takes the
path. -/
namespace PassCompiler

theorem Bytes.le_iff {a b : Bytes} : Bytes.le a b = true ↔ a ≤ b := by
  induction a generalizing b with
  | nil => simp [Bytes.le]
  | cons x a ih =>
    cases b with
    | nil => simp [Bytes.le]
    | cons y b =>
      rw [Bytes.le, List.cons_le_cons_iff]
      by_cases less : x < y
      · simp [less]
      · by_cases more : y < x
        · have other : x ≠ y := by
            rintro rfl
            exact less more
          simp [less, more, other]
        · have same : x = y := UInt8.le_antisymm (UInt8.not_lt.mp more) (UInt8.not_lt.mp less)
          simp [same, ih]

theorem Bytes.pairwise_mergeSort {α : Type} (key : α → Bytes) (l : List α) :
    (l.mergeSort fun a b => Bytes.le (key a) (key b)).Pairwise (key · ≤ key ·) := by
  refine (List.pairwise_mergeSort (fun a b c => ?_) (fun a b => ?_) l).imp Bytes.le_iff.mp
  · simp only [Bytes.le_iff]
    exact Std.le_trans
  · simp only [Bool.or_eq_true, Bytes.le_iff]
    exact Std.le_total

namespace Path

variable {dir q : Path} {name : Bytes} {names : List Bytes}

/-- The system takes the path, whether or not it leads anywhere. -/
structure Fits (p : Path) : Prop where
  filled : p ≠ []
  plain : 0 ∉ p
  short : p.length ≤ Store.maxPath

theorem mem_join {b : UInt8} (other : b ≠ 0x2F) (relative : isAbsolute q = false) :
    b ∈ dir.join q ↔ b ∈ dir ∨ b ∈ q := by
  rw [join, relative, if_neg Bool.false_ne_true]
  split
  · exact List.mem_append
  · simp [other]

theorem join_ne_nil (filled : dir ≠ []) (q : Path) : dir.join q ≠ [] := by
  unfold join
  split
  · next absolute =>
    rintro rfl
    contradiction
  · split <;> simp [filled]

theorem foldl_join_ne_nil (filled : dir ≠ []) (names : List Bytes) :
    names.foldl join dir ≠ [] := by
  induction names generalizing dir with
  | nil => exact filled
  | cons name names ih => exact ih (join_ne_nil filled name)

theorem IsProper.isAbsolute (proper : IsProper name) : isAbsolute name = false :=
  isAbsolute_of_notMem proper.free

/-- Each name makes a path longer. -/
theorem length_le_foldl_join (proper : ∀ name ∈ names, IsProper name) :
    dir.length + names.length ≤ (names.foldl join dir).length := by
  induction names generalizing dir with
  | nil => exact Nat.le_refl _
  | cons name names ih =>
    obtain ⟨first, rest⟩ := List.forall_mem_cons.mp proper
    have longer := length_join_le dir first.isAbsolute
    have positive := first.length_pos
    have whole := @ih (dir.join name) rest
    rw [List.foldl_cons, List.length_cons]
    omega

end Path

namespace Store

variable {s t : Store} {l k r : Location} {p dir : Path} {name : Bytes} {names : List Bytes}

theorem find?_eq_some_iff {node : Node} :
    s.find? p = some node ↔ ∃ l, s.resolve p = .ok l ∧ s.get? l = some node := by
  unfold find?
  cases s.resolve p <;> simp [Except.toOption]

theorem exists?_iff : s.exists? p = true ↔ ∃ l, s.resolve p = .ok l ∧ (s.get? l).isSome := by
  simp only [exists?, Option.isSome_iff_exists, find?_eq_some_iff]
  constructor
  · rintro ⟨node, l, found, there⟩
    exact ⟨l, found, node, there⟩
  · rintro ⟨l, found, node, there⟩
    exact ⟨node, l, found, there⟩

theorem isDirectory_iff :
    s.isDirectory p = true ↔ ∃ l, s.resolve p = .ok l ∧ s.get? l = some .directory :=
  beq_iff_eq.trans find?_eq_some_iff

theorem Grows.exists? (h : s.Grows t) (there : s.exists? p = true) : t.exists? p = true := by
  obtain ⟨l, found, present⟩ := exists?_iff.mp there
  exact exists?_iff.mpr ⟨l, h.resolve found, h.present l present⟩

theorem list_ok_iff : s.list p = .ok names ↔
    ∃ l, s.resolve p = .ok l ∧ s.get? l = some .directory ∧ s.names l = names := by
  unfold list
  cases s.resolve p with
  | error e => simp
  | ok l =>
    cases node : s.get? l with
    | none => simp [node]
    | some n => cases n <;> simp [node]

theorem exists_entry (present : (s.get? (l ++ [name])).isSome) :
    ∃ e ∈ s.entries, e.1 = l ++ [name] := by
  rw [get?, if_neg (by simp)] at present
  obtain ⟨e, member, same⟩ := List.lookup_isSome_iff.mp present
  exact ⟨e, member, (eq_of_beq same).symm⟩

theorem mem_names_iff : name ∈ s.names l ↔ (s.get? (l ++ [name])).isSome := by
  refine ⟨present_of_mem_names, fun present => ?_⟩
  obtain ⟨e, member, same⟩ := exists_entry present
  rw [names_eq, List.mem_mergeSort, List.mem_filterMap]
  exact ⟨e.1, List.mem_map.mpr ⟨e, member, rfl⟩, by simp [same, below?]⟩

/-- Names are listed in increasing order. -/
theorem pairwise_of_list (h : s.list p = .ok names) : names.Pairwise (· < ·) := by
  have sorted : names.Pairwise (· ≤ ·) := by
    obtain ⟨l, rfl⟩ := exists_of_list h
    rw [names_eq]
    exact Bytes.pairwise_mergeSort id _
  exact (sorted.and (nodup_of_list h)).imp fun both => Std.lt_of_le_of_ne both.1 both.2

/-- Entries are listed in increasing order, however they stand. -/
theorem list_of_entries {names : List Bytes} (found : s.resolve p = .ok l)
    (directory : s.get? l = some .directory)
    (entries : ((s.entries.map Prod.fst).filterMap (below? l)).Perm names)
    (sorted : names.Pairwise fun a b => Bytes.le a b) : s.list p = .ok names := by
  have same : s.names l = names := by
    rw [names_eq]
    refine ((List.mergeSort_perm _ _).trans entries).eq_of_pairwise (fun a b _ _ => ?_)
      (Bytes.pairwise_mergeSort id _) (sorted.imp Bytes.le_iff.mp)
    exact Std.le_antisymm
  exact list_ok_iff.mpr ⟨l, found, directory, same⟩

theorem list_of_isDirectory (h : s.isDirectory p = true) : ∃ names, s.list p = .ok names := by
  obtain ⟨l, found, directory⟩ := isDirectory_iff.mp h
  exact ⟨s.names l, list_ok_iff.mpr ⟨l, found, directory, rfl⟩⟩

theorem exists?_of_list (list : s.list p = .ok names) : s.exists? p = true := by
  obtain ⟨l, found, directory, _⟩ := list_ok_iff.mp list
  exact exists?_iff.mpr ⟨l, found, by rw [directory]; rfl⟩

theorem Grows.exists_list (h : s.Grows t) (list : s.list p = .ok names) :
    ∃ names, t.list p = .ok names := by
  obtain ⟨l, found, directory, _⟩ := list_ok_iff.mp list
  exact ⟨t.names l, list_ok_iff.mpr ⟨l, h.resolve found, h.directory l directory, rfl⟩⟩

theorem origin_ok_iff :
    s.origin p = .ok l ↔ p.Fits ∧ l = if p.isAbsolute then [] else s.current := by
  constructor
  · intro started
    unfold origin at started
    split at started
    · contradiction
    · next plain =>
      split at started
      · contradiction
      · next filled =>
        split at started
        · contradiction
        · next short =>
          exact ⟨⟨fun empty => filled (List.isEmpty_iff.mpr empty),
            fun zero => plain (List.contains_iff_mem.mpr zero), Nat.le_of_not_lt short⟩,
            (Except.ok.inj started).symm⟩
  · rintro ⟨fits, rfl⟩
    rw [origin, if_neg (mt List.contains_iff_mem.mp fits.plain),
      if_neg (mt List.isEmpty_iff.mp fits.filled), if_neg (Nat.not_lt.mpr fits.short)]

theorem fits_of_resolve (found : s.resolve p = .ok l) : p.Fits := by
  obtain ⟨start, started, _⟩ := exists_of_bind_ok found
  exact (origin_ok_iff.mp started).1

/-- A name leads from a directory to what is there. -/
theorem resolve_join_name_iff (filled : dir ≠ []) (proper : Path.IsProper name) :
    s.resolve (dir.join name) = .ok k ↔ (dir.join name).Fits ∧ name.length ≤ maxName ∧
      ∃ d, s.resolve dir = .ok d ∧ s.get? d = some .directory ∧
        (s.get? (d ++ [name])).isSome ∧ k = d ++ [name] := by
  obtain ⟨front, idle, whole, split, leads⟩ := Path.exists_segments_join dir
  have whole := whole name proper.isAbsolute
  rw [Path.segments_of_notMem proper.free] at whole
  have origin : (dir.join name).Fits → s.origin (dir.join name) = s.origin dir := by
    intro fits
    have longer := Path.length_join_le dir proper.isAbsolute
    have fits' : dir.Fits := ⟨filled, fun zero =>
      fits.plain ((Path.mem_join (by decide) proper.isAbsolute).mpr (.inl zero)),
      Nat.le_trans (Nat.le_trans (Nat.le_add_right _ _) longer) fits.short⟩
    rw [origin_ok_iff.mpr ⟨fits, rfl⟩, origin_ok_iff.mpr ⟨fits', rfl⟩,
      Path.isAbsolute_join dir proper.isAbsolute]
  constructor
  · intro found
    have fits := fits_of_resolve found
    obtain ⟨start, started, walked⟩ := exists_of_bind_ok found
    rw [whole, walk_append] at walked
    obtain ⟨d, before, last⟩ := exists_of_bind_ok walked
    obtain ⟨m, stepped, here⟩ := exists_of_bind_ok last
    obtain rfl : m = k := Except.ok.inj here
    obtain ⟨directory, ⟨stays, _⟩ | ⟨up, _⟩ | ⟨_, short, present, rfl⟩⟩ := step_ok_iff.mp stepped
    · exact absurd stays (by simp [proper.leads])
    · exact absurd up proper.down
    · refine ⟨fits, short, d, ?_, directory, present, rfl⟩
      rw [resolve, ← origin fits, started, split]
      refine walk_append.trans ?_
      rw [before]
      exact walk_of_isIdle directory leads
  · rintro ⟨fits, short, d, found, directory, present, rfl⟩
    obtain ⟨start, started, walked⟩ := exists_of_bind_ok found
    rw [split, walk_append] at walked
    obtain ⟨m, before, rest⟩ := exists_of_bind_ok walked
    have same : d = m := (eq_of_walk rest).trans (Location.foldl_follow_of_isIdle leads)
    subst same
    rw [resolve, origin fits, started, whole]
    refine walk_append.trans ?_
    rw [before]
    exact (bind_pure _).trans (step_of_isName directory proper.toIsName short present)

/-- What a path of names leads through. -/
theorem resolve_foldl_join (filled : dir ≠ []) (proper : ∀ name ∈ names, Path.IsProper name)
    (found : s.resolve (names.foldl Path.join dir) = .ok k) :
    ∃ d, s.resolve dir = .ok d ∧ k = d ++ names ∧ (names ≠ [] → s.get? d = some .directory) := by
  induction names using List.reverseRecOn generalizing k with
  | nil => exact ⟨k, found, (List.append_nil k).symm, fun h => absurd rfl h⟩
  | append_singleton names name ih =>
    obtain ⟨front, last⟩ := List.forall_mem_append.mp proper
    rw [List.foldl_concat] at found
    obtain ⟨_, _, d, before, directory, _, rfl⟩ := (resolve_join_name_iff
      (Path.foldl_join_ne_nil filled names) (last name List.mem_cons_self)).mp found
    obtain ⟨d', leads, rfl, above⟩ := ih front before
    refine ⟨d', leads, List.append_assoc .., fun _ => ?_⟩
    by_cases empty : names = []
    · rwa [empty, List.append_nil] at directory
    · exact above empty

/-- A directory lists the first of the names that lead down from it. -/
theorem mem_of_resolve_foldl_join {rest listed : List Bytes} (list : s.list dir = .ok listed)
    (proper : ∀ n ∈ name :: rest, Path.IsProper n)
    (found : s.resolve ((name :: rest).foldl Path.join dir) = .ok k) : name ∈ listed := by
  obtain ⟨d, leads, _, rfl⟩ := list_ok_iff.mp list
  obtain ⟨first, later⟩ := List.forall_mem_cons.mp proper
  have filled := (fits_of_resolve leads).filled
  obtain ⟨_, next, _⟩ := resolve_foldl_join (Path.join_ne_nil filled name) later found
  obtain ⟨_, _, d', leads', _, present, _⟩ := (resolve_join_name_iff filled first).mp next
  obtain rfl := Except.ok.inj (leads.symm.trans leads')
  exact mem_names_iff.mpr present

theorem resolve_dot (found : s.resolve p = .ok l) (relative : p.isAbsolute = false)
    (here : s.get? s.current = some .directory) (short : p.length + 2 ≤ maxPath) :
    s.resolve (0x2E :: 0x2F :: p) = .ok l := by
  have fits := fits_of_resolve found
  have longer : Path.Fits (0x2E :: 0x2F :: p) :=
    ⟨List.cons_ne_nil _ _, by simp [fits.plain], short⟩
  obtain ⟨start, started, walked⟩ := exists_of_bind_ok found
  obtain ⟨_, rfl⟩ := origin_ok_iff.mp started
  rw [relative, if_neg Bool.false_ne_true] at walked
  have origin : s.origin (0x2E :: 0x2F :: p) = .ok s.current := origin_ok_iff.mpr ⟨longer, rfl⟩
  have segments : Path.segments (0x2E :: 0x2F :: p) = Path.segments [0x2E] ++ Path.segments p :=
    Path.segments_append_slash [0x2E] p
  rw [resolve, origin, segments]
  refine walk_append.trans ?_
  rw [walk_of_isIdle here (by decide)]
  exact walked

/-- A path leads to the same place with steps before it that stay in the current directory. -/
theorem resolve_dots (n : Nat) (found : s.resolve p = .ok l) (relative : p.isAbsolute = false)
    (here : s.get? s.current = some .directory) (short : p.length + 2 * n ≤ maxPath) :
    s.resolve ((List.replicate n [0x2E, 0x2F]).flatten ++ p) = .ok l := by
  induction n generalizing p with
  | zero => exact found
  | succ n ih =>
    have dots : (List.replicate (n + 1) [0x2E, 0x2F]).flatten ++ p =
        (List.replicate n [0x2E, 0x2F]).flatten ++ 0x2E :: 0x2F :: p := by
      rw [List.replicate_succ', List.flatten_concat, List.append_assoc]
      rfl
    rw [dots]
    apply ih (resolve_dot found relative here (by omega)) rfl
    rw [List.length_cons, List.length_cons]
    omega

/-- A store that a system can have: its names are as long as the system allows and hold no zero
byte, and all of them stand in directories. -/
structure WellFormed (s : Store) : Prop extends s.Named where
  given : ∀ e ∈ s.entries, ∀ name ∈ e.1, name.length ≤ maxName ∧ 0 ∉ name
  parent : ∀ e ∈ s.entries, s.get? e.1.dropLast = some .directory

instance (s : Store) : Decidable s.WellFormed :=
  decidable_of_iff (s.Named ∧ (∀ e ∈ s.entries, ∀ name ∈ e.1, name.length ≤ maxName ∧ 0 ∉ name) ∧
      ∀ e ∈ s.entries, s.get? e.1.dropLast = some .directory)
    ⟨fun h => ⟨h.1, h.2.1, h.2.2⟩, fun h => ⟨h.toNamed, h.given, h.parent⟩⟩

namespace WellFormed

theorem directory (h : s.WellFormed) (present : (s.get? (l ++ [name])).isSome) :
    s.get? l = some .directory := by
  obtain ⟨e, member, same⟩ := exists_entry present
  have parent := h.parent e member
  rwa [same, List.dropLast_concat] at parent

theorem directory_of_append (h : s.WellFormed) (filled : names ≠ [])
    (present : (s.get? (l ++ names)).isSome) : s.get? l = some .directory := by
  induction names using List.reverseRecOn with
  | nil => contradiction
  | append_singleton names name ih =>
    rw [← List.append_assoc] at present
    have above := h.directory present
    by_cases empty : names = []
    · rwa [empty, List.append_nil] at above
    · exact ih empty (by rw [above]; rfl)

/-- The names below a directory lead to what is there, if the system takes the path. -/
theorem resolve_foldl_join (h : s.WellFormed) (leads : s.resolve dir = .ok r)
    (present : (s.get? (r ++ names)).isSome)
    (short : (names.foldl Path.join dir).length ≤ maxPath) :
    s.resolve (names.foldl Path.join dir) = .ok (r ++ names) := by
  induction names using List.reverseRecOn with
  | nil => simpa using leads
  | append_singleton names name ih =>
    rw [← List.append_assoc] at present
    rw [List.foldl_concat] at short ⊢
    have directory := h.directory present
    have proper : Path.IsProper name := h.isProper present name (by simp)
    obtain ⟨e, member, same⟩ := exists_entry present
    obtain ⟨given, plain⟩ := h.given e member name (by simp [same])
    have longer := Path.length_join_le (names.foldl Path.join dir) proper.isAbsolute
    have before := ih (by rw [directory]; rfl) (Nat.le_trans (Nat.le_of_add_right_le longer) short)
    have filled := Path.foldl_join_ne_nil (fits_of_resolve leads).filled names
    have fits : ((names.foldl Path.join dir).join name).Fits := by
      refine ⟨Path.join_ne_nil filled name, fun zero => ?_, short⟩
      rcases (Path.mem_join (by decide) proper.isAbsolute).mp zero with zero | zero
      · exact (fits_of_resolve before).plain zero
      · exact plain zero
    rw [← List.append_assoc]
    exact (resolve_join_name_iff filled proper).mpr
      ⟨fits, given, r ++ names, before, directory, present, rfl⟩

end WellFormed
end Store
end PassCompiler
