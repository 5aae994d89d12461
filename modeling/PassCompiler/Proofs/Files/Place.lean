import Mathlib.Data.List.Nodup
import PassCompiler.Proofs.Files.Path

/-! Where paths lead, by their segments alone. A store says whether a path leads anywhere; where to,
it does not decide. -/
namespace PassCompiler

structure Path.IsProper (name : Bytes) : Prop extends Path.IsName name where
  free : 0x2F ∉ name

instance (name : Bytes) : Decidable (Path.IsProper name) :=
  decidable_of_iff ((Path.isIdle name = false ∧ name ≠ [0x2E, 0x2E]) ∧ 0x2F ∉ name)
    ⟨fun h => ⟨⟨h.1.1, h.1.2⟩, h.2⟩, fun h => ⟨⟨h.leads, h.down⟩, h.free⟩⟩

theorem Path.IsProper.length_pos {name : Bytes} (h : IsProper name) : 0 < name.length := by
  have filled := (Bool.or_eq_false_iff.mp h.leads).1
  exact List.length_pos_of_ne_nil (List.isEmpty_eq_false_iff.mp filled)

def Location.follow (l : Location) (segment : Bytes) : Location :=
  if Path.isIdle segment then l else if segment = [0x2E, 0x2E] then l.dropLast else l ++ [segment]

/-- Where a path leads, if it leads anywhere. -/
def Path.place (p : Path) (current : Location) : Location :=
  (segments p).foldl Location.follow (if p.isAbsolute then [] else current)

namespace Location

variable {l : Location} {segment : Bytes} {names : List Bytes}

theorem follow_of_isIdle (idle : Path.isIdle segment = true) : follow l segment = l := if_pos idle

theorem follow_of_isName (isName : Path.IsName segment) : follow l segment = l ++ [segment] := by
  rw [follow, if_neg (by simp [isName.leads]), if_neg isName.down]

theorem foldl_follow_of_isIdle (idle : ∀ segment ∈ names, Path.isIdle segment = true) :
    names.foldl follow l = l := by
  induction names with
  | nil => rfl
  | cons name names ih =>
    obtain ⟨first, rest⟩ := List.forall_mem_cons.mp idle
    rw [List.foldl_cons, follow_of_isIdle first, ih rest]

theorem foldl_follow_of_isName (isName : ∀ name ∈ names, Path.IsName name) :
    names.foldl follow l = l ++ names := by
  induction names generalizing l with
  | nil => exact (List.append_nil l).symm
  | cons name names ih =>
    obtain ⟨first, rest⟩ := List.forall_mem_cons.mp isName
    rw [List.foldl_cons, follow_of_isName first, ih rest, List.append_assoc, List.singleton_append]

theorem isProper_follow (h : ∀ name ∈ l, Path.IsProper name) (free : 0x2F ∉ segment) :
    ∀ name ∈ follow l segment, Path.IsProper name := by
  unfold follow
  split
  · exact h
  · next leads =>
    split
    · exact fun name member => h name (List.dropLast_subset l member)
    · next down =>
      exact List.forall_mem_append.mpr
        ⟨h, List.forall_mem_singleton.mpr ⟨⟨by simpa using leads, down⟩, free⟩⟩

theorem isProper_foldl_follow (h : ∀ name ∈ l, Path.IsProper name)
    (free : ∀ segment ∈ names, 0x2F ∉ segment) :
    ∀ name ∈ names.foldl follow l, Path.IsProper name := by
  induction names generalizing l with
  | nil => exact h
  | cons segment names ih =>
    obtain ⟨first, rest⟩ := List.forall_mem_cons.mp free
    exact ih (isProper_follow h first) rest

end Location

namespace Path

variable {p q : Path} {name : Bytes} {names : List Bytes} {current : Location}

theorem isProper_place (h : ∀ name ∈ current, IsProper name) :
    ∀ name ∈ p.place current, IsProper name := by
  refine Location.isProper_foldl_follow ?_ fun _ => slash_notMem_of_mem_segments
  split
  · nofun
  · exact h

theorem isAbsolute_join (dir : Path) (relative : isAbsolute q = false) :
    (dir.join q).isAbsolute = dir.isAbsolute := by
  rw [join, relative]
  cases dir with
  | nil => simpa [isAbsolute] using relative
  | cons b dir =>
    rw [if_neg Bool.false_ne_true]
    split <;> rfl

theorem place_join (dir : Path) (relative : isAbsolute q = false) :
    (dir.join q).place current = (segments q).foldl Location.follow (dir.place current) := by
  obtain ⟨front, idle, whole, split, leads⟩ := exists_segments_join dir
  rw [place, place, whole q relative, split, isAbsolute_join dir relative, List.foldl_append,
    List.foldl_append, Location.foldl_follow_of_isIdle leads]

theorem isAbsolute_ofSegments (proper : ∀ name ∈ names, IsProper name) :
    isAbsolute (ofSegments names) = false := by
  cases names with
  | nil => rfl
  | cons name names =>
    have first := proper name List.mem_cons_self
    cases name with
    | nil => exact absurd first.leads (by decide)
    | cons b name =>
      have other : b ≠ 0x2F := (List.ne_of_not_mem_cons first.free).symm
      cases names <;> simpa [ofSegments, isAbsolute] using other

theorem place_join_ofSegments (dir : Path) (proper : ∀ name ∈ names, IsProper name) :
    (dir.join (ofSegments names)).place current = dir.place current ++ names := by
  by_cases empty : names = []
  · subst empty
    rw [place_join dir rfl, List.append_nil]
    exact Location.foldl_follow_of_isIdle (by decide)
  · have split := segments_ofSegments empty fun name member => (proper name member).free
    rw [place_join dir (isAbsolute_ofSegments proper), split,
      Location.foldl_follow_of_isName fun name member => (proper name member).toIsName]

theorem length_join_le (dir : Path) (relative : isAbsolute q = false) :
    dir.length + q.length ≤ (dir.join q).length := by
  rw [join, relative, if_neg Bool.false_ne_true]
  split
  · rw [List.length_append]
  · rw [List.length_append, List.length_cons]
    omega

theorem place_join_name (dir : Path) (proper : IsProper name) :
    (dir.join name).place current = dir.place current ++ [name] :=
  @place_join_ofSegments [name] current dir (List.forall_mem_singleton.mpr proper)

end Path

namespace Store

variable {s t : Store} {l k : Location} {p : Path} {segment name : Bytes} {front : List Bytes}

theorem eq_of_step (ok : s.step l segment = .ok k) : k = l.follow segment := by
  obtain ⟨_, ⟨idle, rfl⟩ | ⟨rfl, rfl⟩ | ⟨isName, _, _, rfl⟩⟩ := step_ok_iff.mp ok
  · exact (Location.follow_of_isIdle idle).symm
  · rfl
  · exact (Location.follow_of_isName isName).symm

theorem eq_of_walk (ok : s.walk l front = .ok k) : k = front.foldl Location.follow l := by
  induction front generalizing l with
  | nil => exact (Except.ok.inj ok).symm
  | cons segment front ih =>
    obtain ⟨m, first, rest⟩ := exists_of_bind_ok ok
    rw [List.foldl_cons, ← eq_of_step first]
    exact ih rest

theorem eq_of_resolve (ok : s.resolve p = .ok l) : l = p.place s.current := by
  obtain ⟨start, started, walked⟩ := exists_of_bind_ok ok
  have begins : start = if p.isAbsolute then [] else s.current := by
    unfold origin at started
    split at started
    · contradiction
    · split at started
      · contradiction
      · split at started
        · contradiction
        · exact (Except.ok.inj started).symm
  rw [Path.place, ← begins]
  exact eq_of_walk walked

/-- Every name in the store is one that a path leads by. -/
structure Named (s : Store) : Prop where
  current : ∀ name ∈ s.current, Path.IsProper name
  entries : ∀ e ∈ s.entries, ∀ name ∈ e.1, Path.IsProper name

instance (s : Store) : Decidable s.Named :=
  decidable_of_iff ((∀ name ∈ s.current, Path.IsProper name) ∧
      ∀ e ∈ s.entries, ∀ name ∈ e.1, Path.IsProper name)
    ⟨fun h => ⟨h.1, h.2⟩, fun h => ⟨h.current, h.entries⟩⟩

theorem isSome_of_mem {e : Location × Node} (h : e ∈ s.entries) : (s.get? e.1).isSome := by
  unfold get?
  split
  · rfl
  · exact List.lookup_isSome_iff.mpr ⟨e, h, by simp⟩

theorem Named.isProper (h : s.Named) (present : (s.get? l).isSome) :
    ∀ name ∈ l, Path.IsProper name := by
  unfold get? at present
  split at present
  · next root => simp [root]
  · obtain ⟨e, member, same⟩ := List.lookup_isSome_iff.mp present
    rw [eq_of_beq same]
    exact h.entries e member

/-- What is new has names if paths lead to it. -/
theorem Named.grow (h : s.Named) (current : t.current = s.current)
    (each : ∀ l, (t.get? l).isSome → (s.get? l).isSome ∨ ∃ p, t.resolve p = .ok l) : t.Named where
  current := current ▸ h.current
  entries e member := by
    rcases each e.1 (isSome_of_mem member) with old | ⟨p, found⟩
    · exact h.isProper old
    · rw [eq_of_resolve found, current]
      exact Path.isProper_place h.current

theorem exists_of_list {names : List Bytes} (h : s.list p = .ok names) :
    ∃ l, names = s.names l := by
  unfold list at h
  split at h
  · contradiction
  · next l _ =>
    split at h
    · exact ⟨l, (Except.ok.inj h).symm⟩
    · contradiction
    · contradiction

def below? (l k : Location) : Option Bytes :=
  if k.length = l.length + 1 && l.isPrefixOf k then k.getLast? else none

theorem eq_of_below (h : below? l k = some name) : k = l ++ [name] := by
  unfold below? at h
  split at h
  · next long =>
    rw [Bool.and_eq_true, decide_eq_true_eq, List.isPrefixOf_iff_prefix] at long
    obtain ⟨long, rest, rfl⟩ := long
    obtain ⟨last, rfl⟩ : ∃ last, rest = [last] :=
      List.length_eq_one_iff.mp (by simpa using long)
    rw [List.getLast?_concat] at h
    rw [Option.some.inj h]
  · contradiction

theorem names_eq (s : Store) (l : Location) :
    s.names l = ((s.entries.map Prod.fst).filterMap (below? l)).mergeSort Bytes.le := by
  rw [List.filterMap_map]
  rfl

theorem present_of_mem_names (h : name ∈ s.names l) : (s.get? (l ++ [name])).isSome := by
  rw [names_eq, List.mem_mergeSort, List.mem_filterMap] at h
  obtain ⟨k, member, found⟩ := h
  obtain ⟨e, entry, rfl⟩ := List.mem_map.mp member
  rw [← eq_of_below found]
  exact isSome_of_mem entry

theorem nodup_of_list {names : List Bytes} (h : s.list p = .ok names) : names.Nodup := by
  obtain ⟨l, rfl⟩ := exists_of_list h
  rw [names_eq]
  refine (List.mergeSort_perm _ _).nodup_iff.mpr (s.nodup.filterMap fun k k' name h h' => ?_)
  rw [eq_of_below h, eq_of_below h']

theorem Named.isProper_of_list (named : s.Named) {names : List Bytes} (h : s.list p = .ok names)
    (member : name ∈ names) : Path.IsProper name := by
  obtain ⟨l, rfl⟩ := exists_of_list h
  exact named.isProper (present_of_mem_names member) name (by simp)

theorem exists?_of_isDirectory (h : s.isDirectory p = true) : s.exists? p = true := by
  rw [exists?, eq_of_beq h]
  rfl

/-- A path that is too long leads nowhere. -/
theorem length_le_of_exists? (h : s.exists? p = true) : p.length ≤ maxPath := by
  unfold exists? find? resolve origin at h
  split at h
  · contradiction
  · split at h
    · contradiction
    · split at h
      · contradiction
      · next short => exact Nat.le_of_not_lt short

end Store
end PassCompiler
