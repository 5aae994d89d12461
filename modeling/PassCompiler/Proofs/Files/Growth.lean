import Mathlib.Data.List.TakeWhile
import Mathlib.Logic.Relation
import PassCompiler.Files.Action

/-! What writing does to a store. Nothing that a path leads through goes away, so whatever a path
leads to stays where it is; what is new stands where the path leads that it was made for. -/
namespace PassCompiler

structure Path.IsName (segment : Bytes) : Prop where
  leads : isIdle segment = false
  down : segment ≠ [0x2E, 0x2E]

namespace Store

variable {s t u : Store} {l k : Location} {p : Path} {segment : Bytes} {front back : List Bytes}

/-- A step stays, leads up or leads to what is there below. -/
theorem step_ok_iff : s.step l segment = .ok k ↔ s.get? l = some .directory ∧
    (Path.isIdle segment = true ∧ k = l ∨ segment = [0x2E, 0x2E] ∧ k = l.dropLast ∨
      Path.IsName segment ∧ segment.length ≤ maxName ∧ (s.get? (l ++ [segment])).isSome ∧
        k = l ++ [segment]) := by
  cases node : s.get? l with
  | none => simp [step, node]
  | some node' =>
    cases node' with
    | file content => simp [step, node]
    | directory =>
      have upwards : Path.isIdle [0x2E, 0x2E] = false := by decide
      by_cases idle : Path.isIdle segment = true
      · grind [step, Path.IsName]
      · by_cases up : segment = [0x2E, 0x2E]
        · grind [step, Path.IsName]
        · have name : Path.IsName segment := ⟨by simpa using idle, up⟩
          grind [step]

theorem step_of_isIdle (directory : s.get? l = some .directory)
    (idle : Path.isIdle segment = true) : s.step l segment = .ok l :=
  step_ok_iff.mpr ⟨directory, .inl ⟨idle, rfl⟩⟩

theorem step_of_isName (directory : s.get? l = some .directory) (name : Path.IsName segment)
    (short : segment.length ≤ maxName) (present : (s.get? (l ++ [segment])).isSome) :
    s.step l segment = .ok (l ++ [segment]) :=
  step_ok_iff.mpr ⟨directory, .inr (.inr ⟨name, short, present, rfl⟩)⟩

theorem walk_append : s.walk l (front ++ back) = s.walk l front >>= fun k => s.walk k back := by
  induction front generalizing l with
  | nil => rfl
  | cons segment front ih =>
    rw [List.cons_append, walk, walk]
    cases s.step l segment with
    | error e => rfl
    | ok k => exact ih

theorem walk_of_isIdle (directory : s.get? l = some .directory)
    (idle : ∀ segment ∈ back, Path.isIdle segment = true) : s.walk l back = .ok l := by
  induction back with
  | nil => rfl
  | cons segment back ih =>
    obtain ⟨first, rest⟩ := List.forall_mem_cons.mp idle
    rw [walk, step_of_isIdle directory first]
    exact ih rest

theorem read_ok_iff {c : Bytes} :
    s.read p = .ok c ↔ ∃ l, s.resolve p = .ok l ∧ s.get? l = some (.file c) := by
  unfold read
  cases s.resolve p with
  | error e => simp
  | ok l =>
    cases node : s.get? l with
    | none => simp [node]
    | some n => cases n <;> simp [node]

/-- Directories stay directories, and nothing goes away. -/
structure Grows (s t : Store) : Prop where
  current : t.current = s.current
  directory : ∀ l, s.get? l = some .directory → t.get? l = some .directory
  present : ∀ l, (s.get? l).isSome → (t.get? l).isSome

namespace Grows

theorem refl (s : Store) : s.Grows s := ⟨rfl, fun _ => id, fun _ => id⟩

theorem trans (h : s.Grows t) (h' : t.Grows u) : s.Grows u where
  current := h'.current.trans h.current
  directory l := h'.directory l ∘ h.directory l
  present l := h'.present l ∘ h.present l

theorem step (h : s.Grows t) (ok : s.step l segment = .ok k) : t.step l segment = .ok k := by
  obtain ⟨directory, ways⟩ := step_ok_iff.mp ok
  refine step_ok_iff.mpr ⟨h.directory l directory, ways.imp_right (.imp_right ?_)⟩
  rintro ⟨name, short, present, rfl⟩
  exact ⟨name, short, h.present _ present, rfl⟩

theorem walk (h : s.Grows t) (ok : s.walk l front = .ok k) : t.walk l front = .ok k := by
  induction front generalizing l with
  | nil => exact ok
  | cons segment front ih =>
    obtain ⟨m, first, rest⟩ := exists_of_bind_ok ok
    rw [Store.walk, h.step first]
    exact ih rest

theorem origin (h : s.Grows t) : t.origin p = s.origin p := by
  rw [Store.origin, Store.origin, h.current]

theorem resolve (h : s.Grows t) (ok : s.resolve p = .ok l) : t.resolve p = .ok l := by
  obtain ⟨start, started, walked⟩ := exists_of_bind_ok ok
  rw [Store.resolve, h.origin, started]
  exact h.walk walked

end Grows

theorem grows_set (filled : l ≠ []) {node : Node}
    (h : s.get? l = some .directory → node = .directory) : s.Grows (s.set l node) where
  current := rfl
  directory k directory := by
    by_cases same : k = l
    · rw [same, get?_set_self _ filled, h (same ▸ directory)]
    · rw [get?_set_of_ne _ same, directory]
  present k present := by
    by_cases same : k = l
    · rw [same, get?_set_self _ filled]
      rfl
    · rwa [get?_set_of_ne _ same]

/-- The directory that something new goes into, and its name there. -/
theorem target_ok {segments : List Bytes} {d : Location} {name : Bytes}
    (h : s.target l segments = .ok (d, some name)) :
    ∃ front, segments = front ++ [name] ∧ s.walk l front = .ok d ∧
      s.get? d = some .directory ∧ Path.IsName name ∧ name.length ≤ maxName := by
  unfold target at h
  split at h
  · contradiction
  · next last before parts =>
    split at h
    · contradiction
    · next m walked =>
      split at h
      · next directory =>
        split at h
        · exact absurd (Prod.mk.inj (Except.ok.inj h)).2 (by simp)
        · next isName =>
          split at h
          · contradiction
          · next short =>
            obtain ⟨rfl, same⟩ := Prod.mk.inj (Except.ok.inj h)
            obtain rfl := Option.some.inj same
            rw [Bool.or_eq_true, not_or] at isName
            exact ⟨before.reverse, List.reverse_eq_cons_iff.mp parts, walked, directory,
              ⟨by simpa using isName.1, by simpa using isName.2⟩, Nat.le_of_not_lt short⟩
      · contradiction
      · contradiction

/-- Something new is found where it was put. -/
theorem walk_of_target {d : Location} {name : Bytes}
    (h : s.target l front = .ok (d, some name)) (grows : s.Grows t)
    (present : (t.get? (d ++ [name])).isSome) : t.walk l front = .ok (d ++ [name]) := by
  obtain ⟨front, rfl, walked, directory, isName, short⟩ := target_ok h
  rw [walk_append, grows.walk walked]
  exact (bind_pure _).trans (step_of_isName (grows.directory d directory) isName short present)

theorem makeDirectory_ok (h : s.makeDirectory p = .ok t) :
    ∃ l, l ≠ [] ∧ s.get? l = none ∧ t = s.set l .directory ∧ t.resolve p = .ok l := by
  obtain ⟨start, started, h⟩ := exists_of_bind_ok h
  dsimp only at h
  split at h
  · contradiction
  · obtain ⟨place, found, h⟩ := exists_of_bind_ok h
    split at h
    · contradiction
    · next d name =>
      split at h
      · contradiction
      · next present =>
        obtain rfl := Except.ok.inj h
        have absent : s.get? (d ++ [name]) = none := by simpa using present
        have made : (s.set (d ++ [name]) .directory).get? (d ++ [name]) = some .directory :=
          get?_set_self _ (by simp) _
        have grows : s.Grows (s.set (d ++ [name]) .directory) :=
          grows_set (by simp) fun _ => rfl
        refine ⟨d ++ [name], by simp, absent, rfl, ?_⟩
        -- The slashes at the end of the path were left out.
        have split := congrArg List.reverse
          (List.takeWhile_append_dropWhile (p := List.isEmpty) (l := (Path.segments p).reverse))
        rw [List.reverse_append, List.reverse_reverse] at split
        rw [resolve, grows.origin, started, ← split]
        refine walk_append.trans ?_
        rw [walk_of_target found grows (by simp [made])]
        refine walk_of_isIdle made fun segment member => ?_
        have empty := List.mem_takeWhile_imp (List.mem_reverse.mp member)
        simp [Path.isIdle, empty]

theorem write_ok {content : Bytes} {replace : Bool} (h : s.write p content replace = .ok t) :
    ∃ l, l ≠ [] ∧ s.get? l ≠ some .directory ∧ t = s.set l (.file content) ∧ t.resolve p = .ok l ∧
      l.getLast? = (Path.segments p).getLast? := by
  obtain ⟨start, started, h⟩ := exists_of_bind_ok h
  obtain ⟨⟨d, name⟩, found, h⟩ := exists_of_bind_ok h
  cases name with
  | none => contradiction
  | some name =>
    have put : s.get? (d ++ [name]) ≠ some .directory ∧
        t = s.set (d ++ [name]) (.file content) := by
      dsimp only at h
      split at h
      · next absent => exact ⟨by simp [absent], (Except.ok.inj h).symm⟩
      · next file =>
        split at h
        · exact ⟨by simp [file], (Except.ok.inj h).symm⟩
        · contradiction
      · contradiction
    obtain ⟨free, rfl⟩ := put
    have grows : s.Grows (s.set (d ++ [name]) (.file content)) :=
      grows_set (by simp) fun directory => absurd directory free
    obtain ⟨front, split, _⟩ := target_ok found
    refine ⟨d ++ [name], by simp, free, rfl, ?_, by simp [split]⟩
    rw [resolve, grows.origin, started]
    exact walk_of_target found grows (by simp [get?_set_self])

theorem append_of_file {content before : Bytes} (leads : s.resolve p = .ok l)
    (file : s.get? l = some (.file before)) :
    s.append p content = match s.medium s.entries l content with
      | none => (.ok (), s.set l (.file (before ++ content)))
      | some (n, e) => (.error e, s.set l (.file (before ++ content.take n))) := by
  rcases kept : s.medium s.entries l content with _ | ⟨n, e⟩
  all_goals simp only [append, leads, file, kept]

/-- A file that was opened empty holds what it was given, or the part that the medium took. -/
theorem append_of_write {content : Bytes} {replace : Bool} {r : Except FileError Unit}
    (opened : s.write p [] replace = .ok t) (put : t.append p content = (r, u)) :
    ∃ l taken, l ≠ [] ∧ s.get? l ≠ some .directory ∧ u = s.set l (.file taken) ∧
      u.resolve p = .ok l ∧ l.getLast? = (Path.segments p).getLast? ∧
      (r = .ok () ∧ taken = content ∨ ∃ n e, r = .error e ∧ taken = content.take n ∧
        s.medium t.entries l content = some (n, e)) := by
  obtain ⟨l, filled, free, rfl, leads, last⟩ := write_ok opened
  have file : (s.set l (.file [])).get? l = some (.file []) := s.get?_set_self filled _
  have later (taken : Bytes) : ((s.set l (.file [])).set l (.file taken)).resolve p = .ok l :=
    (grows_set filled fun directory => nomatch file.symm.trans directory).resolve leads
  simp only [append_of_file leads file, List.nil_append] at put
  split at put
  · obtain ⟨rfl, rfl⟩ := Prod.mk.inj put
    exact ⟨l, content, filled, free, set_set _ _ _ _, later _, last, .inl ⟨rfl, rfl⟩⟩
  · next n e short =>
    obtain ⟨rfl, rfl⟩ := Prod.mk.inj put
    exact ⟨l, content.take n, filled, free, set_set _ _ _ _, later _, last,
      .inr ⟨n, e, rfl, rfl, short⟩⟩

/-- `t` has what `s` has, and directories where `p` and the paths above it lead. -/
structure Prepares (s : Store) (p : Path) (t : Store) : Prop where
  current : t.current = s.current
  medium : t.medium = s.medium
  made : ∀ l, t.get? l = s.get? l ∨ s.get? l = none ∧ t.get? l = some .directory ∧
    ∃ a, Relation.ReflTransGen (fun p a => Path.parent? p = some a) p a ∧ t.resolve a = .ok l

namespace Prepares

theorem refl (s : Store) (p : Path) : s.Prepares p s := ⟨rfl, rfl, fun _ => .inl rfl⟩

theorem grows (h : s.Prepares p t) : s.Grows t where
  current := h.current
  directory l directory := by
    rcases h.made l with same | ⟨absent, _⟩
    · exact same.trans directory
    · simp [absent] at directory
  present l present := by
    rcases h.made l with same | ⟨_, made, _⟩
    · rwa [same]
    · simp [made]

theorem of_makeDirectory (made : s.makeDirectory p = .ok t) : s.Prepares p t := by
  obtain ⟨l, filled, absent, rfl, here⟩ := makeDirectory_ok made
  refine ⟨rfl, rfl, fun k => ?_⟩
  by_cases same : k = l
  · subst same
    exact .inr ⟨absent, get?_set_self _ filled _, p, .refl, here⟩
  · exact .inl (get?_set_of_ne _ same _)

theorem trans {parent : Path} (up : p.parent? = some parent) (h : s.Prepares parent t)
    (h' : t.Prepares p u) : s.Prepares p u := by
  refine ⟨h'.current.trans h.current, h'.medium.trans h.medium, fun l => ?_⟩
  rcases h.made l, h'.made l with ⟨same | ⟨absent, made, a, above, leads⟩, same' | here⟩
  · exact .inl (same'.trans same)
  · exact .inr (same ▸ here)
  · refine .inr ⟨absent, same'.trans made, a, .head up above, h'.grows.resolve leads⟩
  · rw [made] at here
    exact nomatch here.1

end Prepares

/-- Whether or not all directories could be made. -/
theorem prepares_makeDirectories (s : Store) (p : Path) : s.Prepares p (s.makeDirectories p).2 := by
  fun_induction makeDirectories s p
  case case2 made => exact .of_makeDirectory made
  case case4 up _ _ above ih =>
    rw [above] at ih
    exact ih.trans up (.refl _ _)
  case case5 up _ above _ made ih =>
    rw [above] at ih
    exact ih.trans up (.of_makeDirectory made)
  case case6 up _ above _ _ _ ih | case7 up _ above _ _ _ ih =>
    rw [above] at ih
    exact ih.trans up (.refl _ _)
  all_goals exact .refl _ _

end Store
end PassCompiler
