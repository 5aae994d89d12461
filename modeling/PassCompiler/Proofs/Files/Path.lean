import Mathlib.Data.List.Basic
import Mathlib.Data.List.TakeWhile
import PassCompiler.Compile.Job
import PassCompiler.Proofs.Files.Growth

/-! Names in paths: the last segment of a path, what it is called without its extension, and where
the path of something in a directory leads. -/
namespace PassCompiler

namespace Path

variable {p q : Path} {name segment : Bytes} {front : List Bytes}

theorem exists_segments_cons {b : UInt8} (h : b ≠ 0x2F) (rest : Bytes) :
    ∃ first others, segments rest = first :: others ∧
      segments (b :: rest) = (b :: first) :: others := by
  cases parts : segments rest with
  | nil => exact absurd parts (segments_ne_nil rest)
  | cons first others =>
    refine ⟨first, others, rfl, ?_⟩
    rw [segments, if_neg (by simpa using h), parts]

theorem segments_slash (rest : Bytes) : segments (0x2F :: rest) = [] :: segments rest := rfl

theorem segments_append_slash (p q : Bytes) :
    segments (p ++ 0x2F :: q) = segments p ++ segments q := by
  induction p with
  | nil => rfl
  | cons b p ih =>
    by_cases slash : b = 0x2F
    · rw [slash, List.cons_append, segments_slash, segments_slash, ih, List.cons_append]
    · obtain ⟨first, others, parts, whole⟩ := exists_segments_cons slash p
      obtain ⟨first', others', parts', whole'⟩ := exists_segments_cons slash (p ++ 0x2F :: q)
      rw [ih, parts, List.cons_append] at parts'
      obtain ⟨rfl, rfl⟩ := List.cons.inj parts'
      rw [List.cons_append, whole', whole, List.cons_append]

theorem slash_notMem_of_mem_segments (h : segment ∈ segments p) : 0x2F ∉ segment := by
  induction p generalizing segment with
  | nil =>
    obtain rfl := List.mem_singleton.mp h
    exact List.not_mem_nil
  | cons b p ih =>
    by_cases slash : b = 0x2F
    · rw [slash, segments_slash] at h
      rcases List.mem_cons.mp h with rfl | later
      · exact List.not_mem_nil
      · exact ih later
    · obtain ⟨first, others, parts, whole⟩ := exists_segments_cons slash p
      rw [parts] at ih
      rw [whole] at h
      rcases List.mem_cons.mp h with rfl | later
      · exact List.not_mem_cons_of_ne_of_not_mem (Ne.symm slash) (ih List.mem_cons_self)
      · exact ih (List.mem_cons_of_mem _ later)

theorem segments_of_notMem (h : 0x2F ∉ name) : segments name = [name] := by
  induction name with
  | nil => rfl
  | cons b name ih =>
    have other : b ≠ 0x2F := (List.ne_of_not_mem_cons h).symm
    obtain ⟨_, _, parts, whole⟩ := exists_segments_cons other name
    rw [ih (List.not_mem_of_not_mem_cons h)] at parts
    obtain ⟨rfl, rfl⟩ := List.cons.inj parts
    exact whole

theorem segments_ofSegments {names : List Bytes} (filled : names ≠ [])
    (free : ∀ name ∈ names, 0x2F ∉ name) : segments (ofSegments names) = names := by
  cases names with
  | nil => contradiction
  | cons name names =>
    induction names generalizing name with
    | nil => exact segments_of_notMem (free name List.mem_cons_self)
    | cons next names ih =>
      obtain ⟨first, rest⟩ := List.forall_mem_cons.mp free
      have later := ih next (List.cons_ne_nil _ _) rest
      rw [ofSegments, segments_append_slash, segments_of_notMem first, later,
        List.singleton_append]
      exact List.cons_ne_nil next names

theorem isAbsolute_of_notMem (h : 0x2F ∉ name) : isAbsolute name = false := by
  cases name with
  | nil => rfl
  | cons b name => simpa [isAbsolute] using (List.ne_of_not_mem_cons h).symm

/-- Relative paths behind a directory come after the segments that lead to the directory. -/
theorem exists_segments_join (dir : Path) : ∃ front idle,
    (∀ q, isAbsolute q = false → segments (dir.join q) = front ++ segments q) ∧
      segments dir = front ++ idle ∧ ∀ segment ∈ idle, isIdle segment = true := by
  rcases List.eq_nil_or_concat' dir with rfl | ⟨d, b, rfl⟩
  · refine ⟨[], [[]], fun q relative => ?_, rfl, by simp [isIdle]⟩
    rw [join, relative]
    rfl
  · by_cases slash : b = 0x2F
    · subst slash
      refine ⟨segments d, [[]], fun q relative => ?_, segments_append_slash d [], by simp [isIdle]⟩
      rw [join, relative]
      simp [segments_append_slash]
    · refine ⟨segments (d ++ [b]), [], fun q relative => ?_, (List.append_nil _).symm, by simp⟩
      rw [join, relative]
      simp [slash, ← segments_append_slash]

/-- A name in a directory is the last segment of its path, behind the same ones as every other. -/
theorem exists_segments_join_name (dir : Path) :
    ∃ front, ∀ name, 0x2F ∉ name → segments (dir.join name) = front ++ [name] := by
  obtain ⟨front, _, split, _⟩ := exists_segments_join dir
  refine ⟨front, fun name free => ?_⟩
  rw [split name (isAbsolute_of_notMem free), segments_of_notMem free]

/-- What a path is anchored at, by the segments before its last. -/
def anchorOf : List Bytes → Path
  | [] :: _ => [0x2F]
  | [0x2E] :: _ => [0x2E]
  | _ => []

/-- The segments behind the anchor. -/
def behindAnchor : List Bytes → List Bytes
  | [] :: others => others
  | [0x2E] :: others => [] :: others
  | front => front

theorem anchor_of_segments (h : segments p = front ++ [segment]) (leads : isIdle segment = false) :
    p.anchor = anchorOf front ∧
      segments (p.drop p.anchor.length) = behindAnchor front ++ [segment] := by
  have later {first : Bytes} {rest : Path} (h : first :: segments rest = front ++ [segment]) :
      ∃ others, front = first :: others ∧ segments rest = others ++ [segment] := by
    cases front with
    | nil => exact absurd (List.cons.inj h).2 (segments_ne_nil rest)
    | cons f others =>
      obtain ⟨rfl, rest⟩ := List.cons.inj h
      exact ⟨others, rfl, rest⟩
  unfold anchor
  split
  · obtain ⟨others, rfl, rest⟩ := later h
    exact ⟨rfl, rest⟩
  · obtain ⟨_, same⟩ := List.append_inj' (show [] ++ [[0x2E]] = front ++ [segment] from h) rfl
    rw [← (List.cons.inj same).1] at leads
    exact absurd leads (by decide)
  · obtain ⟨others, rfl, rest⟩ := later h
    exact ⟨rfl, congrArg ([] :: ·) rest⟩
  · next slash _ dot =>
    have whole : p = ofSegments (front ++ [segment]) := by rw [← h, ofSegments_segments]
    have split (first : Bytes) (others : List Bytes) : ofSegments (first :: others ++ [segment]) =
        first ++ 0x2F :: ofSegments (others ++ [segment]) := by cases others <;> rfl
    have plain : anchorOf front = [] ∧ behindAnchor front = front := by
      cases front with
      | nil => exact ⟨rfl, rfl⟩
      | cons first others =>
        rw [split] at whole
        have filled : first ≠ [] := by
          rintro rfl
          exact slash _ whole
        have other : first ≠ [0x2E] := by
          rintro rfl
          exact dot _ whole
        simp [anchorOf, behindAnchor, filled, other]
    exact ⟨plain.1.symm, by rw [plain.2]; exact h⟩

theorem backwards_of_segments (h : segments p = front ++ [segment])
    (leads : isIdle segment = false) : p.backwards = segment :: (behindAnchor front).reverse := by
  rw [Path.backwards, (anchor_of_segments h leads).2, List.reverse_append, List.reverse_singleton,
    List.singleton_append, List.dropWhile_cons_of_neg (by simp [leads])]

/-- The parent of a path is made of the segments before the last. -/
theorem parent?_of_segments (h : segments p = front ++ [segment])
    (leads : isIdle segment = false) : p.parent? = some (anchorOf front ++
      ofSegments ((behindAnchor front).reverse.dropWhile isIdle).reverse) := by
  rw [parent?, backwards_of_segments h leads, (anchor_of_segments h leads).1]

theorem fileName?_of_segments (h : segments p = front ++ [name]) (isName : IsName name) :
    p.fileName? = some name := by
  rw [fileName?, backwards_of_segments h isName.leads]
  simpa using isName.down

theorem isName_of_fileName? (h : p.fileName? = some name) : IsName name ∧ 0x2F ∉ name := by
  unfold fileName? at h
  split at h
  · contradiction
  · next last before found =>
    split at h
    · contradiction
    · next down =>
      obtain rfl := Option.some.inj h
      have member : last ∈ p.backwards := found ▸ List.mem_cons_self
      refine ⟨⟨isIdle_of_backwards found, by simpa using down⟩, ?_⟩
      exact slash_notMem_of_mem_segments
        (List.mem_reverse.mp ((List.dropWhile_sublist _).subset member))

/-- A name with its stem and its extension, if it has one. -/
theorem splitExtension_cases (name : Bytes) : splitExtension name = (name, none) ∨
    ∃ stem ext, splitExtension name = (stem, some ext) ∧ name = stem ++ 0x2E :: ext := by
  unfold splitExtension
  dsimp only
  split
  · next x b before found =>
    refine .inr ⟨_, _, rfl, ?_⟩
    have whole := congrArg List.reverse
      (List.takeWhile_append_dropWhile (p := (· != 0x2E)) (l := name.reverse))
    have dot : x = 0x2E := by
      have first := List.head?_dropWhile_not (· != 0x2E) name.reverse
      rw [found] at first
      simpa using first
    rw [found, List.reverse_append, List.reverse_reverse, List.reverse_cons,
      List.append_assoc, dot] at whole
    exact whole.symm
  · exact .inl rfl

theorem prefix_of_splitExtension (name : Bytes) : (splitExtension name).1 <+: name := by
  rcases splitExtension_cases name with split | ⟨stem, ext, split, whole⟩
  · exact ⟨[], (List.append_nil _).trans (congrArg Prod.fst split)⟩
  · rw [split, whole]
    exact List.prefix_append _ _

/-- The parts of a name that has an extension. -/
theorem eq_of_splitExtension {name stem ext : Bytes} (h : splitExtension name = (stem, some ext)) :
    name = stem ++ 0x2E :: ext := by
  rcases splitExtension_cases name with split | ⟨stem', ext', split, whole⟩
  · exact nomatch h.symm.trans split
  · obtain ⟨rfl, same⟩ := Prod.mk.inj (h.symm.trans split)
    obtain rfl := Option.some.inj same
    exact whole

theorem isName_append_suffix (stem : Bytes) : IsName (stem ++ outputSuffix) := by
  have long : (stem ++ outputSuffix).length = stem.length + 15 := by
    rw [List.length_append]
    congr 1
  constructor
  · rw [isIdle, Bool.or_eq_false_iff, List.isEmpty_eq_false_iff, beq_eq_false_iff_ne]
    exact ⟨List.ne_nil_of_length_pos (by omega), fun same => by simp [same] at long⟩
  · exact fun same => by simp [same] at long

/-- An output is called after its source. -/
theorem fileName?_of_outputPath {dir : Option Path} (h : outputPath p dir = .ok q) :
    ∃ name, p.fileName? = some name ∧
      q.fileName? = some ((splitExtension name).1 ++ outputSuffix) := by
  unfold outputPath stem? at h
  cases named : p.fileName? with
  | none =>
    rw [named] at h
    contradiction
  | some name =>
    rw [named] at h
    obtain rfl := Except.ok.inj h
    have free : 0x2F ∉ (splitExtension name).1 ++ outputSuffix := by
      rw [List.mem_append, not_or]
      refine ⟨fun slash => ?_, by decide⟩
      exact (isName_of_fileName? named).2 ((prefix_of_splitExtension name).subset slash)
    obtain ⟨front, split⟩ := exists_segments_join_name (dir.getD (p.parent?.getD []))
    exact ⟨name, rfl, fileName?_of_segments (split _ free) (isName_append_suffix _)⟩

end Path

namespace Store

variable {s : Store} {p : Path} {l : Location} {name : Bytes}

/-- A path leads to a file by its name. -/
theorem getLast?_of_resolve (found : s.resolve p = .ok l) {content : Bytes}
    (file : s.get? l = some (.file content)) (named : p.fileName? = some name) :
    l.getLast? = some name := by
  obtain ⟨start, _, walked⟩ := exists_of_bind_ok found
  obtain ⟨front, last, split⟩ :=
    (List.eq_nil_or_concat' (Path.segments p)).resolve_left (Path.segments_ne_nil p)
  rw [split, walk_append] at walked
  obtain ⟨d, _, alone⟩ := exists_of_bind_ok walked
  obtain ⟨k, stepped, here⟩ := exists_of_bind_ok alone
  obtain rfl : k = l := Except.ok.inj here
  obtain ⟨directory, ⟨_, rfl⟩ | ⟨up, _⟩ | ⟨isName, _, _, rfl⟩⟩ := step_ok_iff.mp stepped
  · exact nomatch file.symm.trans directory
  · have backwards := Path.backwards_of_segments split (by rw [up]; decide)
    rw [Path.fileName?, backwards, up] at named
    contradiction
  · rw [← named, Path.fileName?_of_segments split isName, List.getLast?_concat]

end Store
end PassCompiler
