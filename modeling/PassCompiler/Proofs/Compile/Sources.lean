import PassCompiler.Proofs.Compile.Mirror
import PassCompiler.Proofs.Text.Valid

/-! Which files of a tree are compiled. Outputs may be put into the tree while it is walked, and
directories with them. Walks tell outputs by their names, so nothing that was not there before is
taken for a source. A file that cannot be read as text is passed over like one without a pass: it
leaves no trace, and no walk fails because of it. -/
namespace PassCompiler

def Options.bare : Options where
  contextParam := []
  frameIndex := []
  commandPool := []
  device := []
  primaryCommandBuffer := []
  includes := []

/-- Nothing is gone from `s`, and files whose names are `kept` are the same. -/
structure Store.Extends (kept : Bytes → Prop) (s t : Store) : Prop where
  grows : s.Grows t
  named : t.Named
  files : ∀ l name, kept name → ∀ c,
    t.get? (l ++ [name]) = some (.file c) ↔ s.get? (l ++ [name]) = some (.file c)

theorem Store.Extends.refl {kept : Bytes → Prop} {s : Store} (named : s.Named) :
    s.Extends kept s := ⟨.refl s, named, fun _ _ _ _ => .rfl⟩

namespace Tree

variable {kept : Bytes → Prop} {p : Plan} {root : Path} {s t u : Store} {x : Source}
  {xs : List Source} {r : Location} {c : Bytes}

def Source.Lies (root : Path) (s : Store) (x : Source) (c : Bytes) : Prop :=
  ∃ r, s.resolve root = .ok r ∧ s.get? (r ++ x.names) = some (.file c)

/-- The name of the output is text if that of the source is. -/
theorem Source.isValid_output (x : Source) (text : Utf8.isValid x.name = true) :
    Utf8.isValid (x.stem ++ outputSuffix) = true := by
  have stem : Utf8.isValid x.stem = true := by
    rcases Path.splitExtension_cases x.name with split | ⟨stem, ext, split, whole⟩
    · rwa [Source.stem, split]
    · rw [whole] at text
      rw [Source.stem, split]
      exact ((Utf8.isValid_append_ascii (by decide)).mp text).1
  exact (Utf8.isValid_append_ascii (by decide)).mpr ⟨stem, by decide⟩

theorem Source.Lies.isProper (h : x.Lies root s c) (named : s.Named) : x.IsProper := by
  obtain ⟨r, _, file⟩ := h
  have all : ∀ name ∈ r ++ x.names, Path.IsProper name := named.isProper (by rw [file]; rfl)
  obtain ⟨folders, last⟩ := List.forall_mem_append.mp (List.forall_mem_append.mp all).2
  exact ⟨folders, last x.name List.mem_cons_self⟩

/-- A file of a tree is read by its path, unless the path is too long. -/
theorem read_path_iff (wf : s.WellFormed) (there : s.resolve root = .ok r) (proper : x.IsProper) :
    s.read (x.path root) = .ok c ↔
      s.get? (r ++ x.names) = some (.file c) ∧ (x.path root).length ≤ Store.maxPath := by
  have filled := (Store.fits_of_resolve there).filled
  rw [Store.read_ok_iff, x.path_eq]
  constructor
  · rintro ⟨l, found, file⟩
    obtain ⟨d, leads, rfl, _⟩ := Store.resolve_foldl_join filled (x.isProper_names proper) found
    obtain rfl := Except.ok.inj (there.symm.trans leads)
    exact ⟨file, (Store.fits_of_resolve found).short⟩
  · rintro ⟨file, short⟩
    exact ⟨_, wf.resolve_foldl_join there (by rw [file]; rfl) short, file⟩

namespace Plan

/-- The plan finds the same file by a name that is kept. -/
theorem read_of_extends (wf : s.WellFormed) (there : s.resolve root = .ok r)
    (ext : s.Extends kept t) (proper : x.IsProper) (keep : kept x.name) :
    t.read (x.path root) = .ok c ↔ s.read (x.path root) = .ok c := by
  have filled := (Store.fits_of_resolve there).filled
  have split : r ++ x.names = r ++ x.folders ++ [x.name] := (List.append_assoc ..).symm
  -- Both stores have `root` at `r`, so the path can only lead to the file of that name below it.
  constructor
  · intro read
    obtain ⟨l, found, file⟩ := Store.read_ok_iff.mp read
    have short := (Store.fits_of_resolve found).short
    rw [x.path_eq] at found
    obtain ⟨d, leads, rfl, _⟩ := Store.resolve_foldl_join filled (x.isProper_names proper) found
    obtain rfl := Except.ok.inj ((ext.grows.resolve there).symm.trans leads)
    rw [split, ext.files _ _ keep, ← split] at file
    exact (read_path_iff wf there proper).mpr ⟨file, short⟩
  · intro read
    obtain ⟨file, short⟩ := (read_path_iff wf there proper).mp read
    obtain ⟨l, found, _⟩ := Store.read_ok_iff.mp read
    have place := wf.resolve_foldl_join there (by rw [file]; rfl) (x.path_eq root ▸ short)
    rw [← x.path_eq] at place
    refine Store.read_ok_iff.mpr ⟨_, ext.grows.resolve place, ?_⟩
    rw [split, ext.files _ _ keep, ← split, file]

theorem picks_of_extends (wf : s.WellFormed) (there : s.resolve root = .ok r)
    (ext : s.Extends kept t) (proper : x.IsProper) (keep : kept x.name) :
    p.Picks root t x ↔ p.Picks root s x := by
  have same : hasPass t (x.path root) = true ↔ hasPass s (x.path root) = true := by
    simp only [hasPass_iff, read_of_extends wf there ext proper keep]
  exact ⟨fun h => ⟨h.admitted, same.mp h.hasPass⟩, fun h => ⟨h.admitted, same.mpr h.hasPass⟩⟩

theorem Compiled.extends (h : p.Compiled root t x u) (proper : x.IsProper)
    (fresh : ¬ kept (x.stem ++ outputSuffix)) (ext : s.Extends kept t) : s.Extends kept u where
  grows := ext.grows.trans h.grows
  named := h.named ext.named
  files l name keep c := by
    refine (h.others _ (fun same => ?_) c).trans (ext.files l name keep c)
    rw [Source.place_output proper] at same
    obtain ⟨_, last⟩ := List.append_inj' same rfl
    exact fresh ((List.cons.inj last).1 ▸ keep)

theorem Walks.extends (h : p.Walks root t xs u) (proper : ∀ x ∈ xs, x.IsProper)
    (fresh : ∀ x ∈ xs, ¬ kept (x.stem ++ outputSuffix)) (ext : s.Extends kept t) :
    s.Extends kept u := by
  induction h with
  | done => exact ext
  | next first _ ih =>
    obtain ⟨here, later⟩ := List.forall_mem_cons.mp proper
    obtain ⟨freshHere, fresh⟩ := List.forall_mem_cons.mp fresh
    exact ih later fresh ((compiled_of_compiles first here).extends here freshHere ext)

/-- The stage of a walk that compiles a source. -/
theorem Walks.exists_compiles (h : p.Walks root s xs t) (member : x ∈ xs) :
    ∃ ys u v, ys <+: xs ∧ p.Walks root s ys u ∧ p.Compiles root u x v := by
  induction h with
  | done => contradiction
  | @next s u t y ys first _ ih =>
    rcases List.mem_cons.mp member with rfl | member
    · exact ⟨[], s, u, List.nil_prefix .., .done s, first⟩
    · obtain ⟨zs, v, w, front, walks, compiles⟩ := ih member
      exact ⟨y :: zs, v, w, (List.prefix_cons_inj y).mpr front, .next first walks, compiles⟩

theorem Picks.folders_lt (h : p.Picks root s x) (proper : x.IsProper) :
    x.folders.length < maxLevels := by
  obtain ⟨c, read, _⟩ := hasPass_iff.mp h.hasPass
  obtain ⟨l, found, _⟩ := Store.read_ok_iff.mp read
  have short := (Store.fits_of_resolve found).short
  have long : root.length + x.names.length ≤ (x.names.foldl Path.join root).length :=
    Path.length_le_foldl_join (x.isProper_names proper)
  rw [← x.path_eq, Source.names, List.length_append] at long
  rw [maxLevels]
  omega

/-- Of the sources with kept names, a walk compiles those that were there from the start. -/
theorem Gathers.mem_iff (h : p.Gathers root (fun _ => True) maxLevels t xs u)
    (wf : s.WellFormed) (there : s.resolve root = .ok r) (ext : s.Extends kept t)
    (fresh : ∀ x ∈ xs, ¬ kept (x.stem ++ outputSuffix)) (proper : x.IsProper)
    (keep : kept x.name) : x ∈ xs ↔ p.Picks root s x := by
  -- No stage of the walk differs from `s` in what it has under the name of the source.
  have stage {ys : List Source} {v : Store} (front : ys <+: xs) (walks : p.Walks root t ys v) :
      p.Picks root v x ↔ p.Picks root s x := by
    have extended := walks.extends (fun y hy => h.proper y (front.subset hy))
      (fun y hy => fresh y (front.subset hy)) ext
    exact picks_of_extends wf there extended proper keep
  constructor
  · intro member
    obtain ⟨ys, v, _, front, walks, compiles⟩ := h.walks.exists_compiles member
    exact (stage front walks).mp compiles.picks
  · intro picks
    exact h.complete x proper trivial (picks.folders_lt proper)
      fun ys v front walks => (stage front walks).mpr picks

/-- A graph source of the tree, by its name and its bytes. -/
structure Seeks (p : Plan) (root : Path) (s : Store) (x : Source) (c : Bytes) : Prop where
  lies : x.Lies root s c
  extension : ∃ ext ∈ p.extensions, (Path.splitExtension x.name).2 = some ext
  name : ¬ outputSuffix <:+ x.name
  hasPass : Bytes.includes Keyword.passBegin c = true

/-- Not the name of an output, as far as names of outputs are told. -/
def IsOther (name : Bytes) : Prop := ¬ (Utf8.isValid name = true ∧ outputSuffix <:+ name)

theorem admits_iff (proper : x.IsProper) : p.admits (x.path root) = true ↔
    (∃ ext ∈ p.extensions, (Path.splitExtension x.name).2 = some ext) ∧ IsOther x.name := by
  rw [admits, Path.extension?, fileName?_path proper, IsOther, ← List.isSuffixOf_iff_suffix]
  simp only [Option.any_some, Option.bind_some, Bool.and_eq_true, Option.any_eq_true,
    List.contains_iff_mem, Bool.not_eq_true', Bool.eq_false_iff, ne_eq]
  refine and_congr_left fun _ => exists_congr fun ext => ?_
  exact and_comm

/-- A file with a name like no output's is compiled if it is a graph source in text form, and its
path is not too long. -/
theorem picks_iff_seeks (wf : s.WellFormed) (there : s.resolve root = .ok r) (proper : x.IsProper)
    (other : ¬ outputSuffix <:+ x.name) : p.Picks root s x ↔ ∃ c, p.Seeks root s x c ∧
      Utf8.isValid c = true ∧ (x.path root).length ≤ Store.maxPath := by
  constructor
  · rintro ⟨admitted, found⟩
    obtain ⟨c, read, valid, pass⟩ := hasPass_iff.mp found
    obtain ⟨file, short⟩ := (read_path_iff wf there proper).mp read
    exact ⟨c, ⟨⟨r, there, file⟩, ((admits_iff proper).mp admitted).1, other, pass⟩, valid, short⟩
  · rintro ⟨c, ⟨⟨r', leads, file⟩, extension, _, pass⟩, valid, short⟩
    obtain rfl := Except.ok.inj (there.symm.trans leads)
    refine ⟨(admits_iff proper).mpr ⟨extension, fun output => other output.2⟩, ?_⟩
    exact hasPass_iff.mpr ⟨c, (read_path_iff wf there proper).mpr ⟨file, short⟩, valid, pass⟩

theorem exists?_of_lies (wf : s.WellFormed) (h : x.Lies root s c) : s.exists? root = true := by
  obtain ⟨r, leads, file⟩ := h
  have filled : x.names ≠ [] := by simp [Source.names]
  have directory := wf.directory_of_append filled (by rw [file]; rfl)
  exact Store.exists?_iff.mpr ⟨r, leads, by rw [directory]; rfl⟩

theorem isReading_of_compileFile {dir path : Path} {e : CompileError}
    (h : (p.compileFile dir path s).result = .error e) : e.isReading = false := by
  rw [compileFile, Action.look_bind] at h
  split at h
  · next source =>
    rw [Bool.and_eq_true] at source
    obtain ⟨c, read, valid, _⟩ := hasPass_iff.mp source.2
    have loads : (Job.load { options := p.options } path s).2.result = .ok () := by
      unfold Job.load
      dsimp only
      rw [read]
      dsimp only
      rw [if_pos valid, Logged.result_note]
    rw [Action.look_bind] at h
    rcases Action.result_bind_error h with fails | ⟨_, u, _, h⟩
    · exact nomatch fails.symm.trans loads
    rcases Action.result_bind_error h with fails | ⟨_, v, _, h⟩
    · exact Job.isReading_of_compile fails
    · contradiction
  · contradiction

theorem isReading_of_compileBelow {levels : Nat} {dir : Path} {relative : List Bytes}
    {e : CompileError} (h : (p.compileBelow levels dir relative s).result = .error e) :
    e.isReading = false := by
  induction levels generalizing s dir relative with
  | zero => contradiction
  | succ levels ih =>
    rw [compileBelow_succ, Action.look_bind] at h
    rcases Action.result_bind_error h with fails | ⟨names, u, _, h⟩
    · cases list : s.list dir with
      | error failure =>
        rw [Action.ofExcept, list] at fails
        obtain rfl := Except.error.inj fails
        rfl
      | ok names =>
        rw [Action.ofExcept, list] at fails
        contradiction
    rcases Action.result_bind_error h with fails | ⟨_, v, _, h⟩
    · obtain ⟨name, _, v, fails⟩ := Action.result_mapM_error fails
      rw [compileEntry, Action.look_bind] at fails
      split at fails
      · exact ih fails
      · exact isReading_of_compileFile fails
    · contradiction

/-- No walk fails because of a source that it cannot read. -/
theorem isReading_of_compile {e : CompileError} (h : (p.compile root s).result = .error e) :
    e.isReading = false := by
  rw [compile, Action.look_bind] at h
  split at h
  · exact isReading_of_compileBelow h
  · contradiction

/-- Whatever names there are, a walk compiles the graph sources that it can read as text. -/
theorem gathers_readable (wf : s.WellFormed) {outputs : List Path}
    (h : (p.compile root).Yields s outputs t) :
    ∃ xs, p.Walks root s xs t ∧ outputs = xs.map (·.output p) ∧ ∀ x c, p.Seeks root s x c →
      (x ∈ xs ↔ Utf8.isValid c = true ∧ (x.path root).length ≤ Store.maxPath) := by
  cases there : s.exists? root with
  | false =>
    rw [Action.Yields, compile_of_absent there] at h
    obtain ⟨result, rfl⟩ := h
    refine ⟨[], .done _, (Except.ok.inj result).symm, fun x c seeks => ?_⟩
    exact absurd (exists?_of_lies wf seeks.lies) (by simp [there])
  | true =>
    obtain ⟨xs, gathers, same⟩ := gathers_of_compile wf.toNamed there h
    refine ⟨xs, gathers.walks, same, fun x c seeks => ?_⟩
    obtain ⟨r, leads, file⟩ := seeks.lies
    have proper := seeks.lies.isProper wf.toNamed
    have same : s.Extends (¬ outputSuffix <:+ ·) s := .refl wf.toNamed
    have found := gathers.mem_iff wf leads same
      (fun x _ output => output (List.suffix_append _ _)) proper seeks.name
    rw [found, picks_iff_seeks wf leads proper seeks.name]
    constructor
    · rintro ⟨c', seeks', valid, short⟩
      obtain ⟨r', leads', file'⟩ := seeks'.lies
      obtain rfl := Except.ok.inj (leads.symm.trans leads')
      obtain rfl := Node.file.inj (Option.some.inj (file.symm.trans file'))
      exact ⟨valid, short⟩
    · exact fun readable => ⟨c, seeks, readable⟩

/-- What a walk makes of sources that it cannot read: it neither fails because of them nor compiles
them. -/
theorem compile_misses_unreadable (p : Plan) (root : Path) {s : Store} (wf : s.WellFormed) :
    (∀ e, (p.compile root s).result = .error e → e.isReading = false) ∧
      ∀ outputs, (p.compile root s).result = .ok outputs →
        ∃ xs, p.Walks root s xs (p.compile root s).store ∧ outputs = xs.map (·.output p) ∧
          ∀ x c, p.Seeks root s x c →
            (x ∈ xs ↔ Utf8.isValid c = true ∧ (x.path root).length ≤ Store.maxPath) := by
  constructor
  · intro e fails
    exact isReading_of_compile fails
  · intro outputs ok
    exact gathers_readable wf ⟨ok, rfl⟩

/-- Two sources, the second of which is no text. -/
theorem compile_misses_unreadable_second :
    let p : Plan := { destination := bytes "out", frames := 2, options := .bare }
    let s := ((Store.empty.set [bytes "g"] .directory).set [bytes "g", bytes "b.hpp"]
      (.file (0xFF :: bytes "PASS_BEGIN(B) \x7b \x7d PASS_END"))).set [bytes "g", bytes "a.hpp"]
      (.file (bytes "PASS_BEGIN(A) \x7b \x7d PASS_END"))
    ∃ xs, p.Walks (bytes "g") s xs (p.compile (bytes "g") s).store ∧
      [bytes "out/a__processed.hpp"] = xs.map (·.output p) ∧ ∀ x c, p.Seeks (bytes "g") s x c →
        (x ∈ xs ↔ Utf8.isValid c = true ∧ (x.path (bytes "g")).length ≤ Store.maxPath) := by
  intro p s
  have list : s.list (bytes "g") = .ok [bytes "a.hpp", bytes "b.hpp"] :=
    Store.list_of_entries (l := [bytes "g"]) (by decide +kernel) (by decide +kernel)
      (by decide +kernel) (by decide +kernel)
  have wf : s.WellFormed := by decide +kernel
  apply (compile_misses_unreadable p (bytes "g") wf).2
  rw [compile_of_list (by decide +kernel) list]
  decide +kernel

/-- A source that a single compilation refuses. The walk succeeds without it. -/
theorem compile_passes_over :
    let p : Plan := { destination := bytes "out", frames := 2, options := .bare }
    let x : Source := ⟨[], bytes "a.hpp"⟩
    let c := 0xFF :: bytes "PASS_BEGIN(A) \x7b \x7d PASS_END"
    let s := (Store.empty.set [bytes "g"] .directory).set [bytes "g", bytes "a.hpp"] (.file c)
    p.Seeks (bytes "g") s x c ∧ (p.compile (bytes "g") s).result = .ok [] ∧
      (p.loading (bytes "g") s x).2.result = .error (.notUtf8 (bytes "g/a.hpp")) := by
  intro p x c s
  have list : s.list (bytes "g") = .ok [bytes "a.hpp"] :=
    Store.list_of_entries (l := [bytes "g"]) (by decide +kernel) (by decide +kernel)
      (by decide +kernel) (by decide +kernel)
  refine ⟨⟨⟨[bytes "g"], ?_, ?_⟩, ⟨bytes "hpp", ?_, ?_⟩, ?_, ?_⟩, ?compiled, ?_⟩
  case compiled =>
    rw [compile_of_list (by decide +kernel) list]
    decide +kernel
  all_goals decide +kernel

/-- Outputs are told by their names if the names of the sources are text. -/
theorem Walks.stems_valid (h : p.Walks root t xs u) (wf : s.WellFormed)
    (there : s.resolve root = .ok r) (ext : s.Extends IsOther t) (proper : ∀ x ∈ xs, x.IsProper)
    (text : ∀ x : Source, x.IsProper → p.Picks root s x →
      Utf8.isValid (x.stem ++ outputSuffix) = true) :
    ∀ x ∈ xs, Utf8.isValid (x.stem ++ outputSuffix) = true := by
  induction h with
  | done => nofun
  | next first _ ih =>
    obtain ⟨here, later⟩ := List.forall_mem_cons.mp proper
    have other := ((admits_iff here).mp first.admitted).2
    have valid := text _ here ((picks_of_extends wf there ext here other).mp first.picks)
    have extended := (compiled_of_compiles first here).extends here
      (fun other => other ⟨valid, List.suffix_append _ _⟩) ext
    exact List.forall_mem_cons.mpr ⟨valid, ih extended later⟩

/-- If its outputs are told by their names, a walk comes to the sources that were there before any
outputs were, and leaves a store to which outputs were added. -/
theorem Gathers.members (h : p.Gathers root (fun _ => True) maxLevels t xs u) (wf : s.WellFormed)
    (there : s.resolve root = .ok r) (ext : s.Extends IsOther t)
    (valid : ∀ x ∈ xs, Utf8.isValid (x.stem ++ outputSuffix) = true) :
    s.Extends IsOther u ∧ ∀ x, x ∈ xs ↔ x.IsProper ∧ p.Picks root s x := by
  have fresh : ∀ x ∈ xs, ¬ IsOther (x.stem ++ outputSuffix) :=
    fun x member other => other ⟨valid x member, List.suffix_append _ _⟩
  have found {x : Source} (proper : x.IsProper) (admitted : p.admits (x.path root) = true) :=
    h.mem_iff wf there ext fresh proper ((admits_iff proper).mp admitted).2
  refine ⟨h.walks.extends h.proper fresh ext, fun x => ⟨fun member => ?_, ?_⟩⟩
  · have proper := h.proper x member
    exact ⟨proper, (found proper (h.walks.admits x member)).mp member⟩
  · rintro ⟨proper, picks⟩
    exact (found proper picks.admitted).mpr picks

/-- A walk through a store that outputs were added to comes to the same sources. -/
theorem gathers_of_extends (wf : s.WellFormed) (there : s.resolve root = .ok r)
    (ext : s.Extends IsOther t) (text : ∀ x : Source, x.IsProper → p.Picks root s x →
      Utf8.isValid (x.stem ++ outputSuffix) = true) {outputs : List Path}
    (present : t.exists? root = true) (h : (p.compile root).Yields t outputs u) :
    ∃ xs, p.Gathers root (fun _ => True) maxLevels t xs u ∧ outputs = xs.map (·.output p) ∧
      ∀ x, x ∈ xs ↔ x.IsProper ∧ p.Picks root s x := by
  obtain ⟨xs, gathers, same⟩ := gathers_of_compile ext.named present h
  have valid := gathers.walks.stems_valid wf there ext gathers.proper text
  exact ⟨xs, gathers, same, (gathers.members wf there ext valid).2⟩

/-- The outputs of a tree whose sources have names that are text. The walk puts outputs between the
sources, but what it lists goes by the tree as it was. -/
theorem compile_lists (p : Plan) (root : Path) {s : Store} (wf : s.WellFormed)
    (text : ∀ x : Source, x.IsProper → p.Picks root s x → Utf8.isValid x.name = true)
    {outputs : List Path} (h : (p.compile root s).result = .ok outputs) :
    ∃ xs : List Source, outputs = xs.map (·.output p) ∧
      xs.Pairwise (fun x y => x.names < y.names) ∧
      (∀ x ∈ xs, outputPath (x.path root) (some (x.folder p)) = .ok (x.output p)) ∧
      ∀ x, x ∈ xs ↔ ∃ c, p.Seeks root s x c ∧ Utf8.isValid c = true ∧
        (x.path root).length ≤ Store.maxPath := by
  cases there : s.exists? root with
  | false =>
    rw [compile_of_absent there] at h
    refine ⟨[], (Except.ok.inj h).symm, .nil, nofun, fun x => ⟨nofun, ?_⟩⟩
    rintro ⟨c, seeks, _⟩
    exact absurd (exists?_of_lies wf seeks.lies) (by simp [there])
  | true =>
    obtain ⟨r, leads, _⟩ := Store.exists?_iff.mp there
    have outputs_text (x : Source) (proper : x.IsProper) (picks : p.Picks root s x) :
        Utf8.isValid (x.stem ++ outputSuffix) = true := x.isValid_output (text x proper picks)
    obtain ⟨xs, gathers, same, members⟩ := gathers_of_extends wf leads (.refl wf.toNamed)
      outputs_text there ⟨h, rfl⟩
    refine ⟨xs, same, gathers.sorted, fun x member => outputPath_path (gathers.proper x member),
      fun x => (members x).trans ⟨?listed, ?sought⟩⟩
    case listed =>
      rintro ⟨proper, picks⟩
      have other : ¬ outputSuffix <:+ x.name := fun output =>
        ((admits_iff proper).mp picks.admitted).2 ⟨text x proper picks, output⟩
      exact (picks_iff_seeks wf leads proper other).mp picks
    case sought =>
      rintro ⟨c, seeks, readable⟩
      have proper := seeks.lies.isProper wf.toNamed
      exact ⟨proper, (picks_iff_seeks wf leads proper seeks.name).mpr ⟨c, seeks, readable⟩⟩

/-- Names of sources are text where all names are. -/
theorem Picks.isValid_name (h : p.Picks root s x) (proper : x.IsProper)
    (text : ∀ e ∈ s.entries, ∀ name ∈ e.1, Utf8.isValid name = true) :
    Utf8.isValid x.name = true := by
  obtain ⟨c, read, _⟩ := hasPass_iff.mp h.hasPass
  obtain ⟨l, found, file⟩ := Store.read_ok_iff.mp read
  have last := s.getLast?_of_resolve found file (fileName?_path proper)
  obtain ⟨front, rfl⟩ := List.getLast?_eq_some_iff.mp last
  obtain ⟨e, member, same⟩ := Store.exists_entry (by rw [file]; rfl)
  exact text e member x.name (by simp [same])

/-- Two sources with an output beside each. -/
theorem compile_lists_beside :
    let p : Plan := { destination := bytes "g", frames := 2, options := .bare }
    let s := ((Store.empty.set [bytes "g"] .directory).set [bytes "g", bytes "b.hpp"]
      (.file (bytes "PASS_BEGIN(B) \x7b \x7d PASS_END"))).set [bytes "g", bytes "a.hpp"]
      (.file (bytes "PASS_BEGIN(A) \x7b \x7d PASS_END"))
    ∃ xs : List Source, [bytes "g/a__processed.hpp", bytes "g/b__processed.hpp"] =
        xs.map (·.output p) ∧ xs.Pairwise (fun x y => x.names < y.names) ∧
      (∀ x ∈ xs, outputPath (x.path (bytes "g")) (some (x.folder p)) = .ok (x.output p)) ∧
      ∀ x, x ∈ xs ↔ ∃ c, p.Seeks (bytes "g") s x c ∧ Utf8.isValid c = true ∧
        (x.path (bytes "g")).length ≤ Store.maxPath := by
  intro p s
  have list : s.list (bytes "g") = .ok [bytes "a.hpp", bytes "b.hpp"] :=
    Store.list_of_entries (l := [bytes "g"]) (by decide +kernel) (by decide +kernel)
      (by decide +kernel) (by decide +kernel)
  have names : ∀ e ∈ s.entries, ∀ name ∈ e.1, Utf8.isValid name = true := by decide +kernel
  have wf : s.WellFormed := by decide +kernel
  apply compile_lists p (bytes "g") wf fun x proper picks => picks.isValid_name proper names
  rw [compile_of_list (by decide +kernel) list]
  decide +kernel

/-- An entry whose path is too long is neither a directory nor a source. -/
theorem compileEntry_of_long {levels : Nat} {dir : Path} {relative : List Bytes} {name : Bytes}
    (long : Store.maxPath < (dir.join name).length) :
    p.compileEntry levels dir relative name s = ⟨.ok [], s, []⟩ := by
  have nowhere (l : Location) : s.resolve (dir.join name) ≠ .ok l :=
    fun found => Nat.not_lt.mpr (Store.fits_of_resolve found).short long
  have directory : s.isDirectory (dir.join name) = false := by
    refine Bool.eq_false_iff.mpr fun directory => ?_
    obtain ⟨l, found, _⟩ := Store.isDirectory_iff.mp directory
    exact nowhere l found
  have source : hasPass s (dir.join name) = false := by
    refine Bool.eq_false_iff.mpr fun source => ?_
    obtain ⟨c, read, _⟩ := hasPass_iff.mp source
    obtain ⟨l, found, _⟩ := Store.read_ok_iff.mp read
    exact nowhere l found
  rw [compileEntry, Action.look_bind, directory, if_neg Bool.false_ne_true, compileFile,
    Action.look_bind, source, Bool.and_false, if_neg Bool.false_ne_true, Action.pure_apply]

/-- A source whose path is too long, as the root is given. The walk succeeds without it. -/
theorem compile_passes_over_long :
    let p : Plan := { destination := bytes "out", frames := 2, options := .bare }
    let root : Path := (List.replicate 2045 (bytes "./")).flatten ++ bytes "g"
    let x : Source := ⟨[], bytes "a.hpp"⟩
    let c := bytes "PASS_BEGIN(A) \x7b \x7d PASS_END"
    let s := (Store.empty.set [bytes "g"] .directory).set [bytes "g", bytes "a.hpp"] (.file c)
    p.Seeks root s x c ∧ Utf8.isValid c = true ∧ (p.compile root s).result = .ok [] := by
  intro p root x c s
  have leads : s.resolve root = .ok [bytes "g"] := by
    have dots : bytes "./" = [0x2E, 0x2F] := by decide
    rw [show root = (List.replicate 2045 [0x2E, 0x2F]).flatten ++ bytes "g" from dots ▸ rfl]
    exact Store.resolve_dots 2045 (by decide +kernel) (by decide) (by decide) (by decide)
  have directory : s.get? [bytes "g"] = some .directory := by decide +kernel
  have list : s.list root = .ok [bytes "a.hpp"] :=
    Store.list_of_entries leads directory (by decide +kernel) (by decide +kernel)
  have there := Store.exists?_of_list list
  have long : Store.maxPath < (root.join (bytes "a.hpp")).length := by
    have size : root.length = 2045 * 2 + 1 := by
      rw [List.length_append, List.length_flatten, List.map_replicate, List.sum_replicate_nat]
      rfl
    have relative : Path.isAbsolute (bytes "a.hpp") = false := by decide
    have longer := Path.length_join_le root relative
    rw [size] at longer
    exact Nat.lt_of_lt_of_le (by decide) longer
  refine ⟨⟨⟨[bytes "g"], leads, ?_⟩, ⟨bytes "hpp", ?_, ?_⟩, ?_, ?_⟩, ?_, ?compiled⟩
  case compiled =>
    have entry : [bytes "a.hpp"].mapM (p.compileEntry Store.maxPath root []) s =
        ⟨.ok [[]], s, []⟩ := by
      rw [List.mapM_cons, Action.bind_of_ok (compileEntry_of_long long)]
      rfl
    rw [compile_of_list there list, Action.bind_of_ok entry]
    rfl
  all_goals decide +kernel

end Plan
end Tree
end PassCompiler
