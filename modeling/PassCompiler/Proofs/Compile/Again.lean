import PassCompiler.Proofs.Compile.Sources

/-! Compiling a tree again. Every output of a walk that loses none begins with the banner of its
source. Another walk comes to the same sources, finds their outputs up to date by the first lines,
and writes nothing. -/
namespace PassCompiler
namespace Job

variable {job : Job} {frames : Nat} {dir : Option Path} {store : Store} {output : Output}

theorem exists_output_of_compile {o : Path} (h : (job.compile frames dir store).2.result = .ok o) :
    ∃ output, (job.output frames dir).result = .ok output := by
  unfold compile at h
  dsimp only at h
  split at h
  · contradiction
  · next output ready => exact ⟨output, ready⟩

/-- A compilation whose output is up to date changes nothing, whatever may be overwritten. -/
theorem compile_of_isCurrent (ready : (job.output frames dir).result = .ok output)
    (current : isCurrent store output.path output.banner = true) :
    (job.compile frames dir store).2.result = .ok output.path ∧
      (job.compile frames dir store).2.store = store := by
  obtain ⟨job', _, result, after⟩ := compile_of_ok ready store
  rw [result, after]
  exact deliver_of_current current

end Job

theorem Action.exists_yields_mapM {ε α β : Type} {f : β → Action ε α} {bs : List β} {s : Store}
    (each : ∀ b ∈ bs, ∃ a, (f b).Yields s a s) : ∃ as, (bs.mapM f).Yields s as s := by
  induction bs with
  | nil => exact ⟨[], yields_pure.mpr ⟨rfl, rfl⟩⟩
  | cons b bs ih =>
    obtain ⟨⟨a, first⟩, later⟩ := List.forall_mem_cons.mp each
    obtain ⟨as, rest⟩ := ih later
    have last : (pure (a :: as) : Action ε (List α)).Yields s (a :: as) s :=
      yields_pure.mpr ⟨rfl, rfl⟩
    rw [List.mapM_cons]
    exact ⟨a :: as, yields_bind.mpr ⟨a, s, first, yields_bind.mpr ⟨as, s, rest, last⟩⟩⟩

namespace Tree

/-- The store `t` is `u` with some of the outputs edited below their first lines. -/
structure Edited (outputs : List Path) (u t : Store) : Prop where
  current : t.current = u.current
  node : ∀ l, t.get? l = u.get? l ∨ ∃ o ∈ outputs, u.resolve o = .ok l ∧
    ∃ c c', u.get? l = some (.file c) ∧ t.get? l = some (.file c') ∧
      Bytes.firstLine? c' = Bytes.firstLine? c

namespace Edited

variable {kept : Bytes → Prop} {outputs : List Path} {s t u : Store} {path : Path} {c : Bytes}

theorem isSome (h : Edited outputs u t) (l : Location) :
    (t.get? l).isSome = (u.get? l).isSome := by
  rcases h.node l with same | ⟨_, _, _, c, c', before, after, _⟩
  · rw [same]
  · rw [before, after]
    rfl

theorem directory (h : Edited outputs u t) (l : Location) :
    t.get? l = some .directory ↔ u.get? l = some .directory := by
  rcases h.node l with same | ⟨_, _, _, c, c', before, after, _⟩
  · rw [same]
  · simp [before, after]

theorem grows (h : Edited outputs u t) : u.Grows t :=
  ⟨h.current, fun l => (h.directory l).mpr, fun l => (h.isSome l).symm ▸ id⟩

theorem shrinks (h : Edited outputs u t) : t.Grows u :=
  ⟨h.current.symm, fun l => (h.directory l).mp, fun l => h.isSome l ▸ id⟩

/-- One edit of one output. -/
theorem of_set {o : Path} {l : Location} {b : Bytes} (member : o ∈ outputs)
    (found : u.resolve o = .ok l) (file : u.get? l = some (.file c))
    (line : Bytes.firstLine? b = Bytes.firstLine? c) :
    Edited outputs u (u.set l (.file b)) := by
  have filled : l ≠ [] := by
    rintro rfl
    exact nomatch file
  refine ⟨rfl, fun k => ?_⟩
  by_cases here : k = l
  · rw [here]
    exact .inr ⟨o, member, found, c, b, file, u.get?_set_self filled _, line⟩
  · exact .inl (u.get?_set_of_ne here _)

/-- What was read before has the same first line now. -/
theorem exists_read (h : Edited outputs u t) (read : u.read path = .ok c) :
    ∃ c', t.read path = .ok c' ∧ Bytes.firstLine? c' = Bytes.firstLine? c := by
  obtain ⟨l, found, file⟩ := Store.read_ok_iff.mp read
  have leads := h.grows.resolve found
  rcases h.node l with same | ⟨_, _, _, b, c', before, after, line⟩
  · exact ⟨c, Store.read_ok_iff.mpr ⟨l, leads, same.trans file⟩, rfl⟩
  · obtain rfl := Node.file.inj (Option.some.inj (before.symm.trans file))
    exact ⟨c', Store.read_ok_iff.mpr ⟨l, leads, after⟩, line⟩

/-- Edited outputs do not count as changes if their names are not kept. -/
theorem extend (h : Edited outputs u t) (ext : s.Extends kept u)
    (fresh : ∀ o ∈ outputs, ∃ name, o.fileName? = some name ∧ ¬ kept name) : s.Extends kept t where
  grows := ext.grows.trans h.grows
  named := ext.named.grow h.current fun l present => .inl (h.isSome l ▸ present)
  files l name keep c := by
    rcases h.node (l ++ [name]) with same | ⟨o, member, found, c₀, _, before, _, _⟩
    · rw [same]
      exact ext.files l name keep c
    · obtain ⟨name', last, other⟩ := fresh o member
      have here := u.getLast?_of_resolve found before last
      rw [List.getLast?_concat] at here
      exact absurd (Option.some.inj here ▸ keep) other

end Edited

namespace Plan

variable {p : Plan} {root : Path} {s t u : Store} {x : Source} {xs : List Source} {r : Location}
  {outputs : List Path}

/-- A source whose file is the same is compiled again, and nothing changes if its output is up to
date. -/
theorem Compiles.again (h : p.Compiles root s x u) (proper : x.IsProper)
    (same : t.read (x.path root) = s.read (x.path root))
    (current : ∀ f source, Frames.ofNat? p.frames = some f → t.read (x.path root) = .ok source →
      isCurrent t (x.output p) (Banner.line source f p.options) = true) :
    p.Compiles root t x t := by
  have load : p.loading root t x = p.loading root s x := by
    unfold loading Job.load
    dsimp only
    rw [same]
  have source : Plan.hasPass t (x.path root) = Plan.hasPass s (x.path root) := by
    unfold Plan.hasPass Settings.readText
    rw [same]
  obtain ⟨output, ready⟩ := Job.exists_output_of_compile h.compiled
  obtain ⟨_, text, f, makes⟩ := Job.makes_of_output ready
  obtain ⟨counted, read, path, banner, _⟩ := prepares_of_makes proper h.loaded makes
  have latest := current f text counted (same.trans read)
  rw [← path, ← banner] at latest
  obtain ⟨result, store⟩ := Job.compile_of_isCurrent ready latest
  refine ⟨h.admitted, source.trans h.hasPass, ?loaded, ?compiled, ?store⟩
  case loaded =>
    rw [load]
    exact h.loaded
  case compiled =>
    rw [compiling, load, ← path]
    exact result
  case store =>
    rw [compiling, load]
    exact store

/-- Every source that the plan picks can be compiled, and nothing changes. -/
def Steady (p : Plan) (root : Path) (t : Store) : Prop :=
  ∀ x : Source, x.IsProper → p.Picks root t x → p.Compiles root t x t

namespace Steady

theorem exists_yields_compileFile (h : p.Steady root t) (proper : x.IsProper) :
    ∃ outputs, (p.compileFile (x.folder p) (x.path root)).Yields t outputs t := by
  have look : (Action.look : Action CompileError Store).Yields t t t :=
    Action.yields_look.mpr ⟨rfl, rfl⟩
  unfold compileFile
  by_cases picks : p.Picks root t x
  · have again := h x proper picks
    have source : (p.admits (x.path root) && Plan.hasPass t (x.path root)) = true := by
      rw [picks.admitted, picks.hasPass, Bool.and_self]
    refine ⟨[x.output p], Action.yields_bind.mpr ⟨t, t, look, ?_⟩⟩
    rw [if_pos source]
    refine Action.yields_bind.mpr ⟨t, t, look, ?_⟩
    refine Action.yields_bind.mpr ⟨(), t, Action.yields_ofLogged.mpr ⟨again.loaded, rfl⟩, ?_⟩
    refine Action.yields_bind.mpr ⟨x.output p, t, ⟨again.compiled, again.store⟩, ?_⟩
    exact Action.yields_pure.mpr ⟨rfl, rfl⟩
  · have passed : ¬ (p.admits (x.path root) && Plan.hasPass t (x.path root)) = true := by
      rw [Bool.and_eq_true]
      rintro ⟨admitted, pass⟩
      exact picks ⟨admitted, pass⟩
    refine ⟨[], Action.yields_bind.mpr ⟨t, t, look, ?_⟩⟩
    rw [if_neg passed]
    exact Action.yields_pure.mpr ⟨rfl, rfl⟩

theorem exists_yields_compileBelow (h : p.Steady root t) (named : t.Named) (levels : Nat)
    (relative : List Bytes) (proper : ∀ name ∈ relative, Path.IsProper name) {names : List Bytes}
    (list : t.list (relative.foldl Path.join root) = .ok names) :
    ∃ outputs, (p.compileBelow levels (relative.foldl Path.join root) relative).Yields t outputs
      t := by
  have look : (Action.look : Action CompileError Store).Yields t t t :=
    Action.yields_look.mpr ⟨rfl, rfl⟩
  induction levels generalizing relative names with
  | zero => exact ⟨[], Action.yields_pure.mpr ⟨rfl, rfl⟩⟩
  | succ levels ih =>
    have entry (name : Bytes) (member : name ∈ names) : ∃ outputs,
        (p.compileEntry levels (relative.foldl Path.join root) relative name).Yields t outputs
          t := by
      have last := named.isProper_of_list list member
      unfold compileEntry
      cases directory : t.isDirectory ((relative.foldl Path.join root).join name) with
      | true =>
        obtain ⟨below, list⟩ := Store.list_of_isDirectory directory
        rw [← List.foldl_concat Path.join] at list
        obtain ⟨outputs, yields⟩ := ih (relative ++ [name])
          (List.forall_mem_append.mpr ⟨proper, List.forall_mem_singleton.mpr last⟩) list
        refine ⟨outputs, Action.yields_bind.mpr ⟨t, t, look, ?_⟩⟩
        rw [if_pos directory, ← List.foldl_concat Path.join]
        exact yields
      | false =>
        obtain ⟨outputs, yields⟩ := h.exists_yields_compileFile (x := ⟨relative, name⟩)
          ⟨proper, last⟩
        refine ⟨outputs, Action.yields_bind.mpr ⟨t, t, look, ?_⟩⟩
        rw [if_neg (by rw [directory]; exact Bool.false_ne_true)]
        exact yields
    obtain ⟨each, mapped⟩ := Action.exists_yields_mapM entry
    have last : (pure each.flatten : Action CompileError (List Path)).Yields t each.flatten t :=
      Action.yields_pure.mpr ⟨rfl, rfl⟩
    refine ⟨each.flatten, ?_⟩
    rw [Action.Yields, compileBelow_of_list list]
    exact Action.yields_bind.mpr ⟨each, t, mapped, last⟩

theorem exists_yields_compile (h : p.Steady root t) (named : t.Named) {names : List Bytes}
    (list : t.list root = .ok names) : ∃ outputs, (p.compile root).Yields t outputs t := by
  have there := Store.exists?_of_list list
  obtain ⟨outputs, yields⟩ := h.exists_yields_compileBelow named maxLevels [] nofun list
  refine ⟨outputs, ?_⟩
  rw [Action.Yields, compile, Action.look_bind, if_pos there]
  exact yields

end Steady

theorem exists_list_of_compile (there : s.exists? root = true)
    (h : (p.compile root s).result = .ok outputs) : ∃ names, s.list root = .ok names := by
  cases list : s.list root with
  | ok names => exact ⟨names, rfl⟩
  | error e =>
    have fails : Action.ofExcept ((s.list root).mapError CompileError.listing) s =
        ⟨.error (.listing e), s, []⟩ := by rw [list]; rfl
    rw [compile, Action.look_bind, if_pos there, maxLevels, compileBelow_succ, Action.look_bind,
      Action.bind_of_error fails] at h
    contradiction

/-- An output that a walk keeps is up to date, also when it was edited below its first line. -/
theorem Keeps.isCurrent (h : p.Keeps root s x u) (edited : Edited outputs u t)
    (text : ∀ c, t.read (x.output p) = .ok c → Utf8.isValid c = true) {f : Frames}
    {source : Bytes} (counted : Frames.ofNat? p.frames = some f)
    (read : u.read (x.path root) = .ok source) :
    isCurrent t (x.output p) (Banner.line source f p.options) = true := by
  obtain ⟨f', l, source', c, counted', found, _, file, output, line⟩ := h
  obtain rfl := Option.some.inj (counted.symm.trans counted')
  have again : u.read (x.path root) = .ok source' := Store.read_ok_iff.mpr ⟨l, found, file⟩
  obtain rfl := Except.ok.inj (read.symm.trans again)
  obtain ⟨c', latest, same⟩ := edited.exists_read output
  unfold PassCompiler.isCurrent
  rw [latest]
  dsimp only
  rw [text c' latest, same, line, Bool.true_and, beq_self_eq_true]

/-- A walk that keeps its outputs leaves nothing to do. -/
theorem Gathers.steady (h : p.Gathers root (fun _ => True) maxLevels s xs u) (wf : s.WellFormed)
    (there : s.resolve root = .ok r)
    (valid : ∀ x ∈ xs, Utf8.isValid (x.stem ++ outputSuffix) = true)
    (ext : s.Extends IsOther t)
    (current : ∀ x ∈ xs, ∀ f source, Frames.ofNat? p.frames = some f →
      t.read (x.path root) = .ok source →
        isCurrent t (x.output p) (Banner.line source f p.options) = true) : p.Steady root t := by
  intro x proper picks
  have other := ((admits_iff proper).mp picks.admitted).2
  have member : x ∈ xs := ((h.members wf there (.refl wf.toNamed) valid).2 x).mpr
    ⟨proper, (picks_of_extends wf there ext proper other).mp picks⟩
  obtain ⟨ys, v, w, front, walks, compiles⟩ := h.walks.exists_compiles member
  have stage : s.Extends IsOther v :=
    walks.extends (fun y hy => h.proper y (front.subset hy))
      (fun y hy other => other ⟨valid y (front.subset hy), List.suffix_append _ _⟩)
      (.refl wf.toNamed)
  obtain ⟨c, read, _⟩ := hasPass_iff.mp picks.hasPass
  have before := (read_of_extends wf there ext proper other).mp read
  have between := (read_of_extends wf there stage proper other).mpr before
  exact compiles.again proper (read.trans between.symm) (current x member)

theorem eq_of_sorted {xs ys : List Source} (hx : xs.Pairwise fun x y => x.names < y.names)
    (hy : ys.Pairwise fun x y => x.names < y.names) (same : ∀ x, x ∈ xs ↔ x ∈ ys) : xs = ys := by
  have perm : xs.Perm ys :=
    (List.perm_ext_iff_of_nodup (Source.nodup_of_sorted hx) (Source.nodup_of_sorted hy)).mpr same
  refine perm.eq_of_pairwise (fun x y _ _ less more => ?_) hx hy
  exact absurd (Std.lt_trans less more) Std.lt_irrefl

/-- Compiling a tree again, after edits below the first lines of outputs: the same outputs are
listed, and nothing changes. The outputs have to be text, their names as well, or they are taken for
sources or for out of date. -/
theorem compile_again (p : Plan) (root : Path) {s t : Store} (wf : s.WellFormed)
    {outputs : List Path} (h : (p.compile root s).result = .ok outputs) (once : outputs.Nodup)
    (edited : Edited outputs (p.compile root s).store t)
    (names : ∀ o ∈ outputs, ∀ name, o.fileName? = some name → Utf8.isValid name = true)
    (text : ∀ o ∈ outputs, ∀ c, t.read o = .ok c → Utf8.isValid c = true) :
    (p.compile root t).result = .ok outputs ∧ (p.compile root t).store = t := by
  cases there : s.exists? root with
  | false =>
    rw [compile_of_absent there] at h edited
    have absent : t.exists? root = false := by
      refine Bool.eq_false_iff.mpr fun present => ?_
      exact Bool.false_ne_true (there.symm.trans (edited.shrinks.exists? present))
    rw [compile_of_absent absent]
    exact ⟨h, rfl⟩
  | true =>
    obtain ⟨r, leads, _⟩ := Store.exists?_iff.mp there
    obtain ⟨xs, gathers, rfl⟩ := gathers_of_compile wf.toNamed there ⟨h, rfl⟩
    have listed (x : Source) (member : x ∈ xs) : x.output p ∈ xs.map (·.output p) :=
      List.mem_map_of_mem member
    have valid (x : Source) (member : x ∈ xs) : Utf8.isValid (x.stem ++ outputSuffix) = true :=
      names _ (listed x member) _ (fileName?_output (gathers.proper x member))
    have told (x : Source) (member : x ∈ xs) : ¬ IsOther (x.stem ++ outputSuffix) :=
      fun other => other ⟨valid x member, List.suffix_append _ _⟩
    have other (x : Source) (member : x ∈ xs) : IsOther x.name :=
      ((admits_iff (gathers.proper x member)).mp (gathers.walks.admits x member)).2
    obtain ⟨ext, members⟩ := gathers.members wf leads (.refl wf.toNamed) valid
    have later : s.Extends IsOther t := by
      refine edited.extend ext fun o member => ?_
      obtain ⟨x, hx, rfl⟩ := List.mem_map.mp member
      exact ⟨_, fileName?_output (gathers.proper x hx), told x hx⟩
    -- Two sources of one directory with the same stem would have one output between them.
    have apart : xs.Pairwise fun x y => ¬ (x.folders = y.folders ∧ x.stem = y.stem) := by
      refine (List.pairwise_map.mp once).imp fun {x y} distinct same => distinct ?_
      rw [Source.output, Source.output, Source.folder, Source.folder, same.1, same.2]
    have keeps := gathers.walks.keeps gathers.proper
      (fun x hx y hy same => told y hy (same ▸ other x hx)) apart
    -- What the second walk reads is what the first walk read, so the banners are the same.
    have steady : p.Steady root t := by
      refine gathers.steady wf leads valid later fun x member f source counted read => ?_
      have proper := gathers.proper x member
      have first := (read_of_extends wf leads later proper (other x member)).mp read
      have between := (read_of_extends wf leads ext proper (other x member)).mpr first
      exact (keeps x member).isCurrent edited (text _ (listed x member)) counted between
    obtain ⟨_, list⟩ := exists_list_of_compile there h
    obtain ⟨_, list⟩ := later.grows.exists_list list
    obtain ⟨again, yields⟩ := steady.exists_yields_compile later.named list
    obtain ⟨ys, gathers', rfl, members'⟩ := gathers_of_extends wf leads later
      (fun x proper picks => valid x ((members x).mpr ⟨proper, picks⟩))
      (Store.exists?_of_list list) yields
    obtain rfl : xs = ys := eq_of_sorted gathers.sorted gathers'.sorted
      fun x => (members x).trans (members' x).symm
    exact yields

/-- A walk takes the output of a source whose name is no text for a source when it comes again, and
one more file is there. -/
theorem compile_again_grows :
    let p : Plan := { destination := bytes "g", frames := 2, options := .bare }
    let source := bytes "// PASS_BEGIN\nPASS_BEGIN(A) \x7b \x7d PASS_END"
    let s := (Store.empty.set [bytes "g"] .directory).set [bytes "g", 0xFF :: bytes ".hpp"]
      (.file source)
    let first := p.compile (bytes "g") s
    let second := p.compile (bytes "g") first.store
    let output := bytes "g/" ++ 0xFF :: bytes "__processed.hpp"
    let other := bytes "g/" ++ 0xFF :: bytes "__processed__processed.hpp"
    s.WellFormed ∧ first.result = .ok [output] ∧
      (first.store.read output).map Utf8.isValid = .ok true ∧
      second.result = .ok [output, other] ∧ first.store.exists? other = false ∧
      second.store.exists? other = true := by
  intro p source s first second output other
  have list : s.list (bytes "g") = .ok [0xFF :: bytes ".hpp"] :=
    Store.list_of_entries (l := [bytes "g"]) (by decide +kernel) (by decide +kernel)
      (by decide +kernel) (by decide +kernel)
  have run := compile_of_list (p := p) (Store.exists?_of_list list) list
  have later : first.store.list (bytes "g") =
      .ok [0xFF :: bytes ".hpp", 0xFF :: bytes "__processed.hpp"] := by
    rw [show first.store = _ from congrArg Outcome.store run]
    exact Store.list_of_entries (l := [bytes "g"]) (by decide +kernel) (by decide +kernel)
      (by decide +kernel) (by decide +kernel)
  have again := compile_of_list (p := p) (Store.exists?_of_list later) later
  rw [show second = _ from again, show first = _ from run]
  refine ⟨?wf, ?first, ?text, ?second, ?before, ?after⟩
  all_goals decide +kernel

/-- One source, whose output has other text below its banner by then. Outputs are not
overwritten. -/
theorem compile_again_other_text :
    let p : Plan :=
      { destination := bytes "g", frames := 2, options := { Options.bare with overwrite := false } }
    let source := bytes "PASS_BEGIN(A) \x7b \x7d PASS_END"
    let s := (Store.empty.set [bytes "g"] .directory).set [bytes "g", bytes "a.hpp"] (.file source)
    let banner := Banner.line source ⟨2, by decide, by decide⟩ p.options
    let t := (p.compile (bytes "g") s).store.set [bytes "g", bytes "a__processed.hpp"]
      (.file (banner ++ bytes "\nother"))
    (p.compile (bytes "g") t).result = .ok [bytes "g/a__processed.hpp"] ∧
      (p.compile (bytes "g") t).store = t := by
  intro p source s banner t
  let output : Path := bytes "g/a__processed.hpp"
  let place := [bytes "g", bytes "a__processed.hpp"]
  have list : s.list (bytes "g") = .ok [bytes "a.hpp"] :=
    Store.list_of_entries (l := [bytes "g"]) (by decide +kernel) (by decide +kernel)
      (by decide +kernel) (by decide +kernel)
  have run := compile_of_list (p := p) (Store.exists?_of_list list) list
  have ok : (p.compile (bytes "g") s).result = .ok [output] := by
    rw [run]
    decide +kernel
  have found : (p.compile (bytes "g") s).store.resolve output = .ok place := by
    rw [run]
    decide +kernel
  have line : ((p.compile (bytes "g") s).store.read output).map Bytes.firstLine? =
      .ok (Bytes.firstLine? (banner ++ bytes "\nother")) := by
    rw [run]
    decide +kernel
  obtain ⟨c, content, same⟩ : ∃ c, (p.compile (bytes "g") s).store.read output = .ok c ∧
      Bytes.firstLine? (banner ++ bytes "\nother") = Bytes.firstLine? c := by
    cases content : (p.compile (bytes "g") s).store.read output with
    | ok c =>
      rw [content] at line
      exact ⟨c, rfl, (Except.ok.inj line).symm⟩
    | error e =>
      rw [content] at line
      contradiction
  obtain ⟨_, leads, file⟩ := Store.read_ok_iff.mp content
  obtain rfl := Except.ok.inj (found.symm.trans leads)
  have wf : s.WellFormed := by decide +kernel
  have edited := Edited.of_set (List.mem_singleton_self output) found file same
  have there : t.read output = .ok (banner ++ bytes "\nother") :=
    Store.read_ok_iff.mpr ⟨place, edited.grows.resolve found,
      Store.get?_set_self _ (List.cons_ne_nil _ _) _⟩
  refine compile_again p (bytes "g") wf ok (List.nodup_singleton _) edited ?names ?text
  case names =>
    intro o member name called
    obtain rfl := List.mem_singleton.mp member
    have last : output.fileName? = some (bytes "a__processed.hpp") := by decide +kernel
    obtain rfl := Option.some.inj (last.symm.trans called)
    decide +kernel
  case text =>
    intro o member c read
    obtain rfl := List.mem_singleton.mp member
    obtain rfl := Except.ok.inj (there.symm.trans read)
    decide +kernel

end Plan
end Tree
end PassCompiler
