import PassCompiler.Proofs.Compile.Walk

/-! The outputs of a tree. An output is called after the stem of its source, so two sources in one
directory that differ in their extensions alone have one output between them, and the later one
takes it. Nothing else is lost: sources are never written to, and all other outputs lie apart. -/
namespace PassCompiler

namespace Tree

variable {p : Plan} {root : Path} {s t u : Store} {x y : Source} {xs : List Source}
  {current : Location}

namespace Source

theorem place_output (proper : x.IsProper) (current : Location) : (x.output p).place current =
    p.destination.place current ++ x.folders ++ [x.stem ++ outputSuffix] := by
  have name : Path.IsProper (x.stem ++ outputSuffix) := by
    refine ⟨Path.isName_append_suffix _, ?_⟩
    rw [List.mem_append, not_or]
    exact ⟨fun slash => proper.2.free ((Path.prefix_of_splitExtension _).subset slash), by decide⟩
  rw [output, Path.place_join_name _ name, folder, Path.place_join_ofSegments _ proper.1]

theorem eq_of_place (hx : x.IsProper) (hy : y.IsProper)
    (same : (x.output p).place current = (y.output p).place current) :
    x.folders = y.folders ∧ x.stem = y.stem := by
  rw [place_output hx, place_output hy] at same
  obtain ⟨front, last⟩ := List.append_inj' same rfl
  exact ⟨List.append_cancel_left front, List.append_cancel_right (List.cons.inj last).1⟩

/-- No source that the plan admits is called like an output, if its name is text. -/
theorem name_ne_of_admits (hx : x.IsProper) (text : Utf8.isValid x.name)
    (admitted : p.admits (x.path root) = true) (stem : Bytes) : x.name ≠ stem ++ outputSuffix := by
  intro same
  have suffix : outputSuffix.isSuffixOf x.name = true :=
    List.isSuffixOf_iff_suffix.mpr ⟨stem, same.symm⟩
  rw [Plan.admits, Plan.fileName?_path hx, Option.any_some, text, suffix, Bool.and_self,
    Bool.not_true, Bool.and_false] at admitted
  contradiction

/-- No output takes the place of a source that is not called like it. -/
theorem ne_place_of_name_ne (hx : x.IsProper) (hy : y.IsProper)
    (other : x.name ≠ y.stem ++ outputSuffix) {l : Location} {content : Bytes}
    (found : s.resolve (x.path root) = .ok l) (file : s.get? l = some (.file content)) :
    l ≠ (y.output p).place current := by
  rintro rfl
  have last := s.getLast?_of_resolve found file (Plan.fileName?_path hx)
  rw [place_output hy, List.getLast?_concat] at last
  exact other (Option.some.inj last).symm

end Source

namespace Plan

theorem Walks.grows (h : p.Walks root s xs t) (proper : ∀ x ∈ xs, x.IsProper) : s.Grows t := by
  induction h with
  | done s => exact .refl s
  | next first _ ih =>
    obtain ⟨here, later⟩ := List.forall_mem_cons.mp proper
    exact (compiled_of_compiles first here).grows.trans (ih later)

/-- A walk changes no files but its outputs. -/
theorem Walks.others (h : p.Walks root s xs t) (proper : ∀ x ∈ xs, x.IsProper) {l : Location}
    (apart : ∀ x ∈ xs, l ≠ (x.output p).place s.current) (c : Bytes) :
    t.get? l = some (.file c) ↔ s.get? l = some (.file c) := by
  induction h with
  | done => exact .rfl
  | @next s t u x xs first _ ih =>
    obtain ⟨here, later⟩ := List.forall_mem_cons.mp proper
    obtain ⟨free, apart⟩ := List.forall_mem_cons.mp apart
    have compiled := compiled_of_compiles first here
    rw [← compiled.grows.current] at apart
    exact (ih later apart).trans (compiled.others l free c)

theorem Walks.admits (h : p.Walks root s xs t) : ∀ x ∈ xs, p.admits (x.path root) = true := by
  induction h with
  | done => nofun
  | next first _ ih => exact List.forall_mem_cons.mpr ⟨first.admitted, ih⟩

/-- The source is in `t` as it was in `s`, and its output begins with its banner. -/
def Keeps (p : Plan) (root : Path) (s : Store) (x : Source) (t : Store) : Prop :=
  ∃ f l source c, Frames.ofNat? p.frames = some f ∧ t.resolve (x.path root) = .ok l ∧
    s.get? l = some (.file source) ∧ t.get? l = some (.file source) ∧
      t.read (x.output p) = .ok c ∧ Bytes.firstLine? c = some (Banner.line source f p.options)

/-- What stands right behind a compilation still stands when the walk is over, if no later output
takes the place of this one. -/
theorem Compiled.keeps (h : p.Compiled root s x u) (walks : p.Walks root u xs t)
    (hx : x.IsProper) (proper : ∀ y ∈ xs, y.IsProper)
    (fresh : ∀ y ∈ x :: xs, x.name ≠ y.stem ++ outputSuffix)
    (apart : ∀ y ∈ xs, ¬ (x.folders = y.folders ∧ x.stem = y.stem)) : p.Keeps root s x t := by
  obtain ⟨f, source, c, counted, read, output, line⟩ := h.current
  obtain ⟨l, found, file⟩ := Store.read_ok_iff.mp read
  obtain ⟨o, leads, written⟩ := Store.read_ok_iff.mp output
  have grows := walks.grows proper
  have place : o = (x.output p).place u.current := Store.eq_of_resolve leads
  have free (y : Source) (hy : y.IsProper) (member : y ∈ x :: xs) :
      l ≠ (y.output p).place s.current :=
    Source.ne_place_of_name_ne hx hy (fresh y member) found file
  have kept := (h.others l (free x hx List.mem_cons_self) source).mpr file
  have keptLater : t.get? l = some (.file source) := by
    refine (walks.others proper (fun y hy => ?_) source).mpr kept
    rw [h.grows.current]
    exact free y (proper y hy) (List.mem_cons_of_mem x hy)
  have writtenLater : t.get? o = some (.file c) := by
    refine (walks.others proper (fun y hy same => ?_) c).mpr written
    exact apart y hy (Source.eq_of_place hx (proper y hy) (place.symm.trans same))
  exact ⟨f, l, source, c, counted, grows.resolve (h.grows.resolve found), file, keptLater,
    Store.read_ok_iff.mpr ⟨o, grows.resolve leads, writtenLater⟩, line⟩

theorem Walks.keeps (h : p.Walks root s xs t) (proper : ∀ x ∈ xs, x.IsProper)
    (fresh : ∀ x ∈ xs, ∀ y ∈ xs, x.name ≠ y.stem ++ outputSuffix)
    (apart : xs.Pairwise fun x y => ¬ (x.folders = y.folders ∧ x.stem = y.stem)) :
    ∀ x ∈ xs, p.Keeps root s x t := by
  induction h with
  | done => nofun
  | @next s u t x xs first walks ih =>
    obtain ⟨hx, later⟩ := List.forall_mem_cons.mp proper
    obtain ⟨freshHere, freshLater⟩ := List.forall_mem_cons.mp fresh
    obtain ⟨alone, apart⟩ := List.pairwise_cons.mp apart
    have compiled := compiled_of_compiles first hx
    refine List.forall_mem_cons.mpr
      ⟨compiled.keeps walks hx later freshHere alone, fun y hy => ?_⟩
    obtain ⟨f, l, source, c, counted, found, before, file, output, line⟩ :=
      ih later (fun a ha b hb => freshLater a ha b (List.mem_cons_of_mem x hb)) apart y hy
    have free : l ≠ (x.output p).place s.current :=
      Source.ne_place_of_name_ne (later y hy) hx (freshLater y hy x List.mem_cons_self) found file
    exact ⟨f, l, source, c, counted, found, (compiled.others l free source).mp before, file, output,
      line⟩

/-- No output is lost just if no two sources in one directory share their stem. -/
theorem Walks.keeps_iff (h : p.Walks root s xs t) (nodup : xs.Nodup)
    (proper : ∀ x ∈ xs, x.IsProper) (text : ∀ x ∈ xs, Utf8.isValid x.name) :
    ((xs.map (·.output p)).Nodup ∧ ∀ x ∈ xs, p.Keeps root s x t) ↔
      ∀ x ∈ xs, ∀ y ∈ xs, x.folders = y.folders → x.stem = y.stem → x = y := by
  constructor
  · rintro ⟨distinct, _⟩ x hx y hy folders stem
    refine List.inj_on_of_nodup_map distinct hx hy ?_
    rw [Source.output, Source.output, Source.folder, Source.folder, folders, stem]
  · intro alone
    have fresh (x : Source) (hx : x ∈ xs) (y : Source) (_ : y ∈ xs) :
        x.name ≠ y.stem ++ outputSuffix :=
      Source.name_ne_of_admits (proper x hx) (text x hx) (h.admits x hx) y.stem
    refine ⟨nodup.map_on fun x hx y hy same => ?_, h.keeps proper fresh ?_⟩
    · obtain ⟨folders, stem⟩ := Source.eq_of_place (proper x hx) (proper y hy)
        (congrArg (Path.place · s.current) same)
      exact alone x hx y hy folders stem
    · exact nodup.imp_of_mem fun {x y} hx hy other same => other (alone x hx y hy same.1 same.2)

/-- What a tree is compiled into: for which sources all outputs are there in the end. -/
theorem compile_keeps_iff (p : Plan) (root : Path) {s : Store} (named : s.Named)
    {outputs : List Path} (h : (p.compile root s).result = .ok outputs) :
    ∃ xs, p.Walks root s xs (p.compile root s).store ∧ outputs = xs.map (·.output p) ∧ xs.Nodup ∧
      ((∀ x ∈ xs, Utf8.isValid x.name) →
        ((outputs.Nodup ∧ ∀ x ∈ xs, p.Keeps root s x (p.compile root s).store) ↔
          ∀ x ∈ xs, ∀ y ∈ xs, x.folders = y.folders → x.stem = y.stem → x = y)) := by
  obtain ⟨xs, walks, rfl, nodup, proper⟩ := walks_of_compile named ⟨h, rfl⟩
  exact ⟨xs, walks, rfl, nodup, walks.keeps_iff nodup proper⟩

/-- Two sources whose outputs lie apart. -/
theorem compile_keeps_iff_apart :
    let p : Plan := { destination := bytes "g", frames := 2, options := {
      contextParam := [], frameIndex := [], commandPool := [], device := []
      primaryCommandBuffer := [], includes := [] } }
    let s := ((Store.empty.set [bytes "g"] .directory).set [bytes "g", bytes "b.hpp"]
      (.file (bytes "PASS_BEGIN(B) \x7b \x7d PASS_END"))).set [bytes "g", bytes "a.hpp"]
      (.file (bytes "PASS_BEGIN(A) \x7b \x7d PASS_END"))
    let outputs := [bytes "g/a__processed.hpp", bytes "g/b__processed.hpp"]
    ∃ xs, p.Walks (bytes "g") s xs (p.compile (bytes "g") s).store ∧
      outputs = xs.map (·.output p) ∧ xs.Nodup ∧
      ((∀ x ∈ xs, Utf8.isValid x.name) →
        ((outputs.Nodup ∧ ∀ x ∈ xs, p.Keeps (bytes "g") s x (p.compile (bytes "g") s).store) ↔
          ∀ x ∈ xs, ∀ y ∈ xs, x.folders = y.folders → x.stem = y.stem → x = y)) := by
  intro p s outputs
  have list : s.list (bytes "g") = .ok [bytes "a.hpp", bytes "b.hpp"] :=
    Store.list_of_entries (l := [bytes "g"]) (by decide +kernel) (by decide +kernel)
      (by decide +kernel) (by decide +kernel)
  refine compile_keeps_iff p (bytes "g") (by decide +kernel) ?_
  rw [compile_of_list (by decide +kernel) list]
  decide +kernel

/-- Two sources that differ in their extensions: the output of the first is that of the second. -/
theorem compile_loses_output :
    let p : Plan := { destination := bytes "g", frames := 2, options := {
      contextParam := [], frameIndex := [], commandPool := [], device := []
      primaryCommandBuffer := [], includes := [] }, extensions := [bytes "h", bytes "hpp"] }
    let source := bytes "PASS_BEGIN(A) \x7b \x7d PASS_END"
    let s := ((Store.empty.set [bytes "g"] .directory).set [bytes "g", bytes "a.hpp"]
      (.file (bytes "PASS_BEGIN(B) \x7b \x7d PASS_END"))).set [bytes "g", bytes "a.h"]
      (.file source)
    let output := bytes "g/a__processed.hpp"
    (p.compile (bytes "g") s).result = .ok [output, output] ∧
      ((p.compile (bytes "g") s).store.read output).toOption.bind Bytes.firstLine? ≠
        some (Banner.line source ⟨2, by decide, by decide⟩ p.options) := by
  intro p source s output
  have list : s.list (bytes "g") = .ok [bytes "a.h", bytes "a.hpp"] :=
    Store.list_of_entries (l := [bytes "g"]) (by decide +kernel) (by decide +kernel)
      (by decide +kernel) (by decide +kernel)
  rw [compile_of_list (by decide +kernel) list]
  decide +kernel

theorem name_of_admits {ext : Bytes} (only : p.extensions = [ext]) (proper : x.IsProper)
    (admitted : p.admits (x.path root) = true) : x.name = x.stem ++ 0x2E :: ext := by
  rw [admits, Path.extension?, fileName?_path proper, Bool.and_eq_true, only] at admitted
  have extension : (Path.splitExtension x.name).2 = some ext := by
    cases found : (Path.splitExtension x.name).2 with
    | none => simp [found] at admitted
    | some e => simpa [found] using admitted.1
  exact Path.eq_of_splitExtension (Prod.ext rfl extension)

/-- Sources of one extension keep all their outputs. -/
theorem keeps_of_extension {ext : Bytes} (only : p.extensions = [ext]) (named : s.Named)
    {outputs : List Path} (h : (p.compile root s).result = .ok outputs) :
    ∃ xs, p.Walks root s xs (p.compile root s).store ∧ outputs = xs.map (·.output p) ∧
      ((∀ x ∈ xs, Utf8.isValid x.name) →
        outputs.Nodup ∧ ∀ x ∈ xs, p.Keeps root s x (p.compile root s).store) := by
  obtain ⟨xs, walks, rfl, nodup, proper⟩ := walks_of_compile named ⟨h, rfl⟩
  refine ⟨xs, walks, rfl, fun text => ?_⟩
  refine (walks.keeps_iff nodup proper text).mpr fun x hx y hy folders stem => ?_
  have name := name_of_admits only (proper x hx) (walks.admits x hx)
  rw [stem, ← name_of_admits only (proper y hy) (walks.admits y hy)] at name
  exact Source.mk.injEq .. ▸ ⟨folders, name⟩

end Plan
end Tree
end PassCompiler
