import PassCompiler.CommandLine.Run
import PassCompiler.Proofs.Banner
import PassCompiler.Proofs.Compile.Delivery

/-! Runs of the command line. A run of `compile` does what a job does with the settings that are
found for the source, and fails with the first of all that keeps it from its output: `Compiles`. A
run of `check` reads the same source, and reports the same fault of it: `Checks`. -/
namespace PassCompiler

theorem result_preprocess (text : Bytes) (f : Frames) (o : Options) :
    (preprocess text f o).result = (Graph.parse text).result.map fun g =>
      Banner.line text f o ++ [0x0A] ++ (Emission.Setting.mk f o).emit g := by
  rw [preprocess, generate, Logged.result_bind, Logged.result_bind]
  cases (Graph.parse text).result <;> rfl

namespace CommandLine

variable {store : Store} {source : Path} {frames : Option Frames} {outDir config : Option Path}
  {c : Settings} {text : Bytes} {output : Output}

/-- Where the settings for a source come from, and what comes of loading them. -/
inductive Loads (store : Store) (source : Path) :
    Option Path → Except SettingsError Settings → Prop
  | manifest {path : Path} : path.fileName? = some manifestName →
      Loads store source (some path) (Settings.ofManifest store path)
  | file {path : Path} : path.fileName? ≠ some manifestName →
      Loads store source (some path) (Settings.ofFile store path)
  | beside : store.isFile (source.sibling settingsName) = true →
      Loads store source none (Settings.ofFile store (source.sibling settingsName))
  | standard : store.isFile (source.sibling settingsName) = false →
      Loads store source none (.ok {})

theorem loads_iff {r : Except SettingsError Settings} :
    Loads store source config r ↔ settingsFor store source config = r := by
  constructor
  · intro h
    cases h with
    | manifest named => exact if_pos named
    | file named => exact if_neg named
    | beside found => exact if_pos found
    | standard missing => exact if_neg (by simp [missing])
  · rintro rfl
    cases config with
    | some path =>
      by_cases named : path.fileName? = some manifestName
      · rw [settingsFor, if_pos named]
        exact .manifest named
      · rw [settingsFor, if_neg named]
        exact .file named
    | none =>
      rw [settingsFor]
      split
      · next found => exact .beside found
      · next missing => exact .standard (by simpa using missing)

/-- The source is a text. -/
structure Reads (store : Store) (source : Path) (text : Bytes) : Prop where
  read : store.read source = .ok text
  valid : Utf8.isValid text = true

/-- What a run of `compile` needs before its output is there. -/
structure Ready (store : Store) (source : Path) (config : Option Path) (c : Settings)
    (text : Bytes) : Prop where
  loads : Loads store source config (.ok c)
  reads : Reads store source text
  stem : source.stem? ≠ none
  parses : ∃ g, (Graph.parse text).result = .ok g

/-- The frames of a run: those of its arguments, else those of the settings, else two. -/
def framesOf (frames : Option Frames) (c : Settings) : Frames :=
  (frames.or c.frames).getD Frames.standard

/-- The output of a run. -/
structure Outputs (source : Path) (frames : Option Frames) (outDir : Option Path) (c : Settings)
    (text : Bytes) (output : Output) : Prop where
  path : outputPath source (outDir.or c.outDir) = .ok output.path
  banner : output.banner = Banner.line text (framesOf frames c) c.options
  text : (preprocess text (framesOf frames c) c.options).result = .ok output.text

theorem Ready.exists_output (h : Ready store source config c text) :
    ∃ output, Outputs source frames outDir c text output := by
  obtain ⟨stem, named⟩ := Option.ne_none_iff_exists'.mp h.stem
  obtain ⟨g, parsed⟩ := h.parses
  have out := result_preprocess text (framesOf frames c) c.options
  rw [parsed] at out
  have path : ∃ p, outputPath source (outDir.or c.outDir) = .ok p := by
    rw [outputPath, named]
    exact ⟨_, rfl⟩
  obtain ⟨path, place⟩ := path
  exact ⟨⟨path, _, _⟩, place, rfl, out⟩

/-- Why a run of `compile` fails. Each reason supposes that those above it do not hold. -/
inductive Fails (store : Store) (source : Path) (frames : Option Frames)
    (outDir config : Option Path) : Failure → Prop
  | settings {e : SettingsError} : Loads store source config (.error e) →
      Fails store source frames outDir config (.settings e)
  | read {c : Settings} {e : FileError} : Loads store source config (.ok c) →
      store.read source = .error e →
      Fails store source frames outDir config (.graph (.read source e))
  | notUtf8 {c : Settings} {text : Bytes} : Loads store source config (.ok c) →
      store.read source = .ok text → Utf8.isValid text = false →
      Fails store source frames outDir config (.graph (.notUtf8 source))
  | noFileStem {c : Settings} {text : Bytes} : Loads store source config (.ok c) →
      Reads store source text → source.stem? = none →
      Fails store source frames outDir config (.graph (.noFileStem source))
  | parse {c : Settings} {text : Bytes} {fault : Fault} : Loads store source config (.ok c) →
      Reads store source text → source.stem? ≠ none →
      (Graph.parse text).result = .error fault →
      Fails store source frames outDir config (.graph (.parse fault))
  | write {c : Settings} {text : Bytes} {output : Output} {e : CompileError} {made : Store} :
      Ready store source config c text → Outputs source frames outDir c text output →
      isCurrent store output.path output.banner = false →
      Job.Delivers c.options.overwrite output store (.error e) made →
      Fails store source frames outDir config (.graph e)

/-- The output of a run is there already, or can be written. -/
def Writes (store : Store) (c : Settings) (output : Output) : Prop :=
  ∃ done, Job.Delivers c.options.overwrite output store (.ok output.path) done

/-- A run succeeds, or there is a reason why it fails. -/
theorem writes_or_fails (store : Store) (source : Path) (frames : Option Frames)
    (outDir config : Option Path) :
    (∃ c text output, Ready store source config c text ∧
      Outputs source frames outDir c text output ∧ Writes store c output) ∨
    ∃ failure, Fails store source frames outDir config failure := by
  rcases loaded : settingsFor store source config with e | c
  · exact .inr ⟨_, .settings (loads_iff.mpr loaded)⟩
  have loads := loads_iff.mpr loaded
  rcases read : store.read source with e | text
  · exact .inr ⟨_, .read loads read⟩
  cases valid : Utf8.isValid text with
  | false => exact .inr ⟨_, .notUtf8 loads read valid⟩
  | true =>
    have reads : Reads store source text := ⟨read, valid⟩
    by_cases stem : source.stem? = none
    · exact .inr ⟨_, .noFileStem loads reads stem⟩
    rcases parsed : (Graph.parse text).result with fault | g
    · exact .inr ⟨_, .parse loads reads stem parsed⟩
    have ready : Ready store source config c text := ⟨loads, reads, stem, g, parsed⟩
    obtain ⟨output, outputs⟩ := @Ready.exists_output _ _ frames outDir _ _ _ ready
    have delivers := Job.delivers { options := c.options } output store
    cases current : isCurrent store output.path output.banner with
    | true => exact .inl ⟨c, text, output, ready, outputs, store, .current current⟩
    | false =>
      rcases delivers.delivered.2 with ⟨ok, _⟩ | ⟨e, failed, _⟩
      · rw [ok] at delivers
        exact .inl ⟨c, text, output, ready, outputs, _, delivers⟩
      · rw [failed] at delivers
        exact .inr ⟨_, .write ready outputs current delivers⟩

/-- With settings and a source, a run does what a job does that has loaded the source. -/
theorem compile_of_reads (loads : Loads store source config (.ok c))
    (reads : Reads store source text) (frames : Option Frames) (outDir : Option Path) :
    ∃ job : Job, job.options = c.options ∧ job.sourcePath = some source ∧
      job.source = some text ∧ compile source frames outDir config store =
        let outcome := (job.compile (framesOf frames c).count (outDir.or c.outDir) store).2
        (outcome.result.mapError .graph, outcome.store) := by
  have loaded : Job.load { options := c.options } source store =
      (⟨c.options, .loaded, some source, some text⟩,
        .note (.debug (bytes "loaded " ++ Quoted.quote source ++ bytes ", " ++
          Bytes.ofNat text.length ++ bytes " bytes"))) := by
    simp only [Job.load, reads.read, reads.valid, if_true]
  refine ⟨⟨c.options, .loaded, some source, some text⟩, rfl, rfl, rfl, ?_⟩
  rw [compile, loads_iff.mp loads]
  dsimp only
  rw [loaded]
  rfl

theorem result_of_outputs {job : Job} (options : job.options = c.options)
    (stands : job.sourcePath = some source) (held : job.source = some text)
    (outputs : Outputs source frames outDir c text output) :
    (job.output (framesOf frames c).count (outDir.or c.outDir)).result = .ok output := by
  rw [Job.result_output stands held, outputs.path, options, outputs.text, ← outputs.banner]
  rfl

/-- Once its output is there, a run delivers it. -/
theorem compile_of_outputs (ready : Ready store source config c text)
    (outputs : Outputs source frames outDir c text output) :
    ∃ r done, Job.Delivers c.options.overwrite output store r done ∧
      (isCurrent store output.path output.banner = true → r = .ok output.path) ∧
      compile source frames outDir config store = (r.mapError .graph, done) := by
  obtain ⟨job, options, stands, held, same⟩ :=
    compile_of_reads ready.loads ready.reads frames outDir
  obtain ⟨job', kept, result, after⟩ :=
    Job.compile_of_ok (result_of_outputs options stands held outputs) store
  have delivers := job'.delivers output store
  rw [kept, options] at delivers
  refine ⟨_, _, delivers, fun current => (Job.deliver_of_current current).1, ?_⟩
  rw [same]
  dsimp only
  rw [result, after]

theorem compile_of_writes (ready : Ready store source config c text)
    (outputs : Outputs source frames outDir c text output) (writes : Writes store c output) :
    ∃ done, compile source frames outDir config store = (.ok output.path, done) ∧
      Job.Delivered store output done := by
  obtain ⟨r, done, delivers, current, same⟩ := compile_of_outputs ready outputs
  obtain ⟨_, writes⟩ := writes
  have ok : r = .ok output.path := by
    -- an output that is up to date might be written as well, so there a delivery is not unique
    cases outdated : isCurrent store output.path output.banner with
    | true => exact current outdated
    | false => exact (writes.unique outdated delivers).1
  subst ok
  refine ⟨done, same, ?_⟩
  rcases delivers.delivered.2 with ⟨_, delivered⟩ | ⟨e, failed, _⟩
  · exact delivered
  · contradiction

theorem compile_of_error {e : CompileError} (loads : Loads store source config (.ok c))
    (reads : Reads store source text)
    (failed : ((outputPath source (outDir.or c.outDir)).bind fun path =>
      ((preprocess text (framesOf frames c) c.options).result.mapError .parse).bind fun out =>
        .ok (Output.mk path (Banner.line text (framesOf frames c) c.options) out)) = .error e) :
    compile source frames outDir config store = (.error (.graph e), store) := by
  obtain ⟨job, options, stands, held, same⟩ := compile_of_reads loads reads frames outDir
  have unmade := Job.result_output stands held (framesOf frames c) (outDir.or c.outDir)
  rw [options, failed] at unmade
  obtain ⟨result, after⟩ := Job.compile_of_error unmade store
  rw [same]
  dsimp only
  rw [result, after]
  rfl

/-- No file has changed, but for an output of which the medium took a part only. -/
def Leaves (store : Store) (source : Path) (frames : Option Frames) (outDir config : Option Path)
    (failure : Failure) (done : Store) : Prop :=
  store.SameFiles done ∨ ∃ c text output cause, Ready store source config c text ∧
    Outputs source frames outDir c text output ∧
      failure = .graph (.write output.path cause) ∧ Job.CutShort store output cause done

theorem compile_of_fails {failure : Failure}
    (h : Fails store source frames outDir config failure) :
    (compile source frames outDir config store).1 = .error failure ∧
      Leaves store source frames outDir config failure
        (compile source frames outDir config store).2 := by
  have refl {failure : Failure} : Leaves store source frames outDir config failure store :=
    .inl fun _ _ => .rfl
  cases h with
  | settings loads =>
    rw [compile, loads_iff.mp loads]
    exact ⟨rfl, refl⟩
  | read loads read =>
    rw [compile, loads_iff.mp loads]
    simp only [Job.load, read]
    exact ⟨rfl, refl⟩
  | notUtf8 loads read valid =>
    rw [compile, loads_iff.mp loads]
    simp only [Job.load, read, valid]
    exact ⟨rfl, refl⟩
  | noFileStem loads reads stem =>
    rw [compile_of_error loads reads (by rw [outputPath, stem]; rfl)]
    exact ⟨rfl, refl⟩
  | @parse c text fault loads reads stem parsed =>
    obtain ⟨name, named⟩ := Option.ne_none_iff_exists'.mp stem
    rw [compile_of_error loads reads (by rw [outputPath, named, result_preprocess, parsed]; rfl)]
    exact ⟨rfl, refl⟩
  | @write c text output e made ready outputs outdated delivers =>
    obtain ⟨r, done, delivers', _, same⟩ := compile_of_outputs ready outputs
    obtain ⟨rfl, rfl⟩ := delivers.unique outdated delivers'
    rw [same]
    refine ⟨rfl, ?_⟩
    rcases delivers.delivered.2 with ⟨ok, _⟩ | ⟨_, failed, _, leaves⟩
    · contradiction
    · obtain rfl := Except.error.inj failed
      refine leaves.imp_right ?_
      rintro ⟨cause, cut, short⟩
      exact ⟨c, text, output, cause, ready, outputs, congrArg Failure.graph cut, short⟩

/-- What a run of `compile` reports and leaves behind. -/
structure Compiles (store : Store) (source : Path) (frames : Option Frames)
    (outDir config : Option Path) (report : Report) : Prop where
  exit_eq_zero_iff : report.exit = 0 ↔ ∃ c text output, Ready store source config c text ∧
    Outputs source frames outDir c text output ∧ Writes store c output
  /-- The path of the output is shown, and no other file has changed. -/
  success : ∀ c text output, Ready store source config c text →
    Outputs source frames outDir c text output → Writes store c output →
      report.output = Utf8.repair output.path ++ bytes "\n" ∧ report.errors = [] ∧
        Job.Delivered store output report.store
  failure : report.exit ≠ 0 → ∃ failure, Fails store source frames outDir config failure ∧
    report.exit = 1 ∧ report.output = [] ∧ report.errors = failure.line ∧
      Leaves store source frames outDir config failure report.store

/-- What a run of `check` reports and leaves behind. -/
structure Checks (store : Store) (source : Path) (report : Report) : Prop where
  kept : report.store = store
  exit_eq_one_iff : ∀ text, Reads store source text →
    (report.exit = 1 ↔ ∃ fault, (Graph.parse text).result = .error fault)
  errors : ∀ text fault, Reads store source text → (Graph.parse text).result = .error fault →
    report.errors = (Failure.graph (.parse fault)).line
  /-- A run of `compile` reports the same fault. -/
  alike : ∀ text fault, Reads store source text → (Graph.parse text).result = .error fault →
    ∀ words frames outDir config c,
      Command.ofWords? words = some (.compile source frames outDir config) →
      Loads store source config (.ok c) → source.stem? ≠ none →
        (run words store).exit = 1 ∧ (run words store).errors = report.errors

theorem run_of_writes {words : List Bytes}
    (spelt : Command.ofWords? words = some (.compile source frames outDir config))
    (ready : Ready store source config c text)
    (outputs : Outputs source frames outDir c text output) (writes : Writes store c output) :
    (run words store).exit = 0 ∧
      (run words store).output = Utf8.repair output.path ++ bytes "\n" ∧
      (run words store).errors = [] ∧ Job.Delivered store output (run words store).store := by
  obtain ⟨done, same, delivered⟩ := compile_of_writes ready outputs writes
  simp only [run, spelt, Command.run, same]
  exact ⟨rfl, rfl, rfl, delivered⟩

theorem run_of_fails {words : List Bytes}
    (spelt : Command.ofWords? words = some (.compile source frames outDir config))
    {failure : Failure} (fails : Fails store source frames outDir config failure) :
    (run words store).exit = 1 ∧ (run words store).output = [] ∧
      (run words store).errors = failure.line ∧
        Leaves store source frames outDir config failure (run words store).store := by
  obtain ⟨failed, leaves⟩ := compile_of_fails fails
  rcases same : compile source frames outDir config store with ⟨r, done⟩
  rw [same] at failed leaves
  subst failed
  simp only [run, spelt, Command.run, same]
  exact ⟨rfl, rfl, rfl, leaves⟩

theorem compiles {words : List Bytes}
    (spelt : Command.ofWords? words = some (.compile source frames outDir config)) :
    Compiles store source frames outDir config (run words store) := by
  refine ⟨⟨fun zero => ?_, ?_⟩, ?_, fun nonzero => ?_⟩
  · rcases writes_or_fails store source frames outDir config with success | ⟨failure, fails⟩
    · exact success
    · exact nomatch zero.symm.trans (run_of_fails spelt fails).1
  · rintro ⟨c, text, output, ready, outputs, writes⟩
    exact (run_of_writes spelt ready outputs writes).1
  · intro c text output ready outputs writes
    exact (run_of_writes spelt ready outputs writes).2
  · rcases writes_or_fails store source frames outDir config with
      ⟨c, text, output, ready, outputs, writes⟩ | ⟨failure, fails⟩
    · exact absurd (run_of_writes spelt ready outputs writes).1 nonzero
    · exact ⟨failure, fails, run_of_fails spelt fails⟩

theorem Reads.readText (reads : Reads store source text) :
    Settings.readText store source = .ok text := by
  rw [Settings.readText, reads.read]
  exact if_pos reads.valid

theorem check_of_ok {g : Graph} (reads : Reads store source text)
    (parsed : (Graph.parse text).result = .ok g) :
    check source store = .ok (Summary.ofGraph (Utf8.repair source) g) := by
  simp only [check, reads.readText, parsed]

theorem check_of_error {fault : Fault} (reads : Reads store source text)
    (parsed : (Graph.parse text).result = .error fault) :
    check source store = .error (.graph (.parse fault)) := by
  simp only [check, reads.readText, parsed]

theorem checks {words : List Bytes} (spelt : Command.ofWords? words = some (.check source)) :
    Checks store source (run words store) := by
  have report : run words store = .ofResult (check source store) store := by
    rw [run, spelt]
    rfl
  rw [report]
  refine ⟨?_, fun text reads => ?_, fun text fault reads parsed => ?_,
    fun text fault reads parsed words frames outDir config c spelt loads stem => ?_⟩
  · cases check source store <;> rfl
  · rcases parsed : (Graph.parse text).result with fault | g
    · rw [check_of_error reads parsed]
      exact iff_of_true rfl ⟨fault, rfl⟩
    · rw [check_of_ok reads parsed]
      exact iff_of_false Nat.zero_ne_one nofun
  · rw [check_of_error reads parsed]
    rfl
  · obtain ⟨exit, _, errors, _⟩ := run_of_fails spelt (.parse loads reads stem parsed)
    rw [check_of_error reads parsed]
    exact ⟨exit, errors⟩

/-- Whatever the words and the files: a run of `compile` succeeds just if its output is up to date
or can be written. Else it reports what comes up first, and changes no file unless the medium took a
part of its output only. A run of `check` changes none at all. -/
theorem run_compiles_or_checks (words : List Bytes) (store : Store) :
    (∀ source frames outDir config,
      Command.ofWords? words = some (.compile source frames outDir config) →
        Compiles store source frames outDir config (run words store)) ∧
    ∀ source, Command.ofWords? words = some (.check source) →
      Checks store source (run words store) :=
  ⟨fun _ _ _ _ => compiles, fun _ => checks⟩

/-- A source beside its settings, which give the directory of the output. -/
theorem run_compiles_or_checks_beside :
    let w : Location := [bytes "w"]
    let source := bytes "PASS_BEGIN(a) \x7b x; \x7d PASS_END\n"
    let settings := bytes "[rendergraph]\nout_dir = \"../out\"\n"
    let store := (((Store.startingAt w).set (w ++ [bytes "g"]) .directory).set
      (w ++ [bytes "g", bytes "a.hpp"]) (.file source)).set
        (w ++ [bytes "g", settingsName]) (.file settings)
    let words := [bytes "compile", bytes "g/a.hpp", bytes "-f", bytes "1"]
    let words' := [bytes "check", bytes "g/a.hpp"]
    Compiles store (bytes "g/a.hpp") (Frames.ofNat? 1) none none (run words store) ∧
      (run words store).output = bytes "g/../out/a__processed.hpp\n" ∧
      Checks store (bytes "g/a.hpp") (run words' store) ∧
      (run words' store).exit = 0 := by
  intro w source settings store words words'
  have spelt : Command.ofWords? words =
      some (.compile (bytes "g/a.hpp") (Frames.ofNat? 1) none none) := by decide +kernel
  have spelt' : Command.ofWords? words' = some (.check (bytes "g/a.hpp")) := by decide +kernel
  exact ⟨(run_compiles_or_checks words store).1 _ _ _ _ spelt, by decide +kernel,
    (run_compiles_or_checks words' store).2 _ spelt', by decide +kernel⟩

/-- A banner alone makes an output up to date. -/
theorem isCurrent_of_banner {path : Path} {f : Frames} {o : Options}
    (read : store.read path = .ok (Banner.line text f o ++ [0x0A])) :
    isCurrent store path (Banner.line text f o) = true := by
  have valid : Utf8.isValid (Banner.line text f o ++ [0x0A]) = true :=
    Utf8.isValid_of_ascii (List.forall_mem_append.mpr
      ⟨fun b member => (Banner.line_printable text f o b member).2, by decide⟩)
  unfold isCurrent
  rw [read]
  dsimp only
  rw [valid, Bytes.firstLine?_append (Banner.line_ge text f o), Bool.true_and, beq_self_eq_true]

/-- A run is content with an output that holds nothing but its banner, whatever the settings say of
existing outputs. -/
theorem run_of_banner {words : List Bytes} {path : Path}
    (spelt : Command.ofWords? words = some (.compile source frames outDir config))
    (ready : Ready store source config c text)
    (place : outputPath source (outDir.or c.outDir) = .ok path)
    (read : store.read path =
      .ok (Banner.line text (framesOf frames c) c.options ++ [0x0A])) :
    (run words store).exit = 0 := by
  obtain ⟨output, outputs⟩ := @Ready.exists_output _ _ frames outDir _ _ _ ready
  obtain rfl : output.path = path := Except.ok.inj (outputs.path.symm.trans place)
  have current : isCurrent store output.path output.banner = true := by
    rw [outputs.banner]
    exact isCurrent_of_banner read
  exact (run_of_writes spelt ready outputs ⟨store, .current current⟩).1

/-- An output that is up to date and cannot be written, and one that is cut short where there was
none. -/
theorem run_succeeds_unwritten_fails_written :
    let w : Location := [bytes "w"]
    let path := bytes "a__processed.hpp"
    let source := bytes "PASS_BEGIN(A) \x7b \x7d PASS_END\n"
    let settings := bytes "[rendergraph]\noverwrite = false\n"
    let store := ((Store.startingAt w).set (w ++ [bytes "a.hpp"]) (.file source)).set
      (w ++ [settingsName]) (.file settings)
    let banner := Banner.line source .standard { overwrite := false }
    let current := store.set (w ++ [path]) (.file (banner ++ [0x0A]))
    let full : Store := { store with medium := fun _ _ _ => some (0, .storageFull) }
    let words := [bytes "compile", bytes "a.hpp"]
    ((run words current).exit = 0 ∧
      (current.write path [] false).map (fun _ => ()) = .error .alreadyExists) ∧
    (run words full).exit = 1 ∧ full.get? (w ++ [path]) = none ∧
      (run words full).store.get? (w ++ [path]) = some (.file []) ∧
      ¬ full.SameFiles (run words full).store := by
  intro w path source settings store banner current full words
  have spelt : Command.ofWords? words = some (.compile (bytes "a.hpp") none none none) := by
    decide +kernel
  have success : (run words current).exit = 0 := by
    let c : Settings := { options := { overwrite := false } }
    have loads : Loads current (bytes "a.hpp") none (.ok c) := loads_iff.mpr (by decide +kernel)
    have reads : Reads current (bytes "a.hpp") source := ⟨by decide +kernel, by decide +kernel⟩
    have parses : (Graph.parse source).result =
        .ok ⟨[], [⟨bytes "A", {}, [], bytes " ", bytes "\n"⟩]⟩ := by decide +kernel
    have ready : Ready current (bytes "a.hpp") none c source :=
      ⟨loads, reads, by decide +kernel, _, parses⟩
    have leads : current.resolve path = .ok (w ++ [path]) := by decide +kernel
    have read : current.read path = .ok (banner ++ [0x0A]) :=
      Store.read_ok_iff.mpr ⟨_, leads, store.get?_set_self (by simp) _⟩
    exact run_of_banner spelt ready (by decide +kernel) read
  have before : full.get? (w ++ [path]) = none := by decide +kernel
  have after : (run words full).store.get? (w ++ [path]) = some (.file []) := by decide +kernel
  have changed : ¬ full.SameFiles (run words full).store := fun same =>
    nomatch before.symm.trans ((same _ _).mp after)
  refine ⟨⟨success, ?refused⟩, ?failed, before, after, changed⟩
  all_goals decide +kernel

end CommandLine
end PassCompiler
