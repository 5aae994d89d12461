import PassCompiler.Proofs.Files.Path

/-! What a compilation does to the files. Nothing is written before the whole output is there; then
the directories that lead to it are made, and the output is the only file that changes. It is
written whole, or as far as the medium goes. Its name ends in a word that the name of its source
lacks, so the source stays as it is. -/
namespace PassCompiler

def Path.Above (p a : Path) : Prop := Relation.TransGen (fun p a => Path.parent? p = some a) p a

namespace Store

def SameFiles (s t : Store) : Prop :=
  ∀ l c, t.get? l = some (.file c) ↔ s.get? l = some (.file c)

/-- No file but the one that `p` leads to has changed, and new directories stand above `p`. -/
structure Touches (s : Store) (p : Path) (t : Store) : Prop where
  place : ∃ o, t.resolve p = .ok o ∧
    ∀ l ≠ o, ∀ c, t.get? l = some (.file c) ↔ s.get? l = some (.file c)
  directories : ∀ l, t.get? l = some .directory → s.get? l = some .directory ∨
    s.get? l = none ∧ ∃ a, p.Above a ∧ t.resolve a = .ok l

end Store

/-- Comes up before anything is written. -/
def CompileError.isEarly : CompileError → Bool
  | notLoaded | noFramesInFlight | noFileStem _ | parse _ => true
  | read _ _ | write _ _ | notUtf8 _ | outputExists _ | listing _ => false

/-- Comes up when a source cannot be read as text. -/
def CompileError.isReading : CompileError → Bool
  | read _ _ | notUtf8 _ => true
  | notLoaded | noFramesInFlight | write _ _ | noFileStem _ | outputExists _ | listing _
  | parse _ => false

theorem CompileError.isReading_of_isEarly {e : CompileError} (h : e.isEarly = true) :
    e.isReading = false := by
  cases e <;> first | rfl | contradiction

/-- New directories are those that lead to the output. -/
theorem made_of_makeParents {p : Path} {s t : Store} {r : Except FileError Unit}
    (h : makeParents p s = (r, t)) : s.Grows t ∧ t.medium = s.medium ∧
      ∀ l, t.get? l = s.get? l ∨
        s.get? l = none ∧ t.get? l = some .directory ∧ ∃ a, p.Above a ∧ t.resolve a = .ok l := by
  unfold makeParents at h
  split at h
  · next parent up =>
    have prepared := Store.prepares_makeDirectories s parent
    rw [h] at prepared
    refine ⟨prepared.grows, prepared.medium, fun l => (prepared.made l).imp_right ?_⟩
    rintro ⟨absent, made, a, above, leads⟩
    exact ⟨absent, made, a, .head' up above, leads⟩
  · obtain ⟨_, rfl⟩ := Prod.mk.inj h
    exact ⟨.refl s, rfl, fun l => .inl rfl⟩

theorem sameFiles_of_makeParents {p : Path} {s t : Store} {r : Except FileError Unit}
    (h : makeParents p s = (r, t)) : s.SameFiles t := by
  intro l c
  rcases (made_of_makeParents h).2.2 l with same | ⟨absent, made, _⟩
  · rw [same]
  · simp [absent, made]

section
variable {path : Path} {text : Bytes} {overwrite : Bool} {s made : Store}

theorem writeOutput_unprepared {e : FileError} (prepared : makeParents path s = (.error e, made)) :
    writeOutput path text overwrite s = ⟨.error (.write path e), made, []⟩ := by
  refine Action.bind_of_error ?_
  rw [Action.change, prepared]
  rfl

theorem writeOutput_prepared (prepared : makeParents path s = (.ok (), made)) :
    writeOutput path text overwrite s = (do
      Action.change (fun e => if e = .alreadyExists then .outputExists path else .write path e)
        fun store => match store.write path [] overwrite with
          | .ok opened => (.ok (), opened)
          | .error e => (.error e, store)
      Action.change (.write path) fun opened => opened.append path text :
        Action CompileError Unit) made := by
  have ready : Action.change (CompileError.write path) (makeParents path) s =
      ⟨.ok (), made, []⟩ := by
    rw [Action.change, prepared]
    rfl
  exact Action.bind_of_ok ready

theorem writeOutput_refused {e : FileError} (prepared : makeParents path s = (.ok (), made))
    (refused : made.write path [] overwrite = .error e) : writeOutput path text overwrite s =
      ⟨.error (if e = .alreadyExists then .outputExists path else .write path e), made, []⟩ := by
  rw [writeOutput_prepared prepared]
  refine Action.bind_of_error ?_
  rw [Action.change, refused]
  rfl

theorem writeOutput_opened {opened done : Store} {r : Except FileError Unit}
    (prepared : makeParents path s = (.ok (), made))
    (opens : made.write path [] overwrite = .ok opened)
    (put : opened.append path text = (r, done)) :
    writeOutput path text overwrite s = ⟨r.mapError (.write path), done, []⟩ := by
  have first : Action.change
      (fun e => if e = .alreadyExists then CompileError.outputExists path else .write path e)
      (fun store => match store.write path [] overwrite with
        | .ok opened => (.ok (), opened)
        | .error e => (.error e, store)) made = ⟨.ok (), opened, []⟩ := by
    rw [Action.change, opens]
    rfl
  rw [writeOutput_prepared prepared, Action.bind_of_ok first, Action.change, put]
  rfl

end

namespace Job

/-- How an output is delivered: the result, and the store that is left. -/
inductive Delivers (overwrite : Bool) (output : Output) (store : Store) :
    Except CompileError Path → Store → Prop
  /-- The output is up to date. -/
  | current : isCurrent store output.path output.banner = true →
      Delivers overwrite output store (.ok output.path) store
  /-- Some of the directories that lead to the output cannot be made. -/
  | unprepared {e : FileError} {made : Store} : makeParents output.path store = (.error e, made) →
      Delivers overwrite output store (.error (.write output.path e)) made
  | refused {e : FileError} {made : Store} : makeParents output.path store = (.ok (), made) →
      made.write output.path [] overwrite = .error e →
      Delivers overwrite output store
        (.error (if e = .alreadyExists then .outputExists output.path else .write output.path e))
        made
  /-- The medium does not take all of the output. -/
  | cut {e : FileError} {made opened done : Store} :
      makeParents output.path store = (.ok (), made) →
      made.write output.path [] overwrite = .ok opened →
      opened.append output.path output.text = (.error e, done) →
      Delivers overwrite output store (.error (.write output.path e)) done
  | written {made opened done : Store} : makeParents output.path store = (.ok (), made) →
      made.write output.path [] overwrite = .ok opened →
      opened.append output.path output.text = (.ok (), done) →
      Delivers overwrite output store (.ok output.path) done

section
variable {job : Job} {output : Output} {store done : Store}

theorem deliver_of_outdated {r : Except CompileError Unit}
    (outdated : isCurrent store output.path output.banner = false)
    (writes : writeOutput output.path output.text job.options.overwrite store = ⟨r, done, []⟩) :
    (job.deliver output store).result = r.map (fun _ => output.path) ∧
      (job.deliver output store).store = done := by
  rw [deliver, Action.look_bind, if_neg (by simp [outdated])]
  cases r with
  | error e =>
    rw [Action.bind_of_error writes]
    exact ⟨rfl, rfl⟩
  | ok =>
    rw [Action.bind_of_ok writes]
    exact ⟨rfl, rfl⟩

/-- Unless the output is up to date, there is one way to deliver it. -/
theorem Delivers.eq_deliver {r : Except CompileError Path}
    (outdated : isCurrent store output.path output.banner = false)
    (h : Delivers job.options.overwrite output store r done) :
    (job.deliver output store).result = r ∧ (job.deliver output store).store = done := by
  cases h with
  | current here => exact nomatch outdated.symm.trans here
  | unprepared prepared => exact deliver_of_outdated outdated (writeOutput_unprepared prepared)
  | refused prepared refused =>
    exact deliver_of_outdated outdated (writeOutput_refused prepared refused)
  | cut prepared opens put | written prepared opens put =>
    exact deliver_of_outdated outdated (writeOutput_opened prepared opens put)

end

theorem Delivers.unique {overwrite : Bool} {output : Output} {store done done' : Store}
    {r r' : Except CompileError Path}
    (outdated : isCurrent store output.path output.banner = false)
    (h : Delivers overwrite output store r done) (h' : Delivers overwrite output store r' done') :
    r' = r ∧ done' = done := by
  let job : Job := { options := { overwrite } }
  obtain ⟨rfl, rfl⟩ := @Delivers.eq_deliver job _ _ _ _ outdated h
  obtain ⟨rfl, rfl⟩ := @Delivers.eq_deliver job _ _ _ _ outdated h'
  exact ⟨rfl, rfl⟩

theorem deliver_of_current {job : Job} {output : Output} {store : Store}
    (h : isCurrent store output.path output.banner = true) :
    (job.deliver output store).result = .ok output.path ∧
      (job.deliver output store).store = store := by
  rw [deliver, Action.look_bind, if_pos h]
  exact ⟨rfl, rfl⟩

theorem delivers (job : Job) (output : Output) (store : Store) :
    Delivers job.options.overwrite output store (job.deliver output store).result
      (job.deliver output store).store := by
  have only {r : Except CompileError Path} {done : Store}
      (outdated : isCurrent store output.path output.banner = false)
      (h : Delivers job.options.overwrite output store r done) :
      Delivers job.options.overwrite output store (job.deliver output store).result
        (job.deliver output store).store := by
    obtain ⟨result, left⟩ := h.eq_deliver outdated
    rwa [result, left]
  cases current : isCurrent store output.path output.banner with
  | true =>
    obtain ⟨result, left⟩ := @deliver_of_current job _ _ current
    rw [result, left]
    exact .current current
  | false =>
    rcases prepared : makeParents output.path store with ⟨e | _, made⟩
    · exact only current (.unprepared prepared)
    rcases opens : made.write output.path [] job.options.overwrite with e | opened
    · exact only current (.refused prepared opens)
    rcases put : opened.append output.path output.text with ⟨e | _, done⟩
    · exact only current (.cut prepared opens put)
    · exact only current (.written prepared opens put)

/-- What a job has to hold for its output to be `output`. -/
structure Makes (job : Job) (frames : Nat) (dir : Option Path) (sourcePath : Path) (source : Bytes)
    (f : Frames) (output : Output) : Prop where
  stands : job.sourcePath = some sourcePath
  held : job.source = some source
  counted : Frames.ofNat? frames = some f
  path : outputPath sourcePath dir = .ok output.path
  banner : output.banner = Banner.line source f job.options
  text : (preprocess source f job.options).result = .ok output.text

theorem makes_of_output {job : Job} {frames : Nat} {dir : Option Path} {output : Output}
    (h : (job.output frames dir).result = .ok output) :
    ∃ sourcePath source f, job.Makes frames dir sourcePath source f output := by
  unfold Job.output at h
  split at h
  · next source sourcePath held stands =>
    obtain ⟨f, counted, h⟩ := Logged.result_bind_ok.mp h
    obtain ⟨path, named, h⟩ := Logged.result_bind_ok.mp h
    obtain ⟨text, read, h⟩ := Logged.result_bind_ok.mp h
    obtain rfl := Except.ok.inj h
    exact ⟨sourcePath, source, f, stands, held, Logged.result_ofOption_ok.mp counted, named, rfl,
      ok_of_mapError read⟩
  · contradiction

/-- What keeps an output from being there comes up before anything is written. -/
theorem isEarly_of_output {job : Job} {frames : Nat} {dir : Option Path} {e : CompileError}
    (h : (job.output frames dir).result = .error e) : e.isEarly = true := by
  unfold Job.output at h
  split at h
  · next source sourcePath _ _ =>
    rcases Logged.result_bind_error h with h | ⟨f, _, h⟩
    · cases counted : Frames.ofNat? frames with
      | none =>
        rw [counted] at h
        obtain rfl := Except.error.inj h
        rfl
      | some f =>
        rw [counted] at h
        contradiction
    rcases Logged.result_bind_error h with h | ⟨path, _, h⟩
    · rw [Logged.result_ofExcept, outputPath] at h
      split at h
      · obtain rfl := Except.error.inj h
        rfl
      · contradiction
    rcases Logged.result_bind_error h with h | ⟨text, _, h⟩
    · cases read : (preprocess source f job.options).result with
      | error fault =>
        rw [Logged.mapError, read] at h
        obtain rfl := Except.error.inj h
        rfl
      | ok text =>
        rw [Logged.mapError, read] at h
        contradiction
    · contradiction
  · obtain rfl := Except.error.inj h
    rfl

/-- A delivered output, and the files by then. -/
structure Delivered (store : Store) (output : Output) (done : Store) : Prop extends
    store.Touches output.path done where
  content : done = store ∧ (∃ c, store.read output.path = .ok c ∧
      Bytes.firstLine? c = some output.banner) ∨
    done.read output.path = .ok output.text

/-- An output of which the medium took a part only, and the files by then. -/
structure CutShort (store : Store) (output : Output) (e : FileError) (done : Store) : Prop extends
    store.Touches output.path done where
  content : ∃ o n entries, store.medium entries o output.text = some (n, e) ∧
    done.resolve output.path = .ok o ∧ done.get? o = some (.file (output.text.take n))

theorem delivered_of_isCurrent {store : Store} {output : Output}
    (h : isCurrent store output.path output.banner = true) : Delivered store output store := by
  unfold isCurrent at h
  split at h
  · next c content =>
    rw [Bool.and_eq_true, beq_iff_eq] at h
    obtain ⟨o, leads, _⟩ := Store.read_ok_iff.mp content
    exact ⟨⟨⟨o, leads, fun _ _ _ => .rfl⟩, fun _ => .inl⟩, .inl ⟨rfl, c, content, h.2⟩⟩
  · contradiction

/-- A file that is opened at last and filled, as far as that goes. -/
theorem touches_of_append {store made opened done : Store} {path : Path} {text : Bytes}
    {overwrite : Bool} {r : Except FileError Unit}
    (prepared : makeParents path store = (.ok (), made))
    (opens : made.write path [] overwrite = .ok opened)
    (put : opened.append path text = (r, done)) :
    store.Grows done ∧ store.Touches path done ∧ ∃ o taken, done.resolve path = .ok o ∧
      done.get? o = some (.file taken) ∧ (r = .ok () ∧ taken = text ∨ ∃ n e entries,
        r = .error e ∧ taken = text.take n ∧ store.medium entries o text = some (n, e)) := by
  obtain ⟨grows, medium, directories⟩ := made_of_makeParents prepared
  obtain ⟨o, taken, filled, free, rfl, leads, _, parts⟩ := Store.append_of_write opens put
  have later : made.Grows (made.set o (.file taken)) :=
    Store.grows_set filled fun directory => absurd directory free
  have written := made.get?_set_self filled (.file taken)
  refine ⟨grows.trans later, ⟨⟨o, leads, fun l other c => ?_⟩, fun l directory => ?_⟩,
    o, taken, leads, written, parts.imp_right ?_⟩
  · rw [Store.get?_set_of_ne _ other]
    exact sameFiles_of_makeParents prepared l c
  · have other : l ≠ o := by
      rintro rfl
      exact nomatch written.symm.trans directory
    rw [Store.get?_set_of_ne _ other] at directory
    rcases directories l with same | ⟨absent, _, a, above, found⟩
    · exact .inl (same ▸ directory)
    · exact .inr ⟨absent, a, above, later.resolve found⟩
  · rintro ⟨n, e, failed, part, short⟩
    exact ⟨n, e, opened.entries, failed, part, medium ▸ short⟩

/-- What a failure leaves of the files: all of them, but for an output that was cut short. -/
def Leaves (store : Store) (output : Output) (e : CompileError) (done : Store) : Prop :=
  store.SameFiles done ∨ ∃ cause, e = .write output.path cause ∧ CutShort store output cause done

/-- An output is delivered, or there is a failure. -/
theorem Delivers.delivered {overwrite : Bool} {output : Output} {store done : Store}
    {r : Except CompileError Path} (h : Delivers overwrite output store r done) :
    store.Grows done ∧ (r = .ok output.path ∧ Delivered store output done ∨
      ∃ e, r = .error e ∧ e.isEarly = false ∧ Leaves store output e done) := by
  cases h with
  | current h => exact ⟨.refl store, .inl ⟨rfl, delivered_of_isCurrent h⟩⟩
  | unprepared prepared =>
    exact ⟨(made_of_makeParents prepared).1,
      .inr ⟨_, rfl, rfl, .inl (sameFiles_of_makeParents prepared)⟩⟩
  | @refused e _ prepared _ =>
    refine ⟨(made_of_makeParents prepared).1,
      .inr ⟨_, rfl, ?_, .inl (sameFiles_of_makeParents prepared)⟩⟩
    split <;> rfl
  | cut prepared opens put =>
    obtain ⟨grows, touches, o, _, leads, file, ⟨ok, _⟩ | ⟨n, e, entries, failed, rfl, short⟩⟩ :=
      touches_of_append prepared opens put
    · contradiction
    · obtain rfl := Except.error.inj failed
      exact ⟨grows, .inr ⟨_, rfl, rfl,
        .inr ⟨_, rfl, touches, o, n, entries, short, leads, file⟩⟩⟩
  | written prepared opens put =>
    obtain ⟨grows, touches, o, _, leads, file, ⟨_, rfl⟩ | ⟨_, _, _, failed, _⟩⟩ :=
      touches_of_append prepared opens put
    · exact ⟨grows, .inl ⟨rfl, touches, .inr (Store.read_ok_iff.mpr ⟨o, leads, file⟩)⟩⟩
    · contradiction

/-- The output of a job whose source is loaded. -/
theorem result_output {job : Job} {source : Path} {text : Bytes}
    (stands : job.sourcePath = some source) (held : job.source = some text) (f : Frames)
    (dir : Option Path) :
    (job.output f.count dir).result = (outputPath source dir).bind fun path =>
      ((preprocess text f job.options).result.mapError .parse).bind fun out =>
        .ok ⟨path, Banner.line text f job.options, out⟩ := by
  have counted : Frames.ofNat? f.count = some f := dif_pos ⟨f.pos, f.le⟩
  rw [output, held, stands, counted]
  simp [Logged.ofOption, Logged.mapError, Except.bind]

theorem compile_of_error {job : Job} {n : Nat} {dir : Option Path} {e : CompileError}
    (h : (job.output n dir).result = .error e) (store : Store) :
    (job.compile n dir store).2.result = .error e ∧ (job.compile n dir store).2.store = store := by
  simp only [compile, h, and_self]

theorem compile_of_ok {job : Job} {n : Nat} {dir : Option Path} {output : Output}
    (h : (job.output n dir).result = .ok output) (store : Store) :
    ∃ job' : Job, job'.options = job.options ∧
      (job.compile n dir store).2.result = (job'.deliver output store).result ∧
      (job.compile n dir store).2.store = (job'.deliver output store).store := by
  simp only [compile, h]
  exact ⟨_, rfl, rfl, rfl⟩

/-- No compilation reads its source. -/
theorem isReading_of_compile {job : Job} {frames : Nat} {dir : Option Path} {store : Store}
    {e : CompileError} (h : (job.compile frames dir store).2.result = .error e) :
    e.isReading = false := by
  unfold compile at h
  dsimp only at h
  split at h
  · next e' ready =>
    obtain rfl := Except.error.inj h
    exact CompileError.isReading_of_isEarly (isEarly_of_output ready)
  · next output _ =>
    dsimp only at h
    have delivers := Job.delivers { job with source := none, stage := .preprocessed } output store
    rw [h] at delivers
    cases delivers with
    | unprepared | cut => rfl
    | refused => split <;> rfl

/-- A compilation either fails and leaves the store alone, or delivers an output. -/
theorem compile_cases (job : Job) (frames : Nat) (dir : Option Path) (store : Store) :
    (∃ e, (job.compile frames dir store).2.result = .error e ∧
      (job.compile frames dir store).2.store = store) ∨
    ∃ sourcePath source f output, job.Makes frames dir sourcePath source f output ∧
      Delivers job.options.overwrite output store (job.compile frames dir store).2.result
        (job.compile frames dir store).2.store := by
  unfold compile
  dsimp only
  split
  · next e _ => exact .inl ⟨e, rfl, rfl⟩
  · next output ready =>
    obtain ⟨sourcePath, source, f, makes⟩ := makes_of_output ready
    exact .inr ⟨sourcePath, source, f, output, makes, delivers _ output store⟩

/-- A compilation that does not fail delivers an output. -/
theorem delivered_of_ok {job : Job} {frames : Nat} {dir : Option Path} {store : Store} {p : Path}
    (h : (job.compile frames dir store).2.result = .ok p) :
    store.Grows (job.compile frames dir store).2.store ∧ ∃ sourcePath source f output,
      job.Makes frames dir sourcePath source f output ∧ p = output.path ∧
        Delivered store output (job.compile frames dir store).2.store := by
  rcases job.compile_cases frames dir store with
    ⟨e, failed, _⟩ | ⟨sourcePath, source, f, output, makes, delivers⟩
  · exact nomatch failed.symm.trans h
  · obtain ⟨grows, ⟨ok, delivered⟩ | ⟨e, failed, _⟩⟩ := delivers.delivered
    · obtain rfl := Except.ok.inj (ok.symm.trans h)
      exact ⟨grows, sourcePath, source, f, output, makes, rfl, delivered⟩
    · exact nomatch failed.symm.trans h

end Job
end PassCompiler
