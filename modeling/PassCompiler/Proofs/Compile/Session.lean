import PassCompiler.Compile.Job

/-! Sessions: one job is asked to load and to compile, in any order, while files change in any way
between the requests. What the last request came to decides the stage of the job, and a source is
held only from a successful load to the next request, so no source is compiled twice. -/
namespace PassCompiler.Job

inductive Request where
  | load (path : Path)
  | compile (frames : Nat) (dir : Option Path)
  deriving DecidableEq, Repr

/-- The job behind a request, and what the request came to: the path of the output, if it was to
compile. -/
def answer (job : Job) (store : Store) : Request → Job × Except CompileError (Option Path)
  | .load path => ((job.load path store).1, (job.load path store).2.result.map fun _ => none)
  | .compile frames dir =>
    ((job.compile frames dir store).1, (job.compile frames dir store).2.result.map some)

/-- A request that was answered. -/
structure Event where
  request : Request
  result : Except CompileError (Option Path)

namespace Event

def Loads (e : Event) : Prop := ∃ path, e.request = .load path ∧ ∃ answer, e.result = .ok answer

def Compiles (e : Event) : Prop :=
  ∃ frames dir, e.request = .compile frames dir ∧ ∃ answer, e.result = .ok answer

def Fails (e : Event) : Prop := ∃ error, e.result = .error error

/-- The stage that the answer leads to. -/
def stage (e : Event) : Stage :=
  match e.request, e.result with
  | _, .error _ => .failed
  | .load _, .ok _ => .loaded
  | .compile _ _, .ok _ => .written

/-- The path that a load was asked to read, whatever came of it. -/
def loadPath? (e : Event) : Option Path :=
  match e.request with
  | .load path => some path
  | .compile _ _ => none

end Event

/-- The job behind a session, in which each request meets the files as they are by then, and all
that was answered in it. -/
def session (job : Job) : List (Store × Request) → Job × List Event
  | [] => (job, [])
  | (store, request) :: later =>
    let (next, result) := job.answer store request
    let (last, events) := next.session later
    (last, ⟨request, result⟩ :: events)

/-- What a job shows of the requests it has answered. -/
structure Shows (options : Options) (past : List Event) (job : Job) : Prop where
  options : job.options = options
  unloaded : job.stage = .unloaded ↔ past = []
  loaded : job.stage = .loaded ↔ ∃ e, past.getLast? = some e ∧ e.Loads
  written : job.stage = .written ↔ ∃ e, past.getLast? = some e ∧ e.Compiles
  failed : job.stage = .failed ↔ ∃ e, past.getLast? = some e ∧ e.Fails
  settled : job.stage ≠ .preprocessed
  held : job.source.isSome ↔ job.stage = .loaded
  sourcePath : job.sourcePath = past.reverse.findSome? Event.loadPath?
  /-- A compilation follows a successful load at once, or there is nothing to compile. -/
  turns : ∀ before e after, past = before ++ e :: after → ∀ frames dir,
    e.request = .compile frames dir →
      (∃ l, before.getLast? = some l ∧ l.Loads) ∨ e.result = .error .notLoaded

namespace Event

variable (e : Event)

theorem stage_eq_loaded : e.stage = .loaded ↔ e.Loads := by
  obtain ⟨request, result⟩ := e
  cases request <;> cases result <;> simp [stage, Loads]

theorem stage_eq_written : e.stage = .written ↔ e.Compiles := by
  obtain ⟨request, result⟩ := e
  cases request <;> cases result <;> simp [stage, Compiles]

theorem stage_eq_failed : e.stage = .failed ↔ e.Fails := by
  obtain ⟨request, result⟩ := e
  cases request <;> cases result <;> simp [stage, Fails]

theorem stage_ne : e.stage ≠ .unloaded ∧ e.stage ≠ .preprocessed := by
  obtain ⟨request, result⟩ := e
  cases request <;> cases result <;> simp [stage]

end Event

/-- Without a source nothing else is looked at. -/
theorem compile_of_source_none {job : Job} (none : job.source = none) (frames : Nat)
    (dir : Option Path) (store : Store) :
    (job.compile frames dir store).2 = ⟨.error .notLoaded, store, []⟩ := by
  have ready : job.output frames dir = .fail .notLoaded := by
    unfold output
    rw [none]
  unfold compile
  rw [ready]
  rfl

/-- A compilation takes the source, and its result decides the stage. -/
theorem compile_job (job : Job) (frames : Nat) (dir : Option Path) (store : Store) :
    (job.compile frames dir store).1 =
      { job with
        source := none, stage := Stage.behind (job.compile frames dir store).2.result } := by
  unfold compile
  dsimp only
  split <;> rfl

/-- A load replaces the path, and holds the source if there is one. -/
theorem load_job (job : Job) (path : Path) (store : Store) :
    (∃ source, store.read path = .ok source ∧ (job.load path store).2.result = .ok () ∧
      (job.load path store).1 =
        { job with sourcePath := some path, source := some source, stage := .loaded }) ∨
    (∃ error, (job.load path store).2.result = .error error ∧ (job.load path store).1 =
      { job with sourcePath := some path, source := none, stage := .failed }) := by
  unfold load
  dsimp only
  cases store.read path with
  | error e => exact .inr ⟨_, rfl, rfl⟩
  | ok content =>
    dsimp only
    split
    · exact .inl ⟨content, rfl, rfl, rfl⟩
    · exact .inr ⟨_, rfl, rfl⟩

theorem turns_concat {past : List Event} {last : Event}
    (turns : ∀ before e after, past = before ++ e :: after → ∀ frames dir,
      e.request = .compile frames dir →
        (∃ l, before.getLast? = some l ∧ l.Loads) ∨ e.result = .error .notLoaded)
    (turn : ∀ frames dir, last.request = .compile frames dir →
      (∃ l, past.getLast? = some l ∧ l.Loads) ∨ last.result = .error .notLoaded) :
    ∀ before e after, past ++ [last] = before ++ e :: after → ∀ frames dir,
      e.request = .compile frames dir →
        (∃ l, before.getLast? = some l ∧ l.Loads) ∨ e.result = .error .notLoaded := by
  intro before e after split
  rcases List.eq_nil_or_concat after with rfl | ⟨front, back, rfl⟩
  · obtain ⟨rfl, same⟩ := List.append_inj' split rfl
    obtain rfl := List.singleton_inj.mp same
    exact turn
  · rw [List.concat_eq_append, ← List.cons_append, ← List.append_assoc] at split
    exact turns before e front (List.append_inj' split rfl).1

/-- What the last request has to leave behind for a job to show it. -/
theorem Shows.concat {options : Options} {past : List Event} {job next : Job} {e : Event}
    (h : job.Shows options past) (same : next.options = job.options)
    (stage : next.stage = e.stage) (held : next.source.isSome ↔ e.Loads)
    (path : next.sourcePath = e.loadPath?.or job.sourcePath)
    (turn : ∀ frames dir, e.request = .compile frames dir →
      (∃ l, past.getLast? = some l ∧ l.Loads) ∨ e.result = .error .notLoaded) :
    next.Shows options (past ++ [e]) where
  options := same.trans h.options
  unloaded := by simp [stage, e.stage_ne]
  loaded := by simp [stage, e.stage_eq_loaded]
  written := by simp [stage, e.stage_eq_written]
  failed := by simp [stage, e.stage_eq_failed]
  settled := stage ▸ e.stage_ne.2
  held := by rw [held, stage, e.stage_eq_loaded]
  sourcePath := by
    rw [path, h.sourcePath, List.reverse_concat, List.findSome?_cons]
    cases e.loadPath? <;> rfl
  turns := turns_concat h.turns turn

/-- A job goes on showing its past, with one more request in it. -/
theorem Shows.answer {options : Options} {past : List Event} {job : Job}
    (h : job.Shows options past) (store : Store) (request : Request) :
    (job.answer store request).1.Shows options
      (past ++ [⟨request, (job.answer store request).2⟩]) := by
  cases request with
  | load path =>
    rcases job.load_job path store with ⟨source, _, result, next⟩ | ⟨error, result, next⟩
    all_goals
      simp only [Job.answer, result, next, Except.map]
      exact h.concat rfl rfl (by simp [Event.Loads]) rfl nofun
  | compile frames dir =>
    have next := job.compile_job frames dir store
    refine h.concat ?_ ?_ ?_ ?_ ?_
    · rw [Job.answer, next]
    · rw [Job.answer, next]
      cases result : (job.compile frames dir store).2.result <;>
        simp [Stage.behind, Event.stage, Except.map]
    · simp [Job.answer, next, Event.Loads]
    · rw [Job.answer, next]
      rfl
    · intro _ _ _
      by_cases loaded : job.stage = .loaded
      · exact .inl (h.loaded.mp loaded)
      · have none : job.source = none :=
          Option.not_isSome_iff_eq_none.mp (mt h.held.mp loaded)
        rw [Job.answer, compile_of_source_none none]
        exact .inr rfl

theorem shows_initial (options : Options) : Job.Shows options [] { options } where
  options := rfl
  unloaded := by simp
  loaded := by simp
  written := by simp
  failed := by simp
  settled := by simp
  held := by simp
  sourcePath := rfl
  turns := by simp

theorem Shows.session {options : Options} {past : List Event} {job : Job}
    (h : job.Shows options past) (requests : List (Store × Request)) :
    (job.session requests).1.Shows options (past ++ (job.session requests).2) := by
  induction requests generalizing job past with
  | nil => simpa [Job.session] using h
  | cons first later ih =>
    obtain ⟨store, request⟩ := first
    have whole := ih (h.answer store request)
    rw [List.append_assoc] at whole
    exact whole

/-- Each request is answered, in order. -/
theorem map_request_session (job : Job) (requests : List (Store × Request)) :
    (job.session requests).2.map (·.request) = requests.map (·.2) := by
  induction requests generalizing job with
  | nil => rfl
  | cons first later ih =>
    obtain ⟨store, request⟩ := first
    exact congrArg (request :: ·) (ih _)

/-- Whatever is asked of a new job and however files change meanwhile, it shows the requests it has
answered, and without a source it refuses to compile before it looks at anything else. -/
theorem session_shows (options : Options) (requests : List (Store × Request)) :
    let (job, events) := Job.session { options } requests
    events.map (·.request) = requests.map (·.2) ∧ job.Shows options events ∧
      (job.source = none → ∀ frames dir store,
        (job.compile frames dir store).2 = ⟨.error .notLoaded, store, []⟩) :=
  ⟨map_request_session _ _, (shows_initial options).session requests, compile_of_source_none⟩

end PassCompiler.Job
