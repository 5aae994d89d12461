import PassCompiler.Compile.Tree
import PassCompiler.Proofs.Banner
import PassCompiler.Proofs.Compile.Delivery
import PassCompiler.Proofs.Compile.Session
import PassCompiler.Proofs.Files.Tree

/-! A walk through a tree as the compilations it makes, one after the other. -/
namespace PassCompiler

namespace Action

variable {ε α β : Type} {x : Action ε α} {s t : Store}

/-- From the store `s` the action succeeds with `a` and leaves `t`. -/
def Yields (x : Action ε α) (s : Store) (a : α) (t : Store) : Prop :=
  (x s).result = .ok a ∧ (x s).store = t

theorem yields_pure {a b : α} : (pure a : Action ε α).Yields s b t ↔ b = a ∧ t = s := by
  simp only [Yields, pure_apply, Except.ok.injEq]
  exact and_congr eq_comm eq_comm

theorem yields_bind {f : α → Action ε β} {b : β} :
    (x >>= f).Yields s b t ↔ ∃ a u, x.Yields s a u ∧ (f a).Yields u b t := by
  rcases run : x s with ⟨e | a, u, log⟩
  · simp [Yields, bind_of_error run, run]
  · simp [Yields, bind_of_ok run, run]

theorem yields_look {a : Store} : (look : Action ε Store).Yields s a t ↔ a = s ∧ t = s := by
  simp only [Yields, look, Except.ok.injEq]
  exact and_congr eq_comm eq_comm

theorem yields_ofExcept {r : Except ε α} {a : α} :
    (ofExcept r).Yields s a t ↔ r = .ok a ∧ t = s :=
  and_congr .rfl eq_comm

theorem yields_ofLogged {r : Logged ε α} {a : α} :
    (ofLogged r).Yields s a t ↔ r.result = .ok a ∧ t = s :=
  and_congr .rfl eq_comm

/-- An action fails in its first part or, behind it, in the second. -/
theorem result_bind_error {f : α → Action ε β} {e : ε} (h : ((x >>= f) s).result = .error e) :
    (x s).result = .error e ∨ ∃ a u, x.Yields s a u ∧ (f a u).result = .error e := by
  rcases run : x s with ⟨e' | a, u, log⟩
  · rw [bind_of_error run] at h
    exact .inl (congrArg Except.error (Except.error.inj h))
  · rw [bind_of_ok run] at h
    exact .inr ⟨a, u, ⟨by rw [run], by rw [run]⟩, h⟩

theorem bind_congr_of_yields {y : Action ε α} {f g : α → Action ε β} (same : x s = y s)
    (next : ∀ a u, y.Yields s a u → f a u = g a u) : (x >>= f) s = (y >>= g) s := by
  rcases run : y s with ⟨e | a, u, log⟩
  · rw [bind_of_error (same.trans run), bind_of_error run]
  · have later := next a u ⟨by rw [run], by rw [run]⟩
    rw [bind_of_ok (same.trans run), bind_of_ok run, later]

theorem pure_bind' (a : α) (f : α → Action ε β) : pure a >>= f = f a :=
  funext fun s => bind_of_ok (pure_apply a s)

theorem bind_assoc' {γ : Type} (x : Action ε α) (f : α → Action ε β) (g : β → Action ε γ) :
    x >>= f >>= g = x >>= fun a => f a >>= g := by
  funext s
  rcases run : x s with ⟨e | a, u, log⟩
  · rw [bind_of_error run, bind_of_error (bind_of_error run)]
  · rcases next : f a u with ⟨e | b, v, log'⟩
    · have both : (x >>= f) s = ⟨.error e, v, log ++ log'⟩ := by rw [bind_of_ok run, next]
      rw [bind_of_error both, bind_of_ok run, bind_of_error next]
    · have both : (x >>= f) s = ⟨.ok b, v, log ++ log'⟩ := by rw [bind_of_ok run, next]
      rw [bind_of_ok both, bind_of_ok run, bind_of_ok next, List.append_assoc]

theorem id_map' (x : Action ε α) : id <$> x = x := by
  funext s
  rcases run : x s with ⟨e | a, u, log⟩
  · exact bind_of_error run
  · exact (bind_of_ok run).trans (congrArg (Outcome.mk (.ok a) u) (List.append_nil log))

instance : LawfulMonad (Action ε) := LawfulMonad.mk' _ id_map' pure_bind' bind_assoc'

theorem result_mapM_error {f : β → Action ε α} {bs : List β} {e : ε}
    (h : (bs.mapM f s).result = .error e) : ∃ b ∈ bs, ∃ u, (f b u).result = .error e := by
  induction bs generalizing s with
  | nil => contradiction
  | cons b bs ih =>
    rw [List.mapM_cons] at h
    rcases result_bind_error h with here | ⟨a, u, _, h⟩
    · exact ⟨b, List.mem_cons_self, s, here⟩
    rcases result_bind_error h with later | ⟨as, v, _, h⟩
    · obtain ⟨b', member, w, fails⟩ := ih later
      exact ⟨b', List.mem_cons_of_mem _ member, w, fails⟩
    · contradiction

/-- Actions that agree where an invariant holds, which the first of them keeps. -/
theorem mapM_congr_of_keeps {I : Store → Prop} {f g : β → Action ε α} {bs : List β}
    (agree : ∀ b ∈ bs, ∀ s, I s → f b s = g b s)
    (keeps : ∀ b ∈ bs, ∀ s a t, I s → (g b).Yields s a t → I t) (holds : I s) :
    bs.mapM f s = bs.mapM g s := by
  induction bs generalizing s with
  | nil => rfl
  | cons b bs ih =>
    obtain ⟨here, agree⟩ := List.forall_mem_cons.mp agree
    obtain ⟨kept, keeps⟩ := List.forall_mem_cons.mp keeps
    rw [List.mapM_cons, List.mapM_cons]
    refine bind_congr_of_yields (here s holds) fun a u first => ?_
    exact bind_congr_of_yields (ih agree keeps (kept s a u holds first)) fun _ _ _ => rfl

end Action
namespace Tree

/-- A source, by the names that lead to it from the root of the tree. -/
structure Source where
  folders : List Bytes
  name : Bytes
  deriving DecidableEq, Repr

namespace Source

def stem (x : Source) : Bytes := (Path.splitExtension x.name).1

def path (root : Path) (x : Source) : Path := (x.folders.foldl Path.join root).join x.name

/-- The directory that the output goes into. -/
def folder (p : Plan) (x : Source) : Path := p.destination.join (Path.ofSegments x.folders)

def output (p : Plan) (x : Source) : Path := (x.folder p).join (x.stem ++ outputSuffix)

def names (x : Source) : List Bytes := x.folders ++ [x.name]

def IsProper (x : Source) : Prop :=
  (∀ name ∈ x.folders, Path.IsProper name) ∧ Path.IsProper x.name

theorem isProper_names (x : Source) (proper : x.IsProper) : ∀ name ∈ x.names, Path.IsProper name :=
  List.forall_mem_append.mpr ⟨proper.1, List.forall_mem_singleton.mpr proper.2⟩

theorem nodup_of_sorted {xs : List Source} (sorted : xs.Pairwise fun x y => x.names < y.names) :
    xs.Nodup := by
  refine sorted.imp fun {x y} less same => ?_
  exact Std.lt_irrefl (same ▸ less)

theorem path_eq (x : Source) (root : Path) : x.path root = x.names.foldl Path.join root := by
  rw [names, List.foldl_concat, path]

end Source

namespace Plan

variable {p : Plan} {root : Path} {s t u : Store} {xs ys : List Source}

/-- What loading a source comes to. -/
def loading (p : Plan) (root : Path) (s : Store) (x : Source) : Job × Logged CompileError Unit :=
  Job.load { options := p.options } (x.path root) s

def compiling (p : Plan) (root : Path) (s : Store) (x : Source) : Outcome CompileError Path :=
  ((p.loading root s x).1.compile p.frames (some (x.folder p)) s).2

/-- A source that the plan compiles, going by its name and by the file as it is. -/
structure Picks (p : Plan) (root : Path) (s : Store) (x : Source) : Prop where
  admitted : p.admits (x.path root) = true
  hasPass : hasPass s (x.path root) = true

/-- One compilation of a walk: the source is loaded, and its output delivered. -/
structure Compiles (p : Plan) (root : Path) (s : Store) (x : Source) (t : Store) : Prop where
  admitted : p.admits (x.path root) = true
  hasPass : hasPass s (x.path root) = true
  loaded : (p.loading root s x).2.result = .ok ()
  compiled : (p.compiling root s x).result = .ok (x.output p)
  store : (p.compiling root s x).store = t

/-- The compilations of a walk, in order, from one store to another. -/
inductive Walks (p : Plan) (root : Path) : Store → List Source → Store → Prop
  | done (s : Store) : Walks p root s [] s
  | next {s t u : Store} {x : Source} {xs : List Source} : p.Compiles root s x t →
      Walks p root t xs u → Walks p root s (x :: xs) u

theorem Compiles.picks {x : Source} (h : p.Compiles root s x t) : p.Picks root s x :=
  ⟨h.admitted, h.hasPass⟩

theorem Walks.append (h : p.Walks root s xs t) (h' : p.Walks root t ys u) :
    p.Walks root s (xs ++ ys) u := by
  induction h with
  | done => exact h'
  | next first _ ih => exact .next first (ih h')

theorem fileName?_path {x : Source} (proper : x.IsProper) :
    (x.path root).fileName? = some x.name := by
  obtain ⟨front, split⟩ := Path.exists_segments_join_name (x.folders.foldl Path.join root)
  exact Path.fileName?_of_segments (split _ proper.2.free) proper.2.toIsName

theorem outputPath_path {x : Source} (proper : x.IsProper) :
    outputPath (x.path root) (some (x.folder p)) = .ok (x.output p) := by
  rw [outputPath, Path.stem?, fileName?_path proper]
  rfl

theorem fileName?_output {x : Source} (proper : x.IsProper) :
    (x.output p).fileName? = some (x.stem ++ outputSuffix) := by
  have path : (x.path []).fileName? = some x.name := fileName?_path proper
  obtain ⟨name, source, output⟩ := Path.fileName?_of_outputPath (outputPath_path proper)
  obtain rfl := Option.some.inj (path.symm.trans source)
  exact output

/-- What a compilation leaves of the files, and the banner of its source in its output. -/
structure Compiled (p : Plan) (root : Path) (s : Store) (x : Source) (t : Store) : Prop where
  grows : s.Grows t
  named : s.Named → t.Named
  others : ∀ l ≠ (x.output p).place s.current, ∀ c,
    t.get? l = some (.file c) ↔ s.get? l = some (.file c)
  current : ∃ f source c, Frames.ofNat? p.frames = some f ∧ s.read (x.path root) = .ok source ∧
    t.read (x.output p) = .ok c ∧ Bytes.firstLine? c = some (Banner.line source f p.options)

theorem firstLine?_of_preprocess {source text : Bytes} {f : Frames} {o : Options}
    (h : (preprocess source f o).result = .ok text) :
    Bytes.firstLine? text = some (Banner.line source f o) := by
  obtain ⟨rest, _, h⟩ := Logged.result_bind_ok.mp h
  obtain rfl := Except.ok.inj h
  rw [List.append_assoc]
  exact Bytes.firstLine?_append (Banner.line_ge source f o)

theorem named_of_delivered {output : Output} (grows : s.Grows t)
    (delivered : Job.Delivered s output t) (named : s.Named) : t.Named := by
  obtain ⟨o, found, others⟩ := delivered.place
  refine named.grow grows.current fun l present => ?_
  obtain ⟨node, there⟩ := Option.isSome_iff_exists.mp present
  cases node with
  | file c =>
    by_cases here : l = o
    · exact .inr ⟨output.path, here ▸ found⟩
    · exact .inl (by rw [(others l here c).mp there]; rfl)
  | directory =>
    rcases delivered.directories l there with old | ⟨_, a, _, leads⟩
    · exact .inl (by rw [old]; rfl)
    · exact .inr ⟨a, leads⟩

/-- The output that a source in `s` is compiled to. -/
structure Prepares (p : Plan) (root : Path) (s : Store) (x : Source) (source : Bytes) (f : Frames)
    (output : Output) : Prop where
  counted : Frames.ofNat? p.frames = some f
  read : s.read (x.path root) = .ok source
  path : output.path = x.output p
  banner : output.banner = Banner.line source f p.options
  text : (preprocess source f p.options).result = .ok output.text

theorem prepares_of_makes {x : Source} (proper : x.IsProper)
    (loaded : (p.loading root s x).2.result = .ok ()) {path : Path} {source : Bytes} {f : Frames}
    {output : Output}
    (makes : (p.loading root s x).1.Makes p.frames (some (x.folder p)) path source f output) :
    p.Prepares root s x source f output := by
  rcases Job.load_job { options := p.options } (x.path root) s with
    ⟨content, read, _, job⟩ | ⟨e, failed, _⟩
  · obtain ⟨stands, held, counted, named, banner, text⟩ := makes
    rw [loading, job] at stands held banner text
    obtain rfl := Option.some.inj stands
    obtain rfl := Option.some.inj held
    have place := Except.ok.inj ((outputPath_path proper).symm.trans named)
    exact ⟨counted, read, place.symm, banner, text⟩
  · exact nomatch failed.symm.trans loaded

theorem compiled_of_delivered {x : Source} {source : Bytes} {f : Frames} {output : Output}
    (grows : s.Grows t) (delivered : Job.Delivered s output t)
    (prepares : p.Prepares root s x source f output) : p.Compiled root s x t := by
  obtain ⟨o, found, others⟩ := delivered.place
  have place : o = (x.output p).place s.current := by
    rw [← prepares.path, ← grows.current]
    exact Store.eq_of_resolve found
  have current : ∃ c, t.read output.path = .ok c ∧
      Bytes.firstLine? c = some (Banner.line source f p.options) := by
    rcases delivered.content with ⟨rfl, c, content, line⟩ | content
    · exact ⟨c, content, prepares.banner ▸ line⟩
    · exact ⟨_, content, firstLine?_of_preprocess prepares.text⟩
  obtain ⟨c, content, line⟩ := current
  exact ⟨grows, named_of_delivered grows delivered, place ▸ others, f, source, c,
    prepares.counted, prepares.read, prepares.path ▸ content, line⟩

/-- A source that is loaded and compiled without a failure. -/
theorem compiled_of_ok {x : Source} (proper : x.IsProper)
    (loaded : (p.loading root s x).2.result = .ok ()) {o : Path}
    (compiled : (p.compiling root s x).result = .ok o) :
    o = x.output p ∧ p.Compiled root s x (p.compiling root s x).store := by
  obtain ⟨grows, _, _, _, output, makes, rfl, delivered⟩ := Job.delivered_of_ok compiled
  have prepares := prepares_of_makes proper loaded makes
  exact ⟨prepares.path, compiled_of_delivered grows delivered prepares⟩

theorem compiled_of_compiles {x : Source} (h : p.Compiles root s x t) (proper : x.IsProper) :
    p.Compiled root s x t :=
  h.store ▸ (compiled_of_ok proper h.loaded h.compiled).2

/-- Whether a file is compiled is up to the plan alone. -/
theorem yields_compileFile {x : Source} (proper : x.IsProper) {outputs : List Path}
    (h : (p.compileFile (x.folder p) (x.path root)).Yields s outputs t) :
    ∃ xs, p.Walks root s xs t ∧ outputs = xs.map (·.output p) ∧
      (xs = [] ∧ ¬ p.Picks root s x ∨ xs = [x]) := by
  unfold compileFile at h
  obtain ⟨_, _, looked, chosen⟩ := Action.yields_bind.mp h
  obtain ⟨rfl, rfl⟩ := Action.yields_look.mp looked
  split at chosen
  · next source =>
    rw [Bool.and_eq_true] at source
    obtain ⟨_, _, again, ready⟩ := Action.yields_bind.mp chosen
    obtain ⟨rfl, rfl⟩ := Action.yields_look.mp again
    obtain ⟨_, _, loads, compiles⟩ := Action.yields_bind.mp ready
    obtain ⟨loaded, rfl⟩ := Action.yields_ofLogged.mp loads
    obtain ⟨output, _, ⟨compiled, stored⟩, answers⟩ := Action.yields_bind.mp compiles
    obtain ⟨rfl, rfl⟩ := Action.yields_pure.mp answers
    obtain ⟨rfl, _⟩ := compiled_of_ok proper loaded compiled
    exact ⟨[x], .next ⟨source.1, source.2, loaded, compiled, stored⟩ (.done _), rfl, .inr rfl⟩
  · next passed =>
    obtain ⟨rfl, rfl⟩ := Action.yields_pure.mp chosen
    refine ⟨[], .done _, rfl, .inl ⟨rfl, fun picks => passed ?_⟩⟩
    rw [Bool.and_eq_true]
    exact ⟨picks.admitted, picks.hasPass⟩

theorem Walks.named (h : p.Walks root s xs t) (proper : ∀ x ∈ xs, x.IsProper)
    (named : s.Named) : t.Named := by
  induction h with
  | done => exact named
  | next first _ ih =>
    obtain ⟨here, later⟩ := List.forall_mem_cons.mp proper
    exact ih later ((compiled_of_compiles first here).named named)

/-- The plan would compile the source at every stage of a walk. -/
def Lasts (p : Plan) (root : Path) (s : Store) (xs : List Source) (x : Source) : Prop :=
  ∀ ys t, ys <+: xs → p.Walks root s ys t → p.Picks root t x

theorem Lasts.picks {x : Source} (h : p.Lasts root s xs x) : p.Picks root s x :=
  h [] s (List.nil_prefix ..) (.done s)

theorem Lasts.front {x : Source} (h : p.Lasts root s (xs ++ ys) x) : p.Lasts root s xs x :=
  fun zs t front => h zs t (front.trans (List.prefix_append _ _))

theorem Lasts.back {x : Source} (h : p.Lasts root s (xs ++ ys) x) (walks : p.Walks root s xs t) :
    p.Lasts root t ys x :=
  fun zs u front later => h (xs ++ zs) u ((List.prefix_append_right_inj _).mpr front)
    (walks.append later)

/-- A walk in the order of the names, through sources of a kind. It misses none of them that lasts
and has fewer folders than `depth`. -/
structure Gathers (p : Plan) (root : Path) (kind : Source → Prop) (depth : Nat) (s : Store)
    (xs : List Source) (t : Store) : Prop where
  walks : p.Walks root s xs t
  sorted : xs.Pairwise fun x y => x.names < y.names
  proper : ∀ x ∈ xs, x.IsProper
  kinds : ∀ x ∈ xs, kind x
  complete : ∀ x : Source, x.IsProper → kind x → x.folders.length < depth →
    p.Lasts root s xs x → x ∈ xs

namespace Gathers

variable {kind kind' : Source → Prop} {depth : Nat}

theorem named (h : p.Gathers root kind depth s xs t) (named : s.Named) : t.Named :=
  h.walks.named h.proper named

theorem nil (none : ∀ x : Source, x.IsProper → kind x → x.folders.length < depth →
    ¬ p.Picks root s x) : p.Gathers root kind depth s [] s where
  walks := .done s
  sorted := .nil
  proper := nofun
  kinds := nofun
  complete x proper here shallow lasts := absurd lasts.picks (none x proper here shallow)

theorem imp (h : p.Gathers root kind depth s xs t) (weaker : ∀ x, kind x → kind' x)
    (covers : ∀ x : Source, x.IsProper → kind' x → p.Picks root s x → kind x) :
    p.Gathers root kind' depth s xs t where
  walks := h.walks
  sorted := h.sorted
  proper := h.proper
  kinds x member := weaker x (h.kinds x member)
  complete x proper here shallow lasts :=
    h.complete x proper (covers x proper here lasts.picks) shallow lasts

/-- One part after the other. -/
theorem append (h : p.Gathers root kind depth s xs t) (h' : p.Gathers root kind' depth t ys u)
    (before : ∀ x y, kind x → kind' y → x.names < y.names) :
    p.Gathers root (fun x => kind x ∨ kind' x) depth s (xs ++ ys) u where
  walks := h.walks.append h'.walks
  sorted := List.pairwise_append.mpr ⟨h.sorted, h'.sorted,
    fun x hx y hy => before x y (h.kinds x hx) (h'.kinds y hy)⟩
  proper := List.forall_mem_append.mpr ⟨h.proper, h'.proper⟩
  kinds := List.forall_mem_append.mpr
    ⟨fun x hx => .inl (h.kinds x hx), fun y hy => .inr (h'.kinds y hy)⟩
  complete x proper either shallow lasts := by
    rcases either with here | there
    · exact List.mem_append_left _ (h.complete x proper here shallow lasts.front)
    · exact List.mem_append_right _ (h'.complete x proper there shallow (lasts.back h.walks))

end Gathers

/-- A part of a walk that has come to `outputs`. -/
def Reached (p : Plan) (root : Path) (kind : Source → Prop) (depth : Nat) (s : Store)
    (outputs : List Path) (t : Store) : Prop :=
  ∃ xs, p.Gathers root kind depth s xs t ∧ outputs = xs.map (·.output p)

/-- What is below one name comes before all that is below a later one. -/
theorem lt_of_concat_prefix {relative names names' : List Bytes} {a b : Bytes} (less : a < b)
    (h : relative ++ [a] <+: names) (h' : relative ++ [b] <+: names') : names < names' := by
  obtain ⟨rest, rfl⟩ := h
  obtain ⟨rest', rfl⟩ := h'
  rw [List.append_assoc, List.append_assoc]
  exact List.append_left_lt (List.cons_lt_cons_iff.mpr (.inl less))

/-- The entries of a directory, one after the other. -/
theorem reached_mapM {f : Bytes → Action CompileError (List Path)} {relative names : List Bytes}
    {depth : Nat} (each : ∀ name ∈ names, ∀ {s t outputs}, s.Named →
      (f name).Yields s outputs t →
        p.Reached root (relative ++ [name] <+: ·.names) depth s outputs t)
    (sorted : names.Pairwise (· < ·)) (named : s.Named) {outputs : List (List Path)}
    (h : (names.mapM f).Yields s outputs t) :
    p.Reached root (fun x => ∃ name ∈ names, relative ++ [name] <+: x.names) depth s
      outputs.flatten t := by
  induction names generalizing s outputs with
  | nil =>
    obtain ⟨rfl, rfl⟩ := Action.yields_pure.mp h
    exact ⟨[], .nil (by simp), rfl⟩
  | cons name names ih =>
    obtain ⟨here, later⟩ := List.forall_mem_cons.mp each
    obtain ⟨least, sorted⟩ := List.pairwise_cons.mp sorted
    rw [List.mapM_cons] at h
    obtain ⟨front, u, first, h⟩ := Action.yields_bind.mp h
    obtain ⟨back, _, rest, h⟩ := Action.yields_bind.mp h
    obtain ⟨rfl, rfl⟩ := Action.yields_pure.mp h
    obtain ⟨xs, gathers, rfl⟩ := here named first
    obtain ⟨ys, others, same⟩ := ih later sorted (gathers.named named) rest
    refine ⟨xs ++ ys, (gathers.append others ?before).imp ?kinds ?covers, ?outputs⟩
    case before =>
      rintro x y below ⟨name', member, below'⟩
      exact lt_of_concat_prefix (least name' member) below below'
    case kinds =>
      rintro x (below | ⟨name', member, below⟩)
      · exact ⟨name, List.mem_cons_self, below⟩
      · exact ⟨name', List.mem_cons_of_mem _ member, below⟩
    case covers =>
      rintro x _ ⟨name', member, below⟩ _
      rcases List.mem_cons.mp member with rfl | member
      · exact .inl below
      · exact .inr ⟨name', member, below⟩
    case outputs => rw [List.flatten_cons, same, List.map_append]

def compileEntry (p : Plan) (levels : Nat) (dir : Path) (relative : List Bytes) (name : Bytes) :
    Action CompileError (List Path) := do
  let path := dir.join name
  if (← Action.look).isDirectory path then p.compileBelow levels path (relative ++ [name])
  else p.compileFile (p.destination.join (Path.ofSegments relative)) path

theorem compileBelow_succ (levels : Nat) (dir : Path) (relative : List Bytes) :
    p.compileBelow (levels + 1) dir relative = (do
      let names ← Action.ofExcept (((← Action.look).list dir).mapError .listing)
      let each ← names.mapM (p.compileEntry levels dir relative)
      pure each.flatten) := rfl

theorem compileBelow_of_list {dir : Path} {names : List Bytes} (list : s.list dir = .ok names)
    (levels : Nat) (relative : List Bytes) : p.compileBelow (levels + 1) dir relative s =
      (names.mapM (p.compileEntry levels dir relative) >>= fun each => pure each.flatten) s := by
  have listed : Action.ofExcept ((s.list dir).mapError CompileError.listing) s =
      ⟨.ok names, s, []⟩ := by rw [list]; rfl
  rw [compileBelow_succ, Action.look_bind, Action.bind_of_ok listed]
  rfl

theorem hasPass_iff {path : Path} : hasPass s path = true ↔
    ∃ c, s.read path = .ok c ∧ Utf8.isValid c = true ∧
      Bytes.includes Keyword.passBegin c = true := by
  unfold hasPass Settings.readText
  cases s.read path with
  | error e => simp
  | ok c => cases valid : Utf8.isValid c <;> simp [valid]

theorem Picks.not_isDirectory {x : Source} (h : p.Picks root s x) :
    s.isDirectory (x.path root) = false := by
  obtain ⟨c, read, _⟩ := hasPass_iff.mp h.hasPass
  obtain ⟨l, found, file⟩ := Store.read_ok_iff.mp read
  refine Bool.eq_false_iff.mpr fun below => ?_
  obtain ⟨k, leads, directory⟩ := Store.isDirectory_iff.mp below
  obtain rfl := Except.ok.inj (found.symm.trans leads)
  exact nomatch file.symm.trans directory

/-- The folders of a source are directories. -/
theorem Picks.isDirectory {x : Source} (h : p.Picks root s x) (proper : x.IsProper)
    {front : List Bytes} (above : front <+: x.folders) (filled : front.foldl Path.join root ≠ []) :
    s.isDirectory (front.foldl Path.join root) = true := by
  obtain ⟨c, read, _⟩ := hasPass_iff.mp h.hasPass
  obtain ⟨l, found, _⟩ := Store.read_ok_iff.mp read
  obtain ⟨rest, split⟩ := above
  have names : x.names = front ++ (rest ++ [x.name]) := by
    rw [Source.names, ← split, List.append_assoc]
  rw [x.path_eq, names, List.foldl_append] at found
  obtain ⟨d, leads, _, directory⟩ := Store.resolve_foldl_join filled
    (fun name member => x.isProper_names proper name (names ▸ List.mem_append_right _ member)) found
  exact Store.isDirectory_iff.mpr ⟨d, leads, directory (by simp)⟩

/-- The entry is a source, or a directory with sources below it, or neither. -/
theorem reached_compileEntry {levels : Nat} {relative : List Bytes} {name : Bytes}
    (below : ∀ {s t outputs}, s.Named → (p.compileBelow levels
      ((relative ++ [name]).foldl Path.join root) (relative ++ [name])).Yields s outputs t →
        p.Reached root (relative ++ [name] <+: ·.folders) ((relative ++ [name]).length + levels) s
          outputs t)
    (proper : (Source.mk relative name).IsProper) (named : s.Named) {outputs : List Path}
    (h : (p.compileEntry levels (relative.foldl Path.join root) relative name).Yields s outputs
      t) : p.Reached root (relative ++ [name] <+: ·.names) ((relative ++ [name]).length + levels) s
        outputs t := by
  -- A source that the name leads to is the entry itself or stands below it.
  have here (x : Source) : relative ++ [name] <+: x.names →
      x = ⟨relative, name⟩ ∨ relative ++ [name] <+: x.folders := by
    intro inside
    refine (List.prefix_concat_iff.mp inside).imp_left fun same => ?_
    obtain ⟨folders, last⟩ := List.append_inj' same rfl
    exact Source.mk.injEq .. ▸ ⟨folders.symm, (List.cons.inj last).1.symm⟩
  have filled : (relative ++ [name]).foldl Path.join root ≠ [] := by
    rw [List.foldl_concat]
    exact List.ne_nil_of_length_pos (Nat.lt_of_lt_of_le proper.2.length_pos
      (Nat.le_trans (Nat.le_add_left _ _) (Path.length_join_le _ proper.2.isAbsolute)))
  obtain ⟨_, s, looked, entry⟩ := Action.yields_bind.mp h
  obtain ⟨rfl, rfl⟩ := Action.yields_look.mp looked
  split at entry
  · next directory =>
    rw [← List.foldl_concat Path.join] at entry
    obtain ⟨xs, gathers, same⟩ := below named entry
    refine ⟨xs, gathers.imp (fun x inside => inside.trans (List.prefix_append _ _)) ?_, same⟩
    intro x _ inside picks
    rcases here x inside with rfl | inside
    · exact absurd picks.not_isDirectory (by simp [Source.path, directory])
    · exact inside
  · next file =>
    have alone (x : Source) (proper : x.IsProper) (inside : relative ++ [name] <+: x.names)
        (picks : p.Picks root s x) : x = ⟨relative, name⟩ := by
      refine (here x inside).resolve_right fun inside => file ?_
      rw [← List.foldl_concat Path.join]
      exact picks.isDirectory proper inside filled
    obtain ⟨xs, walks, same, ⟨rfl, passed⟩ | rfl⟩ := yields_compileFile proper entry
    · cases walks
      refine ⟨[], .nil fun x proper inside _ picks => passed ?_, same⟩
      exact alone x proper inside picks ▸ picks
    · refine ⟨_, ⟨walks, List.pairwise_singleton _ _, ?_, ?_, ?_⟩, same⟩
      · exact List.forall_mem_singleton.mpr proper
      · exact List.forall_mem_singleton.mpr List.prefix_rfl
      · intro x proper inside _ lasts
        exact List.mem_singleton.mpr (alone x proper inside lasts.picks)

theorem reached_compileBelow (levels : Nat) (relative : List Bytes)
    (proper : ∀ name ∈ relative, Path.IsProper name) (named : s.Named) {outputs : List Path}
    (h : (p.compileBelow levels (relative.foldl Path.join root) relative).Yields s outputs t) :
    p.Reached root (relative <+: ·.folders) (relative.length + levels) s outputs t := by
  induction levels generalizing s t relative outputs with
  | zero =>
    obtain ⟨rfl, rfl⟩ := Action.yields_pure.mp h
    exact ⟨[], .nil fun x _ inside shallow => absurd inside.length_le (Nat.not_le.mpr shallow), rfl⟩
  | succ levels ih =>
    rw [compileBelow_succ] at h
    obtain ⟨_, _, looked, lists⟩ := Action.yields_bind.mp h
    obtain ⟨rfl, rfl⟩ := Action.yields_look.mp looked
    obtain ⟨names, s, listed, compiles⟩ := Action.yields_bind.mp lists
    obtain ⟨list, rfl⟩ := Action.yields_ofExcept.mp listed
    obtain ⟨each, _, mapped, joins⟩ := Action.yields_bind.mp compiles
    obtain ⟨rfl, rfl⟩ := Action.yields_pure.mp joins
    have list := ok_of_mapError list
    have entries : p.Reached root (fun x => ∃ name ∈ names, relative ++ [name] <+: x.names)
        (relative.length + (levels + 1)) s each.flatten t := by
      refine reached_mapM (fun name member s' t' outputs' named' h' => ?_)
        (Store.pairwise_of_list list) named mapped
      have last := named.isProper_of_list list member
      have segments := List.forall_mem_append.mpr ⟨proper, List.forall_mem_singleton.mpr last⟩
      have entry := reached_compileEntry (fun named h => ih _ segments named h) ⟨proper, last⟩
        named' h'
      rwa [List.length_append, List.length_singleton, Nat.add_assoc, Nat.add_comm 1] at entry
    obtain ⟨xs, gathers, same⟩ := entries
    refine ⟨xs, gathers.imp ?_ ?_, same⟩
    · rintro x ⟨name, _, below⟩
      have shorter := below.length_le
      simp only [Source.names, List.length_append, List.length_singleton] at shorter
      exact List.prefix_of_prefix_length_le ((List.prefix_append _ _).trans below)
        (List.prefix_append _ _) (by omega)
    -- What can be read below the directory is reached by a name that the directory lists.
    · rintro x properHere ⟨rest, split⟩ picks
      obtain ⟨c, read, _⟩ := hasPass_iff.mp picks.hasPass
      obtain ⟨l, found, _⟩ := Store.read_ok_iff.mp read
      have all := x.isProper_names properHere
      rw [x.path_eq] at found
      rw [Source.names, ← split, List.append_assoc] at found all ⊢
      cases below : rest ++ [x.name] with
      | nil => simp at below
      | cons name rest =>
        rw [below, List.foldl_append] at found
        rw [below] at all
        refine ⟨name, Store.mem_of_resolve_foldl_join list
          (List.forall_mem_append.mp all).2 found, rest, ?_⟩
        rw [List.append_assoc, List.singleton_append]

/-- A tree is compiled source by source, in the order of their names. -/
theorem gathers_of_compile (named : s.Named) (there : s.exists? root = true) {outputs : List Path}
    (h : (p.compile root).Yields s outputs t) :
    ∃ xs, p.Gathers root (fun _ => True) maxLevels s xs t ∧ outputs = xs.map (·.output p) := by
  unfold compile at h
  obtain ⟨_, _, looked, walk⟩ := Action.yields_bind.mp h
  obtain ⟨rfl, rfl⟩ := Action.yields_look.mp looked
  rw [if_pos there] at walk
  obtain ⟨xs, gathers, same⟩ := reached_compileBelow _ [] nofun named walk
  rw [List.length_nil, Nat.zero_add] at gathers
  exact ⟨xs, gathers.imp (fun _ _ => trivial) fun _ _ _ _ => List.nil_prefix .., same⟩

theorem compile_of_absent (absent : s.exists? root = false) :
    p.compile root s = ⟨.ok [], s, []⟩ := by
  rw [compile, Action.look_bind, if_neg (by simp [absent]), Action.pure_apply]

/-- A tree is compiled source by source, each source once. -/
theorem walks_of_compile (named : s.Named) {outputs : List Path}
    (h : (p.compile root).Yields s outputs t) :
    ∃ xs, p.Walks root s xs t ∧ outputs = xs.map (·.output p) ∧ xs.Nodup ∧
      ∀ x ∈ xs, x.IsProper := by
  cases there : s.exists? root with
  | true =>
    obtain ⟨xs, gathers, same⟩ := gathers_of_compile named there h
    exact ⟨xs, gathers.walks, same, Source.nodup_of_sorted gathers.sorted, gathers.proper⟩
  | false =>
    rw [Action.Yields, compile_of_absent there] at h
    obtain ⟨result, rfl⟩ := h
    exact ⟨[], .done _, (Except.ok.inj result).symm, .nil, nofun⟩

theorem compileEntry_congr {levels levels' : Nat} {dir : Path} {relative : List Bytes}
    {name : Bytes} (below : s.isDirectory (dir.join name) = true →
      p.compileBelow levels (dir.join name) (relative ++ [name]) s =
        p.compileBelow levels' (dir.join name) (relative ++ [name]) s) :
    p.compileEntry levels dir relative name s = p.compileEntry levels' dir relative name s := by
  rw [compileEntry, compileEntry, Action.look_bind, Action.look_bind]
  split
  · next directory => exact below directory
  · rfl

/-- Paths get longer from level to level, and no directory has a path that is too long, so there is
nothing on a level beyond that. -/
theorem compileBelow_deeper (levels : Nat) (relative : List Bytes)
    (proper : ∀ name ∈ relative, Path.IsProper name) (named : s.Named)
    (short : (relative.foldl Path.join root).length ≤ Store.maxPath)
    (deep : Store.maxPath < (relative.foldl Path.join root).length + levels) :
    p.compileBelow (levels + 1) (relative.foldl Path.join root) relative s =
      p.compileBelow levels (relative.foldl Path.join root) relative s := by
  induction levels generalizing s relative with
  | zero => omega
  | succ levels ih =>
    rw [compileBelow_succ, compileBelow_succ]
    refine Action.bind_congr_of_yields rfl fun names u looked => ?_
    obtain ⟨rfl, rfl⟩ := Action.yields_look.mp looked
    refine Action.bind_congr_of_yields rfl fun names u listed => ?_
    obtain ⟨list, rfl⟩ := Action.yields_ofExcept.mp listed
    have last (name : Bytes) (member : name ∈ names) : Path.IsProper name :=
      named.isProper_of_list (ok_of_mapError list) member
    have segments (name : Bytes) (member : name ∈ names) :
        ∀ segment ∈ relative ++ [name], Path.IsProper segment :=
      List.forall_mem_append.mpr ⟨proper, List.forall_mem_singleton.mpr (last name member)⟩
    refine Action.bind_congr_of_yields
      (Action.mapM_congr_of_keeps (I := Store.Named) ?agree ?keeps named) fun _ _ _ => rfl
    case agree =>
      intro name member s named
      refine compileEntry_congr fun directory => ?_
      have longer := Path.length_join_le (relative.foldl Path.join root)
        (Path.isAbsolute_of_notMem (last name member).free)
      have filled := (last name member).length_pos
      have shorter := Store.length_le_of_exists? (Store.exists?_of_isDirectory directory)
      rw [← List.foldl_concat Path.join] at longer shorter ⊢
      exact ih _ (segments name member) named shorter (by omega)
    case keeps =>
      intro name member s outputs t named h
      obtain ⟨xs, gathers, _⟩ := reached_compileEntry
        (fun named h => reached_compileBelow levels _ (segments name member) named h)
        ⟨proper, last name member⟩ named h
      exact gathers.named named

/-- No walk is cut short, however many levels it may go down. -/
theorem compile_of_levels (named : s.Named) (there : s.exists? root = true) {levels : Nat}
    (deep : maxLevels ≤ levels) : p.compile root s = p.compileBelow levels root [] s := by
  rw [compile, Action.look_bind, if_pos there]
  induction levels, deep using Nat.le_induction with
  | base => rfl
  | succ levels deep ih =>
    have deeper : p.compileBelow (levels + 1) root [] s = p.compileBelow levels root [] s :=
      compileBelow_deeper levels [] nofun named (Store.length_le_of_exists? there)
        (Nat.lt_of_lt_of_le deep (Nat.le_add_left _ _))
    exact ih.trans deeper.symm

theorem compile_of_list {names : List Bytes} (there : s.exists? root = true)
    (list : s.list root = .ok names) : p.compile root s =
      (names.mapM (p.compileEntry Store.maxPath root []) >>= fun each =>
        pure each.flatten) s := by
  rw [compile, Action.look_bind, if_pos there]
  exact compileBelow_of_list list _ _

end Plan
end Tree
end PassCompiler
