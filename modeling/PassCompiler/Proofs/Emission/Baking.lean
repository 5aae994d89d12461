import PassCompiler.Proofs.Emission.Layout

/-! What an output makes of the fixed blocks of its passes. A bake function is run on a recorder
that refuses a step taken out of turn, such as recording into a buffer twice or into one that was
not allocated: the function gets to its end, and all buffers are recorded by then. -/
namespace PassCompiler

/-- The array of a fixed block has a name of its own. The number ends it, so it is read from the
end. -/
theorem Pass.bakedArray_inj {name name' : Bytes} {j k : Nat}
    (same : bakedArray name j = bakedArray name' k) : name = name' ∧ j = k := by
  have backwards (name : Bytes) (k : Nat) : (bakedArray name k).reverse =
      (Bytes.ofNat k).reverse ++
        0x5F :: (bytes "__" ++ name ++ bytes "_fixed_cmd_buffers").reverse := by
    have split : bytes "_fixed_cmd_buffers_" = bytes "_fixed_cmd_buffers" ++ [0x5F] := by decide
    rw [bakedArray, split, ← List.append_assoc, List.append_assoc, List.singleton_append,
      List.reverse_append, List.reverse_cons, List.append_assoc, List.singleton_append]
  have digits (k : Nat) : ∀ b ∈ (Bytes.ofNat k).reverse, Bytes.isDigit b = true := fun b member =>
    Bytes.positional_ofNat.forall_mem (by decide) k b (List.mem_reverse.mp member)
  have turned := congrArg List.reverse same
  rw [backwards, backwards] at turned
  obtain ⟨number, rest⟩ := Bytes.run_inj (digits j) (digits k) (by decide) turned
  have front := List.append_cancel_right (List.reverse_inj.mp rest)
  exact ⟨List.append_cancel_left front, Bytes.positional_ofNat.inj (List.reverse_inj.mp number)⟩

namespace Emission

structure Baked where
  buffer : Bytes
  statements : List Bytes
  renderPass : Bytes
  subpass : Bytes
  deriving DecidableEq, Repr

def Setting.elements (array : Bytes) (count : Nat) : List Bytes :=
  (List.range count).map (element array)

structure Recorder where
  /-- The arrays with buffers in them. -/
  allocated : List Bytes := []
  /-- The buffers that nothing was recorded into. -/
  blank : List Bytes := []
  /-- The render pass and the subpass of the open scope. -/
  scope : Option (Bytes × Bytes) := none
  /-- The buffer that is being recorded, with what it holds so far. -/
  active : Option (Bytes × List Bytes) := none
  baked : List Baked := []
  deriving DecidableEq, Repr

namespace Recorder

/-- A step of a bake function, next to the arrays that are declared with their sizes. -/
def step? (declared : List (Bytes × Nat)) (r : Recorder) : BakeStep → Option Recorder
  | .allocate _ array count =>
    if (array, count) ∈ declared ∧ array ∉ r.allocated ∧ r.scope = none then
      some { r with
        allocated := r.allocated ++ [array], blank := r.blank ++ Setting.elements array count }
    else none
  | .enter renderPass subpass =>
    if r.scope = none then some { r with scope := some (renderPass, subpass) } else none
  | .start buffer =>
    if r.scope ≠ none ∧ r.active = none ∧ buffer ∈ r.blank then
      some { r with blank := r.blank.erase buffer, active := some (buffer, []) }
    else none
  | .record statements => r.active.map fun (buffer, texts) =>
      { r with active := some (buffer, texts ++ [statements]) }
  | .finish buffer =>
    match r.scope, r.active with
    | some (renderPass, subpass), some (begun, texts) =>
      if begun = buffer then
        some { r with
          active := none, baked := r.baked ++ [⟨buffer, texts, renderPass, subpass⟩] }
      else none
    | _, _ => none
  | .leave => if r.scope ≠ none ∧ r.active = none then some { r with scope := none } else none

def run? (declared : List (Bytes × Nat)) (r : Recorder) (steps : List BakeStep) :
    Option Recorder := steps.foldlM (step? declared) r

variable {declared : List (Bytes × Nat)} {r r' : Recorder} {steps later : List BakeStep}

theorem run?_append (h : r.run? declared steps = some r') :
    r.run? declared (steps ++ later) = r'.run? declared later := by
  rw [run?, List.foldlM_append]
  exact congrArg (· >>= _) h

theorem run?_cons {step : BakeStep} (h : r.step? declared step = some r') :
    r.run? declared (step :: steps) = r'.run? declared steps := by
  rw [run?, List.foldlM_cons]
  exact congrArg (· >>= _) h

end Recorder

namespace Setting

/-- The buffers of a fixed block, recorded. -/
def recorded (s : Setting) (interior array renderPass subpass : Bytes) (indexes : List Nat) :
    List Baked :=
  indexes.map fun i =>
    ⟨element array i, [Statement.retarget s.table interior (element array i)], renderPass, subpass⟩

/-- What a bake function records: for each block and each frame the statements of the block, for
the buffer of that frame in the array of that block. -/
def recordings (s : Setting) (p : Pass) : List Baked :=
  p.fixedBlocks.zipIdx.flatMap fun (b, k) => s.recorded (p.interior b)
    (Pass.bakedArray p.name k) b.renderPass.name b.subpass.name (List.range s.frames.count)

variable {s : Setting} {p : Pass} (declared : List (Bytes × Nat)) {allocated : List Bytes}
  {baked : List Baked}

theorem run?_recording (scope : Bytes × Bytes) (buffer text : Bytes) (rest : List Bytes) :
    Recorder.run? declared ⟨allocated, buffer :: rest, some scope, none, baked⟩
        [.start buffer, .record text, .finish buffer] =
      some ⟨allocated, rest, some scope, none,
        baked ++ [⟨buffer, [text], scope.1, scope.2⟩]⟩ := by
  simp [Recorder.run?, Recorder.step?]

theorem run?_recordings (interior array : Bytes) (scope : Bytes × Bytes) (indexes : List Nat) :
    Recorder.run? declared ⟨allocated, indexes.map (element array), some scope, none, baked⟩
        (indexes.flatMap fun i =>
          [.start (element array i),
            .record (Statement.retarget s.table interior (element array i)),
            .finish (element array i)]) =
      some ⟨allocated, [], some scope, none,
        baked ++ s.recorded interior array scope.1 scope.2 indexes⟩ := by
  induction indexes generalizing baked with
  | nil => simp [Recorder.run?, recorded]
  | cons i indexes ih =>
    rw [List.flatMap_cons, List.map_cons, Recorder.run?_append (run?_recording ..), ih]
    simp [recorded]

/-- A fixed block is allocated, and then recorded for each of its buffers. -/
theorem run?_blockSteps (k : Nat) (b : FixedBlock)
    (known : (Pass.bakedArray p.name k, s.frames.count) ∈ declared)
    (new : Pass.bakedArray p.name k ∉ allocated) :
    Recorder.run? declared ⟨allocated, [], none, none, baked⟩ (s.blockSteps p k b) =
      some ⟨allocated ++ [Pass.bakedArray p.name k], [], none, none,
        baked ++ s.recorded (p.interior b) (Pass.bakedArray p.name k) b.renderPass.name
          b.subpass.name (List.range s.frames.count)⟩ := by
  have allocates : Recorder.step? declared ⟨allocated, [], none, none, baked⟩
      (.allocate k (Pass.bakedArray p.name k) s.frames.count) =
        some ⟨allocated ++ [Pass.bakedArray p.name k],
          elements (Pass.bakedArray p.name k) s.frames.count, none, none, baked⟩ :=
    if_pos ⟨known, new, rfl⟩
  have enters (blank : List Bytes) (scope : Bytes × Bytes) : Recorder.step? declared
      ⟨allocated ++ [Pass.bakedArray p.name k], blank, none, none, baked⟩
      (.enter scope.1 scope.2) =
        some ⟨allocated ++ [Pass.bakedArray p.name k], blank, some scope, none, baked⟩ := rfl
  have scope := enters (elements (Pass.bakedArray p.name k) s.frames.count)
    (b.renderPass.name, b.subpass.name)
  rw [blockSteps, List.cons_append, List.cons_append, Recorder.run?_cons allocates,
    Recorder.run?_cons scope, recordSteps, elements, Recorder.run?_append (run?_recordings ..)]
  rfl

/-- The fixed blocks from number `k` on. -/
theorem run?_blocks (k : Nat) (blocks : List FixedBlock)
    (known : ∀ j < k + blocks.length, (Pass.bakedArray p.name j, s.frames.count) ∈ declared) :
    Recorder.run? declared
        ⟨(List.range k).map (Pass.bakedArray p.name), [], none, none, baked⟩
        ((blocks.zipIdx k).flatMap fun (b, k) => s.blockSteps p k b) =
      some ⟨(List.range (k + blocks.length)).map (Pass.bakedArray p.name), [], none, none,
        baked ++ (blocks.zipIdx k).flatMap fun (b, k) => s.recorded (p.interior b)
          (Pass.bakedArray p.name k) b.renderPass.name b.subpass.name
          (List.range s.frames.count)⟩ := by
  induction blocks generalizing baked k with
  | nil => simp [Recorder.run?]
  | cons b blocks ih =>
    have new : Pass.bakedArray p.name k ∉ (List.range k).map (Pass.bakedArray p.name) := by
      intro member
      obtain ⟨j, lt, same⟩ := List.mem_map.mp member
      exact absurd (List.mem_range.mp lt) (by simp [(Pass.bakedArray_inj same).2])
    have grown : (List.range k).map (Pass.bakedArray p.name) ++ [Pass.bakedArray p.name k] =
        (List.range (k + 1)).map (Pass.bakedArray p.name) := by simp [List.range_succ]
    rw [List.length_cons] at known
    rw [List.zipIdx_cons, List.flatMap_cons,
      Recorder.run?_append (run?_blockSteps declared k b (known k (by omega)) new), grown,
      ih (k + 1) fun j lt => known j (by omega)]
    simp [Nat.add_assoc, Nat.add_comm 1]

/-- A bake function takes no step out of turn and leaves no buffer blank. -/
theorem run?_bakeSteps : Recorder.run? (s.arrays p) {} (s.bakeSteps p) =
    some { allocated := (s.arrays p).map (·.1), baked := s.recordings p } := by
  have names : (s.arrays p).map (·.1) =
      (List.range (0 + p.fixedBlocks.length)).map (Pass.bakedArray p.name) := by simp [arrays]
  rw [names]
  exact run?_blocks (s.arrays p) 0 p.fixedBlocks
    fun j lt => List.mem_map.mpr ⟨j, List.mem_range.mpr (by omega), rfl⟩

theorem element_inj {name : Bytes} {j k i i' : Nat} (same : element (Pass.bakedArray name j) i =
    element (Pass.bakedArray name k) i') : j = k ∧ i = i' := by
  have digits := Bytes.positional_ofNat.forall_mem (p := Bytes.isDigit) (by decide)
  have split (k i : Nat) : element (Pass.bakedArray name k) i =
      (bytes "__" ++ name ++ bytes "_fixed_cmd_buffers_") ++
        (Bytes.ofNat k ++ 0x5B :: (Bytes.ofNat i ++ bytes "]")) := by
    simp only [element, Pass.bakedArray, List.append_assoc]
    rfl
  rw [split, split] at same
  obtain ⟨array, rest⟩ := Bytes.run_inj (digits j) (digits k) (by decide)
    (List.append_cancel_left same)
  exact ⟨Bytes.positional_ofNat.inj array,
    Bytes.positional_ofNat.inj (List.append_cancel_right rest)⟩

/-- The buffers are recorded in the order of the arrays. -/
theorem buffers_recordings : (s.recordings p).map (·.buffer) =
    (s.arrays p).flatMap fun (array, count) => elements array count := by
  have numbers : List.range p.fixedBlocks.length = p.fixedBlocks.zipIdx.map Prod.snd := by
    rw [List.zipIdx_map_snd, List.range_eq_range']
  rw [recordings, arrays, numbers, List.map_map, List.flatMap_map, List.map_flatMap]
  simp only [recorded, List.map_map]
  rfl

theorem nodup_buffers :
    ((s.arrays p).flatMap fun (array, count) => elements array count).Nodup := by
  have pairs : ((s.arrays p).flatMap fun (array, count) => elements array count) =
      (List.range p.fixedBlocks.length ×ˢ List.range s.frames.count).map
        fun x => element (Pass.bakedArray p.name x.1) x.2 := by
    simp only [arrays, List.flatMap_map, SProd.sprod, List.product, List.map_flatMap, List.map_map]
    rfl
  rw [pairs]
  refine (List.nodup_range.product List.nodup_range).map fun x y same => ?_
  exact Prod.ext_iff.mpr (element_inj same)

end Setting

/-- The gaps of a text and its blocks make up the text. -/
theorem weave_spans {text : Bytes} {cursor : Nat} {blocks : List FixedBlock}
    (h : FixedBlock.Series text cursor blocks) :
    weave ((FixedBlock.segments text cursor blocks).map (Bytes.slice text))
      (blocks.map fun b => Bytes.slice text b.span) = text.drop cursor := by
  induction h with
  | done => simp [FixedBlock.segments, weave, Bytes.slice_to_end]
  | @block cursor l o c later stands ahead _ _ ih =>
    obtain ⟨_, _, _⟩ := stands.group_inside
    have inside := stands.le_length
    rw [← Bytes.slice_to_end, Bytes.slice_append ahead (by omega),
      Bytes.slice_append (b := l.ending.stop) (by omega) inside, Bytes.slice_to_end, ← ih,
      ← List.append_assoc]
    rfl

namespace Setting

/-- The functions of a pass bake every buffer of every fixed block once. -/
structure Bakes (s : Setting) (p : Pass) : Prop where
  /-- The execute function has the body of the pass, but for its fixed blocks. -/
  body : weave (gaps p) (p.fixedBlocks.map fun b => Bytes.slice p.body b.span) = p.body
  /-- Without fixed blocks the execute function, with the whole body, is all there is. -/
  unfixed : p.fixedBlocks = [] → s.passText p = s.executeText p p.body
  runs : Recorder.run? (s.arrays p) {} (s.bakeSteps p) =
    some { allocated := (s.arrays p).map (·.1), baked := s.recordings p }
  every : (s.recordings p).map (·.buffer) =
    (s.arrays p).flatMap fun (array, count) => elements array count
  once : ((s.recordings p).map (·.buffer)).Nodup

/-- The output for a source has the functions of its passes between the texts around them, and
these functions bake every buffer of every fixed block once. -/
theorem emit_bakes {source : Bytes} {g : Graph} (parsed : (Graph.parse source).result = .ok g)
    (s : Setting) : s.emit g =
      (s.options.includes.flatMap fun target => tabbed 0 (bytes "#include " ++ target)) ++
        g.prelude ++ (g.passes.flatMap fun p => s.passText p ++ p.epilogue) ∧
      ∀ p ∈ g.passes, s.Bakes p := by
  refine ⟨s.emit_eq g, fun p hp => ?_⟩
  obtain ⟨_, _, _, parts⟩ := Graph.parts_of_parse parsed hp
  have body := weave_spans parts.series
  refine ⟨body, fun none => ?_, run?_bakeSteps, buffers_recordings, ?_⟩
  · rw [none] at body
    rw [passText, arrays, gaps, none]
    exact (List.append_nil _).trans (congrArg (s.executeText p) body)
  · rw [buffers_recordings]
    exact nodup_buffers

/-- Two fixed blocks in one pass, and a pass without any. -/
theorem emit_bakes_two :
    let s : Setting := ⟨⟨3, by decide, by decide⟩, {}⟩
    let g : Graph := ⟨[], [⟨bytes "p", {},
      [⟨⟨1, 37⟩, ⟨18, 28⟩, .ofText (bytes "r"), .ofText (bytes "0")⟩,
        ⟨⟨38, 68⟩, ⟨55, 59⟩, .ofText (bytes "r"), .ofText (bytes "1")⟩],
      bytes " FIXED_BEGIN(r, 0) draw(c); FIXED_END FIXED_BEGIN(r, 1) x; FIXED_END ",
      bytes "\n"⟩, ⟨bytes "q", {}, [], bytes " y; ", []⟩]⟩
    s.emit g = (s.options.includes.flatMap fun target => tabbed 0 (bytes "#include " ++ target)) ++
        g.prelude ++ (g.passes.flatMap fun p => s.passText p ++ p.epilogue) ∧
      ∀ p ∈ g.passes, s.Bakes p := by
  intro s g
  have parsed : (Graph.parse (bytes "PASS_BEGIN(p) \x7b FIXED_BEGIN(r, 0) draw(c); FIXED_END " ++
      bytes "FIXED_BEGIN(r, 1) x; FIXED_END \x7d PASS_END\n" ++
      bytes "PASS_BEGIN(q) \x7b y; \x7d PASS_END")).result = .ok g := by decide +kernel
  exact emit_bakes parsed s

end Setting
end Emission
end PassCompiler
