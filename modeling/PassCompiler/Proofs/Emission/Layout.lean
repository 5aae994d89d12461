import PassCompiler.Proofs.Emission.Seams

/-! The generated functions written out, with every line at its depth: the arrays of a pass, its
execute function, and its bake function as the steps it takes. The writer writes just that. -/
namespace PassCompiler.Emission

/-- A line behind `depth` tabs. -/
def tabbed (depth : Nat) (text : Bytes) : Bytes := List.replicate depth 0x09 ++ text ++ [0x0A]

def layout (lines : List (Nat × Bytes)) : Bytes := lines.flatMap fun (depth, text) =>
  tabbed depth text

def ended (text : Bytes) : Bytes :=
  if text.getLast?.all (· == 0x0A) then text else text ++ [0x0A]

/-- Pieces with a gap before each and one behind them all. -/
def weave : List Bytes → List Bytes → Bytes
  | gap :: gaps, piece :: pieces => gap ++ piece ++ weave gaps pieces
  | gaps, _ => gaps.flatten

/-- What a bake function does, in order. -/
inductive BakeStep where
  /-- Allocates `count` buffers into the array of fixed block `k`. -/
  | allocate (k : Nat) (array : Bytes) (count : Nat)
  /-- Opens a scope whose buffers inherit a render pass and a subpass. -/
  | enter (renderPass subpass : Bytes)
  | start (buffer : Bytes)
  | record (statements : Bytes)
  | finish (buffer : Bytes)
  /-- Closes the scope. -/
  | leave
  deriving DecidableEq, Repr

def inheritanceText (renderPass subpass : Bytes) : Bytes := layout
  [(2, bytes "VkCommandBufferInheritanceInfo inheritanceInfo\x7b\x7d;"),
   (2, bytes "inheritanceInfo.sType = VK_STRUCTURE_TYPE_COMMAND_BUFFER_INHERITANCE_INFO;"),
   (2, bytes "inheritanceInfo.renderPass = " ++ renderPass ++ bytes ";"),
   (2, bytes "inheritanceInfo.subpass = " ++ subpass ++ bytes ";"),
   (2, bytes "VkCommandBufferBeginInfo beginInfo\x7b\x7d;"),
   (2, bytes "beginInfo.sType = VK_STRUCTURE_TYPE_COMMAND_BUFFER_BEGIN_INFO;"),
   (2, bytes "beginInfo.flags = VK_COMMAND_BUFFER_USAGE_RENDER_PASS_CONTINUE_BIT;"),
   (2, bytes "beginInfo.pInheritanceInfo = &inheritanceInfo;")]

def BakeStep.text (o : Options) : BakeStep → Bytes
  | allocate k array count => layout
    [(1, bytes "// fixed block " ++ Bytes.ofNat k),
     (1, bytes "\x7b"),
     (2, bytes "VkCommandBufferAllocateInfo allocInfo\x7b\x7d;"),
     (2, bytes "allocInfo.sType = VK_STRUCTURE_TYPE_COMMAND_BUFFER_ALLOCATE_INFO;"),
     (2, bytes "allocInfo.commandPool = " ++ o.commandPool ++ bytes ";"),
     (2, bytes "allocInfo.level = VK_COMMAND_BUFFER_LEVEL_SECONDARY;"),
     (2, bytes "allocInfo.commandBufferCount = " ++ Bytes.ofNat count ++ bytes ";"),
     (2, bytes "if (vkAllocateCommandBuffers(" ++ o.device ++ bytes ", &allocInfo, " ++ array ++
       bytes ") != VK_SUCCESS) \x7b"),
     (3, bytes "throw std::runtime_error(\"Failed to allocate command buffers!\");"),
     (2, bytes "\x7d"),
     (1, bytes "\x7d")]
  | enter renderPass subpass => tabbed 1 (bytes "\x7b") ++ inheritanceText renderPass subpass
  | start buffer => layout
    [(2, bytes "if (vkBeginCommandBuffer(" ++ buffer ++ bytes ", &beginInfo) != VK_SUCCESS) \x7b"),
     (3, bytes "throw std::runtime_error(\"Failed to begin recording command buffer!\");"),
     (2, bytes "\x7d")]
  | record statements => tabbed 2 (bytes "\x7b") ++ ended statements ++ tabbed 2 (bytes "\x7d")
  | finish buffer => layout
    [(2, bytes "if (vkEndCommandBuffer(" ++ buffer ++ bytes ") != VK_SUCCESS) \x7b"),
     (3, bytes "throw std::runtime_error(\"Failed to record command buffer!\");"),
     (2, bytes "\x7d")]
  | leave => tabbed 1 (bytes "\x7d")

namespace Setting

/-- Records the statements of a block into each of the `count` buffers of its array. -/
def recordSteps (s : Setting) (interior array : Bytes) (count : Nat) : List BakeStep :=
  (List.range count).flatMap fun i =>
    [.start (element array i), .record (Statement.retarget s.table interior (element array i)),
      .finish (element array i)]

def blockSteps (s : Setting) (p : Pass) (k : Nat) (block : FixedBlock) : List BakeStep :=
  .allocate k (Pass.bakedArray p.name k) s.frames.count ::
    .enter block.renderPass.name block.subpass.name ::
    s.recordSteps (p.interior block) (Pass.bakedArray p.name k) s.frames.count ++ [.leave]

def bakeSteps (s : Setting) (p : Pass) : List BakeStep :=
  p.fixedBlocks.zipIdx.flatMap fun (block, k) => s.blockSteps p k block

def arrays (s : Setting) (p : Pass) : List (Bytes × Nat) :=
  (List.range p.fixedBlocks.length).map fun k => (Pass.bakedArray p.name k, s.frames.count)

def declarationText (array : Bytes × Nat) : Bytes :=
  tabbed 0 (bytes "static VkCommandBuffer " ++ array.1 ++ bytes "[" ++ Bytes.ofNat array.2 ++
    bytes "];")

/-- The execution of the buffer baked for the frame from fixed block `k`. -/
def replayText (s : Setting) (p : Pass) (k : Nat) (block : FixedBlock) : Bytes :=
  bytes "vkCmdExecuteCommands(" ++
    (Statement.firstCommandBuffer? s.table (p.interior block)).getD
      s.options.primaryCommandBuffer ++
    bytes ", 1, &" ++ Pass.bakedArray p.name k ++ bytes "[" ++ s.options.frameIndex ++ bytes "]);"

def gaps (p : Pass) : List Bytes :=
  (FixedBlock.segments p.body 0 p.fixedBlocks).map (Bytes.slice p.body)

def executeText (s : Setting) (p : Pass) (body : Bytes) : Bytes :=
  bytes "void " ++ Pass.executeName p.name ++ bytes "(" ++
    Pass.signature s.options.contextParam p.params ++ bytes ") \x7b" ++ body ++ bytes "\x7d\n"

def bakeText (s : Setting) (p : Pass) : Bytes :=
  tabbed 0 (bytes "void " ++ Pass.bakeName p.name ++ bytes "(" ++
    Pass.signature s.options.contextParam (p.params ++ p.bakeParams) ++ bytes ") \x7b") ++
  (s.bakeSteps p).flatMap (BakeStep.text s.options) ++ tabbed 0 (bytes "\x7d")

def passText (s : Setting) (p : Pass) : Bytes :=
  (s.arrays p).flatMap declarationText ++
    s.executeText p (weave (gaps p) (p.fixedBlocks.zipIdx.map fun (b, k) => s.replayText p k b)) ++
    if p.fixedBlocks = [] then [] else s.bakeText p

end Setting

/-- From `w` on the items are written as `text`, and what follows them stands as deep as `w`. -/
def Writer.Spells (w : Writer) (items : List Item) (text : Bytes) : Prop :=
  (w.texts items).flatten = text ∧ ∃ start, w.behind items = ⟨w.depth, start⟩

/-- The items are written as `text` wherever they stand at `depth`. -/
def Writes (depth : Nat) (items : List Item) (text : Bytes) : Prop :=
  ∀ start, Writer.Spells ⟨depth, start⟩ items text

section
variable {depth : Nat} {items rest : List Item} {a b t u : Bytes}

theorem Writer.behind_append (w : Writer) :
    w.behind (items ++ rest) = (w.behind items).behind rest := List.foldl_append

theorem Writes.nil : Writes depth [] [] := fun start => ⟨rfl, start, rfl⟩

theorem Writes.append (h : Writes depth items t) (h' : Writes depth rest u) :
    Writes depth (items ++ rest) (t ++ u) := by
  intro start
  obtain ⟨text, start', behind⟩ := h start
  obtain ⟨text', last, behind'⟩ := h' start'
  refine ⟨?_, last, ?_⟩
  · rw [Writer.texts_append, List.flatten_append, text, behind, text']
  · rw [Writer.behind_append, behind]
    exact behind'

theorem Writes.flatMap {α : Type} {as : List α} {f : α → List Item} {g : α → Bytes}
    (h : ∀ a ∈ as, Writes depth (f a) (g a)) : Writes depth (as.flatMap f) (as.flatMap g) := by
  induction as with
  | nil => exact .nil
  | cons a as ih =>
    obtain ⟨first, later⟩ := List.forall_mem_cons.mp h
    exact first.append (ih later)

theorem writes_line (t : Bytes) : Writes depth [.line t] (tabbed depth t) :=
  fun _ => ⟨List.append_nil _, _, rfl⟩

theorem writes_generated (t : Bytes) : Writes depth [.generated t] t :=
  fun _ => ⟨List.append_nil _, _, rfl⟩

theorem writes_source (depth : Nat) (t : Bytes) : Writes depth [.source t] t :=
  fun _ => ⟨List.append_nil _, _, rfl⟩

/-- Items one level deeper, between the lines around them. -/
theorem Writer.Spells.nested (h : Writer.Spells ⟨depth + 1, true⟩ items t) :
    Writes depth (.opening a :: items ++ [.closing b]) (tabbed depth a ++ t ++ tabbed depth b) := by
  intro start
  obtain ⟨text, last, behind⟩ := h
  have inside : Writer.texts ⟨depth + 1, true⟩ (items ++ [.closing b]) =
      Writer.texts ⟨depth + 1, true⟩ items ++ [tabbed depth b] := by
    rw [Writer.texts_append, behind]
    rfl
  refine ⟨?_, true, ?_⟩
  · calc (Writer.texts ⟨depth, start⟩ (.opening a :: items ++ [.closing b])).flatten
        = tabbed depth a ++ (Writer.texts ⟨depth + 1, true⟩ (items ++ [.closing b])).flatten := rfl
      _ = tabbed depth a ++ t ++ tabbed depth b := by
        rw [inside, List.flatten_append, text, List.append_assoc, List.flatten_singleton]
  · calc Writer.behind ⟨depth, start⟩ (.opening a :: items ++ [.closing b])
        = Writer.behind ⟨depth + 1, true⟩ (items ++ [.closing b]) := rfl
      _ = ⟨depth, true⟩ := by
        rw [Writer.behind_append, behind]
        rfl

theorem Writes.nested (h : Writes (depth + 1) items t) :
    Writes depth (.opening a :: items ++ [.closing b]) (tabbed depth a ++ t ++ tabbed depth b) :=
  (h true).nested

/-- A text of the source between lines, its own last line ended. -/
theorem spells_ended (t : Bytes) :
    Writer.Spells ⟨depth, true⟩ [.source t, .lineEnd] (ended t) := by
  refine ⟨?_, true, rfl⟩
  have start : Writer.lineStartBehind ⟨depth, true⟩ t = t.getLast?.all (· == 0x0A) := by
    rw [Writer.lineStartBehind]
    cases t.getLast? <;> rfl
  simp only [ended, Writer.texts, Writer.write, start, List.flatten_cons, List.flatten_nil,
    List.append_nil]
  split
  · exact List.append_nil _
  · rfl

end

namespace Setting

variable {s : Setting} {p : Pass}

theorem writes_arrays : Writes 0 ((List.range p.fixedBlocks.length).map (s.arrayLine p))
    ((s.arrays p).flatMap declarationText) := by
  rw [arrays, List.map_eq_flatMap, List.flatMap_map]
  exact .flatMap fun k _ => writes_line _

/-- Each block is written as its replay, and the source around them as it is. -/
theorem writes_bodyFrom (k cursor : Nat) (blocks : List FixedBlock) :
    Writes 0 (s.bodyFrom p k cursor blocks)
      (weave ((FixedBlock.segments p.body cursor blocks).map (Bytes.slice p.body))
        ((blocks.zipIdx k).map fun (b, k) => s.replayText p k b)) := by
  induction blocks generalizing k cursor with
  | nil =>
    have last : weave [p.body.drop cursor] [] = p.body.drop cursor := List.append_nil _
    rw [FixedBlock.segments, List.map_singleton, Bytes.slice_to_end, List.zipIdx_nil, List.map_nil,
      last]
    exact writes_source 0 _
  | cons b later ih =>
    have front := (writes_source 0 (Bytes.slice p.body ⟨cursor, b.span.start⟩)).append
      (writes_generated (s.replayText p k b))
    exact front.append (ih (k + 1) b.span.stop)

theorem writes_executeItems : Writes 0 (s.executeItems p) (s.executeText p
    (weave (gaps p) (p.fixedBlocks.zipIdx.map fun (b, k) => s.replayText p k b))) :=
  ((writes_generated _).append (writes_bodyFrom 0 0 p.fixedBlocks)).append (writes_generated _)

theorem writes_allocation (k : Nat) (array : Bytes) :
    Writes 1 (.line (bytes "// fixed block " ++ Bytes.ofNat k) :: s.allocation array)
      ((BakeStep.allocate k array s.frames.count).text s.options) :=
  fun _ => ⟨rfl, true, rfl⟩

theorem writes_inheritance (b : FixedBlock) :
    Writes 2 (inheritance b) (inheritanceText b.renderPass.name b.subpass.name) :=
  fun _ => ⟨rfl, true, rfl⟩

theorem writes_recording (interior buffer : Bytes) : Writes 2 (s.recording interior buffer)
    ([.start buffer, .record (Statement.retarget s.table interior buffer), .finish buffer].flatMap
      (BakeStep.text s.options)) := by
  simp only [List.flatMap_cons, List.flatMap_nil, List.append_nil]
  show Writes 2 ([_, _, _] ++ ([_, _, _, _] ++ [_, _, _])) _
  refine .append ?start (.append ?copy ?finish)
  case start => exact fun _ => ⟨rfl, true, rfl⟩
  case copy => exact (spells_ended _).nested
  case finish => exact fun _ => ⟨rfl, true, rfl⟩

theorem writes_bakeBlock (k : Nat) (b : FixedBlock) :
    Writes 1 (s.bakeBlock p k b) ((s.blockSteps p k b).flatMap (BakeStep.text s.options)) := by
  have recordings : Writes 2 ((List.range s.frames.count).flatMap fun i =>
      s.recording (p.interior b) (element (Pass.bakedArray p.name k) i))
      ((s.recordSteps (p.interior b) (Pass.bakedArray p.name k) s.frames.count).flatMap
        (BakeStep.text s.options)) := by
    rw [recordSteps, List.flatMap_assoc]
    exact .flatMap fun i _ => writes_recording _ _
  have scope := ((writes_inheritance b).append recordings).nested
    (a := bytes "\x7b") (b := bytes "\x7d")
  have all := (writes_allocation (s := s) k (Pass.bakedArray p.name k)).append scope
  simpa [bakeBlock, blockSteps, BakeStep.text] using all

theorem writes_bakeItems :
    Writes 0 (s.bakeItems p) (if p.fixedBlocks = [] then [] else s.bakeText p) := by
  rw [bakeItems]
  split
  · next none =>
    rw [if_pos (List.isEmpty_iff.mp none)]
    exact .nil
  · next some =>
    rw [if_neg (mt List.isEmpty_iff.mpr some), bakeText, bakeSteps, List.flatMap_assoc]
    exact Writes.nested (.flatMap fun x _ => writes_bakeBlock x.2 x.1)

theorem writes_passItems : Writes 0 (s.passItems p) (s.passText p) :=
  (writes_arrays.append writes_executeItems).append writes_bakeItems

theorem writes_includeLines : Writes 0 s.includeLines
    (s.options.includes.flatMap fun target => tabbed 0 (bytes "#include " ++ target)) := by
  rw [includeLines, List.map_eq_flatMap]
  exact .flatMap fun target _ => writes_line _

theorem writes_passes (passes : List Pass) :
    Writes 0 (passes.flatMap fun p => s.passItems p ++ [.source p.epilogue])
      (passes.flatMap fun p => s.passText p ++ p.epilogue) :=
  .flatMap fun _ _ => writes_passItems.append (writes_source 0 _)

theorem writes_items (g : Graph) : Writes 0 (s.items g)
    ((s.options.includes.flatMap fun target => tabbed 0 (bytes "#include " ++ target)) ++
      g.prelude ++ g.passes.flatMap fun p => s.passText p ++ p.epilogue) := by
  have front := (writes_includeLines (s := s)).append (writes_source 0 g.prelude)
  have all := front.append (writes_passes (s := s) g.passes)
  rwa [List.append_assoc] at all

/-- An output, with everything generated written out. -/
theorem emit_eq (s : Setting) (g : Graph) : s.emit g =
    (s.options.includes.flatMap fun target => tabbed 0 (bytes "#include " ++ target)) ++
      g.prelude ++ g.passes.flatMap fun p => s.passText p ++ p.epilogue :=
  (writes_items g true).1

end Setting
end PassCompiler.Emission
