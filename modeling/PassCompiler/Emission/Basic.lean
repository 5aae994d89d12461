import PassCompiler.Emission.Item
import PassCompiler.Emission.Parameters
import PassCompiler.Graph
import PassCompiler.Recording.Statement

/-! The generated functions. Each pass becomes an execute function, its body with every fixed
block replaced by the execution of the buffer baked for the frame, and, if it has fixed blocks, a
bake function that records each of them once per frame in flight. -/
namespace PassCompiler.Emission

structure Setting where
  frames : Frames
  options : Options

namespace Setting

def table (s : Setting) : CallTable := s.options.table

/-- The declaration of the array of fixed block `k`. -/
def arrayLine (s : Setting) (p : Pass) (k : Nat) : Item :=
  .line (bytes "static VkCommandBuffer " ++ Pass.bakedArray p.name k ++ bytes "[" ++
    Bytes.ofNat s.frames.count ++ bytes "];")

/-- The statement that stands for fixed block `k` in the execute function. -/
def executeStatement (s : Setting) (p : Pass) (k : Nat) (block : FixedBlock) : Item :=
  let primary := (Statement.firstCommandBuffer? s.table (p.interior block)).getD
    s.options.primaryCommandBuffer
  .generated (bytes "vkCmdExecuteCommands(" ++ primary ++ bytes ", 1, &" ++
    Pass.bakedArray p.name k ++ bytes "[" ++ s.options.frameIndex ++ bytes "]);")

/-- The body from `cursor` on, with `blocks`, the first of them number `k`, replaced. -/
def bodyFrom (s : Setting) (p : Pass) (k cursor : Nat) : List FixedBlock → List Item
  | [] => [.source (p.body.drop cursor)]
  | block :: rest =>
    .source (Bytes.slice p.body ⟨cursor, block.span.start⟩) :: s.executeStatement p k block ::
      s.bodyFrom p (k + 1) block.span.stop rest

def executeItems (s : Setting) (p : Pass) : List Item :=
  .generated (bytes "void " ++ Pass.executeName p.name ++ bytes "(" ++
    Pass.signature s.options.contextParam p.params ++ bytes ") \x7b") ::
  s.bodyFrom p 0 0 p.fixedBlocks ++ [.generated (bytes "\x7d\n")]

/-- Allocates the buffers of an array, one for each frame. -/
def allocation (s : Setting) (array : Bytes) : List Item :=
  [.opening (bytes "\x7b"),
   .line (bytes "VkCommandBufferAllocateInfo allocInfo\x7b\x7d;"),
   .line (bytes "allocInfo.sType = VK_STRUCTURE_TYPE_COMMAND_BUFFER_ALLOCATE_INFO;"),
   .line (bytes "allocInfo.commandPool = " ++ s.options.commandPool ++ bytes ";"),
   .line (bytes "allocInfo.level = VK_COMMAND_BUFFER_LEVEL_SECONDARY;"),
   .line (bytes "allocInfo.commandBufferCount = " ++ Bytes.ofNat s.frames.count ++ bytes ";"),
   .opening (bytes "if (vkAllocateCommandBuffers(" ++ s.options.device ++ bytes ", &allocInfo, " ++
     array ++ bytes ") != VK_SUCCESS) \x7b"),
   .line (bytes "throw std::runtime_error(\"Failed to allocate command buffers!\");"),
   .closing (bytes "\x7d"),
   .closing (bytes "\x7d")]

/-- Says what the buffers of a block inherit. -/
def inheritance (block : FixedBlock) : List Item :=
  [.line (bytes "VkCommandBufferInheritanceInfo inheritanceInfo\x7b\x7d;"),
   .line (bytes "inheritanceInfo.sType = VK_STRUCTURE_TYPE_COMMAND_BUFFER_INHERITANCE_INFO;"),
   .line (bytes "inheritanceInfo.renderPass = " ++ block.renderPass.name ++ bytes ";"),
   .line (bytes "inheritanceInfo.subpass = " ++ block.subpass.name ++ bytes ";"),
   .line (bytes "VkCommandBufferBeginInfo beginInfo\x7b\x7d;"),
   .line (bytes "beginInfo.sType = VK_STRUCTURE_TYPE_COMMAND_BUFFER_BEGIN_INFO;"),
   .line (bytes "beginInfo.flags = VK_COMMAND_BUFFER_USAGE_RENDER_PASS_CONTINUE_BIT;"),
   .line (bytes "beginInfo.pInheritanceInfo = &inheritanceInfo;")]

def recording (s : Setting) (interior buffer : Bytes) : List Item :=
  [.opening (bytes "if (vkBeginCommandBuffer(" ++ buffer ++
     bytes ", &beginInfo) != VK_SUCCESS) \x7b"),
   .line (bytes "throw std::runtime_error(\"Failed to begin recording command buffer!\");"),
   .closing (bytes "\x7d"),
   .opening (bytes "\x7b"),
   .source (Statement.retarget s.table interior buffer),
   .lineEnd,
   .closing (bytes "\x7d"),
   .opening (bytes "if (vkEndCommandBuffer(" ++ buffer ++ bytes ") != VK_SUCCESS) \x7b"),
   .line (bytes "throw std::runtime_error(\"Failed to record command buffer!\");"),
   .closing (bytes "\x7d")]

def element (array : Bytes) (i : Nat) : Bytes := array ++ bytes "[" ++ Bytes.ofNat i ++ bytes "]"

/-- Bakes fixed block `k`. -/
def bakeBlock (s : Setting) (p : Pass) (k : Nat) (block : FixedBlock) : List Item :=
  let array := Pass.bakedArray p.name k
  .line (bytes "// fixed block " ++ Bytes.ofNat k) :: s.allocation array ++
    .opening (bytes "\x7b") :: inheritance block ++
    (List.range s.frames.count).flatMap (fun i =>
      s.recording (p.interior block) (element array i)) ++
    [.closing (bytes "\x7d")]

def bakeItems (s : Setting) (p : Pass) : List Item :=
  if p.fixedBlocks.isEmpty then []
  else
    .opening (bytes "void " ++ Pass.bakeName p.name ++ bytes "(" ++
      Pass.signature s.options.contextParam (p.params ++ p.bakeParams) ++ bytes ") \x7b") ::
    p.fixedBlocks.zipIdx.flatMap (fun (block, k) => s.bakeBlock p k block) ++
    [.closing (bytes "\x7d")]

def passItems (s : Setting) (p : Pass) : List Item :=
  (List.range p.fixedBlocks.length).map (s.arrayLine p) ++ s.executeItems p ++ s.bakeItems p

def includeLines (s : Setting) : List Item :=
  s.options.includes.map fun target => .line (bytes "#include " ++ target)

def items (s : Setting) (g : Graph) : List Item :=
  s.includeLines ++ .source g.prelude ::
    g.passes.flatMap fun p => s.passItems p ++ [.source p.epilogue]

def emit (s : Setting) (g : Graph) : Bytes := text (s.items g)

/-- The warnings that writing a pass makes: the interior of a block is looked at for the execute
function, and then once for each of its buffers. -/
def passWarnings (s : Setting) (p : Pass) : List LogRecord :=
  let each := p.fixedBlocks.map fun block => Statement.warnings s.table (p.interior block)
  each.flatten ++ each.flatMap fun ws => (List.replicate s.frames.count ws).flatten

def warnings (s : Setting) (g : Graph) : List LogRecord := g.passes.flatMap s.passWarnings

end Setting
end PassCompiler.Emission
