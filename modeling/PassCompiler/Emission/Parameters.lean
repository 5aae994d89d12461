import PassCompiler.Options
import PassCompiler.Pass.Basic

/-! The names and parameters of generated functions. -/
namespace PassCompiler.Pass

def executeName (name : Bytes) : Bytes := bytes "pass_main" ++ name

def bakeName (name : Bytes) : Bytes := bytes "pass_bake" ++ name

/-- The array of the baked buffers of fixed block `k`. -/
def bakedArray (name : Bytes) (k : Nat) : Bytes :=
  bytes "__" ++ name ++ bytes "_fixed_cmd_buffers_" ++ Bytes.ofNat k

/-- Stands for an empty clause. -/
def isPlaceholder (arg : Bytes) : Bool := arg == bytes "NULL" || arg == bytes "void"

/-- The declarations whose names are new: neither in `seen` nor declared before. -/
def newNames (seen : List Bytes) : List Bytes → List Bytes
  | [] => []
  | declaration :: rest =>
    let name := Declaration.name declaration
    if seen.contains name then newNames seen rest
    else declaration :: newNames (name :: seen) rest

/-- The parameters behind the context parameter: all clause arguments but the placeholders, the
first declaration of each name. -/
def params (p : Pass) : List Bytes :=
  newNames [] ((Clause.all.flatMap p.clauses.get).filter (!isPlaceholder ·))

/-- The declaration of a fixed argument, whose type is `type` if it gives none. -/
def parameterOf (arg : FixedArg) (type : Bytes) : Bytes :=
  if arg.isBare then type ++ bytes " " ++ arg.name else arg.declaration

/-- The fixed arguments that the bake function has to declare, given the names it has. -/
def undeclared (seen : List Bytes) : List (FixedArg × Bytes) → List Bytes
  | [] => []
  | (arg, type) :: rest =>
    if arg.isExpression || seen.contains arg.name then undeclared seen rest
    else parameterOf arg type :: undeclared (arg.name :: seen) rest

/-- The fixed arguments of a pass, each with its type. -/
def fixedArgs (p : Pass) : List (FixedArg × Bytes) :=
  p.fixedBlocks.flatMap fun b =>
    [(b.renderPass, bytes "VkRenderPass"), (b.subpass, bytes "uint32_t")]

/-- The parameters of the bake function that the execute function does not have. -/
def bakeParams (p : Pass) : List Bytes :=
  undeclared (p.params.map Declaration.name) p.fixedArgs

def signature (context : Bytes) (params : List Bytes) : Bytes :=
  Bytes.join (bytes ", ") (context :: params)

end PassCompiler.Pass
