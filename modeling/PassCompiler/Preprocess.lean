import PassCompiler.Digest.Xxh3
import PassCompiler.Emission.Basic
import PassCompiler.Text.Quoted

/-! The whole way of a source: read, then written out behind its banner. A banner is a digest of all
that went into an output. An output whose first line is the one it would get now is up to date. -/
namespace PassCompiler

def Options.describe (o : Options) : Bytes :=
  Record.fields "CompileOptions" [
    ("context_param", Quoted.quote o.contextParam),
    ("frame_index", Quoted.quote o.frameIndex),
    ("command_pool", Quoted.quote o.commandPool),
    ("device", Quoted.quote o.device),
    ("primary_command_buffer", Quoted.quote o.primaryCommandBuffer),
    ("includes", Record.listed "[" "]" (o.includes.map Quoted.quote)),
    ("overwrite", bytes (if o.overwrite then "true" else "false")),
    ("calls", Record.listed "[" "]" (o.calls.map fun (name, index) =>
      Record.listed "(" ")" [Quoted.quote name, Bytes.ofNat index]))]

namespace Banner

/-- What the digest is taken of. -/
def input (source : Bytes) (frames : Frames) (options : Options) : Bytes :=
  source ++ [frames.count.toUInt8] ++ options.describe

/-- The last `width` hexadecimal digits of a number. -/
def hexadecimal (n : Nat) : (width : Nat) → Bytes
  | 0 => []
  | width + 1 => hexadecimal (n / 16) width ++ [Bytes.hexDigit (n % 16)]

/-- The line, without its end. -/
def line (source : Bytes) (frames : Frames) (options : Options) : Bytes :=
  bytes "// rgc-hash: " ++ hexadecimal (Xxh3.digest (input source frames options)).toNat 16

end Banner
/-- The output for a source without its banner. -/
def generate (source : Bytes) (frames : Frames) (options : Options) : Logged Fault Bytes := do
  let graph ← Graph.parse source
  let setting : Emission.Setting := ⟨frames, options⟩
  ⟨.ok (setting.emit graph), setting.warnings graph⟩

def preprocess (source : Bytes) (frames : Frames) (options : Options) : Logged Fault Bytes := do
  let text ← generate source frames options
  pure (Banner.line source frames options ++ [0x0A] ++ text)

end PassCompiler
