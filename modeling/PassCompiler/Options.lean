import PassCompiler.Recording.Table

/-! What a compilation depends on besides its source: the number of frames in flight and the names
by which generated code reaches the runtime. -/
namespace PassCompiler

/-- How many frames may be in flight at once. -/
structure Frames where
  count : Nat
  pos : 0 < count
  le : count ≤ 255
  deriving DecidableEq, Repr

namespace Frames

def ofNat? (n : Nat) : Option Frames :=
  if h : 0 < n ∧ n ≤ 255 then some ⟨n, h.1, h.2⟩ else none

def standard : Frames := ⟨2, by decide, by decide⟩

end Frames

structure Options where
  /-- The first parameter of every generated function. -/
  contextParam : Bytes := bytes "val::VAL_PROC& V_PROC"
  /-- Selects the baked buffer to execute this frame. -/
  frameIndex : Bytes := bytes "V_PROC._currentFrame"
  commandPool : Bytes := bytes "V_PROC._commandPool"
  device : Bytes := bytes "V_PROC._device"
  /-- The primary command buffer for a fixed block without a recording call. -/
  primaryCommandBuffer : Bytes := bytes "cmd"
  /-- Targets of `#include`, with their brackets or quotes. -/
  includes : List Bytes := [bytes "<VAL/lib/system/VAL_PROC.hpp>", bytes "<stdexcept>"]
  /-- Whether an existing output is replaced. -/
  overwrite : Bool := true
  /-- More recording calls, with the index of the command buffer. -/
  calls : List (Bytes × Nat) := []
  deriving DecidableEq, Repr

def Options.texts (o : Options) : List Bytes :=
  [o.contextParam, o.frameIndex, o.commandPool, o.device, o.primaryCommandBuffer] ++ o.includes ++
    o.calls.map (·.1)

def Options.table (o : Options) : CallTable := CallTable.standard.extend o.calls

end PassCompiler
