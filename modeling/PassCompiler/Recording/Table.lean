import PassCompiler.Text.Bytes

/-! Recording calls: the functions that record into a command buffer, and which of their arguments
it is. -/
namespace PassCompiler

structure Overload where
  arity : Nat
  /-- The index of the command buffer. -/
  index : Nat
  index_lt : index < arity := by decide
  deriving DecidableEq, Repr

/-- Where a call takes its command buffer. -/
inductive Slot where
  | argument (index : Nat)
  | overloads (members : List Overload)
  deriving DecidableEq, Repr

namespace Slot

def index? (slot : Slot) (arity : Nat) : Option Nat :=
  match slot with
  | argument index => if index < arity then some index else none
  | overloads members => (members.find? (·.arity == arity)).map (·.index)

theorem lt_of_index? {slot : Slot} {arity i : Nat} (h : slot.index? arity = some i) :
    i < arity := by
  cases slot with
  | argument index =>
    obtain ⟨inside, same⟩ := Option.ite_none_right_eq_some.mp h
    exact Option.some.inj same ▸ inside
  | overloads members =>
    obtain ⟨member, found, rfl⟩ := Option.map_eq_some_iff.mp h
    have told := List.find?_some (p := fun o : Overload => o.arity == arity) found
    exact eq_of_beq told ▸ member.index_lt

end Slot

/-- The known calls. Of two entries of one name the first counts. -/
structure CallTable where
  entries : List (Bytes × Slot)
  deriving DecidableEq, Repr

namespace CallTable

def slot? (t : CallTable) (name : Bytes) : Option Slot := t.entries.lookup name

def standard : CallTable where
  entries :=
    [(bytes "setPipeline", .argument 2),
     (bytes "setViewport", .argument 1),
     (bytes "setScissor", .argument 1),
     (bytes "setVertexBuffer", .argument 1),
     (bytes "setIndexBuffer", .argument 1),
     (bytes "draw", .argument 1),
     (bytes "drawIndexed", .argument 1),
     (bytes "drawInstanced", .overloads [{ arity := 7, index := 3 }, { arity := 5, index := 2 }]),
     (bytes "vkCmdBindPipeline", .argument 0),
     (bytes "vkCmdBindDescriptorSets", .argument 0),
     (bytes "vkCmdSetViewport", .argument 0),
     (bytes "vkCmdSetScissor", .argument 0),
     (bytes "vkCmdBindVertexBuffers", .argument 0),
     (bytes "vkCmdBindIndexBuffer", .argument 0),
     (bytes "vkCmdDraw", .argument 0),
     (bytes "vkCmdDrawIndexed", .argument 0),
     (bytes "vkCmdPushConstants", .argument 0)]

/-- The table with more calls. Each replaces what the table and the calls before it say of its
name. -/
def extend (t : CallTable) (calls : List (Bytes × Nat)) : CallTable :=
  ⟨(calls.map fun (name, index) => (name, .argument index)).reverse ++ t.entries⟩

end CallTable
end PassCompiler
