import PassCompiler.Emission.Basic
import PassCompiler.Proofs.Recording.Sealed
import PassCompiler.Proofs.Text.PrefixFree

/-! The items of an output end in code, each of them written alone. Generated text has neither a
slash nor a star of its own, but for one comment line; what it takes from the options and from the
arguments of a pass stands between bytes of it. -/
namespace PassCompiler

open Source

def Options.Unmarked (o : Options) : Prop :=
  ∀ t ∈ o.texts, ¬ bytes "//" <:+: t ∧ ¬ bytes "/*" <:+: t

instance (o : Options) : Decidable o.Unmarked := inferInstanceAs (Decidable (∀ t ∈ o.texts, _))

theorem Options.Unmarked.closed {o : Options} (h : o.Unmarked) : ∀ t ∈ o.texts, Closed t :=
  fun t ht => closed_of_no_marker (h t ht).1 (h t ht).2

theorem Bytes.neutral_ofNat (n : Nat) : Neutral (ofNat n) := by
  have all := positional_ofNat.forall_mem (p := fun b => decide (Calm b)) (by decide) n
  exact fun b hb => of_decide_eq_true (all b hb)

namespace Pass

variable {p : Pass}

theorem mem_of_mem_newNames {seen declarations : List Bytes} {a : Bytes}
    (h : a ∈ newNames seen declarations) : a ∈ declarations := by
  induction declarations generalizing seen with
  | nil => contradiction
  | cons declaration rest ih =>
    rw [newNames] at h
    split at h
    · exact List.mem_cons_of_mem _ (ih h)
    · exact List.mem_cons.mpr ((List.mem_cons.mp h).imp id ih)

theorem exists_of_mem_undeclared {seen : List Bytes} {args : List (FixedArg × Bytes)} {a : Bytes}
    (h : a ∈ undeclared seen args) : ∃ x ∈ args, a = parameterOf x.1 x.2 := by
  induction args generalizing seen with
  | nil => contradiction
  | cons x rest ih =>
    have later {seen : List Bytes} (h : a ∈ undeclared seen rest) :
        ∃ y ∈ x :: rest, a = parameterOf y.1 y.2 := by
      obtain ⟨y, hy, same⟩ := ih h
      exact ⟨y, List.mem_cons_of_mem _ hy, same⟩
    rw [undeclared] at h
    split at h
    · exact later h
    · rcases List.mem_cons.mp h with rfl | h
      · exact ⟨x, List.mem_cons_self, rfl⟩
      · exact later h

namespace Closed

variable (h : p.Closed)
include h

theorem params : ∀ a ∈ p.params, Source.Closed a := by
  intro a ha
  have member := List.mem_of_mem_filter (mem_of_mem_newNames ha)
  obtain ⟨clause, _, member⟩ := List.mem_flatMap.mp member
  exact h.clauses clause a member

theorem bakeParams : ∀ a ∈ p.bakeParams, Source.Closed a := by
  intro a ha
  obtain ⟨⟨arg, type⟩, member, rfl⟩ := exists_of_mem_undeclared ha
  obtain ⟨b, hb, member⟩ := List.mem_flatMap.mp member
  have parts : arg.Closed ∧ Neutral type := by
    rcases List.mem_cons.mp member with same | member
    · obtain ⟨rfl, rfl⟩ := Prod.mk.inj same
      exact ⟨h.renderPass b hb, by decide⟩
    · obtain ⟨rfl, rfl⟩ := Prod.mk.inj (List.mem_singleton.mp member)
      exact ⟨h.subpass b hb, by decide⟩
  rw [parameterOf]
  split
  · exact (parts.2.append (by decide)).sealed.append_closed parts.1.name
  · exact parts.1.declaration

end Closed

theorem closed_signature {context : Bytes} {params : List Bytes} (first : Source.Closed context)
    (later : ∀ a ∈ params, Source.Closed a) : Source.Closed (signature context params) :=
  closed_join (by decide) (by decide) (List.forall_mem_cons.mpr ⟨first, later⟩)

theorem neutral_bakedArray {name : Bytes} (named : Neutral name) (k : Nat) :
    Neutral (bakedArray name k) :=
  (((show Neutral (bytes "__") by decide).append named).append (by decide)).append
    (Bytes.neutral_ofNat k)

end Pass

namespace Emission

/-- The item ends in code, whatever it is written behind. -/
def Item.Sealed (item : Item) : Prop := ∀ w : Writer, Source.Sealed (w.write item).1

theorem neutral_tabs (depth : Nat) : Neutral (List.replicate depth 0x09) := by
  intro b hb
  obtain rfl := List.eq_of_mem_replicate hb
  decide

theorem Writer.sealed_indented (w : Writer) {text : Bytes} (h : Closed text) :
    Sealed (w.indented text) :=
  ((neutral_tabs w.depth).sealed.append_closed h).append_neutral (by decide) (by decide)

namespace Item

variable {text : Bytes}

theorem sealed_line (h : Closed text) : (line text).Sealed := fun w => w.sealed_indented h

theorem sealed_opening (h : Closed text) : (opening text).Sealed := fun w => w.sealed_indented h

theorem sealed_closing (h : Closed text) : (closing text).Sealed := fun _ =>
  Writer.sealed_indented _ h

theorem sealed_generated (h : Source.Sealed text) : (generated text).Sealed := fun _ => h

theorem sealed_source (h : Source.Sealed text) : (source text).Sealed := fun _ => h

theorem sealed_lineEnd : lineEnd.Sealed := by
  intro w
  rw [Writer.write]
  split
  · exact .nil
  · exact (show Neutral [0x0A] by decide).sealed

end Item

/-- Text around an embedded one. -/
theorem sealed_around {front text back : Bytes} (h : Closed text) (before : Neutral front)
    (behind : Neutral back) (filled : back ≠ []) : Sealed (front ++ text ++ back) :=
  (before.sealed.append_closed h).append_neutral behind filled

namespace Setting

variable {s : Setting} {p : Pass}

theorem sealed_arrayLine (named : Neutral p.name) (k : Nat) : (s.arrayLine p k).Sealed := by
  have array := Pass.neutral_bakedArray named k
  have front := (show Neutral (bytes "static VkCommandBuffer ") by decide).append array
  have count := (front.append (show Neutral (bytes "[") by decide)).append
    (Bytes.neutral_ofNat s.frames.count)
  exact Item.sealed_line (count.append (by decide)).sealed.closed

theorem sealed_executeStatement (options : ∀ t ∈ s.options.texts, Closed t)
    (named : Neutral p.name) {block : FixedBlock}
    (valid : Utf8.isValid (p.interior block) = true) (k : Nat) :
    (s.executeStatement p k block).Sealed := by
  have array := Pass.neutral_bakedArray named k
  have primary : Closed ((Statement.firstCommandBuffer? s.table (p.interior block)).getD
      s.options.primaryCommandBuffer) := by
    cases first : Statement.firstCommandBuffer? s.table (p.interior block) with
    | none => exact options _ (by simp [Options.texts])
    | some buffer => exact Statement.closed_firstCommandBuffer? valid first
  have call := sealed_around primary (show Neutral (bytes "vkCmdExecuteCommands(") by decide)
    (show Neutral (bytes ", 1, &") by decide) (by decide)
  have indexed := (call.append array.sealed).append (show Neutral (bytes "[") by decide).sealed
  have frame : Closed s.options.frameIndex := options _ (by simp [Options.texts])
  exact Item.sealed_generated
    ((indexed.append_closed frame).append_neutral (by decide) (by decide))

theorem sealed_allocation (options : ∀ t ∈ s.options.texts, Closed t) {array : Bytes}
    (h : Neutral array) : ∀ item ∈ s.allocation array, item.Sealed := by
  have pool : Closed s.options.commandPool := options _ (by simp [Options.texts])
  have device : Closed s.options.device := options _ (by simp [Options.texts])
  have count := (show Neutral (bytes "allocInfo.commandBufferCount = ") by decide).append
    (Bytes.neutral_ofNat s.frames.count)
  have target := (sealed_around device (show Neutral (bytes "if (vkAllocateCommandBuffers(")
    by decide) (show Neutral (bytes ", &allocInfo, ") by decide) (by decide)).append h.sealed
  simp only [allocation, List.forall_mem_cons]
  refine ⟨Item.sealed_opening (by decide), Item.sealed_line (by decide +kernel),
    Item.sealed_line (by decide +kernel), Item.sealed_line ?_, Item.sealed_line (by decide +kernel),
    Item.sealed_line ?_, Item.sealed_opening ?_, Item.sealed_line (by decide +kernel),
    Item.sealed_closing (by decide), Item.sealed_closing (by decide), nofun⟩
  · exact (sealed_around pool (by decide) (by decide) (by decide)).closed
  · exact (count.append (by decide)).sealed.closed
  · exact (target.append (show Neutral (bytes ") != VK_SUCCESS) \x7b") by decide).sealed).closed

theorem sealed_inheritance {block : FixedBlock} (renderPass : block.renderPass.Closed)
    (subpass : block.subpass.Closed) : ∀ item ∈ inheritance block, item.Sealed := by
  simp only [inheritance, List.forall_mem_cons]
  refine ⟨Item.sealed_line (by decide +kernel), Item.sealed_line (by decide +kernel),
    Item.sealed_line ?_, Item.sealed_line ?_, Item.sealed_line (by decide +kernel),
    Item.sealed_line (by decide +kernel), Item.sealed_line (by decide +kernel),
    Item.sealed_line (by decide +kernel), nofun⟩
  · exact (sealed_around renderPass.name (by decide) (by decide) (by decide)).closed
  · exact (sealed_around subpass.name (by decide) (by decide) (by decide)).closed

theorem sealed_recording {interior buffer : Bytes} (valid : Utf8.isValid interior = true)
    (ends : Sealed interior) (h : Neutral buffer) :
    ∀ item ∈ s.recording interior buffer, item.Sealed := by
  simp only [recording, List.forall_mem_cons]
  refine ⟨Item.sealed_opening ?_, Item.sealed_line (by decide +kernel),
    Item.sealed_closing (by decide), Item.sealed_opening (by decide),
    Item.sealed_source (Statement.sealed_retarget valid ends h.sealed.closed),
    Item.sealed_lineEnd, Item.sealed_closing (by decide), Item.sealed_opening ?_,
    Item.sealed_line (by decide +kernel), Item.sealed_closing (by decide), nofun⟩
  · exact (sealed_around h.sealed.closed (by decide) (by decide +kernel) (by decide)).closed
  · exact (sealed_around h.sealed.closed (by decide) (by decide +kernel) (by decide)).closed

end Setting
end Emission

/-- What a pass has to hold for what it becomes to end in code. -/
structure Pass.Whole (p : Pass) : Prop where
  named : Neutral p.name
  args : p.Closed
  valid : ∀ b ∈ p.fixedBlocks, Utf8.isValid (p.interior b) = true
  interiors : ∀ b ∈ p.fixedBlocks, Sealed (p.interior b)

namespace Emission.Setting

variable {s : Setting} {p : Pass}

theorem sealed_numbered (k : Nat) :
    (Item.line (bytes "// fixed block " ++ Bytes.ofNat k)).Sealed := by
  intro w
  have feed : 0x0A ∉ bytes " fixed block " ++ Bytes.ofNat k := by
    have digits := Bytes.positional_ofNat.forall_mem (p := (· != 0x0A)) (by decide) k
    intro member
    rcases List.mem_append.mp member with member | member
    · exact absurd member (by decide)
    · exact absurd (digits _ member) (by decide)
  have split : bytes "// fixed block " = 0x2F :: 0x2F :: bytes " fixed block " := by decide
  rw [Writer.write, Writer.indented, List.append_assoc, split]
  exact (neutral_tabs w.depth).sealed.append (sealed_comment feed)

variable (options : ∀ t ∈ s.options.texts, Closed t) (h : p.Whole)
include options h

theorem sealed_bakeBlock {block : FixedBlock} (hb : block ∈ p.fixedBlocks) (k : Nat) :
    ∀ item ∈ s.bakeBlock p k block, item.Sealed := by
  have array := Pass.neutral_bakedArray h.named k
  have element (i : Nat) : Neutral (element (Pass.bakedArray p.name k) i) :=
    ((array.append (show Neutral (bytes "[") by decide)).append (Bytes.neutral_ofNat i)).append
      (by decide)
  rw [bakeBlock]
  simp only [List.forall_mem_append, List.forall_mem_cons]
  refine ⟨⟨⟨⟨sealed_numbered k, sealed_allocation options array⟩,
    Item.sealed_opening (by decide), sealed_inheritance (h.args.renderPass block hb)
      (h.args.subpass block hb)⟩, ?_⟩, Item.sealed_closing (by decide), nofun⟩
  intro item member
  obtain ⟨i, _, member⟩ := List.mem_flatMap.mp member
  exact sealed_recording (h.valid block hb) (h.interiors block hb) (element i) item member

theorem sealed_bakeItems : ∀ item ∈ s.bakeItems p, item.Sealed := by
  have context : Closed s.options.contextParam := options _ (by simp [Options.texts])
  have name : Neutral (bytes "void " ++ Pass.bakeName p.name ++ bytes "(") :=
    ((show Neutral (bytes "void ") by decide).append
      ((show Neutral (bytes "pass_bake") by decide).append h.named)).append (by decide)
  have params := Pass.closed_signature context
    (List.forall_mem_append.mpr ⟨h.args.params, h.args.bakeParams⟩)
  rw [bakeItems]
  split
  · nofun
  · simp only [List.forall_mem_append, List.forall_mem_cons]
    refine ⟨⟨Item.sealed_opening ?_, ?_⟩, Item.sealed_closing (by decide), nofun⟩
    · exact (sealed_around params name (by decide) (by decide)).closed
    · intro item member
      obtain ⟨⟨block, k⟩, numbered, member⟩ := List.mem_flatMap.mp member
      exact sealed_bakeBlock options h (List.fst_mem_of_mem_zipIdx numbered) k item member

end Emission.Setting
end PassCompiler
