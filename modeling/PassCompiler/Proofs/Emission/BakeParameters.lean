import Mathlib.Data.List.Nodup
import PassCompiler.Proofs.Emission.Items
import PassCompiler.Proofs.Emission.Parameters

/-! What a bake function declares: the parameters of the execute function, and behind them one for
every argument of `FIXED_BEGIN` whose name is not declared yet. Main statement: `bake_declares`. -/
namespace PassCompiler

theorem Blank.Trims.eq_self_of_ends {op front back : Bytes → Bytes} (trims : Trims op front back)
    {b c : UInt8} (first : Solid b) (last : Solid c) (x : Bytes) :
    op (b :: (x ++ [c])) = b :: (x ++ [c]) := by
  have front' : front [] = [] := by
    obtain ⟨a, same, _⟩ := trims.front_drops []
    exact (List.append_eq_nil_iff.mp same.symm).2
  have back' : back [] = [] := by
    obtain ⟨a, same, _⟩ := trims.back_drops []
    exact (List.append_eq_nil_iff.mp same.symm).1
  have framed := trims.frame first last [] x []
  rwa [front', back'] at framed

namespace FixedArg

variable {a : FixedArg} {type : Bytes}

def IsRead (a : FixedArg) : Prop := ∃ x, a = ofText x

def IsType (type : Bytes) : Prop := type.head?.any Bytes.isIdent = true

instance (type : Bytes) : Decidable (IsType type) := inferInstanceAs (Decidable (_ = _))

theorem IsRead.name_declaration (h : a.IsRead) (plain : a.isExpression = false) :
    Declaration.name a.declaration = a.name := by
  obtain ⟨x, rfl⟩ := h
  unfold isExpression at plain
  unfold ofText at plain ⊢
  dsimp only at plain ⊢
  rw [plain]
  rfl

theorem name_ne_nil_of_plain (plain : a.isExpression = false)
    (same : Declaration.name a.declaration = a.name) : a.name ≠ [] := by
  intro unnamed
  rw [isExpression, Declaration.isExpression, same, unnamed] at plain
  simp at plain

/-- A name behind a type is what the two declare. -/
theorem name_typed {name : Bytes} (typed : IsType type) (filled : name ≠ [])
    (ident : ∀ b ∈ name, Bytes.isIdent b = true) :
    Declaration.name (type ++ bytes " " ++ name) = name := by
  obtain ⟨t, type', rfl⟩ : ∃ t type', type = t :: type' := by
    cases type with
    | nil => contradiction
    | cons t type' => exact ⟨t, type', rfl⟩
  obtain ⟨name', c, rfl⟩ := (List.eq_nil_or_concat' name).resolve_left filled
  have last : Bytes.isIdent c = true := ident c (by simp)
  have trimmed : Blank.trim (t :: type' ++ bytes " " ++ (name' ++ [c])) =
      t :: type' ++ bytes " " ++ (name' ++ [c]) := by
    have ends := Blank.trims_trim.eq_self_of_ends (Blank.solid_of_isIdent typed)
      (Blank.solid_of_isIdent last) (type' ++ bytes " " ++ name')
    simpa using ends
  have declares : Declaration.Declares (t :: type' ++ bytes " " ++ (name' ++ [c]))
      (t :: type' ++ bytes " ") (name' ++ [c]) [] :=
    { split := (List.append_nil _).symm, filled, ident, bounds := .inl rfl
      edge := fun b last => by
        rw [show bytes " " = [0x20] by decide, List.getLast?_concat] at last
        rw [← Option.some.inj last]
        decide }
  exact declares.name_eq trimmed

/-- What the bake function declares for an argument has the name of the argument. -/
theorem IsRead.name_parameterOf (h : a.IsRead) (typed : IsType type)
    (plain : a.isExpression = false) : Declaration.name (Pass.parameterOf a type) = a.name := by
  have same := h.name_declaration plain
  rw [Pass.parameterOf]
  split
  · apply name_typed typed (name_ne_nil_of_plain plain same)
    intro b member
    rw [← same] at member
    exact Declaration.isIdent_of_mem_name member
  · exact same

end FixedArg

namespace Pass

variable {seen extra all kept before : List Bytes} {args : List (FixedArg × Bytes)}
  {x : FixedArg × Bytes} {p : Pass}

theorem Sifts.nodup (h : Sifts Repeats before all kept) :
    (kept.map Declaration.name).Nodup := by
  induction h with
  | nil => exact .nil
  | @keep before all kept a _ later ih =>
    refine .cons ?_ ih
    intro member
    obtain ⟨b, there, same⟩ := List.mem_map.mp member
    exact later.fresh b there a (by simp) same.symm
  | drop _ _ ih => exact ih

/-- `extra` declares what `args` need beyond the names in `seen`, each name once. -/
structure Completes (seen : List Bytes) (args : List (FixedArg × Bytes)) (extra : List Bytes) :
    Prop where
  nodup : (extra.map Declaration.name).Nodup
  fresh : ∀ d ∈ extra, Declaration.name d ∉ seen
  covers : ∀ x ∈ args, x.1.isExpression = false →
    x.1.name ∈ seen ∨ x.1.name ∈ extra.map Declaration.name
  needed : ∀ d ∈ extra, ∃ x ∈ args, x.1.isExpression = false ∧ d = parameterOf x.1 x.2

namespace Completes

theorem nil (seen : List Bytes) : Completes seen [] [] where
  nodup := .nil
  fresh := nofun
  covers := nofun
  needed := nofun

theorem skip (h : Completes seen args extra)
    (known : x.1.isExpression = true ∨ x.1.name ∈ seen) : Completes seen (x :: args) extra where
  nodup := h.nodup
  fresh := h.fresh
  covers y member plain := by
    rcases List.mem_cons.mp member with rfl | later
    · exact .inl (known.resolve_left (by simp [plain]))
    · exact h.covers y later plain
  needed d member := by
    obtain ⟨y, later, needs⟩ := h.needed d member
    exact ⟨y, List.mem_cons_of_mem _ later, needs⟩

theorem declare (h : Completes (x.1.name :: seen) args extra) (plain : x.1.isExpression = false)
    (new : x.1.name ∉ seen) (named : Declaration.name (parameterOf x.1 x.2) = x.1.name) :
    Completes seen (x :: args) (parameterOf x.1 x.2 :: extra) where
  nodup := by
    refine .cons ?_ h.nodup
    intro member
    obtain ⟨d, later, same⟩ := List.mem_map.mp member
    apply h.fresh d later
    rw [same, named]
    exact List.mem_cons_self
  fresh d member := by
    rcases List.mem_cons.mp member with rfl | later
    · rwa [named]
    · intro known
      exact h.fresh d later (List.mem_cons_of_mem _ known)
  covers y member plain' := by
    rw [List.map_cons, named]
    rcases List.mem_cons.mp member with rfl | later
    · exact .inr List.mem_cons_self
    · rcases h.covers y later plain' with known | declared
      · rcases List.mem_cons.mp known with same | known
        · exact .inr (same ▸ List.mem_cons_self)
        · exact .inl known
      · exact .inr (List.mem_cons_of_mem _ declared)
  needed d member := by
    rcases List.mem_cons.mp member with rfl | later
    · exact ⟨x, List.mem_cons_self, plain, rfl⟩
    · obtain ⟨y, member, needs⟩ := h.needed d later
      exact ⟨y, List.mem_cons_of_mem _ member, needs⟩

end Completes

theorem completes_undeclared (named : ∀ x ∈ args, x.1.isExpression = false →
    Declaration.name (parameterOf x.1 x.2) = x.1.name) :
    Completes seen args (undeclared seen args) := by
  induction args generalizing seen with
  | nil => exact .nil seen
  | cons x args ih =>
    obtain ⟨here, later⟩ := List.forall_mem_cons.mp named
    rw [undeclared]
    split
    · next known =>
      apply (ih later).skip
      simpa using known
    · next needed =>
      obtain ⟨plain, new⟩ : x.1.isExpression = false ∧ x.1.name ∉ seen := by simpa using needed
      exact (ih later).declare plain new (here plain)

def IsRead (p : Pass) : Prop := ∀ b ∈ p.fixedBlocks, b.renderPass.IsRead ∧ b.subpass.IsRead

theorem isRead_of_parse {source : Bytes} {g : Graph}
    (parsed : (Graph.parse source).result = .ok g) : ∀ p ∈ g.passes, p.IsRead := by
  have isRead {a a' : FixedArg} (h : a.Follows Eq a') : a.IsRead := by
    obtain ⟨x, _, _, same, _⟩ := h
    exact ⟨x, same⟩
  rw [Graph.result_parse] at parsed
  obtain ⟨⟨prelude, passes⟩, read, rfl⟩ := Argument.exists_of_map_ok parsed
  have agree := (Counterpart.refl source).graph_readFrom trivial 0 Source.resumes_zero
  obtain ⟨_, _, _, follows⟩ := agree.ok _ read
  refine forall_of_forall₂ follows fun p _ same => ?_
  refine forall_of_forall₂ same.fixedBlocks fun b _ block => ?_
  exact ⟨isRead block.renderPass, isRead block.subpass⟩

theorem mem_fixedArgs : x ∈ p.fixedArgs ↔ ∃ b ∈ p.fixedBlocks,
    x = (b.renderPass, bytes "VkRenderPass") ∨ x = (b.subpass, bytes "uint32_t") := by
  simp [fixedArgs]

theorem IsRead.named (h : p.IsRead) : ∀ x ∈ p.fixedArgs, x.1.isExpression = false →
    Declaration.name (parameterOf x.1 x.2) = x.1.name := by
  intro x member plain
  have renderPass : FixedArg.IsType (bytes "VkRenderPass") := by decide
  have subpass : FixedArg.IsType (bytes "uint32_t") := by decide
  obtain ⟨b, block, same⟩ := mem_fixedArgs.mp member
  rcases same with rfl | rfl
  · exact (h b block).1.name_parameterOf renderPass plain
  · exact (h b block).2.name_parameterOf subpass plain

theorem Completes.nodup_append (h : Completes (all.map Declaration.name) args extra)
    (distinct : (all.map Declaration.name).Nodup) :
    ((all ++ extra).map Declaration.name).Nodup := by
  rw [List.map_append]
  refine List.nodup_append.mpr ⟨distinct, h.nodup, ?_⟩
  rintro name known _ declared rfl
  obtain ⟨d, member, rfl⟩ := List.mem_map.mp declared
  exact h.fresh d member known

/-- The bake function of a pass declares what the execute function declares and what its blocks
need, and no name twice. -/
theorem bake_declares {source : Bytes} {g : Graph}
    (parsed : (Graph.parse source).result = .ok g) (member : p ∈ g.passes)
    (fixed : p.fixedBlocks ≠ []) (s : Emission.Setting) :
    (∃ execute bake,
      s.executeItems p = .generated (bytes "void " ++ executeName p.name ++ bytes "(" ++
        signature s.options.contextParam p.params ++ bytes ") \x7b") :: execute ∧
      s.bakeItems p = .opening (bytes "void " ++ bakeName p.name ++ bytes "(" ++
        signature s.options.contextParam (p.params ++ p.bakeParams) ++ bytes ") \x7b") :: bake) ∧
    (∀ b ∈ p.fixedBlocks, ∀ a ∈ [b.renderPass, b.subpass], a.isExpression = false →
      ((p.params ++ p.bakeParams).map Declaration.name).count a.name = 1) ∧
    (∀ d ∈ p.bakeParams, ∃ b ∈ p.fixedBlocks, ∃ a type,
      ((a, type) = (b.renderPass, bytes "VkRenderPass") ∨
        (a, type) = (b.subpass, bytes "uint32_t")) ∧
      a.isExpression = false ∧ d = parameterOf a type ∧ Declaration.name d = a.name) ∧
    ((p.params ++ p.bakeParams).map Declaration.name).Nodup := by
  have isRead := isRead_of_parse parsed p member
  have completes : Completes (p.params.map Declaration.name) p.fixedArgs p.bakeParams :=
    completes_undeclared isRead.named
  have distinct := completes.nodup_append (sifts_params p).nodup
  refine ⟨⟨_, _, rfl, if_neg (by simpa using fixed)⟩, ?_, ?_, distinct⟩
  · intro b block a either plain
    apply List.nodup_iff_count_eq_one.mp distinct
    rw [List.map_append, List.mem_append]
    simp only [List.mem_cons, List.not_mem_nil, or_false] at either
    rcases either with rfl | rfl
    · exact completes.covers _ (mem_fixedArgs.mpr ⟨b, block, .inl rfl⟩) plain
    · exact completes.covers _ (mem_fixedArgs.mpr ⟨b, block, .inr rfl⟩) plain
  · intro d declared
    obtain ⟨⟨a, type⟩, needed, plain, rfl⟩ := completes.needed d declared
    obtain ⟨b, block, same⟩ := mem_fixedArgs.mp needed
    exact ⟨b, block, a, type, same, plain, rfl, isRead.named _ needed plain⟩

/-- A name that a clause declares, a typed argument that the next block takes up, a name without a
type, and expressions. -/
theorem bake_declares_three :
    let p : Pass := ⟨bytes "P", { input := [bytes "Main& pass"] },
      [⟨⟨1, 40⟩, ⟨30, 31⟩, .ofText (bytes "pass"), .ofText (bytes "uint32_t i")⟩,
        ⟨⟨41, 73⟩, ⟨63, 64⟩, .ofText (bytes "target"), .ofText (bytes "i")⟩,
        ⟨⟨74, 104⟩, ⟨94, 95⟩, .ofText (bytes "f(x)"), .ofText (bytes "0")⟩],
      bytes " FIXED_BEGIN(pass, uint32_t i) FIXED_END FIXED_BEGIN(target, i) FIXED_END " ++
        bytes "FIXED_BEGIN(f(x), 0) FIXED_END ", []⟩
    (Graph.parse (bytes "PASS_BEGIN(P) INPUT(Main& pass) \x7b" ++ p.body ++
        bytes "\x7d PASS_END")).result = .ok ⟨[], [p]⟩ ∧ p.fixedBlocks ≠ [] ∧
      p.bakeParams = [bytes "uint32_t i", bytes "VkRenderPass target"] ∧
      (∀ b ∈ p.fixedBlocks, ∀ a ∈ [b.renderPass, b.subpass], a.isExpression = false →
        ((p.params ++ p.bakeParams).map Declaration.name).count a.name = 1) ∧
      ((p.params ++ p.bakeParams).map Declaration.name).Nodup := by
  intro p
  have parsed : (Graph.parse (bytes "PASS_BEGIN(P) INPUT(Main& pass) \x7b" ++ p.body ++
      bytes "\x7d PASS_END")).result = .ok ⟨[], [p]⟩ := by decide +kernel
  have fixed : p.fixedBlocks ≠ [] := List.cons_ne_nil _ _
  obtain ⟨_, declared, _, distinct⟩ :=
    bake_declares parsed List.mem_cons_self fixed ⟨⟨2, by decide, by decide⟩, {}⟩
  exact ⟨parsed, fixed, by decide +kernel, declared, distinct⟩

end Pass
end PassCompiler
