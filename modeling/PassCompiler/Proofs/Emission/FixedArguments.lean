import PassCompiler.Proofs.Emission.BakeParameters

/-! What generated code refers to for an argument of `FIXED_BEGIN`. An expression is kept whole, and
of a declaration it is the name. But a text counts as a declaration whenever it ends in a word and
has none of a few operators, so what is referred to may be a fragment of an expression. Main
statement: `sound_or_fragment`. -/
namespace PassCompiler

namespace Declaration

variable {text type n bounds : Bytes}

/-- Neither begins with a digit nor has an operator in it. -/
structure Plain (text : Bytes) : Prop where
  digit : text.head?.any Bytes.isDigit = false
  operator : text.any isOperator = false

/-- An identifier begins somewhere in the text. -/
def HasIdentifier (x : Bytes) : Prop :=
  ∃ front b rest, x = front ++ b :: rest ∧ Bytes.isIdent b = true ∧ Bytes.isDigit b = false ∧
    ∀ c ∈ front.getLast?, Bytes.isIdent c = false

/-- The name is no identifier, or what stands around it is no type. -/
def Fragment (type n bounds : Bytes) : Prop :=
  n.head?.any Bytes.isDigit = true ∨ (type ≠ [] ∨ bounds ≠ []) ∧ ¬ HasIdentifier type

theorem isExpression_eq_false_iff (trimmed : Blank.trim text = text) :
    isExpression text = false ↔ Plain text ∧ ∃ type n bounds, Declares text type n bounds := by
  simp only [isExpression, Bool.or_eq_false_iff, List.isEmpty_eq_false_iff]
  constructor
  · rintro ⟨⟨⟨_, digit⟩, operator⟩, named⟩
    obtain ⟨type, bounds, declares⟩ := exists_declares trimmed named
    exact ⟨⟨digit, operator⟩, type, _, bounds, declares⟩
  · rintro ⟨⟨digit, operator⟩, type, n, bounds, declares⟩
    have filled : text ≠ [] := by
      rw [declares.split]
      simp [declares.filled]
    exact ⟨⟨⟨filled, digit⟩, operator⟩, declares.name_eq trimmed ▸ declares.filled⟩

theorem Declares.isName_iff (h : Declares text type n bounds) :
    Pass.isName n = true ↔ n.head?.any Bytes.isDigit = false := by
  obtain ⟨b, rest, rfl⟩ := List.exists_cons_of_ne_nil h.filled
  have ident : (b :: rest).all Bytes.isIdent = true := List.all_eq_true.mpr h.ident
  simp only [Pass.isName, ident, Bool.and_true, List.head?_cons, Option.any_some,
    Bool.not_eq_true']

end Declaration

namespace FixedArg

open Declaration

variable {text type n bounds : Bytes}

/-- An expression as a whole, or the name of a declaration: an identifier that stands alone, or one
that a type stands before. -/
def Sound (a : FixedArg) : Prop :=
  (a.isExpression = true ∧ a.name = a.declaration) ∨
    (a.isExpression = false ∧ Pass.isName a.name = true ∧ (a.isBare = true ∨
      ∃ type bounds, Declares a.declaration type a.name bounds ∧ HasIdentifier type))

theorem declaration_ofText (text : Bytes) : (ofText text).declaration = Blank.trim text := rfl

/-- What a declaration is read as. -/
theorem ofText_declares (plain : Plain (Blank.trim text))
    (h : Declares (Blank.trim text) type n bounds) :
    (ofText text).isExpression = false ∧ (ofText text).name = n ∧
      ((ofText text).isBare = true ↔ type = [] ∧ bounds = []) := by
  have trimmed := Blank.trim_trim text
  have kind : (ofText text).isExpression = false :=
    (isExpression_eq_false_iff trimmed).mpr ⟨plain, type, n, bounds, h⟩
  have name : (ofText text).name = n := by
    rw [← IsRead.name_declaration ⟨text, rfl⟩ kind]
    exact h.name_eq trimmed
  refine ⟨kind, name, ?_⟩
  rw [isBare, kind, name, declaration_ofText, Bool.not_false, Bool.and_true, beq_iff_eq, h.split]
  constructor
  · intro whole
    have long := congrArg List.length whole
    simp only [List.length_append] at long
    exact ⟨List.length_eq_zero_iff.mp (by omega), List.length_eq_zero_iff.mp (by omega)⟩
  · rintro ⟨rfl, rfl⟩
    exact List.append_nil _

theorem sound_iff_not_fragment (plain : Plain (Blank.trim text))
    (h : Declares (Blank.trim text) type n bounds) :
    (ofText text).Sound ↔ ¬ Fragment type n bounds := by
  obtain ⟨kind, name, bare⟩ := ofText_declares plain h
  have typed : (∃ type' bounds', Declares (ofText text).declaration type' (ofText text).name
      bounds' ∧ HasIdentifier type') ↔ HasIdentifier type := by
    constructor
    · rintro ⟨type', bounds', h', identifier⟩
      rwa [(h.unique (Blank.trim_trim text) h').1] at identifier
    · intro identifier
      exact ⟨type, bounds, name ▸ h, identifier⟩
  rw [Sound, kind, typed, bare, name, h.isName_iff, Fragment]
  by_cases digit : n.head?.any Bytes.isDigit = true
  · simp [digit]
  · by_cases identifier : HasIdentifier type
    · simp [digit, identifier]
    · simp [digit, identifier]

/-- How a text is read: as a whole, or as a declaration that it is one way only. -/
theorem ofText_cases (text : Bytes) :
    ((ofText text).isExpression = true ∧ (ofText text).name = Blank.trim text ∧
      (ofText text).isBare = false ∧
      ¬ (Plain (Blank.trim text) ∧ ∃ type n bounds, Declares (Blank.trim text) type n bounds)) ∨
    ∃ type n bounds, (ofText text).isExpression = false ∧ Plain (Blank.trim text) ∧
      Declares (Blank.trim text) type n bounds := by
  have kinds := isExpression_eq_false_iff (Blank.trim_trim text)
  cases kind : Declaration.isExpression (Blank.trim text) with
  | true =>
    refine .inl ⟨kind, ?_, ?_, ?_⟩
    · rw [ofText, kind, if_pos rfl]
    · rw [isBare, isExpression, declaration_ofText, kind, Bool.not_true, Bool.and_false]
    · rw [← kinds, kind]
      decide
  | false =>
    obtain ⟨plain, type, n, bounds, declares⟩ := kinds.mp kind
    exact .inr ⟨type, n, bounds, kind, plain, declares⟩

end FixedArg

namespace Emission.Setting

variable {s : Setting} {p : Pass} {b : FixedBlock}

/-- What the buffers of a block inherit is said in the bake function. -/
theorem inheritance_subset (member : b ∈ p.fixedBlocks) : inheritance b ⊆ s.bakeItems p := by
  intro item inside
  have some : ¬ p.fixedBlocks.isEmpty = true := by
    intro none
    rw [List.isEmpty_iff.mp none] at member
    contradiction
  obtain ⟨k, here⟩ := List.getElem?_of_mem member
  have numbered : (b, k) ∈ p.fixedBlocks.zipIdx := List.mk_mem_zipIdx_iff_getElem?.mpr here
  rw [bakeItems, if_neg some]
  refine List.mem_append_left _ (List.mem_cons_of_mem _ (List.mem_flatMap.mpr
    ⟨(b, k), numbered, ?_⟩))
  simp [bakeBlock, inside]

end Emission.Setting

namespace FixedArg

open Declaration

/-- A text is read as an expression or as a declaration. An expression is kept whole, and no
parameter is declared for it. Of a declaration it is the last word that generated code refers to:
where that is no identifier, or where no type stands before it, a fragment of an expression. -/
theorem sound_or_fragment (text source : Bytes) :
    let a := ofText text
    (a.declaration = Blank.trim text ∧
      ((a.isExpression = true ∧ a.name = a.declaration ∧ a.isBare = false ∧
        ¬ (Plain a.declaration ∧ ∃ type n bounds, Declares a.declaration type n bounds)) ∨
      (∃ type n bounds, a.isExpression = false ∧ a.name = n ∧
        (a.isBare = true ↔ type = [] ∧ bounds = []) ∧ Plain a.declaration ∧
        Declares a.declaration type n bounds)) ∧
      (a.Sound ↔ ∀ type n bounds, Plain a.declaration → Declares a.declaration type n bounds →
        ¬ Fragment type n bounds)) ∧
    ∀ g, (Graph.parse source).result = .ok g → ∀ p ∈ g.passes, ∀ b ∈ p.fixedBlocks,
      (∃ x, b.renderPass = ofText x) ∧ (∃ x, b.subpass = ofText x) ∧
      (∀ s : Emission.Setting,
        .line (bytes "inheritanceInfo.renderPass = " ++ b.renderPass.name ++ bytes ";") ∈
          s.bakeItems p ∧
        .line (bytes "inheritanceInfo.subpass = " ++ b.subpass.name ++ bytes ";") ∈
          s.bakeItems p) ∧
      ∀ d ∈ p.bakeParams, ∃ x ∈ p.fixedArgs, x.1.isExpression = false ∧
        d = Pass.parameterOf x.1 x.2 := by
  refine ⟨⟨rfl, ?cases, ?sound⟩, fun g parsed p hp b hb => ?emitted⟩
  case cases =>
    rcases ofText_cases text with ⟨kind, name, bare, whole⟩ | ⟨type, n, bounds, _, plain, declares⟩
    · exact .inl ⟨kind, name, bare, whole⟩
    · obtain ⟨kind, name, bare⟩ := ofText_declares plain declares
      exact .inr ⟨type, n, bounds, kind, name, bare, plain, declares⟩
  case sound =>
    constructor
    · intro sound type n bounds plain declares
      exact (sound_iff_not_fragment plain declares).mp sound
    · intro none
      rcases ofText_cases text with ⟨kind, name, _⟩ | ⟨type, n, bounds, _, plain, declares⟩
      · exact .inl ⟨kind, name⟩
      · exact (sound_iff_not_fragment plain declares).mpr (none type n bounds plain declares)
  case emitted =>
    have isRead := Pass.isRead_of_parse parsed p hp
    obtain ⟨renderPass, subpass⟩ := isRead b hb
    refine ⟨renderPass, subpass, fun s => ?_, (Pass.completes_undeclared isRead.named).needed⟩
    have bound := Emission.Setting.inheritance_subset (s := s) hb
    constructor
    · exact bound (by simp [Emission.Setting.inheritance])
    · exact bound (by simp [Emission.Setting.inheritance])

/-- A declaration and a product in one block. -/
theorem sound_or_fragment_product :
    let b : FixedBlock := ⟨⟨1, 49⟩, ⟨39, 40⟩, .ofText (bytes "VkRenderPass pass"),
      .ofText (bytes "base*2")⟩
    let p : Pass := ⟨bytes "P", {}, [b],
      bytes " FIXED_BEGIN(VkRenderPass pass, base*2) FIXED_END ", []⟩
    (Graph.parse (bytes "PASS_BEGIN(P) \x7b" ++ p.body ++ bytes "\x7d PASS_END")).result =
        .ok ⟨[], [p]⟩ ∧
      (∀ s : Emission.Setting,
        .line (bytes "inheritanceInfo.renderPass = " ++ b.renderPass.name ++ bytes ";") ∈
          s.bakeItems p ∧
        .line (bytes "inheritanceInfo.subpass = " ++ b.subpass.name ++ bytes ";") ∈
          s.bakeItems p) ∧
      ∀ d ∈ p.bakeParams, ∃ x ∈ p.fixedArgs, x.1.isExpression = false ∧
        d = Pass.parameterOf x.1 x.2 := by
  intro b p
  have parsed : (Graph.parse (bytes "PASS_BEGIN(P) \x7b" ++ p.body ++
      bytes "\x7d PASS_END")).result = .ok ⟨[], [p]⟩ := by decide +kernel
  obtain ⟨_, _, bound, needed⟩ :=
    (sound_or_fragment (bytes "base*2") _).2 _ parsed p List.mem_cons_self b List.mem_cons_self
  exact ⟨parsed, bound, needed⟩

/-- A number and an array are taken for names, and the expressions they stand in for parameters. -/
theorem ofText_fragments :
    let b : FixedBlock := ⟨⟨1, 41⟩, ⟨31, 32⟩, .ofText (bytes "passes[0]"), .ofText (bytes "base*2")⟩
    let p : Pass := ⟨bytes "P", {}, [b], bytes " FIXED_BEGIN(passes[0], base*2) FIXED_END ", []⟩
    (Graph.parse (bytes "PASS_BEGIN(P) \x7b" ++ p.body ++ bytes "\x7d PASS_END")).result =
        .ok ⟨[], [p]⟩ ∧
      p.bakeParams = [bytes "passes[0]", bytes "base*2"] ∧
      (b.renderPass.name = bytes "passes" ∧ ¬ b.renderPass.Sound) ∧
      (b.subpass.name = bytes "2" ∧ ¬ b.subpass.Sound) ∧
      (ofText (bytes "sub|1")).name = bytes "1" ∧ ¬ (ofText (bytes "sub|1")).Sound := by
  intro b p
  have array : Declares (Blank.trim (bytes "passes[0]")) [] (bytes "passes") (bytes "[0]") :=
    ⟨by decide +kernel, by decide, by decide, by decide +kernel,
      .inr ⟨⟨[], bytes "0", by decide, by decide +kernel⟩, by decide⟩⟩
  have product : Declares (Blank.trim (bytes "base*2")) (bytes "base*") (bytes "2") [] :=
    ⟨by decide +kernel, by decide, by decide, by decide +kernel, .inl rfl⟩
  have union : Declares (Blank.trim (bytes "sub|1")) (bytes "sub|") (bytes "1") [] :=
    ⟨by decide +kernel, by decide, by decide, by decide +kernel, .inl rfl⟩
  have untyped : ¬ HasIdentifier [] := by
    rintro ⟨front, _, _, split, _⟩
    simp at split
  have plain {text : Bytes} (h : (Blank.trim text).head?.any Bytes.isDigit = false ∧
      (Blank.trim text).any isOperator = false) : Plain (Blank.trim text) := ⟨h.1, h.2⟩
  refine ⟨by decide +kernel, by decide +kernel, ⟨by decide +kernel, ?_⟩, ⟨by decide +kernel, ?_⟩,
    by decide +kernel, ?_⟩
  · rw [sound_iff_not_fragment (plain (by decide +kernel)) array, not_not]
    exact .inr ⟨.inr (by decide), untyped⟩
  · rw [sound_iff_not_fragment (plain (by decide +kernel)) product, not_not]
    exact .inl (by decide)
  · rw [sound_iff_not_fragment (plain (by decide +kernel)) union, not_not]
    exact .inl (by decide)

end FixedArg
end PassCompiler
