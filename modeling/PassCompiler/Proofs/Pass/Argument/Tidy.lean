import PassCompiler.Proofs.Pass.Argument.Compare
import PassCompiler.Proofs.Pass.Argument.Written
import PassCompiler.Proofs.Pass.Counterpart.Pass
import PassCompiler.Proofs.Pass.Declaration
import PassCompiler.Proofs.Source.Phase

/-! Arguments that are put into generated text. Comments outside groups were dropped when they were
read, and the groups are closed, so a scan of an argument ends in code, also when white space is
trimmed off it. -/
namespace PassCompiler

open Source

namespace Argument

variable {source a : Bytes}

/-- What is written for an argument, or a part of it without the white space at its ends. -/
def Tidy (a : Bytes) : Prop := ∃ q, Written q ∧ text q = a

theorem Tidy.trim {op front back : Bytes → Bytes} (h : Tidy a) (trims : Blank.Trims op front back) :
    Tidy (op a) := by
  obtain ⟨q, written, rfl⟩ := h
  exact written.trim trims

theorem Tidy.closed (h : Tidy a) : Closed a := by
  obtain ⟨q, written, rfl⟩ := h
  exact closed_of_last fun m last => (written.whole.alike (written.scanned.alike 0)).last_code last

/-- The arguments between parentheses of a valid text. -/
theorem tidy_of_read {o c : Mark} {args : List Bytes} (valid : Utf8.isValid source = true)
    (ho : o ∈ scan source 0) (hc : c ∈ scan source 0)
    (opens : o.isCodeByte Delimiter.paren.opener = true)
    (closes : c.isCodeByte Delimiter.paren.closer = true)
    (h : Argument.read source ⟨o.offset + 1, c.offset⟩ = .ok args) : ∀ a ∈ args, Tidy a := by
  obtain ⟨r, rs, reading, rfl⟩ := read_eq_ok_iff.mp h
  have written := reading.written (valid_slice valid ho hc opens closes)
  rw [trimmed_of_valid fun q hq => (written q hq).2]
  intro a member
  obtain ⟨q, hq, rfl⟩ := List.mem_map.mp (List.mem_of_mem_filter member)
  exact (written q hq).1.trim Blank.trims_trimSpace

end Argument

/-- What generated text takes from an argument of `FIXED_BEGIN`. -/
structure FixedArg.Closed (a : FixedArg) : Prop where
  declaration : Source.Closed a.declaration
  name : Source.Closed a.name

theorem FixedArg.closed_ofText {x : Bytes} (h : Argument.Tidy x) : (ofText x).Closed := by
  have declaration := (h.trim Blank.trims_trim).closed
  refine ⟨declaration, ?_⟩
  unfold ofText
  dsimp only
  split
  · exact declaration
  · exact (neutral_of_isIdent fun _ hb => Declaration.isIdent_of_mem_name hb).sealed.closed

/-- What generated text takes from the arguments of a pass. -/
structure Pass.Closed (p : Pass) : Prop where
  clauses : ∀ clause, ∀ a ∈ p.clauses.get clause, Source.Closed a
  renderPass : ∀ b ∈ p.fixedBlocks, b.renderPass.Closed
  subpass : ∀ b ∈ p.fixedBlocks, b.subpass.Closed

/-- A valid source read beside itself: its arguments are tidy. -/
theorem Counterpart.tidy {source : Bytes} (valid : Utf8.isValid source = true) :
    Counterpart True True 0 (fun a _ => Argument.Tidy a) source source where
  toTwin := (refl source).toTwin
  reads o ho c hc opens closes := by
    have same := (refl source).reads o ho c hc opens closes
    refine ⟨?_, same.error⟩
    intro args read
    have tidy := Argument.tidy_of_read valid ho hc opens closes read
    exact ⟨args, read, List.forall₂_same.mpr tidy⟩

theorem forall_of_forall₂ {α β : Type} {R : α → β → Prop} {P : α → Prop} {l : List α} {l' : List β}
    (h : List.Forall₂ R l l') (holds : ∀ a b, R a b → P a) : ∀ a ∈ l, P a :=
  ((List.forall₂_and_left _ _).mp (h.imp fun a b same => ⟨holds a b same, same⟩)).1

theorem FixedArg.Follows.closed {a a' : FixedArg}
    (h : a.Follows (fun x _ => Argument.Tidy x) a') : a.Closed := by
  obtain ⟨x, _, tidy, rfl, _⟩ := h
  exact closed_ofText tidy

theorem Pass.Follows.closed {p p' : Pass} (h : p.Follows True (fun a _ => Argument.Tidy a) p') :
    p.Closed where
  clauses k := forall_of_forall₂ (h.clauses k) fun _ _ tidy => tidy.closed
  renderPass := forall_of_forall₂ h.fixedBlocks fun _ _ same => same.renderPass.closed
  subpass := forall_of_forall₂ h.fixedBlocks fun _ _ same => same.subpass.closed

theorem Graph.closed_of_parse {source : Bytes} (valid : Utf8.isValid source = true) {g : Graph}
    (parsed : (parse source).result = .ok g) : ∀ p ∈ g.passes, p.Closed := by
  rw [result_parse] at parsed
  obtain ⟨⟨prelude, passes⟩, read, rfl⟩ := Argument.exists_of_map_ok parsed
  have agree := (Counterpart.tidy valid).graph_readFrom trivial 0 resumes_zero
  obtain ⟨_, _, _, follows⟩ := agree.ok _ read
  exact forall_of_forall₂ follows fun _ _ same => same.closed

end PassCompiler
