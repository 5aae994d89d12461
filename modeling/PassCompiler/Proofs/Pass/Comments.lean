import PassCompiler.Proofs.Pass.Argument.Compare
import PassCompiler.Proofs.Pass.Argument.Written
import PassCompiler.Proofs.Pass.Counterpart.Pass
import PassCompiler.Proofs.Text.Slice

/-! Comments are inert: sources that differ only inside comments are refused at the same place or
hold the same passes, the comments in their arguments apart. -/
namespace PassCompiler

open Source

namespace Argument

def strip : Option Group → List Mark → Bytes
  | _, [] => []
  | none, m :: rest => m.byte :: strip (if m.isCode then opens m else none) rest
  | some g, m :: rest => if m.isCode then m.byte :: strip (g.step m) rest else strip (some g) rest

/-- What is left of an argument when the comment bytes in its groups are deleted. -/
def stripped (arg : Bytes) : Bytes := strip none (scan arg 0)

/-- Arguments that differ only inside comments, as they are scanned in both of them. -/
def Alike (a a' : Bytes) : Prop :=
  ∃ r r', Written r ∧ Written r' ∧ List.Forall₂ (Mark.Alike False) r r' ∧ a = text r ∧ a' = text r'

theorem strip_congr {strict : Prop} {g : Option Group} {r r' : List Mark} (whole : Whole g r)
    (h : List.Forall₂ (Mark.Alike strict) r r') : strip g r' = strip g r := by
  induction h generalizing g with
  | nil => cases g <;> rfl
  | @cons m n r r' first rest ih =>
    cases g with
    | none =>
      obtain ⟨code, _, whole⟩ := whole
      simp only [strip, first.isCode, code, if_true, first.byte (.inr code),
        opens_congr first code, ih whole]
    | some g =>
      rw [strip, strip, first.isCode]
      cases code : m.isCode with
      | true =>
        simp only [if_true, first.byte (.inr code), Group.step_congr first, ih whole]
      | false =>
        have stay : g.step m = some g := by
          have outside (b : UInt8) : m.isCodeByte b = false := by
            rw [Mark.isCodeByte, code, Bool.false_and]
          simp [Group.step, outside]
        rw [Whole, stay] at whole
        simpa using ih whole

theorem Alike.stripped {a a' : Bytes} (h : Alike a a') : stripped a' = stripped a := by
  obtain ⟨r, r', written, written', alike, rfl, rfl⟩ := h
  have alone := strip_congr written.whole (written.scanned.alike 0)
  have alone' := strip_congr written'.whole (written'.scanned.alike 0)
  have both := strip_congr written.whole alike
  exact alone'.trans (both.trans alone.symm)

/-- Marks that stand around everything in groups, each of code. -/
structure Framed (r u : List Mark) (o : Mark) (v : List Mark) (c : Mark) (w : List Mark) :
    Prop where
  split : r = u ++ o :: (v ++ c :: w)
  front : ∀ m ∈ u, m.isCode = true
  opener : ∃ kind : Delimiter, o.isCodeByte kind.opener = true
  closer : ∃ kind : Delimiter, c.isCodeByte kind.closer = true
  back : ∀ m ∈ w, m.isCode = true

/-- Outside groups all is code, or it is framed by the first and the last delimiter of a group;
inside one the last closer is ahead. -/
def Frames : Option Group → List Mark → Prop
  | none, r => (∀ m ∈ r, m.isCode = true) ∨ ∃ u o v c w, Framed r u o v c w
  | some _, r => ∃ v c w, r = v ++ c :: w ∧
      (∃ kind : Delimiter, c.isCodeByte kind.closer = true) ∧ ∀ m ∈ w, m.isCode = true

theorem Whole.frames {g : Option Group} {r : List Mark} (h : Whole g r) : Frames g r := by
  induction r generalizing g with
  | nil =>
    cases g with
    | none => exact .inl nofun
    | some g => exact h.elim
  | cons m r ih =>
    cases g with
    | none =>
      obtain ⟨code, _, rest⟩ := h
      have later := ih rest
      cases opening : opens m with
      | none =>
        rw [opening] at later
        rcases later with all | ⟨u, o, v, c, w, rfl, front, opener, closer, back⟩
        · exact .inl (List.forall_mem_cons.mpr ⟨code, all⟩)
        · exact .inr ⟨m :: u, o, v, c, w, rfl, List.forall_mem_cons.mpr ⟨code, front⟩, opener,
            closer, back⟩
      | some g =>
        rw [opening] at later
        obtain ⟨v, c, w, rfl, closer, back⟩ := later
        obtain ⟨kind, same, _⟩ := Option.map_eq_some_iff.mp opening
        have opener := Mark.isCodeByte_iff.mpr ⟨code, Delimiter.opening?_eq_some_iff.mp same⟩
        exact .inr ⟨[], m, v, c, w, rfl, nofun, ⟨kind, opener⟩, closer, back⟩
    | some g =>
      have later := ih h
      cases next : g.step m with
      | some g' =>
        rw [next] at later
        obtain ⟨v, c, w, rfl, closer, back⟩ := later
        exact ⟨m :: v, c, w, rfl, closer, back⟩
      | none =>
        rw [next] at later
        rcases later with all | ⟨u, o, v, c, w, rfl, _, _, closer, back⟩
        · exact ⟨[], m, r, rfl, ⟨g.kind, Group.closer_of_step next⟩, all⟩
        · exact ⟨m :: u ++ o :: v, c, w, by simp, closer, back⟩

theorem text_eq_of_code {strict : Prop} {r r' : List Mark} (code : ∀ m ∈ r, m.isCode = true)
    (h : List.Forall₂ (Mark.Alike strict) r r') : text r' = text r :=
  text_eq_of_alike (((List.forall₂_and_left _ _).mpr ⟨code, h⟩).imp fun _ _ ⟨code, same⟩ =>
    ⟨same.region, fun _ => same.byte (.inr code)⟩)

theorem exists_of_forall₂_append {α β : Type} {R : α → β → Prop} {a b : List α} {l : List β}
    (h : List.Forall₂ R (a ++ b) l) :
    ∃ a' b', l = a' ++ b' ∧ List.Forall₂ R a a' ∧ List.Forall₂ R b b' := by
  induction a generalizing l with
  | nil => exact ⟨[], l, rfl, .nil, h⟩
  | cons x a ih =>
    obtain ⟨y, l, first, rest, rfl⟩ := List.forall₂_cons_left_iff.mp h
    obtain ⟨a', b', rfl, front, back⟩ := ih rest
    exact ⟨y :: a', b', rfl, .cons first front, back⟩

/-- Code that is alike may be cut at the same place. -/
theorem exists_of_alike_append {strict : Prop} {r r' : List Mark} {x y : Bytes}
    (code : ∀ m ∈ r, m.isCode = true) (alike : List.Forall₂ (Mark.Alike strict) r r')
    (h : text r = x ++ y) :
    ∃ a b a' b', (r = a ++ b ∧ r' = a' ++ b') ∧ (text a = x ∧ text a' = x) ∧
      (text b = y ∧ text b' = y) ∧ List.Forall₂ (Mark.Alike strict) a a' ∧
      List.Forall₂ (Mark.Alike strict) b b' := by
  obtain ⟨a, b, rfl, front, back⟩ := exists_of_text_append h
  obtain ⟨a', b', rfl, frontAlike, backAlike⟩ := exists_of_forall₂_append alike
  have front' := text_eq_of_code (fun m hm => code m (List.mem_append_left _ hm)) frontAlike
  have back' := text_eq_of_code (fun m hm => code m (List.mem_append_right _ hm)) backAlike
  exact ⟨a, b, a', b', ⟨rfl, rfl⟩, ⟨front, front'.trans front⟩, ⟨back, back'.trans back⟩,
    frontAlike, backAlike⟩

/-- What stands in a frame stays when the text is trimmed. -/
theorem trim_text {op front back : Bytes → Bytes} (trims : Blank.Trims op front back)
    {u v w : List Mark} {o c : Mark} (opener : Blank.Solid o.byte) (closer : Blank.Solid c.byte) :
    op (text (u ++ o :: (v ++ c :: w))) =
      front (text u) ++ o.byte :: (text v ++ c.byte :: back (text w)) := by
  rw [← trims.frame opener closer]
  simp [text]

/-- Both are trimmed alike, since a comment stands in a group, whose delimiters stay. -/
theorem Alike.trim {op front back : Bytes → Bytes} {a a' : Bytes} (h : Alike a a')
    (trims : Blank.Trims op front back) : Alike (op a) (op a') := by
  obtain ⟨r, r', written, written', alike, rfl, rfl⟩ := h
  rcases written.whole.frames with all | ⟨u, o, v, c, w, rfl, ahead, ⟨kind, opener⟩,
    ⟨kind', closer⟩, behind⟩
  · rw [text_eq_of_code all alike]
    obtain ⟨q, trimmed, same⟩ := written.trim trims
    exact ⟨q, q, trimmed, trimmed, List.forall₂_same.mpr fun m _ => .refl m, same.symm, same.symm⟩
  · obtain ⟨u', _, rfl, aheadAlike, rest⟩ := exists_of_forall₂_append alike
    obtain ⟨o', _, begins, rest', rfl⟩ := List.forall₂_cons_left_iff.mp rest
    obtain ⟨v', _, rfl, inside, rest⟩ := exists_of_forall₂_append rest'
    obtain ⟨c', w', ends, behindAlike, rfl⟩ := List.forall₂_cons_left_iff.mp rest
    obtain ⟨openerCode, openerByte⟩ := Mark.isCodeByte_iff.mp opener
    obtain ⟨closerCode, closerByte⟩ := Mark.isCodeByte_iff.mp closer
    have solid : Blank.Solid o.byte := openerByte ▸ solid_opener kind
    have solid' : Blank.Solid c.byte := closerByte ▸ solid_closer kind'
    have byte := begins.byte (.inr openerCode)
    have byte' := ends.byte (.inr closerCode)
    have sameAhead := text_eq_of_code ahead aheadAlike
    have sameBehind := text_eq_of_code behind behindAlike
    obtain ⟨x, dropped, loose⟩ := trims.front_drops (text u)
    obtain ⟨y, dropped', loose'⟩ := trims.back_drops (text w)
    obtain ⟨u₁, u₂, u₁', u₂', ⟨rfl, rfl⟩, ⟨gone, goneThere⟩, ⟨kept, keptThere⟩, _, keptAlike⟩ :=
      exists_of_alike_append ahead aheadAlike dropped
    obtain ⟨w₁, w₂, w₁', w₂', ⟨rfl, rfl⟩, ⟨kept', keptThere'⟩, ⟨gone', goneThere'⟩,
        keptAlike', _⟩ :=
      exists_of_alike_append behind behindAlike dropped'
    refine ⟨u₂ ++ o :: (v ++ c :: w₁), u₂' ++ o' :: (v' ++ c' :: w₁'), ?_, ?_, ?_, ?_, ?_⟩
    · exact Written.between (by simpa using written) (loose_of_text gone loose)
        (loose_of_text gone' loose')
    · exact Written.between (by simpa using written') (loose_of_text goneThere loose)
        (loose_of_text goneThere' loose')
    · exact List.rel_append keptAlike
        (.cons begins (List.rel_append inside (.cons ends keptAlike')))
    · rw [trim_text trims solid solid', ← kept, ← kept']
      simp [text]
    · rw [trim_text trims (byte ▸ solid) (byte' ▸ solid'), sameAhead, sameBehind, ← keptThere,
        ← keptThere']
      simp [text]

/-- The arguments of valid texts, when the readings of both differ only inside comments. -/
theorem ReadAlike.alike {offset offset' : Nat} {x x' : Bytes} (valid : Utf8.isValid x = true)
    (valid' : Utf8.isValid x' = true) {args args' : List Bytes}
    (h : ReadAlike False (scanFrom .code offset x) (scanFrom .code offset' x') args args') :
    List.Forall₂ Alike args args' := by
  obtain ⟨r, rs, r', rs', read, read', alike, rfl, rfl⟩ := h
  have written := read.written valid
  have written' := read'.written valid'
  rw [trimmed_of_valid fun q hq => (written q hq).2, trimmed_of_valid fun q hq => (written' q hq).2]
  have each : List.Forall₂ Alike ((r :: rs).map fun q => Bytes.trimSpace (text q))
      ((r' :: rs').map fun q => Bytes.trimSpace (text q)) := by
    rw [List.forall₂_map_left_iff, List.forall₂_map_right_iff]
    have both := (List.forall₂_and_left _ _).mpr ⟨fun q hq => (written q hq).1, alike⟩
    have both' := (List.forall₂_and_left _ _).mpr ⟨fun q hq => (written' q hq).1, both.flip⟩
    apply both'.flip.imp
    rintro q q' ⟨here', here, same⟩
    exact Alike.trim ⟨q, q', here, here', same, rfl, rfl⟩ Blank.trims_trimSpace
  refine List.rel_filter ?_ each
  rintro _ _ ⟨q, q', _, _, same, rfl, rfl⟩
  cases same <;> simp [text]

end Argument

/-- The same argument, comments in its groups apart. -/
structure FixedArg.SameShape (a a' : FixedArg) : Prop where
  declaration : Argument.stripped a'.declaration = Argument.stripped a.declaration
  name : Argument.stripped a'.name = Argument.stripped a.name

theorem Declaration.isExpression_of_opener {x : Bytes} {kind : Source.Delimiter}
    (h : kind.opener ∈ x) : isExpression x = true := by
  have operator : isOperator kind.opener = true := by cases kind <;> decide
  have found : x.any isOperator = true := List.any_eq_true.mpr ⟨_, h, operator⟩
  simp [isExpression, found]

/-- A comment stands in a group, and what has a group is an expression. -/
theorem FixedArg.Follows.sameShape {a a' : FixedArg} (h : a.Follows Argument.Alike a') :
    a.SameShape a' := by
  obtain ⟨x, x', alike, rfl, rfl⟩ := h
  have trimmed := alike.trim Blank.trims_trim
  have declared := trimmed.stripped
  refine ⟨declared, ?_⟩
  obtain ⟨r, r', written, _, same, here, here'⟩ := trimmed
  rcases written.whole.frames with all | ⟨u, o, v, c, w, rfl, _, ⟨kind, opener⟩, _, _⟩
  · have eq : Blank.trim x' = Blank.trim x := by
      rw [here, here', Argument.text_eq_of_code all same]
    rw [ofText, ofText, eq]
  · obtain ⟨code, byte⟩ := Mark.isCodeByte_iff.mp opener
    obtain ⟨u', _, rfl, _, rest⟩ := Argument.exists_of_forall₂_append same
    obtain ⟨o', _, begins, _, rfl⟩ := List.forall₂_cons_left_iff.mp rest
    have opens : kind.opener ∈ Blank.trim x := by
      rw [here, ← byte]
      simp [text]
    have opens' : kind.opener ∈ Blank.trim x' := by
      rw [here', ← byte, ← begins.byte (.inr code)]
      simp [text]
    simp only [ofText, Declaration.isExpression_of_opener opens,
      Declaration.isExpression_of_opener opens', if_true]
    exact declared

/-- Sources of one length that differ only inside comments. -/
structure SameCode (s t : Bytes) : Prop where
  length : t.length = s.length
  region : ∀ i : Nat, ((scan t 0)[i]?).map Mark.region = ((scan s 0)[i]?).map Mark.region
  byte : ∀ i : Nat, ((scan s 0)[i]?).any Mark.isCode = true → t[i]? = s[i]?

theorem sameCode_iff {s t : Bytes} : SameCode s t ↔ t.length = s.length ∧
    (scan t 0).map Mark.region = (scan s 0).map Mark.region ∧
      ∀ i < s.length, ((scan s 0)[i]?).any Mark.isCode = true → t[i]? = s[i]? := by
  constructor
  · rintro ⟨length, region, byte⟩
    refine ⟨length, List.ext_getElem? ?_, fun i _ => byte i⟩
    intro i
    simpa only [List.getElem?_map] using region i
  · rintro ⟨length, region, byte⟩
    refine ⟨length, ?_, ?_⟩
    · intro i
      rw [← List.getElem?_map, region, List.getElem?_map]
    · intro i code
      refine byte i ?_ code
      by_contra past
      rw [List.getElem?_eq_none (by simpa using past)] at code
      contradiction

instance (s t : Bytes) : Decidable (SameCode s t) := decidable_of_iff _ sameCode_iff.symm

/-- Blocks at the same place, with the same arguments. -/
structure FixedBlock.SameShape (b b' : FixedBlock) : Prop where
  span : b'.span = b.span
  interior : b'.interior = b.interior
  renderPass : b.renderPass.SameShape b'.renderPass
  subpass : b.subpass.SameShape b'.subpass

/-- Passes with the same name and arguments, a body of the same length and the same blocks. -/
structure Pass.SameShape (p p' : Pass) : Prop where
  name : p'.name = p.name
  body : p'.body.length = p.body.length
  clauses : ∀ k, (p'.clauses.get k).map Argument.stripped = (p.clauses.get k).map Argument.stripped
  fixedBlocks : List.Forall₂ FixedBlock.SameShape p.fixedBlocks p'.fixedBlocks

/-- Both sources are refused at the same offset, for a cause of the same kind, or both hold passes
of the same shape. -/
def Graph.SameShape : Except Fault Graph → Except Fault Graph → Prop
  | .error e, .error f => f.offset = e.offset ∧ e.cause.SameKind f.cause
  | .ok g, .ok h => List.Forall₂ Pass.SameShape g.passes h.passes
  | _, _ => False

variable {s t : Bytes}

theorem SameCode.tracks (same : SameCode s t) : Tracks False 0 (scan s 0) (scan t 0) := by
  refine List.forall₂_iff_get.mpr ⟨by simp [same.length], ?_⟩
  intro i lt lt'
  have here := List.getElem?_eq_getElem lt
  have there := List.getElem?_eq_getElem lt'
  have place := offset_of_getElem?_scanFrom here
  have place' := offset_of_getElem?_scanFrom there
  have region := same.region i
  have byte := same.byte i
  rw [here, there] at region
  rw [here] at byte
  refine ⟨⟨Option.some.inj region, ?_⟩, place'.trans place.symm⟩
  rintro (impossible | code)
  · exact impossible.elim
  · have left : s[i]? = some (scan s 0)[i].byte := byte_of_getElem?_scanFrom here
    have right : t[i]? = some (scan t 0)[i].byte := byte_of_getElem?_scanFrom there
    have same := byte code
    rw [left, right] at same
    exact Option.some.inj same

theorem SameCode.counterpart (same : SameCode s t) (valid : Utf8.isValid s = true)
    (valid' : Utf8.isValid t = true) : Counterpart False True 0 Argument.Alike s t where
  base := resumes_zero
  tracks := ⟨scan t 0, [], by simp, same.tracks, fun _ => rfl⟩
  ending := .inl trivial
  reads o ho c hc opens closes := by
    have twin : Twin False True 0 s t :=
      ⟨resumes_zero, ⟨scan t 0, [], by simp, same.tracks, fun _ => rfl⟩, .inl trivial⟩
    have resumes := resumes_of_mem ho (Mark.isCodeByte_iff.mp opens).1
    have stops := stops_of_mem hc (Mark.isCodeByte_iff.mp closes).1
    have window := twin.tracks_window resumes stops (offset_lt_of_mem hc)
    obtain ⟨o', ho', follows⟩ := twin.mem ho
    obtain ⟨c', hc', follows'⟩ := twin.mem hc
    have slice := Argument.valid_slice valid ho hc opens closes
    have slice' := Argument.valid_slice valid' ho' hc' ((follows.isCodeByte _).trans opens)
      ((follows'.isCodeByte _).trans closes)
    rw [follows.offset, follows'.offset] at slice'
    apply (Argument.read_tracks window).mono
    intro _ _ both
    exact both.alike slice slice'

theorem FixedBlock.Follows.sameShape {b b' : FixedBlock} (h : b.Follows Argument.Alike b') :
    b.SameShape b' :=
  ⟨h.span, h.interior, h.renderPass.sameShape, h.subpass.sameShape⟩

theorem Pass.Follows.sameShape {p p' : Pass} (h : p.Follows False Argument.Alike p') :
    p.SameShape p' where
  name := h.name
  body := h.body.1
  clauses k := by
    rw [← List.forall₂_eq_eq_eq, List.forall₂_map_left_iff, List.forall₂_map_right_iff]
    apply (h.clauses k).flip.imp
    intro _ _ same
    exact Argument.Alike.stripped same
  fixedBlocks := h.fixedBlocks.imp fun _ _ same => same.sameShape

/-- Comments are inert for a whole source. -/
theorem Graph.parse_sameShape (same : SameCode s t) (valid : Utf8.isValid s = true)
    (valid' : Utf8.isValid t = true) : SameShape (parse s).result (parse t).result := by
  have agree := (same.counterpart valid valid').graph_readFrom trivial 0 resumes_zero
  rw [result_parse, result_parse]
  cases read : (readFrom s 0).result with
  | ok x =>
    obtain ⟨y, read', _, passes⟩ := agree.ok x read
    rw [Nat.add_zero] at read'
    rw [read']
    apply passes.imp
    intro _ _ same
    exact same.sameShape
  | error e =>
    obtain ⟨f, refused, offset, cause, cause', rfl, rfl, kind, _⟩ := agree.error trivial e read
    rw [Nat.add_zero] at refused
    rw [refused]
    exact ⟨rfl, kind⟩

theorem Graph.parse_sameShape_commented :
    let s := bytes "PASS_BEGIN(a) READ(f(/*,*/x)) \x7b i(); \x7d /* b */ PASS_END\n"
    let t := bytes "PASS_BEGIN(a) READ(f(/*)*/x)) \x7b i(); \x7d /*\x7b\x7b\x7b*/ PASS_END\n"
    SameCode s t ∧ Utf8.isValid s = true ∧ Utf8.isValid t = true ∧
      SameShape (parse s).result (parse t).result := by
  intro s t
  have same : SameCode s t := by decide +kernel
  have valid : Utf8.isValid s = true := by decide +kernel
  have valid' : Utf8.isValid t = true := by decide +kernel
  exact ⟨same, valid, valid', parse_sameShape same valid valid'⟩

end PassCompiler
