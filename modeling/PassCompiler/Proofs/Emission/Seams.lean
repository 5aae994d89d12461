import PassCompiler.Proofs.Emission.Items
import PassCompiler.Proofs.Pass.FixedBlocks

/-! Where an output is put together. A scan of the whole output stands in code at every place where
two items meet, so no comment reaches from one into another: generated text is not commented out by
the source before it, nor source by generated text. -/
namespace PassCompiler

open Source

namespace FixedBlock

variable {text : Bytes} {cursor : Nat} {blocks : List FixedBlock} {l : Located} {o c : Mark}

theorem Located.Stands.interior (h : l.Stands text o c) :
    (l.rebase 0).interior = ⟨c.offset + 1, l.ending.start⟩ := by
  simp only [rebase, Nat.sub_zero, h.close]

theorem Located.Stands.sealed (h : l.Stands text o c) :
    Sealed (Bytes.slice text (l.rebase 0).interior) := by
  have resumes := resumes_of_mem h.closer (Mark.isCodeByte_iff.mp h.closes).1
  rw [h.interior]
  exact sealed_slice Keyword.isWord_fixedEnd (phaseAt_of_resumes resumes) h.ends h.after

theorem Located.Stands.valid (valid : Utf8.isValid text = true) (h : l.Stands text o c) :
    Utf8.isValid (Bytes.slice text (l.rebase 0).interior) = true := by
  obtain ⟨m, hm, place, _, byte⟩ :=
    (occurs_iff Keyword.isWord_fixedEnd).mp h.ends.occurs 0 0x46 rfl
  have first := getElem?_of_mem_scan h.closer
  have last := getElem?_of_mem_scan hm
  rw [(Mark.isCodeByte_iff.mp h.closes).2] at first
  rw [byte, place, Nat.add_zero] at last
  rw [h.interior]
  exact Utf8.isValid_slice valid first last (by decide) (by decide)

theorem Series.interiors (valid : Utf8.isValid text = true) (h : Series text cursor blocks) :
    ∀ b ∈ blocks, Utf8.isValid (Bytes.slice text b.interior) = true ∧
      Sealed (Bytes.slice text b.interior) := by
  induction h with
  | done => nofun
  | block stands _ _ _ ih =>
    exact List.forall_mem_cons.mpr ⟨⟨stands.valid valid, stands.sealed⟩, ih⟩

/-- All items of a body end in code, the last one before its brace. -/
theorem Series.exists_bodyFrom {s : Emission.Setting} {p : Pass}
    (h : Series p.body cursor blocks) (resumes : Resumes p.body cursor) (edge : Edge p.body cursor)
    (closed : Closed p.body)
    (statements : ∀ b ∈ blocks, ∀ k, (s.executeStatement p k b).Sealed) (k : Nat) :
    ∃ front tail, s.bodyFrom p k cursor blocks = front ++ [.source tail] ∧
      (∀ item ∈ front, item.Sealed) ∧ Closed tail := by
  induction h generalizing k with
  | @done cursor _ =>
    exact ⟨[], p.body.drop cursor, rfl, nofun, closed.drop (phaseAt_of_resumes resumes)⟩
  | @block cursor l o c later stands ahead _ _ ih =>
    obtain ⟨first, rest⟩ := List.forall_mem_cons.mp statements
    obtain ⟨front, tail, same, ends, last⟩ := ih stands.resumes stands.edge rest (k + 1)
    have begins := (edge.terminates_iff Keyword.isWord_fixedBegin ahead).mpr stands.begins
    have segment := sealed_slice Keyword.isWord_fixedBegin (phaseAt_of_resumes resumes) begins ahead
    refine ⟨.source (Bytes.slice p.body ⟨cursor, l.beginning.start⟩) ::
      s.executeStatement p k (l.rebase 0) :: front, tail, ?_, ?_, last⟩
    · rw [List.cons_append, List.cons_append, ← same]
      rfl
    · exact List.forall_mem_cons.mpr ⟨Emission.Item.sealed_source segment,
        List.forall_mem_cons.mpr ⟨first k, ends⟩⟩

end FixedBlock

namespace Pass.Parts

variable {source : Bytes} {p : Pass} {span : Span} {o c : Mark} (h : p.Parts source span o c)
include h

theorem neutral_name : Neutral p.name := by
  have named := h.named
  rw [Pass.isName, Bool.and_eq_true] at named
  exact neutral_of_isIdent (List.all_eq_true.mp named.2)

theorem closed_body : Source.Closed p.body := by
  obtain ⟨code, byte⟩ := Mark.isCodeByte_iff.mp h.closes
  have behind := phaseAt_of_mem h.closer code (byte ▸ by decide)
  have resumes := resumes_of_mem h.opener (Mark.isCodeByte_iff.mp h.opens).1
  rw [phaseAt_of_le (Nat.succ_le_of_lt h.lt), phaseAt_of_resumes resumes,
    getElem?_of_mem_scan h.closer, ← h.body, byte] at behind
  exact closed_of_code (by decide) behind

theorem series : FixedBlock.Series p.body 0 p.fixedBlocks :=
  FixedBlock.series_of_readFrom resumes_zero (.inl rfl) h.readAll_body

theorem whole (valid : Utf8.isValid source = true) (args : p.Closed) : p.Whole where
  named := h.neutral_name
  args := args
  valid b hb := (h.series.interiors (h.valid_body valid) b hb).1
  interiors b hb := (h.series.interiors (h.valid_body valid) b hb).2

end Pass.Parts

/-- The text before a pass ends in code. -/
theorem Graph.sealed_between {source before : Bytes} {cursor : Nat} {passes : List Pass}
    (resumes : Resumes source cursor)
    (read : (readFrom source cursor).result = .ok (before, passes)) :
    ∀ x ∈ (before :: passes.map (·.epilogue)).dropLast, Sealed x := by
  obtain ⟨spans, reads⟩ := exists_reads resumes read
  clear resumes read
  induction reads with
  | rest => nofun
  | pass resumes seen _ _ later =>
    have isWord := Keyword.isWord_passBegin
    obtain ⟨after, _, terminates⟩ :=
      (sighted_iff_terminates isWord resumes stops_length).mp (find_eq_found_iff.mp seen).2.1
    rw [List.map_cons, List.dropLast_cons_cons]
    exact List.forall_mem_cons.mpr
      ⟨sealed_slice isWord (phaseAt_of_resumes resumes) terminates after, later⟩

/-- A place between two texts where a scan of both stands in code, as the byte behind it confirms:
no marker has one of its bytes in each. -/
structure Source.Seam (front back : Bytes) : Prop where
  code : Phase.code.behind front back.head? = .code
  scans : scan (front ++ back) 0 = scan front 0 ++ (scan back 0).map (Mark.shift front.length)

theorem Source.seam_of_code {front back : Bytes}
    (code : Phase.code.behind front back.head? = .code) : Seam front back := by
  refine ⟨code, ?_⟩
  have shifted := scanFrom_add .code 0 front.length back
  rw [scan, List.drop_zero, scanFrom_seam code, shifted]
  rfl

/-- A scan stands in code wherever two of the texts meet. -/
def Source.Parted (texts : List Bytes) : Prop :=
  ∀ before after, texts = before ++ after → after ≠ [] →
    Phase.code.behind before.flatten after.flatten.head? = .code

theorem Source.parted_singleton (x : Bytes) : Parted [x] := by
  intro before after split filled
  cases before with
  | nil => rfl
  | cons y before =>
    obtain ⟨_, rest⟩ := List.cons.inj split
    exact absurd (List.append_eq_nil_iff.mp rest.symm).2 filled

theorem Source.Parted.cons {x : Bytes} {rest : List Bytes} (later : Parted rest)
    (code : Phase.code.behind x rest.flatten.head? = .code) : Parted (x :: rest) := by
  intro before after split filled
  cases before with
  | nil => rfl
  | cons y before =>
    obtain ⟨rfl, same⟩ := List.cons.inj split
    rw [show rest = before ++ after from same, List.flatten_append, List.head?_append] at code
    rw [List.flatten_cons, Phase.behind_append, code]
    exact later before after same filled

namespace Emission

variable {s : Setting} {p : Pass} {g : Graph} {items rest : List Item}

theorem Writer.texts_append (w : Writer) :
    w.texts (items ++ rest) = w.texts items ++ (w.behind items).texts rest := by
  induction items generalizing w with
  | nil => rfl
  | cons item items ih => exact congrArg (_ :: ·) (ih _)

/-- Whatever an item is written behind, a scan of the items stands in code where two of them
meet. -/
def Apart (items : List Item) : Prop := ∀ w : Writer, Parted (w.texts items)

theorem Apart.cons {item : Item} (later : Apart rest) (ends : item.Sealed) :
    Apart (item :: rest) := fun w => (later _).cons (ends w _)

theorem Apart.append (later : Apart rest) (ends : ∀ item ∈ items, item.Sealed) :
    Apart (items ++ rest) := by
  induction items with
  | nil => exact later
  | cons item items ih =>
    obtain ⟨first, others⟩ := List.forall_mem_cons.mp ends
    exact (ih others).cons first

/-- A body goes on with the brace that closes its function. -/
theorem Apart.body (later : Apart rest) {tail : Bytes} (closed : Closed tail) :
    Apart (.source tail :: .generated (bytes "\x7d\n") :: rest) := by
  have brace : Item.Sealed (.generated (bytes "\x7d\n")) :=
    Item.sealed_generated (show Neutral (bytes "\x7d\n") by decide).sealed
  intro w
  refine (later.cons brace _).cons ?_
  exact (Phase.behind_calm (b := 0x7D) (by decide)).trans closed

namespace Setting

theorem apart_passItems (options : ∀ t ∈ s.options.texts, Closed t) (whole : p.Whole)
    (series : FixedBlock.Series p.body 0 p.fixedBlocks) (closed : Closed p.body)
    (later : Apart rest) : Apart (s.passItems p ++ rest) := by
  have context : Closed s.options.contextParam := options _ (by simp [Options.texts])
  have name : Neutral (bytes "void " ++ Pass.executeName p.name ++ bytes "(") :=
    ((show Neutral (bytes "void ") by decide).append
      ((show Neutral (bytes "pass_main") by decide).append whole.named)).append (by decide)
  have header := sealed_around (Pass.closed_signature context whole.args.params) name
    (show Neutral (bytes ") \x7b") by decide) (by decide)
  obtain ⟨front, tail, body, ends, last⟩ := series.exists_bodyFrom (s := s) resumes_zero (.inl rfl)
    closed (fun b hb k => sealed_executeStatement options whole.named (whole.valid b hb) k) 0
  have split : s.passItems p ++ rest = ((List.range p.fixedBlocks.length).map (s.arrayLine p) ++
      .generated (bytes "void " ++ Pass.executeName p.name ++ bytes "(" ++
        Pass.signature s.options.contextParam p.params ++ bytes ") \x7b") :: front) ++
      .source tail :: .generated (bytes "\x7d\n") :: (s.bakeItems p ++ rest) := by
    simp [passItems, executeItems, body]
  rw [split]
  refine ((later.append (sealed_bakeItems options whole)).body last).append ?_
  rw [List.forall_mem_append, List.forall_mem_cons, List.forall_mem_map]
  exact ⟨fun k _ => sealed_arrayLine whole.named k, Item.sealed_generated header, ends⟩

/-- The passes of an output, each between the text before it and the text behind it. -/
theorem apart_passes {passes : List Pass} {before : Bytes}
    (between : ∀ x ∈ (before :: passes.map (·.epilogue)).dropLast, Sealed x)
    (each : ∀ p ∈ passes, ∀ rest, Apart rest → Apart (s.passItems p ++ rest)) :
    Apart (.source before :: passes.flatMap fun p => s.passItems p ++ [.source p.epilogue]) := by
  induction passes generalizing before with
  | nil => exact fun w => parted_singleton _
  | cons p passes ih =>
    rw [List.map_cons, List.dropLast_cons_cons] at between
    obtain ⟨first, later⟩ := List.forall_mem_cons.mp between
    obtain ⟨here, others⟩ := List.forall_mem_cons.mp each
    have behind := here _ (ih later others)
    rw [List.flatMap_cons, List.append_assoc]
    exact behind.cons (Item.sealed_source first)

/-- The statements of the fixed blocks of a pass, rewritten for each of their buffers. -/
def rewritten (s : Setting) (p : Pass) : List Bytes :=
  p.fixedBlocks.zipIdx.flatMap fun (block, k) => (List.range s.frames.count).map fun i =>
    Statement.retarget s.table (p.interior block) (element (Pass.bakedArray p.name k) i)

/-- All that an output takes from the source, in order: the text around the passes, the bodies
around their fixed blocks, and the statements in these. -/
def taken (s : Setting) (g : Graph) : List Bytes :=
  g.prelude :: g.passes.flatMap fun p =>
    (FixedBlock.segments p.body 0 p.fixedBlocks).map (Bytes.slice p.body) ++ s.rewritten p ++
      [p.epilogue]

theorem source_bakeBlock (s : Setting) (p : Pass) (k : Nat) (b : FixedBlock) :
    (s.bakeBlock p k b).filterMap Item.source? = (List.range s.frames.count).map fun i =>
      Statement.retarget s.table (p.interior b) (element (Pass.bakedArray p.name k) i) := by
  have allocated (array : Bytes) : (s.allocation array).filterMap Item.source? = [] := rfl
  have inherited : (inheritance b).filterMap Item.source? = [] := rfl
  have recorded (buffer : Bytes) : (s.recording (p.interior b) buffer).filterMap Item.source? =
      [Statement.retarget s.table (p.interior b) buffer] := rfl
  simp only [bakeBlock, List.filterMap_append, List.filterMap_cons, Item.source?, allocated,
    inherited, List.filterMap_flatMap, recorded, List.filterMap_nil, List.nil_append,
    List.append_nil]
  exact List.map_eq_flatMap.symm

theorem source_bakeItems (s : Setting) (p : Pass) :
    (s.bakeItems p).filterMap Item.source? = s.rewritten p := by
  rw [bakeItems, rewritten]
  split
  · next none =>
    rw [List.isEmpty_iff.mp none]
    rfl
  · simp only [List.filterMap_append, List.filterMap_cons, Item.source?, List.filterMap_flatMap,
      source_bakeBlock, List.filterMap_nil, List.append_nil]

theorem source_passItems (s : Setting) (p : Pass) :
    (s.passItems p).filterMap Item.source? =
      (FixedBlock.segments p.body 0 p.fixedBlocks).map (Bytes.slice p.body) ++ s.rewritten p := by
  have arrays : ((List.range p.fixedBlocks.length).map (s.arrayLine p)).filterMap
      Item.source? = [] := by
    rw [List.filterMap_map]
    exact List.filterMap_eq_nil_iff.mpr fun _ _ => rfl
  simp only [passItems, executeItems, List.filterMap_append, arrays, List.filterMap_cons,
    Item.source?, source_bodyFrom, source_bakeItems, List.filterMap_nil, List.nil_append,
    List.append_nil]

theorem source_items (s : Setting) (g : Graph) :
    (s.items g).filterMap Item.source? = s.taken g := by
  have includes : s.includeLines.filterMap Item.source? = [] := by
    rw [includeLines, List.filterMap_map]
    exact List.filterMap_eq_nil_iff.mpr fun _ _ => rfl
  simp only [items, taken, List.filterMap_append, includes, List.filterMap_cons, Item.source?,
    List.filterMap_flatMap, source_passItems, List.filterMap_nil, List.nil_append]

end Setting

/-- No comment reaches across a place where the output of a valid source is put together. -/
theorem Setting.emit_seams {source : Bytes} (valid : Utf8.isValid source = true) {g : Graph}
    (parsed : (Graph.parse source).result = .ok g) {s : Setting}
    (unmarked : s.options.Unmarked) :
    (s.items g).filterMap Item.source? = s.taken g ∧
      ∀ before after, s.items g = before ++ after → after ≠ [] →
        ∃ rest, s.emit g = text before ++ rest ∧ Seam (text before) rest := by
  refine ⟨s.source_items g, ?_⟩
  have options := unmarked.closed
  have args := Graph.closed_of_parse valid parsed
  have parts := fun p (hp : p ∈ g.passes) => Graph.parts_of_parse parsed hp
  have between : ∀ x ∈ (g.prelude :: g.passes.map (·.epilogue)).dropLast, Sealed x := by
    rw [Graph.result_parse] at parsed
    obtain ⟨⟨prelude, passes⟩, read, rfl⟩ := Argument.exists_of_map_ok parsed
    exact Graph.sealed_between resumes_zero read
  have passes := apart_passes (s := s) between fun p hp rest later => by
    obtain ⟨_, _, _, parts⟩ := parts p hp
    exact apart_passItems options (parts.whole valid (args p hp)) parts.series parts.closed_body
      later
  have includes : ∀ item ∈ s.includeLines, item.Sealed := by
    refine List.forall_mem_map.mpr fun target member => Item.sealed_line ?_
    exact (show Neutral (bytes "#include ") by decide).sealed.append_closed
      (options target (by simp [Options.texts, member]))
  intro before after split filled
  refine ⟨((Writer.initial.behind before).texts after).flatten, ?_, seam_of_code ?_⟩
  · rw [emit, split, text, Writer.texts_append, List.flatten_append]
    rfl
  · apply (passes.append includes) Writer.initial
    · rw [← Writer.texts_append, ← split]
      rfl
    · cases after with
      | nil => contradiction
      | cons item after => exact List.cons_ne_nil _ _

/-- Slashes and comments before most places where an output is put together. -/
theorem Setting.emit_seams_slashes :
    let s : Setting := ⟨.standard, { commandPool := bytes "pool /" }⟩
    let g : Graph := ⟨bytes "a/PASS_BEGIN // b\n ", [⟨bytes "p", { read := [bytes "int c"] },
      [⟨⟨1, 51⟩, ⟨20, 42⟩, .ofText (bytes "r/1"), .ofText (bytes "0")⟩],
      bytes " FIXED_BEGIN(r/1, 0) draw(e, f // g\n/ h); FIXED_END/ i /", bytes "/"⟩]⟩
    (s.items g).filterMap Item.source? = s.taken g ∧
      ∀ before after, s.items g = before ++ after → after ≠ [] →
        ∃ rest, s.emit g = text before ++ rest ∧ Seam (text before) rest := by
  intro s g
  have parsed : (Graph.parse (bytes "a/PASS_BEGIN // b\n PASS_BEGIN(p) READ(int c /* d */) \x7b " ++
      bytes "FIXED_BEGIN(r/1, 0) draw(e, f // g\n/ h); FIXED_END/ i /\x7d PASS_END/")).result =
        .ok g := by decide +kernel
  exact emit_seams (by decide +kernel) parsed (by decide +kernel)

end Emission
end PassCompiler
