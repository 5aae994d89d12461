import Mathlib.Data.List.Nodup
import PassCompiler.Emission.Basic
import PassCompiler.Proofs.Pass.Parts
import PassCompiler.Proofs.Source.BesideAscii
import PassCompiler.Proofs.Source.Group

/-! The fixed blocks of a body: where they stand, that they follow one another, and which keywords
begin one. They are read off the body alone, so all offsets here are offsets of a body. -/
namespace PassCompiler

open Source

namespace FixedBlock

variable {text : Bytes} {cursor : Nat} {l : Located} {o c : Mark} {blocks : List FixedBlock}

/-- A block of `text` with the parentheses `o` and `c` around its arguments. -/
structure Located.Stands (text : Bytes) (l : Located) (o c : Mark) : Prop where
  begins : Terminates text Keyword.fixedBegin 0 l.beginning.start
  beginning : l.beginning.stop = l.beginning.start + Keyword.fixedBegin.length
  first : nextCode text l.beginning.stop text.length = some o
  opener : o ∈ scan text 0
  opens : o.isCodeByte Delimiter.paren.opener = true
  matching : matchingClose text o.offset = some c.offset
  closer : c ∈ scan text 0
  closes : c.isCodeByte Delimiter.paren.closer = true
  close : l.close = c.offset
  args : Argument.read text ⟨o.offset + 1, c.offset⟩ = .ok [l.renderPass, l.subpass]
  ends : Terminates text Keyword.fixedEnd (c.offset + 1) l.ending.start
  ending : l.ending.stop = l.ending.start + Keyword.fixedEnd.length
  after : c.offset < l.ending.start
  free : ∀ keyword ∈ [Keyword.fixedBegin, Keyword.fixedEnd], ∀ i, c.offset < i →
    i < l.ending.start → ¬ Terminates text keyword (c.offset + 1) i

theorem Located.Parts.stands (resumes : Resumes text cursor) (edge : Edge text cursor)
    (h : l.Parts text ⟨0, text.length⟩ o)
    (found : find text ⟨cursor, text.length⟩ Keyword.fixedBegin .terminator = .found l.beginning) :
    ∃ c, l.Stands text o c := by
  obtain ⟨long, here, _⟩ := find_eq_found_iff.mp found
  obtain ⟨after, _, begins⟩ :=
    (sighted_iff_terminates Keyword.isWord_fixedBegin resumes stops_length).mp here
  have inside : Resumes text l.beginning.stop :=
    long ▸ begins.occurs.resumes Keyword.isWord_fixedBegin
  obtain ⟨opener, code⟩ := mem_of_nextCode inside stops_length h.opener
  have opens : o.isCodeByte Delimiter.paren.opener = true := Mark.isCodeByte_iff.mpr ⟨code, h.opens⟩
  obtain ⟨c, closer, closes, close, _, _⟩ :=
    mem_of_matchingClose opener opens stops_length (offset_lt_of_mem opener) h.closer
  have behind := resumes_of_mem closer (Mark.isCodeByte_iff.mp closes).1
  obtain ⟨first, _, matching, args, ended, free⟩ := h
  rw [List.take_length, ← close] at matching
  rw [← close] at args ended free
  obtain ⟨long', here', unended⟩ := find_eq_found_iff.mp ended
  obtain ⟨after', _, ends⟩ :=
    (sighted_iff_terminates Keyword.isWord_fixedEnd behind stops_length).mp here'
  refine ⟨c, {
    begins := (edge.terminates_iff Keyword.isWord_fixedBegin after).mp begins
    beginning := long
    first, opener, opens, matching, closer, closes
    close := close.symm
    args, ends
    ending := long'
    after := after'
    free := ?_ }⟩
  intro keyword member i low high terminates
  simp only [List.mem_cons, List.not_mem_nil, or_false] at member
  rcases member with rfl | rfl
  · have before := ends.apart (by omega) Keyword.isWord_fixedBegin terminates.occurs high
    exact find_ne_found_iff.mp free i ((sighted_iff_terminates Keyword.isWord_fixedBegin behind
      ends.occurs.stops).mpr ⟨low, Nat.le_of_lt before, terminates⟩)
  · exact unended i high ((sighted_iff_terminates Keyword.isWord_fixedEnd behind
      stops_length).mpr ⟨low, terminates.occurs.le_length, terminates⟩)

namespace Located.Stands

variable (h : l.Stands text o c)
include h

/-- The parentheses stand between the keywords. -/
theorem group_inside : l.beginning.start + Keyword.fixedBegin.length ≤ o.offset ∧
    o.offset < c.offset ∧ c.offset < l.ending.stop :=
  ⟨h.beginning ▸ (bounds_of_nextCode h.first).1, (bounds_of_matchingClose h.matching).1,
    Nat.lt_of_lt_of_le h.after (h.ending ▸ Nat.le_add_right ..)⟩

theorem le_length : l.ending.stop ≤ text.length := h.ending ▸ h.ends.occurs.le_length

theorem resumes : Resumes text l.ending.stop :=
  h.ending ▸ h.ends.occurs.resumes Keyword.isWord_fixedEnd

theorem edge : Edge text l.ending.stop := .inr (h.ending ▸ h.ends.behind)

theorem stretch : Stretch text Keyword.fixedBegin Keyword.fixedEnd l.beginning.start o.offset
    c.offset l.ending.start where
  begins := h.begins.occurs
  group := by
    obtain ⟨code, byte⟩ := Mark.isCodeByte_iff.mp h.opens
    have resumes := h.begins.occurs.resumes Keyword.isWord_fixedBegin
    refine ⟨nextCode_of_search resumes (h.beginning ▸ h.first), ⟨o, h.opener, rfl, code⟩, ?_,
      h.matching⟩
    rw [getElem?_of_mem_scan h.opener, byte]
  after := h.after
  ends := h.ends
  unended := h.free _ (by simp)

/-- A keyword that begins inside the block stands in its arguments. -/
theorem in_args {i : Nat} (terminates : Terminates text Keyword.fixedBegin 0 i)
    (low : l.beginning.start < i) (high : i < l.ending.stop) :
    o.offset < i ∧ i + Keyword.fixedBegin.length ≤ c.offset := by
  rcases h.stretch.inside Keyword.isWord_fixedBegin Keyword.isWord_fixedEnd
    Keyword.isWord_fixedBegin (h.free _ (by simp)) terminates low (h.ending ▸ high) with
    same | inside
  · have both := List.prefix_of_prefix_length_le h.ends.occurs.spelled
      (same ▸ terminates.occurs.spelled) (by decide)
    exact absurd both (by decide)
  · exact inside

end Located.Stands

/-- The blocks of `text` from `cursor` on, each with its parentheses. -/
inductive Series (text : Bytes) : Nat → List FixedBlock → Prop
  | done {cursor : Nat} : (∀ i, cursor ≤ i → ¬ Terminates text Keyword.fixedBegin 0 i) →
      Series text cursor []
  | block {cursor : Nat} {l : Located} {o c : Mark} {later : List FixedBlock} :
      l.Stands text o c → cursor ≤ l.beginning.start →
      (∀ i, cursor ≤ i → i < l.beginning.start → ¬ Terminates text Keyword.fixedBegin 0 i) →
      Series text l.ending.stop later → Series text cursor (l.rebase 0 :: later)

theorem series_of_readFrom (resumes : Resumes text cursor) (edge : Edge text cursor)
    (h : (readFrom text ⟨0, text.length⟩ cursor).result = .ok blocks) :
    Series text cursor blocks := by
  have isWord := Keyword.isWord_fixedBegin
  induction cursor using readFrom_induction text ⟨0, text.length⟩ generalizing blocks with
  | block cursor beginning seen ih =>
    rw [result_readFrom, seen] at h
    obtain ⟨l, first, h⟩ := exists_of_bind_ok h
    obtain ⟨later, rest, h⟩ := exists_of_bind_ok h
    obtain rfl := Except.ok.inj h
    obtain ⟨rfl, o, parts⟩ := readAt_ok_iff.mp first
    obtain ⟨c, stands⟩ := parts.stands resumes edge seen
    have unseen := (find_eq_found_iff.mp seen).2.2
    refine .block stands (bounds_of_find seen).1 ?_ (ih l first stands.resumes stands.edge rest)
    intro i low high terminates
    exact unseen i high ((sighted_iff_terminates isWord resumes stops_length).mpr
      ⟨low, terminates.occurs.le_length, (edge.terminates_iff isWord low).mpr terminates⟩)
  | rest cursor absent =>
    rw [result_readFrom_rest absent] at h
    obtain rfl := Except.ok.inj h
    refine .done fun i low terminates => ?_
    exact find_ne_found_iff.mp absent i ((sighted_iff_terminates isWord resumes stops_length).mpr
      ⟨low, terminates.occurs.le_length, (edge.terminates_iff isWord low).mpr terminates⟩)

/-- The text between the parentheses of a block. -/
structure HasArguments (text : Bytes) (b : FixedBlock) (args : Span) : Prop where
  opener : ∃ o, nextCode text (b.span.start + Keyword.fixedBegin.length) text.length = some o ∧
    o.byte = Delimiter.paren.opener ∧ args.start = o.offset + 1
  closer : matchingClose text (args.start - 1) = some args.stop
  interior : b.interior.start = args.stop + 1

structure Placed (text : Bytes) (b : FixedBlock) : Prop where
  start_lt : b.span.start < b.interior.start
  le : b.interior.start ≤ b.interior.stop
  stop : b.interior.stop + Keyword.fixedEnd.length = b.span.stop
  inside : b.span.stop ≤ text.length
  boundaries : ∀ i ∈ [b.span.start, b.interior.start, b.interior.stop, b.span.stop],
    Utf8.isBoundary text i = true
  begins : Keyword.fixedBegin <+: Bytes.slice text b.span
  ends : Keyword.fixedEnd <:+ Bytes.slice text b.span
  terminates : Terminates text Keyword.fixedBegin 0 b.span.start ∧
    Terminates text Keyword.fixedEnd b.interior.start b.interior.stop
  arguments : ∃ args, b.HasArguments text args
  /-- Wherever a search starts, it finds no keyword in the interior. -/
  free : ∀ keyword ∈ [Keyword.fixedBegin, Keyword.fixedEnd], ∀ start ≤ b.interior.start,
    ∀ i, b.interior.start ≤ i → i < b.interior.stop → ¬ Terminates text keyword start i

theorem Located.Stands.hasArguments (h : l.Stands text o c) :
    (l.rebase 0).HasArguments text ⟨o.offset + 1, c.offset⟩ where
  opener := ⟨o, by simpa only [Located.rebase, Nat.sub_zero, h.beginning] using h.first,
    (Mark.isCodeByte_iff.mp h.opens).2, rfl⟩
  closer := h.matching
  interior := by simp only [Located.rebase, Nat.sub_zero, h.close]

/-- A valid text may be cut around a word. -/
theorem isBoundary_of_occurs (valid : Utf8.isValid text = true) {word : Bytes}
    (isWord : IsWord word) {i : Nat} (h : Occurs text word i) :
    Utf8.isBoundary text i = true ∧ Utf8.isBoundary text (i + word.length) = true := by
  obtain ⟨front, behind⟩ := besideAscii_of_spelled isWord h.spelled
  exact ⟨front.isBoundary valid, behind.isBoundary valid⟩

theorem Located.Stands.placed (valid : Utf8.isValid text = true) (h : l.Stands text o c) :
    (l.rebase 0).Placed text := by
  obtain ⟨low, parens, _⟩ := h.group_inside
  have after := h.after
  have beginning := h.beginning
  have ending := h.ending
  have close := h.close
  have closing := getElem?_of_mem_scan h.closer
  rw [(Mark.isCodeByte_iff.mp h.closes).2] at closing
  have behind := Utf8.isBoundary_behind valid closing (by decide)
  obtain ⟨first, _⟩ := isBoundary_of_occurs valid Keyword.isWord_fixedBegin h.begins.occurs
  obtain ⟨third, last⟩ := isBoundary_of_occurs valid Keyword.isWord_fixedEnd h.ends.occurs
  rw [← ending] at last
  have arguments := h.hasArguments
  refine {
    start_lt := ?_, le := ?_, stop := ?_, inside := ?_, boundaries := ?_, begins := ?_, ends := ?_
    terminates := ?_, arguments := ⟨_, arguments⟩, free := ?_ }
  all_goals simp only [Located.rebase, Nat.sub_zero, close]
  · omega
  · omega
  · omega
  · exact h.le_length
  · simp [first, behind, third, last]
  · have spelled := h.begins.occurs.slice
    rw [← beginning] at spelled
    rw [Bytes.slice_append (b := l.beginning.stop) (by omega) (by omega), spelled]
    exact List.prefix_append _ _
  · have spelled := h.ends.occurs.slice
    rw [← ending] at spelled
    rw [Bytes.slice_append (b := l.ending.start) (by omega) (by omega), spelled]
    exact List.suffix_append _ _
  · exact ⟨h.begins, h.ends⟩
  · intro keyword member start le i low high terminates
    by_cases same : i = start
    · have here : i = c.offset + 1 := by omega
      exact h.free keyword member i low high (here ▸ same ▸ terminates)
    · exact h.free keyword member i low high (terminates.from' same _)

/-- What a whole series of blocks says. -/
theorem Series.placed (valid : Utf8.isValid text = true) (h : Series text cursor blocks) :
    ∀ b ∈ blocks, b.Placed text := by
  induction h with
  | done => simp
  | block stands _ _ _ ih => exact List.forall_mem_cons.mpr ⟨stands.placed valid, ih⟩

theorem Series.le (h : Series text cursor blocks) : ∀ b ∈ blocks, cursor ≤ b.span.start := by
  induction h with
  | done => simp
  | block stands ahead _ _ ih =>
    refine List.forall_mem_cons.mpr ⟨ahead, fun b hb => ?_⟩
    have behind := ih b hb
    obtain ⟨_, _, _⟩ := stands.group_inside
    omega

theorem Series.begins (h : Series text cursor blocks) :
    ∀ b ∈ blocks, Terminates text Keyword.fixedBegin 0 b.span.start := by
  induction h with
  | done => simp
  | block stands _ _ _ ih => exact List.forall_mem_cons.mpr ⟨stands.begins, ih⟩

/-- Where no word goes on, the next block does not begin at once. -/
theorem Series.lt (h : Series text cursor blocks)
    (apart : (text[cursor]?).any Bytes.isIdent = false) : ∀ b ∈ blocks, cursor < b.span.start := by
  intro b hb
  refine Nat.lt_of_le_of_ne (h.le b hb) fun same => ?_
  rw [same, (h.begins b hb).occurs.any_isIdent Keyword.isWord_fixedBegin] at apart
  contradiction

theorem Series.increasing (h : Series text cursor blocks) :
    blocks.Pairwise fun a b => a.span.stop < b.span.start := by
  induction h with
  | done => exact .nil
  | block stands _ _ later ih => exact .cons (later.lt (stands.ending ▸ stands.ends.behind)) ih

/-- Every keyword begins a block or stands in the arguments of one. -/
theorem Series.recorded (h : Series text cursor blocks) {i : Nat} (le : cursor ≤ i)
    (terminates : Terminates text Keyword.fixedBegin 0 i) :
    (∃ b ∈ blocks, b.span.start = i) ∨ ∃ b ∈ blocks, ∃ args, b.HasArguments text args ∧
      args.start ≤ i ∧ i + Keyword.fixedBegin.length ≤ args.stop := by
  induction h with
  | done none => exact absurd terminates (none i le)
  | @block cursor l o c later stands ahead unseen _ ih =>
    rcases Nat.lt_trichotomy i l.beginning.start with before | here | behind
    · exact absurd terminates (unseen i le before)
    · exact .inl ⟨_, List.mem_cons_self, here.symm⟩
    · rcases Nat.lt_or_ge i l.ending.stop with inside | outside
      · obtain ⟨low, high⟩ := stands.in_args terminates behind inside
        exact .inr ⟨_, List.mem_cons_self, _, stands.hasArguments, low, high⟩
      · rcases ih outside with ⟨b, hb, here⟩ | ⟨b, hb, inside⟩
        · exact .inl ⟨b, List.mem_cons_of_mem _ hb, here⟩
        · exact .inr ⟨b, List.mem_cons_of_mem _ hb, inside⟩

/-- The spans of a text before, between and behind its blocks. -/
def segments (text : Bytes) (cursor : Nat) : List FixedBlock → List Span
  | [] => [⟨cursor, text.length⟩]
  | b :: later => ⟨cursor, b.span.start⟩ :: segments text b.span.stop later

end FixedBlock

structure Span.Within (text : Bytes) (span : Span) : Prop where
  le : span.start ≤ span.stop
  inside : span.stop ≤ text.length
  starts : Utf8.isBoundary text span.start = true
  stops : Utf8.isBoundary text span.stop = true

def Emission.Item.source? : Item → Option Bytes
  | .source text => some text
  | .line _ | .opening _ | .closing _ | .generated _ | .lineEnd => none

/-- The source in the execute function is what stands around the blocks. -/
theorem Emission.Setting.source_bodyFrom (s : Setting) (p : Pass) (k cursor : Nat)
    (blocks : List FixedBlock) : (s.bodyFrom p k cursor blocks).filterMap Item.source? =
      (FixedBlock.segments p.body cursor blocks).map (Bytes.slice p.body) := by
  induction blocks generalizing k cursor with
  | nil => simp [bodyFrom, FixedBlock.segments, Item.source?, Bytes.slice_to_end]
  | cons b later ih =>
    rw [FixedBlock.segments, List.map_cons, ← ih (k + 1)]
    rfl

/-- The spans of its body that the functions generated for a pass are made from. -/
def Pass.slices (p : Pass) : List Span :=
  FixedBlock.segments p.body 0 p.fixedBlocks ++ p.fixedBlocks.map (·.interior)

namespace FixedBlock

variable {text : Bytes} {cursor : Nat} {blocks : List FixedBlock}

theorem Placed.within {b : FixedBlock} (h : b.Placed text) : b.interior.Within text where
  le := h.le
  inside := by
    have := h.stop
    have := h.inside
    omega
  starts := h.boundaries _ (by simp)
  stops := h.boundaries _ (by simp)

theorem eq_of_start (placed : ∀ b ∈ blocks, b.Placed text)
    (increasing : blocks.Pairwise fun a b => a.span.stop < b.span.start) {b b' : FixedBlock}
    (hb : b ∈ blocks) (hb' : b' ∈ blocks) (same : b.span.start = b'.span.start) : b = b' := by
  have nodup : (blocks.map (·.span.start)).Nodup := by
    rw [List.Nodup, List.pairwise_map]
    refine increasing.imp_of_mem fun {x y} hx _ lt => ?_
    have := (placed x hx).start_lt
    have := (placed x hx).le
    have := (placed x hx).stop
    omega
  exact List.inj_on_of_nodup_map nodup hb hb' same

theorem within_segments (placed : ∀ b ∈ blocks, b.Placed text)
    (increasing : blocks.Pairwise fun a b => a.span.stop < b.span.start)
    (ahead : ∀ b ∈ blocks, cursor ≤ b.span.start) (inside : cursor ≤ text.length)
    (starts : Utf8.isBoundary text cursor = true) :
    ∀ x ∈ segments text cursor blocks, x.Within text := by
  induction blocks generalizing cursor with
  | nil =>
    rw [segments, List.forall_mem_singleton]
    exact ⟨inside, Nat.le_refl _, starts, by simp [Utf8.isBoundary]⟩
  | cons b later ih =>
    obtain ⟨first, rest⟩ := List.forall_mem_cons.mp placed
    obtain ⟨before, after⟩ := List.pairwise_cons.mp increasing
    have le := (List.forall_mem_cons.mp ahead).1
    have := first.start_lt
    have := first.le
    have := first.stop
    have last := first.inside
    refine List.forall_mem_cons.mpr ⟨⟨le, ?_, starts, first.boundaries _ (by simp)⟩, ?_⟩
    · dsimp only
      omega
    · exact ih rest after (fun x hx => Nat.le_of_lt (before x hx)) last
        (first.boundaries _ (by simp))

end FixedBlock

/-- What the fixed blocks of a pass say about its body. -/
structure Pass.Blocks (p : Pass) : Prop where
  placed : ∀ b ∈ p.fixedBlocks, b.Placed p.body
  increasing : p.fixedBlocks.Pairwise fun a b => a.span.stop < b.span.start
  /-- A keyword begins a block, unless it is an argument of one. -/
  recorded : ∀ i, Terminates p.body Keyword.fixedBegin 0 i →
    (∃! b, b ∈ p.fixedBlocks ∧ b.span.start = i) ∨
      ∃ b ∈ p.fixedBlocks, ∃ args, b.HasArguments p.body args ∧ args.start ≤ i ∧
        i + Keyword.fixedBegin.length ≤ args.stop
  within : ∀ x ∈ p.slices, x.Within p.body

theorem Pass.Parts.valid_body {source : Bytes} (valid : Utf8.isValid source = true) {p : Pass}
    {span : Span} {o c : Mark} (h : p.Parts source span o c) : Utf8.isValid p.body = true := by
  have first := getElem?_of_mem_scan h.opener
  have last := getElem?_of_mem_scan h.closer
  rw [(Mark.isCodeByte_iff.mp h.opens).2] at first
  rw [(Mark.isCodeByte_iff.mp h.closes).2] at last
  rw [h.body]
  exact Utf8.isValid_slice valid first last (by decide) (by decide)

/-- The blocks of every pass of a valid source stand apart in its body, and no keyword is lost. -/
theorem Graph.parse_blocks {source : Bytes} (valid : Utf8.isValid source = true) {g : Graph}
    (parsed : (parse source).result = .ok g) : ∀ p ∈ g.passes, p.Blocks := by
  intro p hp
  obtain ⟨span, o, c, parts⟩ := parts_of_parse parsed hp
  have series := FixedBlock.series_of_readFrom resumes_zero (.inl rfl) parts.readAll_body
  have placed := series.placed (parts.valid_body valid)
  have increasing := series.increasing
  refine ⟨placed, increasing, ?_, ?_⟩
  · intro i terminates
    rcases series.recorded (Nat.zero_le _) terminates with ⟨b, hb, rfl⟩ | inside
    · refine .inl ⟨b, ⟨hb, rfl⟩, ?_⟩
      rintro b' ⟨hb', same⟩
      exact FixedBlock.eq_of_start placed increasing hb' hb same
    · exact .inr inside
  · rw [Pass.slices]
    refine List.forall_mem_append.mpr ⟨?_, ?_⟩
    · exact FixedBlock.within_segments placed increasing (fun _ _ => Nat.zero_le _) (Nat.zero_le _)
        (Utf8.isBoundary_zero (parts.valid_body valid))
    · exact List.forall_mem_map.mpr fun b hb => (placed b hb).within

/-- Two blocks, one with a keyword for an argument and one with a commented keyword in it. -/
theorem Graph.parse_blocks_two : Pass.Blocks
    ⟨bytes "p", {}, [⟨⟨7, 49⟩, ⟨34, 40⟩, .ofText (bytes "a"), .ofText (bytes "FIXED_BEGIN")⟩,
      ⟨⟨50, 92⟩, ⟨67, 83⟩, .ofText (bytes "a"), .ofText (bytes "0")⟩],
      bytes " \"é\"; FIXED_BEGIN(a, FIXED_BEGIN) x(); FIXED_END " ++
        bytes "FIXED_BEGIN(a, 0)/* FIXED_END */ FIXED_END ", []⟩ :=
  @parse_blocks
    (bytes "PASS_BEGIN(p) \x7b \"é\"; FIXED_BEGIN(a, FIXED_BEGIN) x(); FIXED_END " ++
      bytes "FIXED_BEGIN(a, 0)/* FIXED_END */ FIXED_END \x7d PASS_END")
    (by decide +kernel) ⟨[], [_]⟩ (by decide +kernel) _ List.mem_cons_self

/-- A keyword among the arguments of a block begins no block. -/
theorem Graph.parse_argument_unrecorded : ∃ p, (parse (bytes
      "PASS_BEGIN(p) \x7b FIXED_BEGIN(a, FIXED_BEGIN) x(); FIXED_END \x7d PASS_END")).result =
        .ok ⟨[], [p]⟩ ∧
    Terminates p.body Keyword.fixedBegin 0 16 ∧ ∀ b ∈ p.fixedBlocks, b.span.start ≠ 16 := by
  refine ⟨⟨bytes "p", {}, [⟨⟨1, 43⟩, ⟨28, 34⟩, .ofText (bytes "a"),
    .ofText (bytes "FIXED_BEGIN")⟩],
    bytes " FIXED_BEGIN(a, FIXED_BEGIN) x(); FIXED_END ", []⟩, by decide +kernel, ?_, by simp⟩
  exact ⟨⟨⟨⟨16, 0x46, .code⟩, by decide +kernel, rfl, rfl⟩, by decide +kernel⟩, by decide +kernel⟩

end PassCompiler
