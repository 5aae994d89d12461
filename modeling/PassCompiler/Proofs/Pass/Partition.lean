import PassCompiler.Proofs.Pass.Steps
import PassCompiler.Proofs.Source.Filler
import PassCompiler.Proofs.Source.Terminator

/-! A parsed source is cut into its passes and the text between them, and no byte is lost. -/
namespace PassCompiler

open Source

variable {source : Bytes}

namespace Source

/-- What stands between a delimiter and the one that closes it. -/
theorem balanced_of_matchingClose {s : Bytes} {kind : Delimiter} {o : Mark} {close : Nat}
    (ho : o ∈ scan s 0) (opens : o.isCodeByte kind.opener = true)
    (h : matchingClose s o.offset = some close) :
    kind.Balanced (scan (Bytes.slice s ⟨o.offset + 1, close⟩) 0) := by
  have here : s[o.offset]? = some kind.opener := by
    rw [getElem?_of_mem_scan ho, (Mark.isCodeByte_iff.mp opens).2]
  have resumes := resumes_of_mem ho (Mark.isCodeByte_iff.mp opens).1
  rw [matchingClose_eq here] at h
  obtain ⟨⟨c, behind⟩, closed, rfl⟩ := Option.map_eq_some_iff.mp h
  obtain ⟨inside, split, deep, closes⟩ := Group.close?_eq_some_iff.mp closed
  have member : c ∈ scan s 0 := by
    have ahead : c ∈ scan s (o.offset + 1) := split ▸ List.mem_append_right _ List.mem_cons_self
    rw [scan_drop resumes] at ahead
    exact List.mem_of_mem_drop ahead
  have at' : c.offset = o.offset + 1 + inside.length := by
    have ahead : (scan s (o.offset + 1))[inside.length]? = some c := by
      simp [split]
    exact offset_of_getElem?_scanFrom ahead
  have window : scan (s.take c.offset) (o.offset + 1) = inside := by
    rw [scan_window resumes (stops_of_mem member (Mark.isCodeByte_iff.mp closes).1), at',
      ← List.take_drop, ← scan_drop resumes, split]
    simp
  rw [Delimiter.Balanced, ← deep, ← window, scan_slice]
  exact (Delimiter.depth_alike
    ((tracks_shift True (o.offset + 1) _).imp fun _ _ same => same.toAlike)).symm

end Source

/-- How a pass is laid out in its span of the source. -/
structure Pass.Layout (source : Bytes) (span : Span) (header body filler : Bytes) : Prop where
  text : Bytes.slice source span = header ++ [0x7B] ++ body ++ [0x7D] ++ filler ++ Keyword.passEnd
  begins : Keyword.passBegin <+: header
  blank : Filler filler
  /-- The braces are code, and the second one closes the first. -/
  opener : Occurs source [0x7B] (span.start + header.length)
  closer : Occurs source [0x7D] (span.start + header.length + 1 + body.length)
  matching : matchingClose source (span.start + header.length) =
    some (span.start + header.length + 1 + body.length)

/-- The pass that stands in a span of the source, its epilogue apart. -/
structure Pass.StandsAt (source : Bytes) (p : Pass) (span : Span) : Prop where
  read : (Pass.read source span.start).result = .ok ({ p with epilogue := [] }, span.stop)
  begins : Occurs source Keyword.passBegin span.start
  ends : ∃ i, Occurs source Keyword.passEnd i ∧ span.stop = i + Keyword.passEnd.length
  layout : ∃ header filler, Pass.Layout source span header p.body filler
  balanced : Delimiter.brace.Balanced (scan p.body 0)

theorem Source.occurs_single {s : Bytes} {m : Mark} {b : UInt8} (hm : m ∈ scan s 0)
    (h : m.isCodeByte b = true) : Occurs s [b] m.offset := by
  obtain ⟨code, byte⟩ := Mark.isCodeByte_iff.mp h
  refine ⟨⟨m, hm, rfl, code⟩, ?_⟩
  obtain ⟨lt, here⟩ := List.getElem?_eq_some_iff.mp (getElem?_of_mem_scan hm)
  rw [List.drop_eq_getElem_cons lt, here, byte]
  exact List.cons_prefix_cons.mpr ⟨rfl, List.nil_prefix⟩

theorem Source.Occurs.slice {s keyword : Bytes} {i : Nat} (h : Occurs s keyword i) :
    Bytes.slice s ⟨i, i + keyword.length⟩ = keyword := Bytes.slice_of_prefix h.spelled

/-- The text of a pass around the braces `o` and `c` of its body. -/
theorem Pass.slice_around {start : Nat} {o c : Mark} {ending : Span} (ho : o ∈ scan source 0)
    (opens : o.isCodeByte Delimiter.brace.opener = true) (hc : c ∈ scan source 0)
    (closes : c.isCodeByte Delimiter.brace.closer = true)
    (ends : Occurs source Keyword.passEnd ending.start)
    (long : ending.stop = ending.start + Keyword.passEnd.length)
    (first : start ≤ o.offset) (later : o.offset < c.offset) (last : c.offset < ending.start) :
    Bytes.slice source ⟨start, ending.stop⟩ =
      Bytes.slice source ⟨start, o.offset⟩ ++ [0x7B] ++
        Bytes.slice source ⟨o.offset + 1, c.offset⟩ ++ [0x7D] ++
          Bytes.slice source ⟨c.offset + 1, ending.start⟩ ++ Keyword.passEnd := by
  have opener := Bytes.slice_single (x := source) (i := o.offset) (getElem?_of_mem_scan ho)
  have closer := Bytes.slice_single (x := source) (i := c.offset) (getElem?_of_mem_scan hc)
  rw [(Mark.isCodeByte_iff.mp opens).2] at opener
  rw [(Mark.isCodeByte_iff.mp closes).2] at closer
  have keyword := ends.slice
  rw [← long] at keyword
  rw [Bytes.slice_append (a := start) (b := o.offset) (by omega) (by omega),
    Bytes.slice_append (a := o.offset) (b := o.offset + 1) (by omega) (by omega),
    Bytes.slice_append (a := o.offset + 1) (b := c.offset) (by omega) (by omega),
    Bytes.slice_append (a := c.offset) (b := c.offset + 1) (by omega) (by omega),
    Bytes.slice_append (a := c.offset + 1) (b := ending.start) (by omega) (by omega),
    opener, closer, keyword]
  simp only [List.append_assoc]
  rfl

theorem Pass.Braces.layout {start : Nat} {o c : Mark} {ending : Span}
    (braces : Braces source ending.start o c) (begins : Occurs source Keyword.passBegin start)
    (low : start + Keyword.passBegin.length ≤ o.offset)
    (ends : Occurs source Keyword.passEnd ending.start)
    (long : ending.stop = ending.start + Keyword.passEnd.length) :
    Layout source ⟨start, ending.stop⟩ (Bytes.slice source ⟨start, o.offset⟩)
      (Bytes.slice source ⟨o.offset + 1, c.offset⟩)
      (Bytes.slice source ⟨c.offset + 1, ending.start⟩) := by
  obtain ⟨ho, opens, hc, closes, matching, inside, le, clean⟩ := braces
  obtain ⟨e, he, at', code, byte⟩ := (occurs_iff Keyword.isWord_passEnd).mp ends 0 0x50 rfl
  rw [Nat.add_zero] at at'
  have apart : c.offset ≠ ending.start := by
    intro same
    have eq := eq_of_mem_scan hc he (same.trans at'.symm)
    rw [eq, Mark.isCodeByte, byte, Bool.and_eq_true] at closes
    exact absurd closes.2 (by decide)
  have resumes := resumes_of_mem hc (Mark.isCodeByte_iff.mp closes).1
  rw [← at'] at clean
  have blank := filler_of_nextCode resumes he code (by rw [byte]; decide) (by omega) clean
  have matched := Bytes.length_slice (a := start) (Nat.le_of_lt (offset_lt_of_mem ho))
  have braced := Bytes.length_slice (a := o.offset + 1) (Nat.le_of_lt (offset_lt_of_mem hc))
  have head : start + (Bytes.slice source ⟨start, o.offset⟩).length = o.offset := by omega
  have foot : o.offset + 1 + (Bytes.slice source ⟨o.offset + 1, c.offset⟩).length = c.offset := by
    omega
  refine ⟨?_, ?_, at' ▸ blank, ?_, ?_, ?_⟩
  · exact slice_around ho opens hc closes ends long (by omega) (by omega) (by omega)
  · rw [Bytes.slice_append (a := start) (b := start + Keyword.passBegin.length) (by omega) low,
      begins.slice]
    exact List.prefix_append _ _
  · rw [head]
    exact occurs_single ho opens
  · rw [head, foot]
    exact occurs_single hc closes
  · rw [head, foot]
    exact matching

/-- A pass stands where it is read, and no identifier goes on behind it. -/
theorem Pass.standsAt_of_read {start stop : Nat} {p : Pass}
    (begins : Occurs source Keyword.passBegin start)
    (h : (read source start).result = .ok (p, stop)) :
    p.StandsAt source ⟨start, stop⟩ ∧ (source[stop]?).any Bytes.isIdent = false := by
  obtain ⟨close, ending, _, _, steps, rfl⟩ := (read_ok_iff begins.spelled).mp h
  obtain ⟨ends, long⟩ := steps.ends begins
  obtain ⟨o, c, braces, named, low, rfl, rfl⟩ := steps.braces begins
  refine ⟨⟨?_, begins, ⟨ending.start, ends, long⟩, ?_, ?_⟩, ?_⟩
  · rwa [← steps.bare]
  · rw [steps.text]
    exact ⟨_, _, braces.layout begins (by omega) ends long⟩
  · rw [steps.text]
    exact balanced_of_matchingClose braces.opener braces.opens braces.matching
  · have fits := (find_eq_found_iff.mp (find_of_readEnd steps.ended)).2.1.accepted
    rw [← long, Boundary.accepts, Bool.and_eq_true, Bool.not_eq_true'] at fits
    exact fits.2

def Free (text : Bytes) : Prop :=
  ∀ i, Occurs text Keyword.passBegin i →
    Boundary.terminator.accepts text 0 ⟨i, i + Keyword.passBegin.length⟩ = false

theorem free_of_twin {final : Prop} {d : Nat} {text : Bytes} (t : Twin True final d text source)
    (absent : ∀ i, i + Keyword.passBegin.length ≤ text.length →
      ¬ Sighted source ⟨d, source.length⟩ Keyword.passBegin .terminator (i + d)) : Free text := by
  intro i occurs
  by_contra fits
  have short := occurs.spelled.length_le
  have lt := occurs.lt_length
  rw [List.length_drop] at short
  have inside : i + Keyword.passBegin.length ≤ text.length := by omega
  apply absent i inside
  have here : Sighted text ⟨0, text.length⟩ Keyword.passBegin .terminator i :=
    (sighted_iff Keyword.isWord_passBegin.1 resumes_zero stops_length).mpr
      ⟨Nat.zero_le _, inside, occurs, by simpa using fits⟩
  have there := (t.sighted Keyword.isWord_passBegin resumes_zero .whole inside).mpr here
  rwa [Nat.zero_add] at there

theorem free_of_short {text : Bytes} (h : text.length < Keyword.passBegin.length) : Free text := by
  intro i occurs
  have short := occurs.spelled.length_le
  rw [List.length_drop] at short
  omega

/-- What is left of a source is scanned as it is there. -/
theorem twin_drop {cursor : Nat} (resumes : Resumes source cursor) :
    Twin True True cursor (source.drop cursor) source where
  base := resumes
  tracks := by
    have split : (scan source 0).drop cursor =
        (scan (source.drop cursor) 0).map (Mark.shift cursor) := by
      rw [← scan_drop resumes, ← Bytes.slice_to_end, ← scan_slice, List.take_length]
    exact ⟨_, [], by rw [split, List.append_nil], tracks_shift .., fun _ => rfl⟩
  ending := .inl trivial

/-- So is the text before a pass: the blank before the pass ends it, unless there is none. -/
theorem twin_before {cursor stop : Nat} (resumes : Resumes source cursor)
    (begins : Terminates source Keyword.passBegin cursor stop) (later : cursor < stop) :
    Twin True False cursor (Bytes.slice source ⟨cursor, stop⟩) source := by
  obtain ⟨b, last, blank⟩ := begins.blank (Nat.ne_of_gt later)
  have lt := begins.occurs.lt_length
  have long := Bytes.length_slice (a := cursor) (Nat.le_of_lt lt)
  obtain ⟨m, hm, at', code, byte⟩ :=
    (occurs_iff Keyword.isWord_passBegin).mp begins.occurs 0 0x50 rfl
  obtain ⟨n, hn, before⟩ := exists_mem_scan (s := source) (i := stop - 1) (by omega)
  rw [← before, getElem?_of_mem_scan hn, Option.some.injEq] at last
  rw [← last] at blank
  -- Code right behind a comment is a line feed, or the comment ends with a slash.
  have code' : n.isCode = true := by
    by_contra comment
    have near := (adjacent_of_mem hn hm (by omega)).2 (by simpa using comment) code
    rw [byte] at near
    rw [near.resolve_left (by decide)] at blank
    exact absurd blank (by decide)
  have window := scan_window resumes begins.occurs.stops
  rw [scan_slice] at window
  exact {
    base := resumes
    tracks := by
      refine ⟨_, (scan source 0).drop stop, ?_, tracks_shift .., False.elim⟩
      rw [window, ← List.drop_append_of_le_length (by simp; omega), List.take_append_drop]
    ending := by
      have inside : n ∈ scan (source.take stop) cursor :=
        (mem_window_iff resumes begins.occurs.stops).mpr ⟨hn, by omega, by omega⟩
      rw [scan_slice] at inside
      obtain ⟨n', member, rfl⟩ := List.mem_map.mp inside
      dsimp only [Mark.shift] at before blank
      exact .inr ⟨n', member, by omega, code', Bytes.not_isIdent_of_isBlank blank⟩ }

theorem twin_slice {cursor : Nat} (resumes : Resumes source cursor) {span : Span}
    (found : find source ⟨cursor, source.length⟩ Keyword.passBegin .terminator = .found span)
    (later : cursor < span.start) :
    Twin True False cursor (Bytes.slice source ⟨cursor, span.start⟩) source := by
  obtain ⟨_, here, _⟩ := find_eq_found_iff.mp found
  have begins := (sighted_iff_terminates Keyword.isWord_passBegin resumes stops_length).mp here
  exact twin_before resumes begins.2.2 later

theorem free_drop {cursor : Nat} (resumes : Resumes source cursor)
    (absent : ∀ span, find source ⟨cursor, source.length⟩ Keyword.passBegin .terminator ≠
      .found span) : Free (source.drop cursor) :=
  free_of_twin (twin_drop resumes) fun i _ => find_ne_found_iff.mp absent (i + cursor)

theorem free_slice {cursor : Nat} (resumes : Resumes source cursor) {span : Span}
    (found : find source ⟨cursor, source.length⟩ Keyword.passBegin .terminator = .found span) :
    Free (Bytes.slice source ⟨cursor, span.start⟩) := by
  obtain ⟨_, _, first⟩ := find_eq_found_iff.mp found
  obtain ⟨occurs, _, after, _⟩ :=
    occurs_of_find Keyword.isWord_passBegin resumes stops_length found
  have long := Bytes.length_slice (a := cursor) (Nat.le_of_lt occurs.lt_length)
  rcases Nat.eq_or_lt_of_le after with same | later
  · apply free_of_short
    rw [long, same, Nat.sub_self]
    decide
  · refine free_of_twin (twin_slice resumes found later) fun i inside => first (i + cursor) ?_
    have keyword : Keyword.passBegin.length = 10 := by decide
    omega

/-- A span between passes: no word goes on into it, and it is scanned alone as it is in the source,
unless it is empty. -/
structure Gap (source : Bytes) (x : Span) : Prop where
  le : x.start ≤ x.stop
  inside : x.stop ≤ source.length
  edge : Edge source x.start
  twin : x.start < x.stop → ∃ final, Twin True final x.start (Bytes.slice source x) source

/-- The text between passes has the terminators that stand there in the source. -/
theorem Gap.terminates_iff {x : Span} (h : Gap source x) {keyword : Bytes}
    (isWord : IsWord keyword) {i : Nat} : Terminates (Bytes.slice source x) keyword 0 i ↔
      x.start + i + keyword.length ≤ x.stop ∧ Terminates source keyword 0 (x.start + i) := by
  have long : (Bytes.slice source x).length = x.stop - x.start := Bytes.length_slice h.inside
  have filled := List.length_pos_iff.mpr isWord.1
  have le := h.le
  have alike (inside : x.start + i + keyword.length ≤ x.stop) :
      Terminates (Bytes.slice source x) keyword 0 i ↔
        Terminates source keyword 0 (x.start + i) := by
    obtain ⟨final, t⟩ := h.twin (by omega)
    have same : Sighted source ⟨0 + x.start, source.length⟩ keyword .terminator (i + x.start) ↔
        Sighted (Bytes.slice source x) ⟨0, (Bytes.slice source x).length⟩ keyword .terminator i :=
      t.sighted isWord resumes_zero .whole (by omega)
    rw [sighted_iff_terminates isWord (t.resumes resumes_zero) stops_length,
      sighted_iff_terminates isWord resumes_zero stops_length, Nat.zero_add,
      h.edge.terminates_iff isWord (Nat.le_add_left ..), Nat.add_comm i] at same
    constructor
    · intro terminates
      exact (same.mpr ⟨Nat.zero_le _, by omega, terminates⟩).2.2
    · intro terminates
      exact (same.mp ⟨by omega, terminates.occurs.le_length, terminates⟩).2.2
  constructor
  · intro terminates
    have short := terminates.occurs.le_length
    have inside : x.start + i + keyword.length ≤ x.stop := by omega
    exact ⟨inside, (alike inside).mp terminates⟩
  · rintro ⟨inside, terminates⟩
    exact (alike inside).mpr terminates

namespace Span

/-- The spans before, between and behind some spans. -/
def between (stop cursor : Nat) : List Span → List Span
  | [] => [⟨cursor, stop⟩]
  | x :: rest => ⟨cursor, x.start⟩ :: between stop x.stop rest

/-- What has no part in the spans stands between them. -/
theorem exists_between {stop cursor i j : Nat} {spans : List Span} (after : cursor ≤ i)
    (before : j ≤ stop) (apart : ∀ x ∈ spans, j ≤ x.start ∨ x.stop ≤ i) :
    ∃ x ∈ between stop cursor spans, x.start ≤ i ∧ j ≤ x.stop := by
  induction spans generalizing cursor with
  | nil => exact ⟨_, List.mem_singleton_self _, after, before⟩
  | cons x rest ih =>
    obtain ⟨first, later⟩ := List.forall_mem_cons.mp apart
    rcases first with ahead | behind
    · exact ⟨_, List.mem_cons_self, after, ahead⟩
    · obtain ⟨y, member, inside⟩ := ih behind later
      exact ⟨y, List.mem_cons_of_mem _ member, inside⟩

/-- What stands between the spans has no part in them. -/
theorem apart_of_mem_between {stop cursor : Nat} {spans : List Span}
    (increasing : (spans.flatMap fun x => [x.start, x.stop]).Pairwise (· < ·))
    (ahead : ∀ y ∈ spans, cursor ≤ y.start) :
    ∀ x ∈ between stop cursor spans, cursor ≤ x.start ∧
      ∀ y ∈ spans, x.stop ≤ y.start ∨ y.stop ≤ x.start := by
  induction spans generalizing cursor with
  | nil => exact List.forall_mem_singleton.mpr ⟨Nat.le_refl _, nofun⟩
  | cons z rest ih =>
    obtain ⟨least, increasing⟩ := List.pairwise_cons.mp increasing
    obtain ⟨next, increasing⟩ := List.pairwise_cons.mp increasing
    have first := ahead z List.mem_cons_self
    have long := least z.stop List.mem_cons_self
    have behind (y) (member : y ∈ rest) : z.stop < y.start :=
      next _ (List.mem_flatMap.mpr ⟨y, member, List.mem_cons_self⟩)
    refine List.forall_mem_cons.mpr ⟨⟨Nat.le_refl _, List.forall_mem_cons.mpr
      ⟨.inl (Nat.le_refl _), fun y member => .inl ?_⟩⟩, fun x member => ?_⟩
    · have := behind y member
      dsimp only
      omega
    · obtain ⟨low, others⟩ :=
        ih increasing (fun y member => Nat.le_of_lt (behind y member)) x member
      exact ⟨by omega, List.forall_mem_cons.mpr ⟨.inr low, others⟩⟩

end Span

/-- The texts before, between and behind some spans. -/
def Graph.gaps (source : Bytes) (cursor : Nat) : List Span → List Bytes
  | [] => [source.drop cursor]
  | span :: rest => Bytes.slice source ⟨cursor, span.start⟩ :: gaps source span.stop rest

/-- The text of some spans, each with the text behind the pass in it. -/
def Graph.refilled (source : Bytes) (spans : List Span) (passes : List Pass) : Bytes :=
  (List.zipWith (fun x p => Bytes.slice source x ++ p.epilogue) spans passes).flatten

/-- The spans of the passes of a source, in increasing order, with the text between them. -/
structure Graph.Partition (source : Bytes) (g : Graph) (spans : List Span) : Prop where
  increasing : (spans.flatMap fun x => [x.start, x.stop]).Pairwise (· < ·)
  inside : ∀ x ∈ spans, x.stop ≤ source.length
  passes : List.Forall₂ (Pass.StandsAt source) g.passes spans
  between : g.prelude :: g.passes.map (·.epilogue) = gaps source 0 spans
  whole : g.prelude ++ refilled source spans g.passes = source
  free : ∀ text ∈ g.prelude :: g.passes.map (·.epilogue), Free text

/-- A pass that stands behind `cursor` does so at some distance, unless an identifier stands
there. -/
theorem Pass.StandsAt.lt {p : Pass} {span : Span} (h : p.StandsAt source span) {cursor : Nat}
    (le : cursor ≤ span.start) (apart : (source[cursor]?).any Bytes.isIdent = false) :
    cursor < span.start := by
  apply Nat.lt_of_le_of_ne le
  intro same
  obtain ⟨m, hm, at', _, byte⟩ := (occurs_iff Keyword.isWord_passBegin).mp h.begins 0 0x50 rfl
  rw [same, ← Nat.add_zero span.start, ← at', getElem?_of_mem_scan hm, byte] at apart
  exact absurd apart (by decide)

theorem Graph.gaps_eq (source : Bytes) (cursor : Nat) (spans : List Span) :
    gaps source cursor spans =
      (Span.between source.length cursor spans).map (Bytes.slice source) := by
  induction spans generalizing cursor with
  | nil => rw [gaps, Span.between, List.map_singleton, Bytes.slice_to_end]
  | cons x rest ih => rw [gaps, Span.between, List.map_cons, ih]

namespace Graph.Reads

variable {cursor : Nat} {before : Bytes} {passes : List Pass} {spans : List Span}

theorem cursor_le (h : Reads source cursor before passes spans) :
    ∀ x ∈ spans.head?, cursor ≤ x.start := by
  cases h with
  | rest => nofun
  | pass resumes seen =>
    rintro _ ⟨⟩
    exact (occurs_of_find Keyword.isWord_passBegin resumes stops_length seen).2.2.1

theorem standsAt (h : Reads source cursor before passes spans) :
    List.Forall₂ (Pass.StandsAt source) passes spans := by
  induction h with
  | rest => exact .nil
  | pass resumes seen first _ ih =>
    have occurs := (occurs_of_find Keyword.isWord_passBegin resumes stops_length seen).1
    exact .cons { (Pass.standsAt_of_read occurs first).1 with } ih

/-- A pass ends in the source, some way before the next one begins. -/
theorem isChain (h : Reads source cursor before passes spans) :
    (spans.flatMap fun x => [x.start, x.stop]).IsChain (· < ·) := by
  induction h with
  | rest => exact .nil
  | pass resumes seen first later ih =>
    have occurs := (occurs_of_find Keyword.isWord_passBegin resumes stops_length seen).1
    have apart := (Pass.standsAt_of_read occurs first).2
    refine List.isChain_cons_cons.mpr ⟨(Pass.bounds_of_read first).1, ?_⟩
    have ahead := later.cursor_le
    cases later.standsAt with
    | nil => exact .singleton _
    | cons next _ => exact List.isChain_cons_cons.mpr ⟨next.lt (ahead _ rfl) apart, ih⟩

theorem stop_le (h : Reads source cursor before passes spans) :
    ∀ x ∈ spans, x.stop ≤ source.length := by
  induction h with
  | rest => nofun
  | pass _ _ first _ ih => exact List.forall_mem_cons.mpr ⟨(Pass.bounds_of_read first).2, ih⟩

theorem between (h : Reads source cursor before passes spans) :
    before :: passes.map (·.epilogue) = gaps source cursor spans := by
  induction h with
  | rest => rfl
  | pass _ _ _ _ ih => exact congrArg (_ :: ·) ih

theorem whole (h : Reads source cursor before passes spans) :
    before ++ refilled source spans passes = source.drop cursor := by
  induction h with
  | rest => exact List.append_nil _
  | pass resumes seen first _ ih =>
    obtain ⟨_, _, after, _⟩ := occurs_of_find Keyword.isWord_passBegin resumes stops_length seen
    have bounds := Pass.bounds_of_read first
    rw [refilled] at ih ⊢
    rw [List.zipWith_cons_cons, List.flatten_cons, List.append_assoc, ih,
      ← Bytes.slice_to_end, ← Bytes.slice_to_end,
      ← Bytes.slice_append (Nat.le_of_lt bounds.1) bounds.2,
      ← Bytes.slice_append after (by omega)]

theorem free (h : Reads source cursor before passes spans) :
    ∀ text ∈ before :: passes.map (·.epilogue), Free text := by
  induction h with
  | rest resumes absent => exact List.forall_mem_singleton.mpr (free_drop resumes absent)
  | pass resumes seen _ _ ih => exact List.forall_mem_cons.mpr ⟨free_slice resumes seen, ih⟩

theorem gap (h : Reads source cursor before passes spans) (start : cursor ≤ source.length)
    (edge : Edge source cursor) : ∀ x ∈ Span.between source.length cursor spans, Gap source x := by
  induction h with
  | rest resumes =>
    refine List.forall_mem_singleton.mpr ⟨start, Nat.le_refl _, edge, fun _ => ⟨True, ?_⟩⟩
    rw [Bytes.slice_to_end]
    exact twin_drop resumes
  | pass resumes seen first _ ih =>
    obtain ⟨occurs, _, after, _⟩ :=
      occurs_of_find Keyword.isWord_passBegin resumes stops_length seen
    have apart := (Pass.standsAt_of_read occurs first).2
    have later := ih (Pass.bounds_of_read first).2 (.inr apart)
    have twin := twin_slice resumes seen
    exact List.forall_mem_cons.mpr
      ⟨⟨after, Nat.le_of_lt occurs.lt_length, edge, fun filled => ⟨_, twin filled⟩⟩, later⟩

end Graph.Reads

/-- The passes of a parsed source, and the spans between them. -/
theorem Graph.exists_partition {g : Graph} (parsed : (parse source).result = .ok g) :
    ∃ spans, g.Partition source spans ∧ ∀ x ∈ Span.between source.length 0 spans, Gap source x := by
  rw [result_parse] at parsed
  obtain ⟨⟨prelude, passes⟩, read, rfl⟩ := Argument.exists_of_map_ok parsed
  obtain ⟨spans, reads⟩ := exists_reads resumes_zero read
  refine ⟨spans, ?_, reads.gap (Nat.zero_le _) (.inl rfl)⟩
  exact {
    increasing := List.isChain_iff_pairwise.mp reads.isChain
    inside := reads.stop_le
    passes := reads.standsAt
    between := reads.between
    whole := reads.whole
    free := reads.free }

/-- A source that can be parsed is the text of its passes and the text between them. -/
theorem Graph.parse_partition {g : Graph} (parsed : (parse source).result = .ok g) :
    ∃ spans, g.Partition source spans ∧ (g.passes = [] → g.prelude = source) := by
  obtain ⟨spans, partition, _⟩ := exists_partition parsed
  refine ⟨spans, partition, fun none => ?_⟩
  have all := partition.passes
  rw [none] at all
  cases all
  have whole := partition.whole
  rwa [none, refilled, List.zipWith_nil_left, List.flatten_nil, List.append_nil] at whole

/-- Two passes, the first with a commented keyword behind its body. -/
theorem Graph.parse_partition_two : ∃ spans, Graph.Partition
    (bytes "a PASS_BEGIN(x)\x7bf();\x7d /* PASS_END */ PASS_END b PASS_BEGIN(y)\x7b\x7d PASS_END")
    ⟨bytes "a ", [⟨bytes "x", {}, [], bytes "f();", bytes " b "⟩, ⟨bytes "y", {}, [], [], []⟩]⟩
    spans :=
  let ⟨spans, partition, _⟩ := parse_partition (by decide +kernel)
  ⟨spans, partition⟩

end PassCompiler
