import Mathlib.Order.Bounds.Basic
import PassCompiler.Proofs.Pass.FaultPlaces
import PassCompiler.Proofs.Pass.Grammar.Pass
import PassCompiler.Proofs.Pass.Prefix
import PassCompiler.Proofs.Source.Position

/-! The first malformed pass of a source. Passes are read one behind the other, so what cannot be
parsed has a first pass that cannot be read; everything before it is a source of its own, with the
passes that were read. Main statement: `Graph.parse_faults`. -/
namespace PassCompiler

open Source

variable {source before : Bytes} {b cursor : Nat} {e : Fault} {passes : List Pass}

def Source.beginnings (source : Bytes) (cursor : Nat) : Set Nat :=
  {i | cursor ≤ i ∧ Terminates source Keyword.passBegin 0 i}

/-- A search finds the first of them. -/
theorem Source.find_found_iff_isLeast (resumes : Resumes source cursor) (edge : Edge source cursor)
    {span : Span} :
    find source ⟨cursor, source.length⟩ Keyword.passBegin .terminator = .found span ↔
      span.stop = span.start + Keyword.passBegin.length ∧
        IsLeast (beginnings source cursor) span.start := by
  have sighted (i : Nat) : Sighted source ⟨cursor, source.length⟩ Keyword.passBegin .terminator i ↔
      i ∈ beginnings source cursor := by
    rw [sighted_iff_terminates Keyword.isWord_passBegin resumes stops_length]
    constructor
    · rintro ⟨after, _, terminates⟩
      exact ⟨after, (edge.terminates_iff Keyword.isWord_passBegin after).mp terminates⟩
    · rintro ⟨after, terminates⟩
      exact ⟨after, terminates.occurs.le_length,
        (edge.terminates_iff Keyword.isWord_passBegin after).mpr terminates⟩
  rw [find_eq_found_iff, sighted]
  refine and_congr_right fun _ => and_congr_right fun _ => ⟨fun first i member => ?_, ?_⟩
  · by_contra earlier
    exact first i (Nat.lt_of_not_le earlier) ((sighted i).mpr member)
  · intro least j lt here
    exact absurd (least ((sighted j).mp here)) (Nat.not_le.mpr lt)

/-- The text before a pass, read as a source of its own. -/
theorem Source.Terminates.twin_take (begins : Terminates source Keyword.passBegin 0 b)
    (later : 0 < b) : Twin True False 0 (source.take b) source :=
  twin_before resumes_zero begins later

/-- Behind a pass that was read, searches for the next one may begin. -/
theorem Pass.edge_of_read {start stop : Nat} {p : Pass}
    (begins : Terminates source Keyword.passBegin 0 start)
    (read : (read source start).result = .ok (p, stop)) :
    Resumes source stop ∧ Edge source stop :=
  ⟨resumes_of_read begins.occurs read, .inr (standsAt_of_read begins.occurs read).2⟩

namespace Graph

/-- What is read from `cursor` on before the pass at `b`: the text up to the first pass, and the
passes, each with the text behind it. -/
inductive ReadsUpTo (source : Bytes) (b : Nat) : Nat → Bytes → List Pass → Prop
  | stop {cursor : Nat} : IsLeast (beginnings source cursor) b →
      ReadsUpTo source b cursor (Bytes.slice source ⟨cursor, b⟩) []
  | pass {cursor start stop : Nat} {p : Pass} {epilogue : Bytes} {later : List Pass} :
      IsLeast (beginnings source cursor) start →
      (Pass.read source start).result = .ok (p, stop) → ReadsUpTo source b stop epilogue later →
      ReadsUpTo source b cursor (Bytes.slice source ⟨cursor, start⟩) ({ p with epilogue } :: later)

/-- Reading fails at a pass, behind those that were read. -/
theorem exists_readsUpTo (resumes : Resumes source cursor) (edge : Edge source cursor)
    (failed : (readFrom source cursor).result = .error e) :
    ∃ b before passes, ReadsUpTo source b cursor before passes ∧
      (Pass.read source b).result = .error e := by
  induction cursor using readFrom_induction source with
  | pass cursor beginning seen ih =>
    obtain ⟨_, least⟩ := (find_found_iff_isLeast resumes edge).mp seen
    rw [result_readFrom, seen] at failed
    dsimp only at failed
    cases read : (Pass.read source beginning.start).result with
    | error e' =>
      rw [read] at failed
      obtain rfl := Except.error.inj failed
      exact ⟨_, _, _, .stop least, read⟩
    | ok x =>
      obtain ⟨p, stop⟩ := x
      obtain ⟨resumes', edge'⟩ := Pass.edge_of_read least.1.2 read
      rw [read, Except.bind] at failed
      cases rest : (readFrom source stop).result with
      | error e' =>
        dsimp only at failed
        rw [rest] at failed
        obtain rfl := Except.error.inj failed
        obtain ⟨b, before, passes, reads, fails⟩ := ih p stop read resumes' edge' rest
        exact ⟨b, _, _, .pass least read reads, fails⟩
      | ok y =>
        dsimp only at failed
        rw [rest] at failed
        contradiction
  | rest cursor absent =>
    rw [result_readFrom_rest absent] at failed
    contradiction

namespace ReadsUpTo

theorem mem_beginnings (h : ReadsUpTo source b cursor before passes) :
    b ∈ beginnings source cursor := by
  induction h with
  | stop least => exact least.1
  | pass least read _ ih =>
    have bounds := Pass.bounds_of_read read
    have after := least.1.1
    exact ⟨by have := ih.1; omega, ih.2⟩

/-- The text before `b` has the passes that were read. -/
theorem reads_take (h : ReadsUpTo source b cursor before passes)
    (resumes : Resumes source cursor) (edge : Edge source cursor)
    (t : Twin True False 0 (source.take b) source) :
    ∃ spans, Reads (source.take b) cursor before passes spans := by
  have begins := h.mem_beginnings.2
  induction h with
  | @stop cursor least =>
    -- A pass that the part had would begin in the source before `b`, too.
    have cut := resumes_take begins.occurs.stops resumes least.1.1
    refine ⟨_, .rest cut fun span seen => ?_⟩
    have whole : find source ⟨cursor, source.length⟩ Keyword.passBegin .terminator =
      .found span := t.find_found Keyword.isWord_passBegin cut .whole seen
    obtain ⟨_, least'⟩ := (find_found_iff_isLeast resumes edge).mp whole
    have inside := stop_le_of_find seen
    have long := bounds_of_find seen
    have same := least.unique least'
    have filled := List.length_pos_iff.mpr Keyword.isWord_passBegin.1
    rw [List.length_take] at inside
    dsimp only at inside long
    omega
  | @pass cursor start stop p epilogue later least read reads ih =>
    have bounds := Pass.bounds_of_read read
    have le := reads.mem_beginnings.1
    obtain ⟨resumes', edge'⟩ := Pass.edge_of_read least.1.2 read
    have cut := resumes_take begins.occurs.stops resumes (by have := least.1.1; omega)
    have found : find source ⟨cursor, source.length⟩ Keyword.passBegin .terminator =
        .found ⟨start, start + Keyword.passBegin.length⟩ :=
      (find_found_iff_isLeast resumes edge).mpr ⟨rfl, least⟩
    have short : start + Keyword.passBegin.length < b :=
      begins.apart (by omega) Keyword.isWord_passBegin least.1.2.occurs (by omega)
    have found' := find_cut t Keyword.isWord_passBegin cut (Nat.le_of_lt short) found
    obtain ⟨spans, later⟩ := ih resumes' edge'
    rw [← slice_take (by omega : start ≤ b)]
    exact ⟨_, .pass cut found' (Pass.read_take t begins.occurs.stops least.1.2.occurs le read)
      later⟩

end ReadsUpTo

/-- The line and column of a fault lead back to the byte it is at, in any source. -/
theorem offset?_of_parse_error (failed : (parse source).result = .error e) :
    e.position.offset? source = some e.offset := by
  rw [result_parse] at failed
  obtain ⟨_, _, _, reads, fails⟩ :=
    exists_readsUpTo resumes_zero (.inl rfl) (Argument.map_eq_error_iff.mp failed)
  have points := Pass.pointsFrom_of_read reads.mem_beginnings.2.occurs fails
  rw [points.located, offset?_position]

/-- The pass at `b` is the first one that cannot be read, and `e` says where and why. -/
structure FirstFault (source : Bytes) (e : Fault) (b : Nat) : Prop where
  begins : Terminates source Keyword.passBegin 0 b
  after : b ≤ e.offset
  inside : e.offset ≤ source.length
  /-- No character is split at the fault, nor where the source is cut off. -/
  boundaries : ∀ i ∈ [b, e.offset], Utf8.isBoundary source i = true
  located : e.position = position source e.offset
  read : (Pass.read source b).result = .error e
  before : ∃ g, (parse (source.take b)).result = .ok g ∧
    ReadsUpTo source b 0 g.prelude g.passes

/-- A source that cannot be parsed has a first malformed pass. The fault is the one of that pass,
points into it or behind it, and what stands before it can be parsed alone. -/
theorem parse_faults (valid : Utf8.isValid source = true)
    (failed : (parse source).result = .error e) : ∃ b, FirstFault source e b := by
  have failed' : (readFrom source 0).result = .error e := by
    rw [result_parse] at failed
    exact Argument.map_eq_error_iff.mp failed
  obtain ⟨b, prelude, passes, reads, fails⟩ := exists_readsUpTo resumes_zero (.inl rfl) failed'
  have begins := reads.mem_beginnings.2
  have points := Pass.pointsFrom_of_read begins.occurs fails
  have front := (besideAscii_of_spelled Keyword.isWord_passBegin begins.occurs.spelled).1
  have alone : (readFrom (source.take b) 0).result = .ok (prelude, passes) := by
    -- Before the very start there is no text, and no blank that ends it.
    rcases Nat.eq_zero_or_pos b with rfl | later
    · cases reads with
      | stop least => exact readFrom_end []
      | pass least read rest =>
        have := (Pass.bounds_of_read read).1
        have := rest.mem_beginnings.1
        omega
    · obtain ⟨_, taken⟩ := reads.reads_take resumes_zero (.inl rfl) (begins.twin_take later)
      exact taken.readFrom
  exact ⟨b, {
    begins
    after := points.after
    inside := points.beside.le_length
    boundaries := by simp [front.isBoundary valid, points.beside.isBoundary valid]
    located := points.located
    read := fails
    before := ⟨⟨prelude, passes⟩, by rw [result_parse, alone]; rfl, reads⟩ }⟩

/-- A pass, and one with a stray character behind its body. -/
theorem parse_faults_stray : ∃ b, FirstFault
    (bytes "é PASS_BEGIN(a)\x7b\x7d PASS_END\nPASS_BEGIN(b)\x7b/* é */\x7dé PASS_END")
    ⟨51, ⟨2, 24⟩, .trailingTokens⟩ b :=
  parse_faults (by decide +kernel) (by decide +kernel)

end Graph
end PassCompiler
