import PassCompiler.Proofs.Pass.FixedBlocks

/-! Keywords that are left over. A keyword that begins a pass or a block is always used up. One that
ends them is looked for from their beginning only, so one that ends nothing stays in the text around
them. Main statement: `Graph.parse_strays`. -/
namespace PassCompiler

open Source

namespace FixedBlock

variable {text : Bytes} {cursor i : Nat} {l : Located} {o c : Mark} {blocks : List FixedBlock}

theorem segments_eq (text : Bytes) (cursor : Nat) (blocks : List FixedBlock) :
    segments text cursor blocks = Span.between text.length cursor (blocks.map (·.span)) := by
  induction blocks generalizing cursor with
  | nil => rfl
  | cons b later ih => rw [segments, List.map_cons, Span.between, ih]

theorem Series.exists_stands (h : Series text cursor blocks) :
    ∀ b ∈ blocks, ∃ l o c, Located.Stands text l o c ∧ l.rebase 0 = b := by
  induction h with
  | done => simp
  | block stands _ _ _ ih => exact List.forall_mem_cons.mpr ⟨⟨_, _, _, stands, rfl⟩, ih⟩

/-- A keyword that begins a block, and one in its arguments, stand in its span. -/
theorem Series.begun (h : Series text cursor blocks) (le : cursor ≤ i)
    (terminates : Terminates text Keyword.fixedBegin 0 i) :
    ∃ b ∈ blocks, b.span.start ≤ i ∧ i + Keyword.fixedBegin.length ≤ b.span.stop := by
  rcases h.recorded le terminates with ⟨b, member, rfl⟩ | ⟨b, member, args, list, low, high⟩
  all_goals
    obtain ⟨l, o, c, stands, rfl⟩ := h.exists_stands b member
    refine ⟨_, member, ?_⟩
    obtain ⟨_, _, _⟩ := stands.group_inside
  · simp only [Located.rebase, Nat.sub_zero]
    omega
  · obtain ⟨o', first, _, at'⟩ := list.opener
    have behind := (bounds_of_nextCode first).1
    have interior := list.interior
    have := stands.close
    simp only [Located.rebase, Nat.sub_zero] at interior behind ⊢
    omega

/-- Where a keyword that ends blocks stands: it ends one, is an argument of one, or has no part in
any. -/
theorem Series.ended (h : Series text cursor blocks) (le : cursor ≤ i)
    (terminates : Terminates text Keyword.fixedEnd 0 i) :
    (∃ b ∈ blocks, b.interior.stop = i) ∨
    (∃ b ∈ blocks, ∃ args, b.HasArguments text args ∧ args.start ≤ i ∧
      i + Keyword.fixedEnd.length ≤ args.stop) ∨
    ∃ x ∈ segments text cursor blocks, x.start ≤ i ∧ i + Keyword.fixedEnd.length ≤ x.stop := by
  have cases (b) (member : b ∈ blocks) :
      (i + Keyword.fixedEnd.length ≤ b.span.start ∨ b.span.stop ≤ i) ∨ b.interior.stop = i ∨
        ∃ args, b.HasArguments text args ∧ args.start ≤ i ∧
          i + Keyword.fixedEnd.length ≤ args.stop := by
    obtain ⟨l, o, c, stands, rfl⟩ := h.exists_stands b member
    rcases stands.stretch.cases Keyword.isWord_fixedBegin Keyword.isWord_fixedEnd (by decide)
      (by decide) terminates with apart | here | ⟨low, high⟩
    · rw [← stands.ending] at apart
      exact .inl apart
    · exact .inr (.inl here.symm)
    · exact .inr (.inr ⟨_, stands.hasArguments, low, high⟩)
  by_contra stray
  push Not at stray
  obtain ⟨unended, unlisted, unplaced⟩ := stray
  have apart (b) (member : b ∈ blocks) :
      i + Keyword.fixedEnd.length ≤ b.span.start ∨ b.span.stop ≤ i := by
    refine (cases b member).resolve_right fun inside => ?_
    rcases inside with here | ⟨args, list, low, high⟩
    · exact unended b member here
    · have := unlisted b member args list low
      omega
  rw [segments_eq] at unplaced
  obtain ⟨x, member, low, high⟩ := Span.exists_between le terminates.occurs.le_length
    (List.forall_mem_map.mpr apart)
  have := unplaced x member low
  omega

end FixedBlock

variable {source : Bytes}

structure Pass.Terminated (p : Pass) : Prop where
  /-- None that begins a block is left over. -/
  begun : ∀ i, Terminates p.body Keyword.fixedBegin 0 i →
    ∃ b ∈ p.fixedBlocks, b.span.start ≤ i ∧ i + Keyword.fixedBegin.length ≤ b.span.stop
  /-- One that ends no block and is no argument stands in the text around the blocks. -/
  ended : ∀ i, Terminates p.body Keyword.fixedEnd 0 i →
    (∃ b ∈ p.fixedBlocks, b.interior.stop = i) ∨
    (∃ b ∈ p.fixedBlocks, ∃ args, b.HasArguments p.body args ∧ args.start ≤ i ∧
      i + Keyword.fixedEnd.length ≤ args.stop) ∨
    ∃ x ∈ FixedBlock.segments p.body 0 p.fixedBlocks,
      x.start ≤ i ∧ i + Keyword.fixedEnd.length ≤ x.stop

theorem Graph.terminated_of_parse {g : Graph} (parsed : (parse source).result = .ok g) :
    ∀ p ∈ g.passes, p.Terminated := by
  intro p member
  obtain ⟨_, _, _, parts⟩ := parts_of_parse parsed member
  have series := FixedBlock.series_of_readFrom resumes_zero (.inl rfl) parts.readAll_body
  exact ⟨fun _ => series.begun (Nat.zero_le _), fun _ => series.ended (Nat.zero_le _)⟩

/-- The pass that spans `x` holds the keyword at `i`, which ends it or stands in the parentheses of
its name. -/
structure Pass.Holds (source : Bytes) (x : Span) (i : Nat) : Prop where
  after : x.start < i
  inside : i + Keyword.passEnd.length ≤ x.stop
  use : x.stop = i + Keyword.passEnd.length ∨
    ∃ o c, GroupBehind source (x.start + Keyword.passBegin.length) o c ∧ o < i ∧
      i + Keyword.passEnd.length ≤ c

theorem Pass.StandsAt.cases {p : Pass} {x : Span} (h : p.StandsAt source x) {i : Nat}
    (terminates : Terminates source Keyword.passEnd 0 i) :
    (i + Keyword.passEnd.length ≤ x.start ∨ x.stop ≤ i) ∨ Holds source x i := by
  obtain ⟨o, c, last, _, _, stretch, stop, _⟩ := outline_of_read h.begins h.read
  have behind := stretch.group.next.after
  have order := stretch.group.group.lt
  have after := stretch.after
  rcases stretch.cases Keyword.isWord_passBegin Keyword.isWord_passEnd (by decide) (by decide)
    terminates with apart | rfl | ⟨low, high⟩
  · rw [← stop] at apart
    exact .inl apart
  · exact .inr ⟨by omega, Nat.le_of_eq stop.symm, .inl stop⟩
  · exact .inr ⟨by omega, by omega, .inr ⟨o, c, stretch.group, low, high⟩⟩

variable {g : Graph} {spans : List Span}

/-- A keyword that ends passes is held by one or stands between the passes. -/
theorem Graph.Partition.ended (h : g.Partition source spans) {i : Nat}
    (terminates : Terminates source Keyword.passEnd 0 i) :
    (∃ x ∈ spans, Pass.Holds source x i) ∨ ∃ x ∈ Span.between source.length 0 spans,
      x.start ≤ i ∧ i + Keyword.passEnd.length ≤ x.stop := by
  by_contra stray
  push Not at stray
  obtain ⟨unheld, unplaced⟩ := stray
  have apart (x) (member : x ∈ spans) : i + Keyword.passEnd.length ≤ x.start ∨ x.stop ≤ i := by
    obtain ⟨k, lt, rfl⟩ := List.mem_iff_getElem.mp member
    have stands := h.passes.get (h.passes.length_eq ▸ lt) lt
    exact (stands.cases terminates).resolve_right (unheld _ member)
  obtain ⟨x, member, low, high⟩ :=
    Span.exists_between (Nat.zero_le _) terminates.occurs.le_length apart
  have := unplaced x member low
  omega

/-- The texts around the passes are free of such keywords exactly if the passes hold all of them. -/
theorem Graph.Partition.unended_iff (h : g.Partition source spans)
    (gaps : ∀ x ∈ Span.between source.length 0 spans, Gap source x) :
    (∀ text ∈ g.prelude :: g.passes.map (·.epilogue), ∀ i,
      ¬ Terminates text Keyword.passEnd 0 i) ↔
    ∀ i, Terminates source Keyword.passEnd 0 i → ∃ x ∈ spans, Pass.Holds source x i := by
  rw [h.between, gaps_eq, List.forall_mem_map]
  constructor
  · intro free i terminates
    refine (h.ended terminates).resolve_right ?_
    rintro ⟨x, member, low, high⟩
    obtain ⟨k, rfl⟩ := Nat.exists_eq_add_of_le low
    exact free x member k
      (((gaps x member).terminates_iff Keyword.isWord_passEnd).mpr ⟨high, terminates⟩)
  · intro held x member i terminates
    obtain ⟨inside, there⟩ := ((gaps x member).terminates_iff Keyword.isWord_passEnd).mp terminates
    obtain ⟨y, member', holds⟩ := held _ there
    have low := holds.after
    have high := holds.inside
    have filled : 0 < Keyword.passEnd.length := by decide
    obtain ⟨_, apart⟩ := Span.apart_of_mem_between h.increasing (fun _ _ => Nat.zero_le _) x member
    rcases apart y member' with before | behind
    · omega
    · omega

/-- A parsed source uses up all keywords that begin a pass or a block. One that ends a pass or a
block and is not used stays in the text around the passes or the blocks. -/
theorem Graph.parse_strays (parsed : (parse source).result = .ok g) :
    ∃ spans, g.Partition source spans ∧
      (∀ i, Terminates source Keyword.passEnd 0 i → (∃ x ∈ spans, Pass.Holds source x i) ∨
        ∃ x ∈ Span.between source.length 0 spans,
          x.start ≤ i ∧ i + Keyword.passEnd.length ≤ x.stop) ∧
      ((∀ text ∈ g.prelude :: g.passes.map (·.epilogue), ∀ i,
          ¬ Terminates text Keyword.passEnd 0 i) ↔
        ∀ i, Terminates source Keyword.passEnd 0 i → ∃ x ∈ spans, Pass.Holds source x i) ∧
      ∀ p ∈ g.passes, p.Terminated := by
  obtain ⟨spans, partition, gaps⟩ := exists_partition parsed
  exact ⟨spans, partition, fun _ => partition.ended, partition.unended_iff gaps,
    terminated_of_parse parsed⟩

/-- Keywords that end nothing around a pass and its block, in its name and in an argument. -/
theorem Graph.parse_strays_named :
    let p : Pass := ⟨bytes "PASS_END", {}, [⟨⟨11, 51⟩, ⟨36, 42⟩, .ofText (bytes "a"),
      .ofText (bytes "FIXED_END")⟩], bytes " FIXED_END FIXED_BEGIN(a, FIXED_END) x(); FIXED_END ",
      bytes " PASS_END"⟩
    (∃ spans, Graph.Partition
      (bytes "PASS_END PASS_BEGIN( PASS_END ) \x7b" ++ p.body ++ bytes "\x7d PASS_END PASS_END")
      ⟨bytes "PASS_END ", [p]⟩ spans) ∧ p.Terminated := by
  intro p
  obtain ⟨spans, partition, _, _, terminated⟩ :=
    @parse_strays (bytes "PASS_END PASS_BEGIN( PASS_END ) \x7b" ++ p.body ++
      bytes "\x7d PASS_END PASS_END") ⟨bytes "PASS_END ", [p]⟩ (by decide +kernel)
  exact ⟨⟨spans, partition⟩, terminated p List.mem_cons_self⟩

/-- Behind the pass and in its body a keyword that ends nothing is kept. -/
theorem Graph.parse_keeps_strays : ∃ p, (parse (bytes
      "PASS_BEGIN(A) \x7b FIXED_END \x7d PASS_END PASS_END")).result = .ok ⟨[], [p]⟩ ∧
    (p.fixedBlocks = [] ∧ Terminates p.body Keyword.fixedEnd 0 1) ∧
      Terminates p.epilogue Keyword.passEnd 0 1 := by
  refine ⟨⟨bytes "A", {}, [], bytes " FIXED_END ", bytes " PASS_END"⟩, by decide +kernel,
    ⟨rfl, ?_⟩, ?_⟩
  · exact ⟨⟨⟨⟨1, 0x46, .code⟩, by decide +kernel, rfl, rfl⟩, by decide +kernel⟩, by decide +kernel⟩
  · exact ⟨⟨⟨⟨1, 0x50, .code⟩, by decide +kernel, rfl, rfl⟩, by decide +kernel⟩, by decide +kernel⟩

end PassCompiler
