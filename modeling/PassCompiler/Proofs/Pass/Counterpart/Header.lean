import PassCompiler.Proofs.Pass.Counterpart.Basic

/-! Headers read from a source and from its counterpart. A header is read in steps, and both headers
take the same ones, for successes and for failures. -/
namespace PassCompiler

open Source

variable {strict final : Prop} {d : Nat} {A : Bytes → Bytes → Prop} {s s' : Bytes}

def Clauses.Follows (A : Bytes → Bytes → Prop) (c c' : Clauses) : Prop :=
  ∀ k, List.Forall₂ A (c.get k) (c'.get k)

theorem Clauses.follows_empty : Clauses.Follows A {} {} := by
  intro k
  cases k <;> exact .nil

theorem Clauses.Follows.set {c c' : Clauses} (h : c.Follows A c') (k : Clause)
    {args args' : List Bytes} (same : List.Forall₂ A args args') :
    (c.set k args).Follows A (c'.set k args') := by
  intro k'
  by_cases eq : k = k'
  · subst eq
    simpa only [Clauses.get_set_self] using same
  · rw [Clauses.get_set_of_ne c eq, Clauses.get_set_of_ne c' eq]
    exact h k'

structure Header.Follows (A : Bytes → Bytes → Prop) (d : Nat) (h h' : Header) : Prop where
  clauses : h.clauses.Follows A h'.clauses
  bodyOpen : h'.bodyOpen = h.bodyOpen + d

/-- What a byte of a header, with the word or the group that starts there, leads to. -/
inductive Header.Step where
  | skip (behind : List Mark)
  | body (offset : Nat)
  | clause (clause : Clause) (args : Span) (behind : List Mark)
  | fault (offset : Nat) (cause : Cause)

namespace Header

def wordStep (declared : List Clause) (m : Mark) (rest : List Mark) : Step :=
  match Clause.ofKeyword? (word m rest) with
  | none => .skip (behindWord rest)
  | some clause =>
    match nextGroup? (behindWord rest) with
    | none => .fault (m.offset + (word m rest).length) (.missingClauseArgs clause)
    | some ⟨start, none⟩ => .fault start (.unbalanced .paren)
    | some ⟨start, some (stop, behind)⟩ =>
      if declared.contains clause then .fault m.offset (.duplicateClause clause)
      else .clause clause ⟨start + 1, stop⟩ behind

def step (declared : List Clause) (m : Mark) (rest : List Mark) : Step :=
  if m.isCode then
    match Delimiter.opening? m.byte with
    | some .brace => .body m.offset
    | some .paren =>
      match Group.close? ⟨.paren, 1⟩ rest with
      | none => .fault m.offset (.unbalanced .paren)
      | some (_, behind) => .skip behind
    | none => if Bytes.isIdent m.byte then wordStep declared m rest else .skip rest
  else .skip rest

/-- A header goes on from the step it takes, whatever is logged on the way. -/
theorem result_readFrom_cons (place : Place) (declared : List Clause) (clauses : Clauses)
    (m : Mark) (rest : List Mark) :
    (readFrom place declared clauses (m :: rest)).result =
      match step declared m rest with
      | .skip behind => (readFrom place declared clauses behind).result
      | .body offset => .ok ⟨clauses, offset⟩
      | .clause clause span behind => (Argument.read place.source span).bind fun args =>
        (readFrom place (clause :: declared) (clauses.set clause args) behind).result
      | .fault offset cause => .error (Fault.locate place.source offset cause) := by
  rw [readFrom, step]
  cases m.isCode with
  | false => rfl
  | true =>
    simp only [Bool.not_true, Bool.false_eq_true, if_false, if_true]
    cases Delimiter.opening? m.byte with
    | some kind =>
      cases kind with
      | brace => rfl
      | paren => cases Group.close? ⟨.paren, 1⟩ rest <;> rfl
    | none =>
      dsimp only
      cases Bytes.isIdent m.byte with
      | false => rfl
      | true =>
        simp only [if_true, wordStep]
        cases Clause.ofKeyword? (word m rest) with
        | none => exact Logged.result_bind _ _
        | some clause =>
          dsimp only
          cases nextGroup? (behindWord rest) with
          | none => rfl
          | some group =>
            obtain ⟨start, closed⟩ := group
            cases closed with
            | none => rfl
            | some closed =>
              obtain ⟨stop, behind⟩ := closed
              dsimp only
              cases declared.contains clause with
              | true => rfl
              | false => exact Logged.result_bind _ _

end Header

theorem mem_of_nextGroup? {marks : List Mark} {g : Parenthesised}
    (h : nextGroup? marks = some g) :
    (∃ m ∈ marks, m.isCodeByte Delimiter.paren.opener = true ∧ m.offset = g.start) ∧
      ∀ stop behind, g.closed = some (stop, behind) → behind <:+ marks ∧
        ∃ c ∈ marks, c.isCodeByte Delimiter.paren.closer = true ∧ c.offset = stop := by
  obtain ⟨m, rest, next, opens, rfl⟩ := nextGroup?_eq_some_iff.mp h
  have tail : m :: rest <:+ marks := next ▸ List.dropWhile_suffix _
  refine ⟨⟨m, tail.subset List.mem_cons_self, opens, rfl⟩, ?_⟩
  intro stop behind closed
  obtain ⟨⟨c, behind'⟩, found, same⟩ := Option.map_eq_some_iff.mp closed
  obtain ⟨rfl, rfl⟩ := Prod.mk.inj same
  obtain ⟨inside, rfl, _, closes⟩ := Group.close?_eq_some_iff.mp found
  refine ⟨List.IsSuffix.trans ⟨m :: inside ++ [c], by simp⟩ tail, c, ?_, closes, rfl⟩
  exact tail.subset (by simp)

namespace Header

/-- Where a step stands: what it leaves is the end of what was to be read, and its delimiters are
code. -/
def Step.From (m : Mark) (rest : List Mark) : Step → Prop
  | .skip behind => behind <:+ rest
  | .body offset => m.isCodeByte Delimiter.brace.opener = true ∧ m.offset = offset
  | .clause _ args behind => behind <:+ rest ∧
      (∃ o ∈ rest, o.isCodeByte Delimiter.paren.opener = true ∧ o.offset + 1 = args.start) ∧
      ∃ c ∈ rest, c.isCodeByte Delimiter.paren.closer = true ∧ c.offset = args.stop
  | .fault _ _ => True

theorem wordStep_from (declared : List Clause) (m : Mark) (rest : List Mark) :
    (wordStep declared m rest).From m rest := by
  have word : behindWord rest <:+ rest := List.dropWhile_suffix _
  unfold wordStep
  split
  · exact word
  · split
    · trivial
    · trivial
    · next group =>
      split
      · trivial
      · obtain ⟨⟨o, ho, opens, at'⟩, ends⟩ := mem_of_nextGroup? group
        obtain ⟨suffix, c, hc, closes, at''⟩ := ends _ _ rfl
        exact ⟨suffix.trans word, ⟨o, word.subset ho, opens, congrArg (· + 1) at'⟩,
          c, word.subset hc, closes, at''⟩

theorem step_from (declared : List Clause) (m : Mark) (rest : List Mark) :
    (step declared m rest).From m rest := by
  unfold step
  split
  · next code =>
    split
    · next opens =>
      have byte := Delimiter.opening?_eq_some_iff.mp opens
      exact ⟨Mark.isCodeByte_iff.mpr ⟨code, byte⟩, rfl⟩
    · split
      · trivial
      · next closer behind closed =>
        obtain ⟨inside, rfl⟩ := Group.append_of_close? closed
        exact ⟨inside ++ [closer], by simp⟩
    · split
      · exact wordStep_from declared m rest
      · exact List.suffix_rfl
  · exact List.suffix_rfl

/-- Along the steps of a header, each of which leaves an end of what is behind the first mark. -/
@[elab_as_elim]
theorem suffix_induction {motive : List Mark → Prop} (nil : motive [])
    (cons : ∀ m rest, (∀ behind, behind <:+ rest → motive behind) → motive (m :: rest))
    (marks : List Mark) : motive marks := by
  suffices all : ∀ behind, behind <:+ marks → motive behind from all marks List.suffix_rfl
  induction marks with
  | nil =>
    intro behind tail
    exact List.suffix_nil.mp tail ▸ nil
  | cons m rest ih =>
    intro behind tail
    rcases List.suffix_cons_iff.mp tail with rfl | tail
    · exact cons m rest ih
    · exact ih behind tail

/-- The body that a header leads to is opened by one of the bytes read. -/
theorem opener_of_readFrom {place : Place} {declared : List Clause} {clauses : Clauses}
    {marks : List Mark} {header : Header}
    (h : (readFrom place declared clauses marks).result = .ok header) :
    ∃ m ∈ marks, m.isCodeByte Delimiter.brace.opener = true ∧ m.offset = header.bodyOpen := by
  induction marks using suffix_induction generalizing declared clauses with
  | nil =>
    rw [readFrom] at h
    contradiction
  | cons m rest ih =>
    have go {l : List Mark} {declared : List Clause} {clauses : Clauses} (tail : l <:+ rest)
        (h : (readFrom place declared clauses l).result = .ok header) :
        ∃ n ∈ m :: rest, n.isCodeByte Delimiter.brace.opener = true ∧
          n.offset = header.bodyOpen := by
      obtain ⟨n, hn, opens⟩ := ih l tail h
      exact ⟨n, List.mem_cons_of_mem _ (tail.subset hn), opens⟩
    have stands := step_from declared m rest
    rw [result_readFrom_cons] at h
    cases taken : step declared m rest with
    | skip behind =>
      rw [taken] at h stands
      exact go stands h
    | body offset =>
      rw [taken] at h stands
      obtain rfl := Except.ok.inj h
      exact ⟨m, List.mem_cons_self, stands⟩
    | clause clause span behind =>
      rw [taken] at h stands
      obtain ⟨args, _, h⟩ := exists_of_bind_ok h
      exact go stands.1 h
    | fault offset cause =>
      rw [taken] at h
      contradiction

inductive Step.Follows (strict : Prop) (d : Nat) : Step → Step → Prop
  | skip {marks others : List Mark} : Tracks strict d marks others →
      Step.Follows strict d (.skip marks) (.skip others)
  | body (offset : Nat) : Step.Follows strict d (.body offset) (.body (offset + d))
  | clause {clause : Clause} {args : Span} {marks others : List Mark} :
      Tracks strict d marks others → Step.Follows strict d (.clause clause args marks)
        (.clause clause ⟨args.start + d, args.stop + d⟩ others)
  | fault (offset : Nat) (cause : Cause) :
      Step.Follows strict d (.fault offset cause) (.fault (offset + d) cause)

variable {m m' : Mark} {marks marks' : List Mark}

theorem wordStep_follows (declared : List Clause) (first : m.Follows strict d m')
    (code : m.isCode = true) (rest : Tracks strict d marks marks')
    (chain : (m :: marks).IsChain Adjacent) (chain' : (m' :: marks').IsChain Adjacent) :
    (wordStep declared m marks).Follows strict d (wordStep declared m' marks') := by
  obtain ⟨spelt, behind⟩ := word_tracks first code rest chain chain'
  unfold wordStep
  rw [spelt, first.offset]
  cases Clause.ofKeyword? (word m marks) with
  | none => exact .skip behind
  | some clause =>
    dsimp only
    rcases rel_cases (nextGroup?_tracks behind) with
      ⟨left, right⟩ | ⟨⟨start, closed⟩, ⟨start', closed'⟩, left, right, begins, ends⟩
    · rw [left, right]
      dsimp only
      rw [Nat.add_right_comm]
      exact .fault ..
    · rw [left, right]
      dsimp only at begins ends
      subst begins
      rcases rel_cases ends with
        ⟨rfl, rfl⟩ | ⟨⟨stop, later⟩, ⟨stop', later'⟩, rfl, rfl, ends, follows⟩
      · exact .fault ..
      · dsimp only at ends follows ⊢
        subst ends
        by_cases twice : declared.contains clause = true
        · simp only [if_pos twice]
          exact .fault ..
        · simp only [if_neg twice]
          rw [Nat.add_right_comm]
          exact .clause follows

theorem step_follows (declared : List Clause) (first : m.Follows strict d m')
    (rest : Tracks strict d marks marks') (chain : (m :: marks).IsChain Adjacent)
    (chain' : (m' :: marks').IsChain Adjacent) :
    (step declared m marks).Follows strict d (step declared m' marks') := by
  unfold step
  rw [first.isCode]
  cases code : m.isCode with
  | false => exact .skip rest
  | true =>
    simp only [if_true, first.byte (.inr code)]
    cases Delimiter.opening? m.byte with
    | some kind =>
      cases kind with
      | brace =>
        rw [first.offset]
        exact .body _
      | paren =>
        have closed := Group.close?_tracks (g := ⟨.paren, 1⟩) rest
        rcases rel_cases closed with ⟨left, right⟩ | ⟨_, _, left, right, _, behind⟩
        · rw [left, right, first.offset]
          exact .fault ..
        · rw [left, right]
          exact .skip behind
    | none =>
      by_cases ident : Bytes.isIdent m.byte = true
      · simp only [if_pos ident]
        exact wordStep_follows declared first code rest chain chain'
      · simp only [if_neg ident]
        exact .skip rest

end Header

namespace Counterpart

variable (t : Counterpart strict final d A s s')
include t

/-- A part of a scan of the first source, and what corresponds to it. -/
theorem header_readFrom (name name' : Bytes) (span : Span) (marks marks' : List Mark)
    (tracks : Tracks strict d marks marks') (members : ∀ m ∈ marks, m ∈ scan s 0)
    (chain : marks.IsChain Adjacent) (chain' : marks'.IsChain Adjacent)
    (declared : List Clause) {clauses clauses' : Clauses} (same : clauses.Follows A clauses') :
    Agree True (Fault.Follows strict d s s') (Header.Follows A d)
      (Header.readFrom ⟨s, name, span⟩ declared clauses marks).result
      (Header.readFrom ⟨s', name', ⟨span.start + d, span.stop + d⟩⟩ declared clauses'
        marks').result := by
  induction marks using Header.suffix_induction generalizing marks' declared clauses clauses' with
  | nil =>
    cases tracks
    rw [Header.readFrom, Header.readFrom]
    exact .of_error (Fault.follows_locate ..)
  | cons m marks ih =>
    obtain _ | @⟨_, m', _, marks', first, rest⟩ := tracks
    have go {l l' : List Mark} (tail : l <:+ marks) (tail' : l' <:+ marks')
        (follows : Tracks strict d l l') (declared : List Clause) {clauses clauses' : Clauses}
        (same : clauses.Follows A clauses') :=
      ih l tail l' follows (fun x hx => members x (List.mem_cons_of_mem _ (tail.subset hx)))
        (chain.tail.suffix tail) (chain'.tail.suffix tail') declared same
    have stands := Header.step_from declared m marks
    have stands' := Header.step_from declared m' marks'
    have follows := Header.step_follows declared first rest chain chain'
    rw [Header.result_readFrom_cons, Header.result_readFrom_cons]
    generalize Header.step declared m marks = x at stands follows ⊢
    generalize Header.step declared m' marks' = y at stands' follows ⊢
    cases follows with
    | skip behind => exact go stands stands' behind declared same
    | body offset => exact .of_ok ⟨same, rfl⟩
    | fault offset cause => exact .of_error (Fault.follows_locate ..)
    | @clause clause args behind behind' follows =>
      obtain ⟨suffix, ⟨o, ho, opens, at'⟩, c, hc, closes, at''⟩ := stands
      have read := t.reads o (members o (List.mem_cons_of_mem _ ho)) c
        (members c (List.mem_cons_of_mem _ hc)) opens closes
      rw [at', at''] at read
      apply read.bind
      intro list list' _ _ alike
      exact go suffix stands'.1 follows _ (same.set clause alike)

end Counterpart
end PassCompiler
