import PassCompiler.Proofs.Pass.Counterpart.Basic

/-! Fixed blocks read from a source and from its counterpart. Blocks are counted from the start of
their body, so they are at the same place in both. -/
namespace PassCompiler

open Source

variable {strict final : Prop} {d : Nat} {A : Bytes → Bytes → Prop} {s s' : Bytes}

def FixedArg.Follows (A : Bytes → Bytes → Prop) (a a' : FixedArg) : Prop :=
  ∃ x x', A x x' ∧ a = FixedArg.ofText x ∧ a' = FixedArg.ofText x'

structure FixedBlock.Follows (A : Bytes → Bytes → Prop) (b b' : FixedBlock) : Prop where
  span : b'.span = b.span
  interior : b'.interior = b.interior
  renderPass : b.renderPass.Follows A b'.renderPass
  subpass : b.subpass.Follows A b'.subpass

structure FixedBlock.Located.Follows (s : Bytes) (A : Bytes → Bytes → Prop) (d origin : Nat)
    (b b' : FixedBlock.Located) : Prop where
  block : (b.rebase origin).Follows A (b'.rebase (origin + d))
  ending : b'.ending.stop = b.ending.stop + d
  resumes : Resumes s b.ending.stop

theorem FixedBlock.Located.follows {beginning ending : Span} {close origin : Nat}
    {a b a' b' : Bytes} (first : A a a') (second : A b b') (resumes : Resumes s ending.stop) :
    Located.Follows s A d origin ⟨beginning, close, ending, a, b⟩
      ⟨⟨beginning.start + d, beginning.stop + d⟩, close + d, ⟨ending.start + d, ending.stop + d⟩,
        a', b'⟩ where
  block := {
    span := by simp only [rebase, Nat.add_sub_add_right]
    interior := by simp only [rebase, Nat.add_sub_add_right, Nat.add_right_comm _ d 1]
    renderPass := ⟨a, a', first, rfl, rfl⟩
    subpass := ⟨b, b', second, rfl, rfl⟩ }
  ending := rfl
  resumes := resumes

/-- The blocks of a body, the first of them found, whatever is logged on the way. -/
theorem FixedBlock.result_readFrom (source : Bytes) (body : Span) (cursor : Nat) :
    (readFrom source body cursor).result =
      match find source ⟨cursor, body.stop⟩ Keyword.fixedBegin .terminator with
      | .found beginning => (readAt source body beginning).result.bind fun located =>
          (readFrom source body located.ending.stop).result.bind fun later =>
            .ok (located.rebase body.start :: later)
      | .commented _ | .absent => .ok [] := by
  rw [readFrom]
  split <;> rename_i seen <;> rw [seen]
  · dsimp only
    apply (Logged.result_bind _ _).trans
    simp only [Logged.result_bind, Logged.result_note, Logged.result_pure]
    rfl
  all_goals rfl

theorem FixedBlock.result_readFrom_rest {source : Bytes} {body : Span} {cursor : Nat}
    (absent : ∀ span, find source ⟨cursor, body.stop⟩ Keyword.fixedBegin .terminator ≠
      .found span) : (readFrom source body cursor).result = .ok [] := by
  rw [result_readFrom]
  cases seen : find source ⟨cursor, body.stop⟩ Keyword.fixedBegin .terminator with
  | found span => exact absurd seen (absent span)
  | commented _ | absent => rfl

/-- Along the blocks of a body: one is read and the next ones begin behind it, or there is none. -/
@[elab_as_elim]
theorem FixedBlock.readFrom_induction (source : Bytes) (body : Span) {motive : Nat → Prop}
    (block : ∀ cursor beginning,
      find source ⟨cursor, body.stop⟩ Keyword.fixedBegin .terminator = .found beginning →
      (∀ located : Located, (readAt source body beginning).result = .ok located →
        motive located.ending.stop) → motive cursor)
    (rest : ∀ cursor, (∀ span, find source ⟨cursor, body.stop⟩ Keyword.fixedBegin .terminator ≠
      .found span) → motive cursor) (cursor : Nat) : motive cursor := by
  induction cursor using readFrom.induct source body with
  | case1 cursor beginning seen later => exact block cursor beginning seen later
  | case2 cursor span seen => exact rest cursor (by simp [seen])
  | case3 cursor seen => exact rest cursor (by simp [seen])

namespace Counterpart

variable (t : Counterpart strict final d A s s')
include t

theorem fixedBlock_readAt {body beginning : Span} (resumes : Resumes s beginning.stop)
    (stops : Stops s body.stop) (lt : body.stop < s.length) :
    Agree True (Fault.Follows strict d s s')
      (FixedBlock.Located.Follows s A d body.start)
      (FixedBlock.readAt s body beginning).result
      (FixedBlock.readAt s' ⟨body.start + d, body.stop + d⟩
        ⟨beginning.start + d, beginning.stop + d⟩).result := by
  have ends : Ends d s s' True body.stop (body.stop + d) := .at stops lt
  unfold FixedBlock.readAt
  simp only [Logged.result_bind, Logged.result_ofExcept]
  refine Agree.bind (.ofOption ((t.opener_filter resumes ends _).imp .inr)
    (Fault.follows_locate ..)) ?_
  rintro o o' seen _ ⟨ho, opens, same⟩
  have inside : o.offset < body.stop := (bounds_of_nextCode (Option.eq_some_of_filter_eq_some
    (Logged.result_ofOption_ok.mp seen))).2
  have closes := t.matchingClose ho opens inside ends
  rw [← same.offset] at closes
  refine Agree.bind (.ofOption (closes.imp .inr) ?_) ?_
  · rw [same.offset]
    exact Fault.follows_locate ..
  intro close close' closed _ at'
  obtain ⟨c, hc, closes, rfl, _, _⟩ :=
    mem_of_matchingClose ho opens stops inside (Logged.result_ofOption_ok.mp closed)
  have code := (Mark.isCodeByte_iff.mp closes).1
  have behind := resumes_of_mem hc code
  subst at'
  rw [same.offset, Nat.add_right_comm o.offset d 1]
  apply Agree.bind (t.reads o ho c hc opens closes)
  intro args args' _ _ alike
  have wrong : Agree True (Fault.Follows strict d s s')
      (FixedBlock.Located.Follows s A d body.start)
      (.error (Fault.locate s o.offset (.fixedArgCount args.length)))
      (.error (Fault.locate s' (o.offset + d) (.fixedArgCount args'.length))) := by
    rw [← alike.length_eq]
    exact .of_error (Fault.follows_locate ..)
  rcases alike with _ | ⟨first, _ | ⟨second, _ | ⟨third, more⟩⟩⟩
  · exact wrong
  · exact wrong
  · dsimp only
    simp only [Logged.result_bind]
    rw [Nat.add_right_comm c.offset d 1]
    refine Agree.bind ((t.terminator _ _ Keyword.isWord_fixedEnd behind ends
      (Fault.follows_locate ..)).imp .inr) ?_
    rintro ending ending' _ _ ⟨moved, seen⟩
    subst moved
    obtain ⟨occurs, long, _, _⟩ := occurs_of_find Keyword.isWord_fixedEnd behind stops seen
    have before : Ends d s s' True ending.start (ending.start + d) :=
      .at occurs.stops occurs.lt_length
    cases nested : find s ⟨c.offset + 1, ending.start⟩ Keyword.fixedBegin .terminator with
    | found span =>
      rw [t.find_found Keyword.isWord_fixedBegin behind before nested]
      exact .of_error (Fault.follows_locate ..)
    | commented _ | absent =>
      have none : ∀ span, find s' ⟨c.offset + 1 + d, ending.start + d⟩ Keyword.fixedBegin
          .terminator ≠ .found span :=
        t.find_absent Keyword.isWord_fixedBegin behind before (.inr trivial) (by simp [nested])
      have behind' : Resumes s ending.stop := long ▸ occurs.resumes Keyword.isWord_fixedEnd
      cases nested' : find s' ⟨c.offset + 1 + d, ending.start + d⟩ Keyword.fixedBegin
          .terminator with
      | found span => exact absurd nested' (none span)
      | commented _ | absent => exact .of_ok (FixedBlock.Located.follows first second behind')
  · exact wrong

theorem fixedBlock_readFrom {body : Span} (cursor : Nat) (resumes : Resumes s cursor)
    (stops : Stops s body.stop) (lt : body.stop < s.length) :
    Agree True (Fault.Follows strict d s s') (List.Forall₂ (FixedBlock.Follows A))
      (FixedBlock.readFrom s body cursor).result
      (FixedBlock.readFrom s' ⟨body.start + d, body.stop + d⟩ (cursor + d)).result := by
  have ends : Ends d s s' True body.stop (body.stop + d) := .at stops lt
  induction cursor using FixedBlock.readFrom_induction s body with
  | block cursor beginning seen ih =>
    rw [FixedBlock.result_readFrom, FixedBlock.result_readFrom, seen,
      t.find_found Keyword.isWord_fixedBegin resumes ends seen]
    obtain ⟨occurs, long, _⟩ := occurs_of_find Keyword.isWord_fixedBegin resumes stops seen
    have behind : Resumes s beginning.stop := long ▸ occurs.resumes Keyword.isWord_fixedBegin
    apply (t.fixedBlock_readAt behind stops lt).bind
    intro b b' read _ same
    rw [same.ending]
    apply (ih b read same.resumes).bind
    intro l l' _ _ later
    exact .of_ok (.cons same.block later)
  | rest cursor absent =>
    rw [FixedBlock.result_readFrom_rest absent, FixedBlock.result_readFrom_rest
      (t.find_absent Keyword.isWord_fixedBegin resumes ends (.inr trivial) absent)]
    exact .of_ok .nil

end Counterpart
end PassCompiler
