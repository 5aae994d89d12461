import PassCompiler.Proofs.Pass.Counterpart.Pass
import PassCompiler.Proofs.Pass.Grammar.Header

/-! Nothing but the name, the body and what each clause lists decides which pass is read. -/
namespace PassCompiler

open Source

variable {b : UInt8}

namespace Pass

theorem readName_written {p name z : Bytes} (named : isName name = true) :
    (readName (p ++ Delimiter.paren.opener :: (name ++ Delimiter.paren.closer :: z))
      p.length).result = .ok (name, p.length + 1 + name.length) := by
  obtain ⟨first, all⟩ := Bool.and_eq_true_iff.mp named
  have ident : ∀ b ∈ name, Bytes.isIdent b = true := List.all_eq_true.mp all
  have filled : name ≠ [] := by
    rintro rfl
    contradiction
  have item := Argument.item_of_simple filled fun b hb => by
    rw [Argument.isSimple, ident b hb, Bool.true_or, Bool.true_or]
  have balanced : Delimiter.paren.Balanced (scan name 0) := depth_of_nest item.nested
  have closing := matchingClose_append (p := p) (y := z) item.closed balanced
  generalize whole : p ++ Delimiter.paren.opener :: (name ++ Delimiter.paren.closer :: z) = source
    at closing ⊢
  have opening : nextCode source p.length source.length =
      some ⟨p.length, Delimiter.paren.opener, .code⟩ := by
    rw [nextCode, List.take_length, scan, ← whole, List.drop_left, scanFrom_calm (by decide)]
    rfl
  have inside : Bytes.slice source ⟨p.length + 1, p.length + 1 + name.length⟩ = name := by
    apply Bytes.slice_of_prefix
    rw [← whole, ← List.drop_drop, List.drop_left]
    exact List.prefix_append _ _
  refine Logged.result_bind_ok.mpr ⟨⟨p.length, Delimiter.paren.opener, .code⟩, ?_,
    Logged.result_bind_ok.mpr ⟨p.length + 1 + name.length, ?_, ?_⟩⟩
  · rw [opening]
    rfl
  · rw [closing]
    rfl
  · dsimp only
    rw [inside, Blank.trims_trim.eq_self fun b hb => Blank.solid_of_isIdent (ident b hb),
      if_pos named]
    rfl

/-- The end of a pass is found behind a text without the keywords of a pass. -/
theorem readEnd_written {p x name : Bytes} {b : UInt8} (quiet : Quiet x)
    (blank : Bytes.isBlank b = true) (start : Nat) :
    (readEnd (p ++ (x ++ b :: Keyword.passEnd)) name p.length start).result =
      .ok ⟨p.length + (x.length + 1), p.length + (x.length + 1) + Keyword.passEnd.length⟩ := by
  have divides := divides_of_isBlank blank
  have ends := terminates_last Keyword.isWord_passEnd quiet.closed blank
  have found : find (p ++ (x ++ b :: Keyword.passEnd)) ⟨p.length, (p ++ (x ++ b ::
      Keyword.passEnd)).length⟩ Keyword.passEnd .terminator = .found
        ⟨p.length + (x.length + 1), p.length + (x.length + 1) + Keyword.passEnd.length⟩ := by
    have sighted (i : Nat) := sighted_iff_terminates (i := i) Keyword.isWord_passEnd resumes_zero
      (stops_length (s := x ++ b :: Keyword.passEnd))
    rw [List.length_append, find_append, sighted]
    refine ⟨⟨Nat.zero_le _, ends.occurs.le_length, ends⟩, fun j lt h => ?_⟩
    have := quiet.lt_of_terminates divides (by simp) ((sighted j).mp h).2.2
    omega
  have none : ∀ span, find (p ++ (x ++ b :: Keyword.passEnd)) ⟨p.length, p.length + (x.length + 1)⟩
      Keyword.passBegin .terminator ≠ .found span := by
    rw [find_append_ne_found]
    intro i h
    obtain ⟨_, inside, terminates⟩ :=
      (sighted_iff_terminates Keyword.isWord_passBegin resumes_zero ends.occurs.stops).mp h
    have := quiet.lt_of_terminates divides (by simp) terminates
    have := List.length_pos_iff.mpr Keyword.isWord_passBegin.1
    omega
  rw [readEnd, Logged.result_bind_ok]
  refine ⟨⟨p.length + (x.length + 1), p.length + (x.length + 1) + Keyword.passEnd.length⟩, ?_, ?_⟩
  · rw [result_terminator, found]
  · cases seen : find (p ++ (x ++ b :: Keyword.passEnd)) ⟨p.length, p.length + (x.length + 1)⟩
        Keyword.passBegin .terminator with
    | found span => exact absurd seen (none span)
    | commented _ | absent => rfl

theorem readBody_written {p body gap : Bytes} (closed : Source.Closed body)
    (balanced : Delimiter.brace.Balanced (scan body 0)) (gapped : IsGap gap) (z : Bytes) :
    (readBody (p ++ Delimiter.brace.opener :: (body ++ Delimiter.brace.closer :: (gap ++ z)))
      p.length (p.length + 1 + body.length + 1 + gap.length)).result =
        .ok ⟨p.length + 1, p.length + 1 + body.length⟩ := by
  have closing := matchingClose_append (p := p) (y := gap ++ z) closed balanced
  generalize whole : p ++ Delimiter.brace.opener ::
    (body ++ Delimiter.brace.closer :: (gap ++ z)) = source at closing ⊢
  have stray : nextCode source (p.length + 1 + body.length + 1)
      (p.length + 1 + body.length + 1 + gap.length) = none := by
    have window : Bytes.slice source ⟨p.length + 1 + body.length + 1,
        p.length + 1 + body.length + 1 + gap.length⟩ = gap := by
      apply Bytes.slice_of_prefix
      rw [← whole, ← List.drop_drop, ← List.drop_drop, ← List.drop_drop, List.drop_left,
        List.drop_succ_cons, List.drop_zero, List.drop_left]
      exact List.prefix_append _ _
    rw [nextCode, scan, show (source.take _).drop _ = gap from window, List.find?_eq_none]
    intro m hm
    have member : m.byte ∈ gap := by
      rw [← text_scanFrom .code (p.length + 1 + body.length + 1) gap]
      exact List.mem_map_of_mem hm
    simp [gapped.blank _ member]
  refine Logged.result_bind_ok.mpr ⟨p.length + 1 + body.length, ?_, ?_⟩
  · rw [closing]
    rfl
  · rw [if_neg (by omega), stray]
    rfl

end Pass

theorem FixedBlock.readAll_unfixed {source : Bytes} {span : Span}
    (unfixed : ¬ Keyword.fixedBegin <:+: Bytes.slice source span) :
    (readAll source span).result = .ok [] := by
  refine result_readFrom_rest fun found seen => unfixed ?_
  have here := (find_eq_found_iff.mp seen).2.1
  obtain ⟨n, hn⟩ := Nat.exists_eq_add_of_le here.start_le
  have spelled := here.spelled
  rw [hn, ← List.drop_drop] at spelled
  exact spelled.isInfix.trans (List.drop_suffix _ _).isInfix

theorem Clauses.get_foldl {cs : List ClauseText} (distinct : (cs.map (·.clause)).Nodup)
    (clauses : Clauses) (clause : Clause) :
    (cs.foldl (fun all c => all.set c.clause c.args) clauses).get clause =
      (cs.find? (·.clause == clause)).elim (clauses.get clause) (·.args) := by
  induction cs generalizing clauses with
  | nil => rfl
  | cons c cs ih =>
    obtain ⟨once, distinct'⟩ := List.nodup_cons.mp distinct
    rw [List.foldl_cons, ih distinct', List.find?_cons]
    by_cases same : c.clause = clause
    · subst same
      have none : cs.find? (·.clause == c.clause) = none := by
        refine List.find?_eq_none.mpr fun d hd equal => once ?_
        exact List.mem_map.mpr ⟨d, hd, beq_iff_eq.mp equal⟩
      rw [none, beq_self_eq_true]
      exact get_set_self clauses c.clause c.args
    · rw [beq_false_of_ne same, get_set_of_ne clauses same]

namespace PassText

variable {t t' : PassText}

theorem get_clauses (t : PassText) (clause : Clause) :
    t.pass.clauses.get clause = t.args clause := by
  cases clause <;> rfl

def header (t : PassText) : Bytes := t.clauses.flatMap ClauseText.text ++ t.beforeBody

def front (t : PassText) : Bytes :=
  Keyword.passBegin ++ Delimiter.paren.opener :: (t.name ++ [Delimiter.paren.closer])

theorem text_eq (t : PassText) : t.text =
    t.front ++ (t.header ++ Delimiter.brace.opener ::
      (t.body ++ Delimiter.brace.closer :: (t.beforeEnd ++ Keyword.passEnd))) := by
  have openParen : bytes "(" = [Delimiter.paren.opener] := by decide
  have closeParen : bytes ")" = [Delimiter.paren.closer] := by decide
  have openBrace : bytes "\x7b" = [Delimiter.brace.opener] := by decide
  have closeBrace : bytes "\x7d" = [Delimiter.brace.closer] := by decide
  simp [text, front, header, openParen, closeParen, openBrace, closeBrace]

/-- No keyword of a pass stands between the name and the last blank before `PASS_END`. -/
theorem WellFormed.quiet (h : t.WellFormed) {gap : Bytes}
    (blank : ∀ b ∈ gap, Bytes.isBlank b = true) :
    Quiet (t.header ++ Delimiter.brace.opener :: (t.body ++ Delimiter.brace.closer :: gap)) := by
  have gapped : Quiet gap := by simpa using quiet_nil.blank_append blank
  have body : Quiet t.body := ⟨h.closed, h.unkeyed⟩
  have opened : Quiet t.beforeBody := by simpa using quiet_nil.blank_append h.beforeBody.blank
  rw [header, List.append_assoc]
  exact quiet_clauses h.beforeClauses h.arguments
    (opened.divided (by decide) (body.divided (by decide) gapped))

def bodyOpen (t : PassText) : Nat := t.front.length + t.header.length

def stop (t : PassText) : Nat := t.bodyOpen + 1 + t.body.length + 1 + t.beforeEnd.length

theorem length_front (t : PassText) :
    t.front.length = Keyword.passBegin.length + 1 + t.name.length + 1 := by
  simp only [front, List.length_append, List.length_cons, List.length_nil]
  omega

theorem length_text (t : PassText) : t.text.length = t.stop + Keyword.passEnd.length := by
  simp only [t.text_eq, stop, bodyOpen, List.length_append, List.length_cons]
  omega

theorem drop_front (t : PassText) : t.text.drop t.front.length =
    t.header ++ Delimiter.brace.opener ::
      (t.body ++ Delimiter.brace.closer :: (t.beforeEnd ++ Keyword.passEnd)) := by
  rw [t.text_eq, List.drop_left]

theorem slice_body (t : PassText) :
    Bytes.slice t.text ⟨t.bodyOpen + 1, t.bodyOpen + 1 + t.body.length⟩ = t.body := by
  apply Bytes.slice_of_prefix
  rw [bodyOpen, ← List.drop_drop, ← List.drop_drop, t.drop_front, List.drop_left,
    List.drop_succ_cons, List.drop_zero]
  exact List.prefix_append _ _

theorem WellFormed.readName (h : t.WellFormed) :
    (Pass.readName t.text Keyword.passBegin.length).result =
      .ok (t.name, Keyword.passBegin.length + 1 + t.name.length) := by
  have split := t.text_eq
  rw [front, List.append_assoc, List.cons_append, List.append_assoc, List.singleton_append] at split
  rw [split]
  exact Pass.readName_written h.named

theorem WellFormed.readEnd (h : t.WellFormed) :
    (Pass.readEnd t.text t.name t.front.length 0).result =
      .ok ⟨t.stop, t.stop + Keyword.passEnd.length⟩ := by
  obtain ⟨gap, b, ending⟩ := (List.eq_nil_or_concat' t.beforeEnd).resolve_left h.beforeEnd.filled
  have blank (c) (hc : c ∈ gap) : Bytes.isBlank c = true :=
    h.beforeEnd.blank c (by simp [ending, hc])
  have last : Bytes.isBlank b = true := h.beforeEnd.blank b (by simp [ending])
  have ends := @Pass.readEnd_written t.front _ t.name _ (h.quiet blank) last 0
  have split : t.text = t.front ++ (t.header ++ Delimiter.brace.opener ::
      (t.body ++ Delimiter.brace.closer :: gap) ++ b :: Keyword.passEnd) := by
    simp [t.text_eq, ending]
  have place : t.stop = t.front.length + ((t.header ++ Delimiter.brace.opener ::
      (t.body ++ Delimiter.brace.closer :: gap)).length + 1) := by
    simp only [stop, bodyOpen, ending, List.length_append, List.length_cons, List.length_nil]
    omega
  rw [← split, ← place] at ends
  exact ends

theorem WellFormed.readHeader (h : t.WellFormed) :
    (Header.read ⟨t.text, t.name, ⟨t.front.length, t.stop⟩⟩).result =
      .ok ⟨t.pass.clauses, t.bodyOpen⟩ := by
  have window : (t.text.take t.stop).drop t.front.length = t.clauses.flatMap ClauseText.text ++
      (t.beforeBody ++ Delimiter.brace.opener ::
        (t.body ++ Delimiter.brace.closer :: t.beforeEnd)) := by
    have long : (t.header ++ Delimiter.brace.opener ::
        (t.body ++ Delimiter.brace.closer :: t.beforeEnd)).length + t.front.length = t.stop := by
      simp only [stop, bodyOpen, List.length_append, List.length_cons]
      omega
    have split : t.header ++ Delimiter.brace.opener ::
        (t.body ++ Delimiter.brace.closer :: (t.beforeEnd ++ Keyword.passEnd)) =
          t.header ++ Delimiter.brace.opener ::
            (t.body ++ Delimiter.brace.closer :: t.beforeEnd) ++ Keyword.passEnd := by
      simp
    rw [List.drop_take, t.drop_front, split, List.take_left' (by omega), header, List.append_assoc]
  have here := t.drop_front
  rw [header, List.append_assoc] at here
  rw [Header.read, scan, window]
  dsimp only
  rw [Header.readFrom_written h.beforeClauses h.arguments h.distinct
    (fun _ _ => List.not_mem_nil) h.beforeBody here]
  congr 2
  · refine Clauses.eq_of_get fun c => ?_
    rw [Clauses.get_foldl h.distinct, t.get_clauses, args]
    cases c <;> rfl
  · rw [bodyOpen, header, List.length_append, Nat.add_assoc]

theorem WellFormed.readBody (h : t.WellFormed) :
    (Pass.readBody t.text t.bodyOpen t.stop).result =
      .ok ⟨t.bodyOpen + 1, t.bodyOpen + 1 + t.body.length⟩ := by
  have split : t.text = (t.front ++ t.header) ++ Delimiter.brace.opener ::
      (t.body ++ Delimiter.brace.closer :: (t.beforeEnd ++ Keyword.passEnd)) := by
    rw [t.text_eq, List.append_assoc]
  have place : (t.front ++ t.header).length = t.bodyOpen := List.length_append
  have body := @Pass.readBody_written (t.front ++ t.header) _ _ h.closed h.balanced h.beforeEnd
    Keyword.passEnd
  rwa [← split, place] at body

/-- The text is read as the pass it is written for. -/
theorem WellFormed.read (h : t.WellFormed) :
    (Pass.read t.text 0).result = .ok (t.pass, t.text.length) := by
  have begins : Keyword.passBegin.isPrefixOf (t.text.drop 0) = true := by
    rw [List.isPrefixOf_iff_prefix, List.drop_zero, t.text_eq, front, List.append_assoc]
    exact List.prefix_append _ _
  have unfixed : (FixedBlock.readAll t.text ⟨t.bodyOpen + 1, t.bodyOpen + 1 + t.body.length⟩).result
      = .ok [] := FixedBlock.readAll_unfixed (by rw [t.slice_body]; exact h.unfixed)
  rw [Pass.read, if_pos begins]
  simp only [Logged.result_bind, Nat.zero_add, h.readName, Except.bind, ← t.length_front, h.readEnd,
    h.readHeader, h.readBody, unfixed, Logged.result_note, Logged.result_pure, t.slice_body,
    ← t.length_text]
  rfl

def contents (t : PassText) : List (Clause × List Bytes) :=
  t.clauses.map fun c => (c.clause, c.args)

theorem args_eq_of_mem (distinct : (t.clauses.map (·.clause)).Nodup) {clause : Clause}
    {args : List Bytes} (h : (clause, args) ∈ t.contents) : t.args clause = args := by
  obtain ⟨c, hc, same⟩ := List.mem_map.mp h
  obtain ⟨rfl, rfl⟩ := Prod.mk.inj same
  rw [PassText.args]
  generalize t.clauses = cs at distinct hc
  induction cs with
  | nil => contradiction
  | cons d cs ih =>
    obtain ⟨once, distinct'⟩ := List.nodup_cons.mp distinct
    rcases List.mem_cons.mp hc with rfl | later
    · rw [List.find?_cons, beq_self_eq_true]
      rfl
    · have other : d.clause ≠ c.clause := fun equal =>
        once (List.mem_map.mpr ⟨c, later, equal.symm⟩)
      rw [List.find?_cons, beq_false_of_ne other]
      exact ih distinct' later

theorem args_eq_nil {clause : Clause} (h : ∀ args, (clause, args) ∉ t.contents) :
    t.args clause = [] := by
  have none : t.clauses.find? (·.clause == clause) = none := by
    refine List.find?_eq_none.mpr fun c hc equal => h c.args (List.mem_map.mpr ⟨c, hc, ?_⟩)
    rw [beq_iff_eq.mp equal]
  rw [args, none]
  rfl

theorem args_of_perm (distinct : (t.clauses.map (·.clause)).Nodup)
    (distinct' : (t'.clauses.map (·.clause)).Nodup) (perm : t'.contents.Perm t.contents)
    (clause : Clause) : t'.args clause = t.args clause := by
  by_cases given : ∃ args, (clause, args) ∈ t.contents
  · obtain ⟨args, member⟩ := given
    rw [args_eq_of_mem distinct member, args_eq_of_mem distinct' (perm.mem_iff.mpr member)]
  · rw [not_exists] at given
    rw [args_eq_nil given, args_eq_nil fun args member => given args (perm.mem_iff.mp member)]

/-- The same name, body and clauses, in any order and with any blanks between them. -/
structure Rearranges (t' t : PassText) : Prop extends t'.Spaced where
  name : t'.name = t.name
  body : t'.body = t.body
  contents : t'.contents.Perm t.contents

theorem Rearranges.wellFormed (r : t'.Rearranges t) (h : t.WellFormed) : t'.WellFormed where
  toSpaced := r.toSpaced
  named := r.name ▸ h.named
  distinct := by
    have clauses (t : PassText) : t.clauses.map (·.clause) = t.contents.map (·.1) := by
      rw [PassText.contents, List.map_map]
      rfl
    rw [clauses, (r.contents.map _).nodup_iff, ← clauses]
    exact h.distinct
  arguments c hc := by
    have member : (c.clause, c.args) ∈ t.contents := r.contents.mem_iff.mp (List.mem_map_of_mem hc)
    obtain ⟨d, hd, same⟩ := List.mem_map.mp member
    rw [← (Prod.mk.inj same).2]
    exact h.arguments d hd
  closed := r.body ▸ h.closed
  balanced := r.body ▸ h.balanced
  unkeyed := r.body ▸ h.unkeyed
  unfixed := r.body ▸ h.unfixed

theorem Rearranges.pass_eq (r : t'.Rearranges t) (h : t.WellFormed) : t'.pass = t.pass := by
  have args := args_of_perm h.distinct (r.wellFormed h).distinct r.contents
  simp only [pass, r.name, r.body, args]

end PassText

namespace Graph

/-- Behind a source there is nothing to read. -/
theorem readFrom_end (source : Bytes) : (readFrom source source.length).result = .ok ([], []) := by
  rw [result_readFrom_rest, List.drop_length]
  intro span seen
  have bounds := bounds_of_find seen
  have upper := stop_le_of_find seen
  have long := List.length_pos_iff.mpr Keyword.isWord_passBegin.1
  dsimp only at bounds upper
  omega

/-- A source may begin with a pass. -/
theorem find_front (z : Bytes) :
    find (Keyword.passBegin ++ Delimiter.paren.opener :: z)
      ⟨0, (Keyword.passBegin ++ Delimiter.paren.opener :: z).length⟩ Keyword.passBegin .terminator =
        .found ⟨0, Keyword.passBegin.length⟩ := by
  have first : ∀ b ∈ Keyword.passBegin, Calm b := by decide
  obtain ⟨b, letters, spelled⟩ := List.exists_cons_of_ne_nil Keyword.isWord_passBegin.1
  have member : ⟨0, b, .code⟩ ∈ scan (Keyword.passBegin ++ Delimiter.paren.opener :: z) 0 := by
    rw [scan, List.drop_zero, spelled, List.cons_append,
      scanFrom_calm (first b (spelled ▸ List.mem_cons_self))]
    exact List.mem_cons_self
  have behind : (Keyword.passBegin ++ Delimiter.paren.opener :: z)[0 + Keyword.passBegin.length]? =
      some Delimiter.paren.opener := by
    simp
  refine find_eq_found_iff.mpr
    ⟨(Nat.zero_add _).symm, ?_, fun j lt => absurd lt (Nat.not_lt_zero j)⟩
  refine (sighted_iff_terminates Keyword.isWord_passBegin resumes_zero stops_length).mpr
    ⟨Nat.le_refl 0, ?_, ⟨⟨_, member, rfl, rfl⟩, List.prefix_append _ _⟩, ?_⟩
  · simp
  · rw [Boundary.accepts, behind]
    rfl

theorem parse_text {t : PassText} (h : t.WellFormed) :
    (parse t.text).result = .ok ⟨[], [t.pass]⟩ := by
  have begins : find t.text ⟨0, t.text.length⟩ Keyword.passBegin .terminator =
      .found ⟨0, Keyword.passBegin.length⟩ := by
    rw [t.text_eq, PassText.front, List.append_assoc, List.cons_append]
    exact find_front _
  rw [result_parse, result_readFrom, begins]
  dsimp only
  rw [h.read]
  dsimp only [Except.bind]
  rw [readFrom_end]
  rfl

/-- The clauses of a pass may stand in any order: however a pass is written, it is read as the same
pass, with the same parameters. -/
theorem parse_written {t : PassText} (h : t.WellFormed) :
    (parse t.text).result = .ok ⟨[], [t.pass]⟩ ∧ ∀ t' : PassText, t'.Rearranges t →
      (parse t'.text).result = .ok ⟨[], [t'.pass]⟩ ∧ t'.pass = t.pass ∧
        t'.pass.params = t.pass.params := by
  refine ⟨parse_text h, fun t' rearranges => ?_⟩
  have same := rearranges.pass_eq h
  exact ⟨parse_text (rearranges.wellFormed h), same, congrArg Pass.params same⟩

/-- Clauses out of order, commas in groups, and keywords in a comment and in longer words. -/
theorem parse_written_keywords :
    let t : PassText := ⟨bytes "p",
      [⟨bytes " ", .readWrite, [bytes "int READ", bytes "f(\x7ba, b\x7d, c)"]⟩,
        ⟨bytes "\n", .read, [bytes "PASS_ENDS x"]⟩, ⟨bytes "\t ", .input, []⟩],
      bytes " ", bytes " \x7b\x7d // PASS_END \x7b\n", bytes "\n"⟩
    t.WellFormed ∧ (parse t.text).result = .ok ⟨[], [t.pass]⟩ ∧ ∀ t' : PassText, t'.Rearranges t →
      (parse t'.text).result = .ok ⟨[], [t'.pass]⟩ ∧ t'.pass = t.pass ∧
        t'.pass.params = t.pass.params := by
  intro t
  have wellFormed : t.WellFormed := by decide +kernel
  exact ⟨wellFormed, parse_written wellFormed⟩

end Graph

end PassCompiler
