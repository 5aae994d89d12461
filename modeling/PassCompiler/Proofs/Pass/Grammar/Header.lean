import PassCompiler.Proofs.Pass.Counterpart.Header
import PassCompiler.Proofs.Pass.Grammar.Basic

/-! Headers as they are written: each clause is read where it stands, with its own arguments. -/
namespace PassCompiler

open Source

variable {x y : Bytes}

/-- A word that another byte ends. -/
theorem word_append {m c : Mark} {letters behind : List Mark}
    (ident : ∀ n ∈ letters, Bytes.isIdent n.byte = true) (ends : Bytes.isIdent c.byte = false) :
    word m (letters ++ c :: behind) = m.byte :: text letters ∧
      behindWord (letters ++ c :: behind) = c :: behind := by
  have other : ¬ Bytes.isIdent c.byte = true := by simp [ends]
  constructor
  · rw [word, List.takeWhile_append_of_pos ident, List.takeWhile_cons, if_neg other,
      List.append_nil]
  · rw [behindWord, List.dropWhile_append_of_pos ident, List.dropWhile_cons, if_neg other]

theorem Clause.keyword_facts (c : Clause) : ∃ b letters, c.keyword = b :: letters ∧
    (∀ d ∈ b :: letters, Bytes.isIdent d = true) ∧ ofKeyword? c.keyword = some c := by
  cases c <;> exact ⟨_, _, rfl, by decide, by decide⟩

theorem ClauseText.text_eq (c : ClauseText) (z : Bytes) : c.text ++ z =
    c.blank ++ (c.clause.keyword ++ Delimiter.paren.opener ::
      (Bytes.join (bytes ",") c.args ++ Delimiter.paren.closer :: z)) := by
  have opener : bytes "(" = [Delimiter.paren.opener] := by decide
  have closer : bytes ")" = [Delimiter.paren.closer] := by decide
  simp [text, opener, closer]

theorem quiet_clauses {cs : List ClauseText} (gaps : ∀ c ∈ cs, IsGap c.blank)
    (arguments : ∀ c ∈ cs, ∀ a ∈ c.args, IsArgument a) (hy : Quiet y) :
    Quiet (cs.flatMap ClauseText.text ++ y) := by
  induction cs with
  | nil => exact hy
  | cons c cs ih =>
    obtain ⟨first, later⟩ := List.forall_mem_cons.mp gaps
    obtain ⟨args, others⟩ := List.forall_mem_cons.mp arguments
    rw [List.flatMap_cons, List.append_assoc, c.text_eq]
    exact ((quiet_keyword c.clause).divided (by decide)
      ((quiet_join args).divided (by decide) (ih later others))).blank_append first.blank

theorem isSeparator_comma : Argument.IsSeparator (bytes ",") := ⟨[], by decide, nofun⟩

namespace Header

variable {place : Place} {declared : List Clause} {clauses : Clauses}

theorem readFrom_blank (blank : ∀ b ∈ x, Bytes.isBlank b = true) (k : Nat) (y : Bytes) :
    (readFrom place declared clauses (scanFrom .code k (x ++ y))).result =
      (readFrom place declared clauses (scanFrom .code (k + x.length) y)).result := by
  induction x generalizing k with
  | nil => rfl
  | cons b x ih =>
    obtain ⟨first, later⟩ := List.forall_mem_cons.mp blank
    have divides := divides_of_isBlank first
    have skipped (rest : List Mark) : step declared ⟨k, b, .code⟩ rest = .skip rest := by
      have none : Delimiter.opening? b = none := by
        apply Delimiter.opening?_eq_none
        rintro kind rfl
        cases kind <;> contradiction
      simp [step, Mark.isCode, none, divides.ident]
    rw [List.cons_append, scanFrom_calm divides.calm, result_readFrom_cons, skipped]
    dsimp only
    rw [ih later, List.length_cons, Nat.add_assoc, Nat.add_comm 1]

/-- A list in parentheses is the next group. -/
theorem nextGroup?_list {list : Bytes} (closed : Closed list)
    (nested : ∀ offset, nest [] (scanFrom .code offset list) = some []) (k : Nat) (z : Bytes) :
    nextGroup? (⟨k, Delimiter.paren.opener, .code⟩ ::
        scanFrom .code (k + 1) (list ++ Delimiter.paren.closer :: z)) =
      some ⟨k, some (k + 1 + list.length, scanFrom .code (k + 1 + list.length + 1) z)⟩ := by
  have group := scanFrom_divided (b := Delimiter.paren.closer) closed (by decide) (k + 1) z
  have deep : Delimiter.paren.depth 0 (scanFrom .code (k + 1) list) = some 0 :=
    depth_of_nest (nested (k + 1))
  have closes := Group.close?_eq_some_iff.mpr ⟨_, group, deep, Mark.isCodeByte_iff.mpr ⟨rfl, rfl⟩⟩
  have stays : ¬ (!(Mark.mk k Delimiter.paren.opener .code).isCode ||
      Bytes.isBlank Delimiter.paren.opener) = true := by
    simp [Mark.isCode, Bytes.isBlank, Delimiter.opener]
  rw [nextGroup?, List.dropWhile_cons, if_neg stays]
  dsimp only
  rw [if_pos (beq_self_eq_true _), closes]
  rfl

/-- The step that a header takes at a clause. -/
theorem step_clause {c : Clause} {list : Bytes} (new : c ∉ declared) (closed : Closed list)
    (nested : ∀ offset, nest [] (scanFrom .code offset list) = some []) (k : Nat) (z : Bytes) :
    ∃ m rest, scanFrom .code k (c.keyword ++ Delimiter.paren.opener ::
        (list ++ Delimiter.paren.closer :: z)) = m :: rest ∧
      step declared m rest =
        .clause c ⟨k + c.keyword.length + 1, k + c.keyword.length + 1 + list.length⟩
          (scanFrom .code (k + c.keyword.length + 1 + list.length + 1) z) := by
  obtain ⟨b, letters, split, ident, known⟩ := c.keyword_facts
  have neutral := neutral_of_isIdent ident
  have marks := scanFrom_divided (b := Delimiter.paren.opener) neutral.sealed.closed (by decide) k
    (list ++ Delimiter.paren.closer :: z)
  rw [scanFrom_calm (neutral b List.mem_cons_self), List.cons_append, List.cons_append] at marks
  have spelled (n) (hn : n ∈ scanFrom .code (k + 1) letters) : Bytes.isIdent n.byte = true := by
    refine ident _ (List.mem_cons_of_mem _ ?_)
    rw [← text_scanFrom .code (k + 1) letters]
    exact List.mem_map_of_mem hn
  obtain ⟨named, behind⟩ := @word_append ⟨k, b, .code⟩
    ⟨k + (b :: letters).length, Delimiter.paren.opener, .code⟩ _
    (scanFrom .code (k + (b :: letters).length + 1) (list ++ Delimiter.paren.closer :: z)) spelled
    (show Bytes.isIdent Delimiter.paren.opener = false by decide)
  have first : Bytes.isIdent b = true := ident b List.mem_cons_self
  have none : Delimiter.opening? b = none := by
    apply Delimiter.opening?_eq_none
    rintro kind rfl
    cases kind <;> contradiction
  rw [split] at known ⊢
  refine ⟨_, _, marks, ?_⟩
  rw [text_scanFrom] at named
  have fresh : declared.contains c = false := by simpa using new
  simp only [step, Mark.isCode, beq_self_eq_true, if_true, none, first, wordStep, named, known,
    behind, nextGroup?_list closed nested, fresh, Bool.false_eq_true, if_false]

/-- The header goes on behind a clause with the arguments of the clause. -/
theorem readFrom_clause {c : ClauseText} (gap : IsGap c.blank)
    (arguments : ∀ a ∈ c.args, IsArgument a) (new : c.clause ∉ declared) {k : Nat} {z z' : Bytes}
    (here : place.source.drop k = c.text ++ z') :
    (readFrom place declared clauses (scanFrom .code k (c.text ++ z))).result =
      (readFrom place (c.clause :: declared) (clauses.set c.clause c.args)
        (scanFrom .code (k + c.text.length) z)).result := by
  have items : ∀ a ∈ c.args, Argument.Item a := fun a ha => (arguments a ha).item
  obtain ⟨m, rest, marks, taken⟩ := step_clause new (quiet_join arguments).closed
    (Argument.nest_join isSeparator_comma items) (k + c.blank.length) z
  have list : Bytes.slice place.source
      ⟨k + c.blank.length + c.clause.keyword.length + 1, k + c.blank.length +
        c.clause.keyword.length + 1 + (Bytes.join (bytes ",") c.args).length⟩ =
      Bytes.join (bytes ",") c.args := by
    apply Bytes.slice_of_prefix
    rw [← List.drop_drop, ← List.drop_drop, ← List.drop_drop, here, c.text_eq, List.drop_left,
      List.drop_left]
    exact List.prefix_append _ _
  have read := Argument.read_join isSeparator_comma items list
  have long : c.text.length = c.blank.length + (c.clause.keyword.length +
      ((Bytes.join (bytes ",") c.args).length + 1 + 1)) := by
    have whole := congrArg List.length (c.text_eq [])
    simpa using whole
  rw [c.text_eq, readFrom_blank gap.blank, marks, result_readFrom_cons, taken]
  dsimp only
  rw [read, long]
  dsimp only [Except.bind]
  congr 3
  omega

/-- A whole header, whatever stands in the body behind it. -/
theorem readFrom_written {cs : List ClauseText} (gaps : ∀ c ∈ cs, IsGap c.blank)
    (arguments : ∀ c ∈ cs, ∀ a ∈ c.args, IsArgument a) (distinct : (cs.map (·.clause)).Nodup)
    (new : ∀ c ∈ cs, c.clause ∉ declared) {gap : Bytes} (gapped : IsGap gap) {k : Nat}
    {inner z : Bytes} (here : place.source.drop k = cs.flatMap ClauseText.text ++ z) :
    (readFrom place declared clauses (scanFrom .code k
        (cs.flatMap ClauseText.text ++ (gap ++ Delimiter.brace.opener :: inner)))).result =
      .ok ⟨cs.foldl (fun all c => all.set c.clause c.args) clauses,
        k + (cs.flatMap ClauseText.text).length + gap.length⟩ := by
  induction cs generalizing declared clauses k with
  | nil =>
    rw [List.flatMap_nil, List.nil_append, readFrom_blank gapped.blank,
      scanFrom_calm (by decide), result_readFrom_cons]
    rfl
  | cons c cs ih =>
    obtain ⟨first, later⟩ := List.forall_mem_cons.mp gaps
    obtain ⟨args, others⟩ := List.forall_mem_cons.mp arguments
    obtain ⟨fresh, rest⟩ := List.forall_mem_cons.mp new
    obtain ⟨once, distinct'⟩ := List.nodup_cons.mp distinct
    rw [List.flatMap_cons, List.append_assoc] at here ⊢
    rw [readFrom_clause first args fresh here, ih later others distinct' ?_ ?_]
    · rw [List.foldl_cons, List.length_append, Nat.add_assoc k]
    · intro d hd
      rw [List.mem_cons, not_or]
      refine ⟨?_, rest d hd⟩
      intro same
      exact once (List.mem_map.mpr ⟨d, hd, same⟩)
    · rw [← List.drop_drop, here, List.drop_left]

end Header

end PassCompiler
