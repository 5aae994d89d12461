import PassCompiler.Proofs.Pass.Argument.Written
import PassCompiler.Proofs.Source.Token
import PassCompiler.Proofs.Text.PrefixFree

/-! The tokens of an argument list. What is read keeps them, in its order, but for the commas, if no
argument of the list is empty: `tokens_of_read`. -/
namespace PassCompiler.Argument

open Source

variable {g : Option Group} {last : Option Mark} {marks r : List Mark} {rs : List (List Mark)}
  {m : Mark} {list : Bytes} {args : List Bytes}

/-- A word goes on in what is written where it goes on in the source. -/
theorem goesOn_of_word (h : Reading g (some m) marks r rs) (word : m.isIdent = true) :
    goesOn r = goesOn marks := by
  have ident := (Bool.and_eq_true_iff.mp word).2
  cases h with
  | done | inside | kept => rfl
  | @comma _ n marks r rs code comma =>
    have other : n.isIdent = false := by
      rw [Mark.isIdent, comma]
      exact Bool.and_false _
    exact other.symm
  | @space _ n marks r rs comment =>
    have other : n.isIdent = false := by
      rw [Mark.isIdent, comment]
      rfl
    exact other.symm
  | gap _ hidden =>
    have blank : Bytes.isBlank m.byte = true := by simpa [spaced] using hidden
    rw [Bytes.not_isIdent_of_isBlank blank] at ident
    contradiction

/-- Each comma is a token, and nothing else of the list is lost. -/
theorem Reading.tokens (h : Reading g last marks r rs) :
    tokensOf marks = tokensOf r ++ rs.flatMap fun x => bytes "," :: tokensOf x := by
  have hidden {m : Mark} (comment : m.isCode = false) : m.isVisible = false := by
    rw [Mark.isVisible, comment]
    rfl
  induction h with
  | done => rfl
  | inside read ih => exact tokensOf_cons_congr (goesOn_of_word read) ih
  | kept code other read ih => exact tokensOf_cons_congr (goesOn_of_word read) ih
  | @comma last m marks r rs code comma read ih =>
    have visible : m.isVisible = true := by
      rw [Mark.isVisible, code, comma]
      rfl
    have other : m.isIdent = false := by
      rw [Mark.isIdent, comma]
      exact Bool.and_false _
    rw [tokensOf_single visible (.inl other), ih, comma]
    rfl
  | space comment shown read ih =>
    rw [tokensOf_hidden (hidden comment), tokensOf_hidden (by decide), ih]
  | gap comment _ _ ih => rw [tokensOf_hidden (hidden comment), ih]

theorem isVisible_of_isSpace (space : Bytes.isSpace m.byte = true) : m.isVisible = false := by
  rw [Mark.isVisible, space]
  exact Bool.and_false _

theorem loose_of_isSpace (spaces : ∀ m ∈ marks, Bytes.isSpace m.byte = true) : Loose marks := by
  intro m member solid
  have space := spaces m member
  rw [Blank.not_isSpace_of_solid solid] at space
  contradiction

theorem exists_of_trimSpace (r : List Mark) : ∃ a q b, r = a ++ (q ++ b) ∧
    (∀ m ∈ a, Bytes.isSpace m.byte = true) ∧ (∀ m ∈ b, Bytes.isSpace m.byte = true) ∧
    text q = Bytes.trimSpace (text r) := by
  let space (m : Mark) : Bool := Bytes.isSpace m.byte
  refine ⟨r.takeWhile space, (r.dropWhile space).rdropWhile space,
    (r.dropWhile space).rtakeWhile space, ?_, ?_, ?_, ?_⟩
  · rw [List.rdropWhile_append_rtakeWhile, List.takeWhile_append_dropWhile]
  · exact fun m member => List.mem_takeWhile_imp (p := space) member
  · exact fun m member => List.mem_rtakeWhile_imp (p := space) member
  · rw [Bytes.trimSpace, Bytes.trimBoth, text, text, List.dropWhile_map, ← List.map_reverse,
      List.dropWhile_map, ← List.map_reverse]
    rfl

/-- White space at the ends of an argument is no part of its tokens. -/
theorem Written.tokens_trimSpace (h : Written r) :
    tokens (Bytes.trimSpace (text r)) = tokensOf r := by
  obtain ⟨a, q, b, rfl, front, back, same⟩ := exists_of_trimSpace r
  have written := h.between (loose_of_isSpace front) (loose_of_isSpace back)
  have alone : tokens (text q) = tokensOf q := tokensOf_alike (written.scanned.alike 0)
  rw [← same, alone, tokensOf_between]
  · exact fun m member => isVisible_of_isSpace (front m member)
  · exact fun m member => isVisible_of_isSpace (back m member)

def isFilled (run : Run) : Bool := run.any fun part => part.any fun m => !Bytes.isSpace m.byte

/-- A list in which every argument is written out: between any two of its commas, before the first
and behind the last there is more than white space and comments. -/
def Filled (list : Bytes) : Prop :=
  ∃ ps, pieces none (scan list 0) = .ok ps ∧ ∀ run ∈ runs ps, isFilled run = true

instance (list : Bytes) : Decidable (Filled list) :=
  match h : pieces none (scan list 0) with
  | .ok ps => decidable_of_iff (∀ run ∈ runs ps, isFilled run = true) (by simp [Filled, h])
  | .error _ => .isFalse (by simp [Filled, h])

theorem mem_marksAfter {run : Run} (member : some m ∈ run) (last : Option Mark) :
    m ∈ marksAfter last run := by
  induction run generalizing last with
  | nil => contradiction
  | cons part run ih =>
    rcases List.mem_cons.mp member with rfl | later
    · exact List.mem_cons_self
    · cases part with
      | some n => exact List.mem_cons_of_mem _ (ih later _)
      | none =>
        rw [marksAfter]
        split
        · exact List.mem_cons_of_mem _ (ih later _)
        · exact ih later _

theorem trimSpace_ne_nil_of_isFilled {run : Run} (filled : isFilled run = true)
    (last : Option Mark) : Bytes.trimSpace (text (marksAfter last run)) ≠ [] := by
  obtain ⟨part, member, visible⟩ := List.any_eq_true.mp filled
  cases part with
  | none => contradiction
  | some m =>
    refine Blank.trimSpace_ne_nil (List.mem_map_of_mem (mem_marksAfter member last)) ?_
    simpa using visible

/-- The arguments of a list hold its tokens but for the commas. -/
theorem tokens_of_read (valid : Utf8.isValid list = true) (filled : Filled list)
    (h : read list ⟨0, list.length⟩ = .ok args) :
    tokens list = [bytes ","].intercalate (args.map tokens) := by
  obtain ⟨ps, pieces, all⟩ := filled
  obtain ⟨run, more, split⟩ := exists_runs ps
  have reading : Reading none none (scan list 0) (marksAfter none run)
      (more.map (marksAfter none)) := reading_of_pieces pieces split
  have written := reading.written valid
  have kept : ∀ r ∈ marksAfter none run :: more.map (marksAfter none),
      Bytes.trimSpace (text r) ≠ [] := by
    rw [← List.map_cons, ← split]
    exact List.forall_mem_map.mpr fun run member => trimSpace_ne_nil_of_isFilled (all run member) _
  generalize marksAfter none run = r at *
  generalize more.map (marksAfter none) = rs at *
  have same : args = (r :: rs).map fun r => Bytes.trimSpace (text r) := by
    have readAgain : read list ⟨0, list.length⟩ = .ok (trimmed (r :: rs)) := by
      apply read_eq_ok_iff.mpr
      rw [List.take_length]
      exact ⟨r, rs, reading, rfl⟩
    rw [trimmed_of_valid fun r member => (written r member).2, List.filter_eq_self.mpr] at readAgain
    · exact Except.ok.inj (h.symm.trans readAgain)
    · simpa [List.forall_mem_map] using kept
  have each : args.map tokens = (r :: rs).map tokensOf := by
    rw [same, List.map_map]
    exact List.map_congr_left fun r member => (written r member).1.tokens_trimSpace
  rw [each, List.map_cons, intercalate_cons, List.flatMap_map]
  exact reading.tokens

end PassCompiler.Argument
