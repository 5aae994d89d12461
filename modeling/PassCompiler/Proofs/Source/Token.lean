import PassCompiler.Proofs.Source.Alike
import PassCompiler.Proofs.Source.Divided
import PassCompiler.Proofs.Text.Trim

/-! Tokens of code: the words, and every other byte alone. Comments and white space only separate
them. Main statements: `tokens_divided`, `tokens_join`. -/
namespace PassCompiler.Source

variable {strict : Prop} {u v marks others : List Mark} {m n : Mark} {x y : Bytes} {b : UInt8}

namespace Mark

def isVisible (m : Mark) : Bool := m.isCode && !Bytes.isSpace m.byte

def isIdent (m : Mark) : Bool := m.isCode && Bytes.isIdent m.byte

theorem isVisible_of_isIdent (h : m.isIdent = true) : m.isVisible = true := by
  obtain ⟨code, ident⟩ := Bool.and_eq_true_iff.mp h
  have solid := Blank.not_isSpace_of_solid (Blank.solid_of_isIdent ident)
  rw [isVisible, code, solid]
  rfl

theorem isIdent_of_not_isVisible (h : m.isVisible = false) : m.isIdent = false := by
  by_contra ident
  rw [isVisible_of_isIdent (by simpa using ident)] at h
  contradiction

end Mark

def grow (b : UInt8) : List Bytes → List Bytes
  | [] => [[b]]
  | token :: rest => (b :: token) :: rest

def goesOn (marks : List Mark) : Bool := marks.head?.any Mark.isIdent

def tokensOf : List Mark → List Bytes
  | [] => []
  | m :: rest =>
    if m.isVisible then
      if m.isIdent && goesOn rest then grow m.byte (tokensOf rest)
      else [m.byte] :: tokensOf rest
    else tokensOf rest

/-- The tokens of a text. -/
def tokens (x : Bytes) : List Bytes := tokensOf (scan x 0)

example : tokens (bytes "p->a_1 /* b(; */ /**/c2") =
    [bytes "p", bytes "-", bytes ">", bytes "a_1", bytes "c2"] := by
  decide +kernel

theorem tokensOf_hidden (hidden : m.isVisible = false) : tokensOf (m :: marks) = tokensOf marks := by
  rw [tokensOf, if_neg (by simp [hidden])]

theorem tokensOf_single (visible : m.isVisible = true)
    (apart : m.isIdent = false ∨ goesOn marks = false) :
    tokensOf (m :: marks) = [m.byte] :: tokensOf marks := by
  rw [tokensOf, if_pos visible, if_neg]
  rcases apart with other | ends
  · simp [other]
  · simp [ends]

theorem tokensOf_grow (ident : m.isIdent = true) (more : goesOn marks = true) :
    tokensOf (m :: marks) = grow m.byte (tokensOf marks) := by
  rw [tokensOf, if_pos (m.isVisible_of_isIdent ident), ident, more]
  rfl

/-- The three ways in which a mark acts. -/
theorem token_cases (m : Mark) (marks : List Mark) :
    m.isVisible = false ∨
      (m.isVisible = true ∧ (m.isIdent = false ∨ goesOn marks = false)) ∨
      (m.isIdent = true ∧ goesOn marks = true) := by
  cases m.isVisible <;> cases m.isIdent <;> cases goesOn marks <;> simp_all

theorem tokensOf_ne_nil (more : goesOn marks = true) : tokensOf marks ≠ [] := by
  cases marks with
  | nil => contradiction
  | cons m marks =>
    rw [tokensOf, if_pos (m.isVisible_of_isIdent more)]
    split
    · cases tokensOf marks <;> exact List.cons_ne_nil _ _
    · exact List.cons_ne_nil _ _

theorem grow_append {first : List Bytes} (filled : first ≠ []) (b : UInt8) (rest : List Bytes) :
    grow b (first ++ rest) = grow b first ++ rest := by
  cases first with
  | nil => contradiction
  | cons token first => rfl

/-- One more mark in front of scans with the same tokens, the second of which is followed by
others. -/
theorem tokensOf_cons_congr {others : List Bytes} (same : m.isIdent = true → goesOn u = goesOn v)
    (h : tokensOf v = tokensOf u ++ others) :
    tokensOf (m :: v) = tokensOf (m :: u) ++ others := by
  rcases token_cases m u with hidden | ⟨visible, single⟩ | ⟨ident, more⟩
  · rw [tokensOf_hidden hidden, tokensOf_hidden hidden, h]
  · have single' : m.isIdent = false ∨ goesOn v = false := by
      rcases single with other | ends
      · exact .inl other
      · cases ident : m.isIdent with
        | false => exact .inl rfl
        | true => exact .inr ((same ident).symm.trans ends)
    rw [tokensOf_single visible single, tokensOf_single visible single', h, List.cons_append]
  · rw [tokensOf_grow ident more, tokensOf_grow ident ((same ident).symm.trans more), h,
      grow_append (tokensOf_ne_nil more)]

/-- A word is one token. -/
theorem tokensOf_word (chain : (m :: marks).IsChain Adjacent) (ident : m.isIdent = true) :
    tokensOf (m :: marks) = word m marks :: tokensOf (behindWord marks) := by
  induction marks generalizing m with
  | nil => exact tokensOf_single (m.isVisible_of_isIdent ident) (.inr rfl)
  | cons n marks ih =>
    obtain ⟨adjacent, later⟩ := List.isChain_cons_cons.mp chain
    by_cases letter : Bytes.isIdent n.byte = true
    · have code : n.isCode = true := by
        by_contra comment
        have slash := adjacent.1 (Bool.and_eq_true_iff.mp ident).1 (by simpa using comment)
        rw [slash] at letter
        contradiction
      have more : n.isIdent = true := by rw [Mark.isIdent, code, letter, Bool.and_true]
      have goes : goesOn (n :: marks) = true := more
      rw [tokensOf_grow ident goes, ih later more, word, word, behindWord, behindWord]
      simp only [List.takeWhile_cons, List.dropWhile_cons, letter, if_true]
      rfl
    · have ends : goesOn (n :: marks) = false := by
        simp [goesOn, Mark.isIdent, letter]
      rw [tokensOf_single (m.isVisible_of_isIdent ident) (.inr ends), word, behindWord]
      simp only [List.takeWhile_cons, List.dropWhile_cons, if_neg letter]
      rfl

/-- Where no word goes on across, the tokens of both sides are those of the whole. -/
theorem tokensOf_append (apart : u.getLast?.any Mark.isIdent = false ∨ goesOn v = false) :
    tokensOf (u ++ v) = tokensOf u ++ tokensOf v := by
  induction u with
  | nil => rfl
  | cons m u ih =>
    have ahead : goesOn (u ++ v) = true → m.isIdent = true → goesOn u = true := by
      intro more ident
      cases u with
      | cons n u => exact more
      | nil =>
        rcases apart with other | ends
        · simp [ident] at other
        · rw [List.nil_append, ends] at more
          contradiction
    have later : tokensOf (u ++ v) = tokensOf u ++ tokensOf v := by
      apply ih
      cases u with
      | nil => exact .inl rfl
      | cons n u => rwa [List.getLast?_cons_cons] at apart
    have back : goesOn u = true → goesOn (u ++ v) = true := by
      cases u with
      | nil => nofun
      | cons n u => exact id
    rw [List.cons_append]
    rcases token_cases m u with hidden | ⟨visible, single⟩ | ⟨ident, more⟩
    · rw [tokensOf_hidden hidden, tokensOf_hidden hidden, later]
    · rw [tokensOf_single visible single, tokensOf_single visible, later, List.cons_append]
      by_contra both
      simp only [not_or, Bool.not_eq_false] at both
      have := ahead both.2 both.1
      rcases single with other | ends
      · simp [other] at both
      · simp [ends] at this
    · rw [tokensOf_grow ident more, tokensOf_grow ident (back more), later,
        grow_append (tokensOf_ne_nil more)]

theorem tokensOf_eq_nil (h : ∀ m ∈ marks, m.isVisible = false) : tokensOf marks = [] := by
  induction marks with
  | nil => rfl
  | cons m marks ih =>
    obtain ⟨here, later⟩ := List.forall_mem_cons.mp h
    rw [tokensOf_hidden here, ih later]

/-- What hides at both ends takes no part. -/
theorem tokensOf_between {a b : List Mark} (front : ∀ m ∈ a, m.isVisible = false)
    (back : ∀ m ∈ b, m.isVisible = false) : tokensOf (a ++ (u ++ b)) = tokensOf u := by
  have first : a.getLast?.any Mark.isIdent = false := by
    cases last : a.getLast? with
    | none => rfl
    | some m => exact m.isIdent_of_not_isVisible (front m (List.mem_of_getLast? last))
  have ends : goesOn b = false := by
    cases next : b.head? with
    | none => rw [goesOn, next, Option.any_none]
    | some m =>
      rw [goesOn, next, Option.any_some]
      exact m.isIdent_of_not_isVisible (back m (List.mem_of_head? next))
  rw [tokensOf_append (.inl first), tokensOf_append (.inr ends), tokensOf_eq_nil front,
    tokensOf_eq_nil back, List.nil_append, List.append_nil]

theorem Mark.Alike.isIdent (h : m.Alike strict n) : n.isIdent = m.isIdent := by
  unfold Mark.isIdent
  rw [h.isCode]
  cases code : m.isCode with
  | false => rfl
  | true => rw [h.byte (.inr code)]

theorem Mark.Alike.isVisible (h : m.Alike strict n) : n.isVisible = m.isVisible := by
  unfold Mark.isVisible
  rw [h.isCode]
  cases code : m.isCode with
  | false => rfl
  | true => rw [h.byte (.inr code)]

/-- Tokens depend neither on offsets nor on what comments say. -/
theorem tokensOf_alike (h : List.Forall₂ (Mark.Alike strict) marks others) :
    tokensOf others = tokensOf marks := by
  induction h with
  | nil => rfl
  | @cons m n marks others first rest ih =>
    have more : goesOn others = goesOn marks := by
      cases rest with
      | nil => rfl
      | cons second _ => exact second.isIdent
    rw [tokensOf, tokensOf, first.isVisible, first.isIdent, more, ih]
    cases visible : m.isVisible with
    | false => rfl
    | true => rw [first.byte (.inr (Bool.and_eq_true_iff.mp visible).1)]

theorem tokensOf_scanFrom (offset : Nat) (x : Bytes) :
    tokensOf (scanFrom .code offset x) = tokens x :=
  tokensOf_alike (alike_scanFrom .code 0 offset x)

theorem tokens_nil : tokens [] = [] := rfl

theorem tokens_divided (closed : Closed x) (divides : Divides b) (y : Bytes) :
    tokens (x ++ b :: y) = tokens x ++ (tokens [b] ++ tokens y) := by
  let m : Mark := ⟨0 + x.length, b, .code⟩
  have plain : m.isIdent = false := by
    rw [Mark.isIdent, divides.ident, Bool.and_false]
  have single : tokens [b] = tokensOf [m] := by
    rw [← tokensOf_scanFrom (0 + x.length), scanFrom_calm divides.calm]
    rfl
  have whole : scanFrom .code 0 (x ++ b :: y) =
      scanFrom .code 0 x ++ ([m] ++ scanFrom .code (0 + x.length + 1) y) :=
    scanFrom_divided closed divides.calm 0 y
  have first : goesOn ([m] ++ scanFrom .code (0 + x.length + 1) y) = false := plain
  have last : [m].getLast?.any Mark.isIdent = false := plain
  rw [← tokensOf_scanFrom 0, whole, tokensOf_append (.inr first), tokensOf_append (.inl last),
    tokensOf_scanFrom, tokensOf_scanFrom, single]

/-- What stands between two such bytes. -/
theorem tokens_enclosed {o c : UInt8} (front : Closed x) (inside : Closed y) (opener : Divides o)
    (closer : Divides c) (z : Bytes) :
    tokens ((x ++ [o]) ++ (y ++ c :: z)) = tokens (x ++ [o]) ++ (tokens y ++ tokens (c :: z)) := by
  have head : tokens (x ++ [o]) = tokens x ++ tokens [o] := by
    rw [tokens_divided front opener, tokens_nil, List.append_nil]
  have tail : tokens (c :: z) = tokens [c] ++ tokens z := @tokens_divided [] c rfl closer z
  rw [List.append_assoc, List.singleton_append, tokens_divided front opener,
    tokens_divided inside closer, head, tail, List.append_assoc]

theorem tokens_join {parts : List Bytes} (h : ∀ x ∈ parts, Closed x) :
    tokens (Bytes.join (bytes ", ") parts) = [bytes ","].intercalate (parts.map tokens) := by
  induction parts with
  | nil => rfl
  | cons x rest ih =>
    obtain ⟨first, later⟩ := List.forall_mem_cons.mp h
    cases rest with
    | nil => simp [Bytes.join]
    | cons y rest =>
      have split : Bytes.join (bytes ", ") (x :: y :: rest) =
          x ++ 0x2C :: ([] ++ 0x20 :: Bytes.join (bytes ", ") (y :: rest)) := by
        rw [Bytes.join, List.intercalate_cons_cons, List.append_assoc]
        rfl
      have comma : tokens [0x2C] = [bytes ","] := by decide
      have space : tokens [0x20] = [] := by decide
      rw [split, tokens_divided first (by decide), @tokens_divided [] 0x20 rfl (by decide),
        ih later, comma, space, tokens_nil, List.nil_append, List.nil_append]
      simp only [List.map_cons, List.intercalate_cons_cons, List.append_assoc]

end PassCompiler.Source
