import Mathlib.Data.List.Infix
import PassCompiler.Emission.Parameters
import PassCompiler.Proofs.Pass.Argument.Joined
import PassCompiler.Proofs.Source.Divided

/-! Passes as they are written: a name, clauses in any order, a body, and blanks between. -/
namespace PassCompiler

open Source

structure ClauseText where
  blank : Bytes
  clause : Clause
  args : List Bytes

structure PassText where
  name : Bytes
  clauses : List ClauseText
  beforeBody : Bytes
  body : Bytes
  beforeEnd : Bytes

def ClauseText.text (c : ClauseText) : Bytes :=
  c.blank ++ c.clause.keyword ++ bytes "(" ++ Bytes.join (bytes ",") c.args ++ bytes ")"

def PassText.text (t : PassText) : Bytes :=
  Keyword.passBegin ++ bytes "(" ++ t.name ++ bytes ")" ++ t.clauses.flatMap ClauseText.text ++
    t.beforeBody ++ bytes "\x7b" ++ t.body ++ bytes "\x7d" ++ t.beforeEnd ++ Keyword.passEnd

structure IsGap (x : Bytes) : Prop where
  filled : x ≠ []
  blank : ∀ b ∈ x, Bytes.isBlank b = true

/-- No keyword that begins or ends a pass stands in the code of a text. -/
def Unkeyed (x : Bytes) : Prop :=
  ∀ keyword ∈ [Keyword.passBegin, Keyword.passEnd], ∀ i, ¬ WordAt x keyword i

/-- An argument that any list may have. -/
structure IsArgument (a : Bytes) : Prop where
  filled : a ≠ []
  trimmed : Bytes.trimSpace a = a
  /-- Arguments are kept as text. -/
  valid : Utf8.isValid a = true
  uncommented : ∀ m ∈ scan a 0, m.isCode = true
  nested : nest [] (scan a 0) = some []
  /-- Every comma stands in parentheses or braces. -/
  commas : ∀ i (_ : i < a.length), a[i] = 0x2C → nest [] ((scan a 0).take i) ≠ some []
  unkeyed : Unkeyed a

structure PassText.Spaced (t : PassText) : Prop where
  beforeClauses : ∀ c ∈ t.clauses, IsGap c.blank
  beforeBody : IsGap t.beforeBody
  beforeEnd : IsGap t.beforeEnd

structure PassText.WellFormed (t : PassText) : Prop extends t.Spaced where
  named : Pass.isName t.name = true
  distinct : (t.clauses.map (·.clause)).Nodup
  arguments : ∀ c ∈ t.clauses, ∀ a ∈ c.args, IsArgument a
  closed : Closed t.body
  balanced : Delimiter.brace.Balanced (scan t.body 0)
  unkeyed : Unkeyed t.body
  unfixed : ¬ Keyword.fixedBegin <:+: t.body

def PassText.args (t : PassText) (clause : Clause) : List Bytes :=
  (t.clauses.find? (·.clause == clause)).elim [] (·.args)

/-- The pass that is written. -/
def PassText.pass (t : PassText) : Pass :=
  ⟨t.name, ⟨t.args .read, t.args .write, t.args .readWrite, t.args .input⟩, [], t.body, []⟩

instance (x : Bytes) : Decidable (IsGap x) :=
  decidable_of_iff (x ≠ [] ∧ ∀ b ∈ x, Bytes.isBlank b = true)
    ⟨fun h => ⟨h.1, h.2⟩, fun h => ⟨h.1, h.2⟩⟩

instance (x : Bytes) : Decidable (Unkeyed x) :=
  decidable_of_iff (∀ keyword ∈ [Keyword.passBegin, Keyword.passEnd], ∀ i < x.length,
      ¬ WordAt x keyword i) <| by
    refine forall₂_congr fun keyword _ => ⟨fun h i stands => ?_, fun h i _ => h i⟩
    obtain ⟨m, hm, rfl, _⟩ := stands.occurs.code
    have bounds := bounds_of_mem_scan hm
    exact h _ (by simpa using bounds.2) stands

instance (a : Bytes) : Decidable (IsArgument a) :=
  decidable_of_iff (a ≠ [] ∧ Bytes.trimSpace a = a ∧ Utf8.isValid a = true ∧
      (∀ m ∈ scan a 0, m.isCode = true) ∧ nest [] (scan a 0) = some [] ∧
      (∀ i (_ : i < a.length), a[i] = 0x2C → nest [] ((scan a 0).take i) ≠ some []) ∧ Unkeyed a)
    ⟨fun ⟨h₁, h₂, h₃, h₄, h₅, h₆, h₇⟩ => ⟨h₁, h₂, h₃, h₄, h₅, h₆, h₇⟩,
      fun ⟨h₁, h₂, h₃, h₄, h₅, h₆, h₇⟩ => ⟨h₁, h₂, h₃, h₄, h₅, h₆, h₇⟩⟩

instance (t : PassText) : Decidable t.Spaced :=
  decidable_of_iff ((∀ c ∈ t.clauses, IsGap c.blank) ∧ IsGap t.beforeBody ∧ IsGap t.beforeEnd)
    ⟨fun h => ⟨h.1, h.2.1, h.2.2⟩, fun h => ⟨h.1, h.2, h.3⟩⟩

instance (t : PassText) : Decidable t.WellFormed :=
  decidable_of_iff (t.Spaced ∧ Pass.isName t.name = true ∧ (t.clauses.map (·.clause)).Nodup ∧
      (∀ c ∈ t.clauses, ∀ a ∈ c.args, IsArgument a) ∧ Closed t.body ∧
      Delimiter.brace.depth 0 (scan t.body 0) = some 0 ∧ Unkeyed t.body ∧
      ¬ Keyword.fixedBegin <:+: t.body)
    ⟨fun ⟨h₁, h₂, h₃, h₄, h₅, h₆, h₇, h₈⟩ => ⟨h₁, h₂, h₃, h₄, h₅, h₆, h₇, h₈⟩,
      fun ⟨h₁, h₂, h₃, h₄, h₅, h₆, h₇, h₈⟩ => ⟨h₁, h₂, h₃, h₄, h₅, h₆, h₇, h₈⟩⟩

/-- A text that ends in code and has no such keyword in it. -/
structure Quiet (x : Bytes) : Prop where
  closed : Closed x
  unkeyed : Unkeyed x

variable {x y : Bytes} {b : UInt8}

theorem isWord_of_mem {keyword : Bytes}
    (h : keyword ∈ [Keyword.passBegin, Keyword.passEnd]) : IsWord keyword := by
  simp only [List.mem_cons, List.not_mem_nil, or_false] at h
  rcases h with rfl | rfl
  · exact Keyword.isWord_passBegin
  · exact Keyword.isWord_passEnd

theorem Quiet.divided (hx : Quiet x) (divides : Divides b) (hy : Quiet y) :
    Quiet (x ++ b :: y) where
  closed := hx.closed.divided divides.calm hy.closed
  unkeyed keyword member i stands := by
    rcases wordAt_of_divided (isWord_of_mem member) hx.closed divides stands with
      left | ⟨j, _, right⟩
    · exact hx.unkeyed keyword member i left
    · exact hy.unkeyed keyword member j right

/-- Such a keyword stands behind every quiet text. -/
theorem Quiet.lt_of_terminates (hx : Quiet x) (divides : Divides b) {keyword : Bytes}
    (member : keyword ∈ [Keyword.passBegin, Keyword.passEnd]) {i : Nat}
    (h : Terminates (x ++ b :: y) keyword 0 i) : x.length < i := by
  rcases wordAt_of_divided (isWord_of_mem member) hx.closed divides h.wordAt with
    left | ⟨j, rfl, _⟩
  · exact absurd left (hx.unkeyed keyword member i)
  · omega

theorem quiet_nil : Quiet [] := ⟨rfl, by decide⟩

theorem quiet_keyword (c : Clause) : Quiet c.keyword := by
  cases c <;> exact ⟨by decide, by decide⟩

theorem Quiet.blank_append (hy : Quiet y) (blank : ∀ c ∈ x, Bytes.isBlank c = true) :
    Quiet (x ++ y) := by
  induction x with
  | nil => exact hy
  | cons c x ih =>
    obtain ⟨first, later⟩ := List.forall_mem_cons.mp blank
    exact quiet_nil.divided (divides_of_isBlank first) (ih later)

theorem IsArgument.quiet {a : Bytes} (h : IsArgument a) : Quiet a where
  closed := closed_of_last fun m last => h.uncommented m (List.mem_of_getLast? last)
  unkeyed := h.unkeyed

theorem quiet_join {args : List Bytes} (h : ∀ a ∈ args, IsArgument a) :
    Quiet (Bytes.join (bytes ",") args) := by
  induction args with
  | nil => exact quiet_nil
  | cons a args ih =>
    obtain ⟨first, later⟩ := List.forall_mem_cons.mp h
    cases args with
    | nil => simpa [Bytes.join] using first.quiet
    | cons a' args =>
      have split : Bytes.join (bytes ",") (a :: a' :: args) =
          a ++ 0x2C :: Bytes.join (bytes ",") (a' :: args) := by
        rw [Bytes.join, List.intercalate_cons_cons, show bytes "," = [0x2C] by decide]
        simp [Bytes.join]
      rw [split]
      exact first.quiet.divided (by decide) (ih later)

namespace Argument

variable {g : Option Group} {stack : List Delimiter} {marks : List Mark}

/-- The groups of a reader are those that nest. -/
theorem whole_of_nested (within : Within g stack) (nests : nest stack marks = some [])
    (code : ∀ m ∈ marks, m.isCode = true)
    (commas : ∀ front m behind, marks = front ++ m :: behind → m.byte = 0x2C →
      nest stack front ≠ some []) : Whole g marks := by
  induction marks generalizing g stack with
  | nil =>
    obtain rfl := Option.some.inj nests
    cases g with
    | none => trivial
    | some g =>
      obtain ⟨_, impossible, _⟩ := within
      simp at impossible
  | cons m marks ih =>
    obtain ⟨here, later⟩ := List.forall_mem_cons.mp code
    have behind {stack' : List Delimiter} (first : nest stack [m] = some stack') :
        ∀ front n behind, marks = front ++ n :: behind → n.byte = 0x2C →
          nest stack' front ≠ some [] := by
      intro front n behind split comma closed
      refine commas (m :: front) n behind (by rw [split]; rfl) comma ?_
      rw [nest_cons, first]
      exact closed
    cases g with
    | none =>
      obtain rfl := within
      obtain ⟨stack', first, rest, within'⟩ := within_opens here nests
      exact ⟨here, fun comma => commas [] m marks rfl comma rfl,
        ih within' rest later (behind first)⟩
    | some g =>
      obtain ⟨stack', first, rest, within'⟩ := within.step nests
      exact ih within' rest later (behind first)

end Argument

theorem IsArgument.item {a : Bytes} (h : IsArgument a) : Argument.Item a where
  filled := h.filled
  trimmed := h.trimmed
  valid := h.valid
  whole := by
    refine Argument.whole_of_nested rfl h.nested h.uncommented fun front m behind split comma => ?_
    have spelled : a = text front ++ m.byte :: text behind := by
      have whole : text (scan a 0) = a := text_scanFrom .code 0 a
      rw [← whole, split]
      simp [text]
    have long : (text front).length = front.length := List.length_map ..
    have inside : front.length < a.length := by
      rw [spelled, List.length_append, List.length_cons]
      omega
    have here : a[front.length] = 0x2C := by
      simp only [spelled, ← long, comma]
      simp
    have outside := h.commas front.length inside here
    rwa [split, List.take_left] at outside
  nested := h.nested

end PassCompiler
