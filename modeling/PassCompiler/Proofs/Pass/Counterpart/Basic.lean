import PassCompiler.Graph
import PassCompiler.Proofs.Source.Twin

/-! What reading one source says about reading another one that contains it. A failure of the first
is one of the second where the second ends with the first. -/
namespace PassCompiler

open Source

/-- Results that agree; failures need to only where `final` holds. -/
structure Agree {ε ε' α β : Type} (final : Prop) (F : ε → ε' → Prop) (R : α → β → Prop)
    (x : Except ε α) (y : Except ε' β) : Prop where
  ok : ∀ a, x = .ok a → ∃ b, y = .ok b ∧ R a b
  error : final → ∀ e, x = .error e → ∃ f, y = .error f ∧ F e f

namespace Agree

variable {ε ε' α β α' β' : Type} {final : Prop} {F : ε → ε' → Prop} {R : α → β → Prop}
  {S : α' → β' → Prop} {x : Except ε α} {y : Except ε' β}

theorem of_ok {a : α} {b : β} (h : R a b) : Agree final F R (.ok a : Except ε α) (.ok b) :=
  ⟨fun _ same => ⟨b, rfl, Except.ok.inj same ▸ h⟩, fun _ _ same => nomatch same⟩

theorem of_error {e : ε} {f : ε'} (h : F e f) :
    Agree final F R (.error e : Except ε α) (.error f) :=
  ⟨fun _ same => (nomatch same), fun _ _ same => ⟨f, rfl, Except.error.inj same ▸ h⟩⟩

theorem exists_ok (agree : Agree True F R x y) {b : β} (h : y = .ok b) :
    ∃ a, x = .ok a ∧ R a b := by
  cases x with
  | error e =>
    obtain ⟨f, failed, _⟩ := agree.error trivial e rfl
    rw [failed] at h
    contradiction
  | ok a =>
    obtain ⟨b', same, related⟩ := agree.ok a rfl
    rw [same] at h
    obtain rfl := Except.ok.inj h
    exact ⟨a, rfl, related⟩

theorem imp {p q : Prop} (agree : Agree q F R x y) (h : p → q) : Agree p F R x y :=
  ⟨agree.ok, fun last => agree.error (h last)⟩

theorem mono {R' : α → β → Prop} (h : Agree final F R x y)
    (weaker : ∀ a b, R a b → R' a b) : Agree final F R' x y := by
  refine ⟨?_, h.error⟩
  intro a ha
  obtain ⟨b, hb, same⟩ := h.ok a ha
  exact ⟨b, hb, weaker a b same⟩

theorem bind {f : α → Except ε α'} {g : β → Except ε' β'} (first : Agree final F R x y)
    (next : ∀ a b, x = .ok a → y = .ok b → R a b → Agree final F S (f a) (g b)) :
    Agree final F S (x.bind f) (y.bind g) := by
  cases x with
  | ok a =>
    obtain ⟨b, rfl, same⟩ := first.ok a rfl
    exact next a b rfl rfl same
  | error e =>
    refine ⟨fun _ same => (nomatch same), ?_⟩
    intro h e' same
    obtain ⟨f', rfl, moved⟩ := first.error h e rfl
    obtain rfl := Except.error.inj same
    exact ⟨f', rfl, moved⟩

theorem ofOption {e : ε} {f : ε'} {a : Option α} {b : Option β} (found : Found final R a b)
    (h : F e f) : Agree final F R (Logged.ofOption e a).result (Logged.ofOption f b).result := by
  cases a with
  | some v =>
    obtain ⟨w, rfl, same⟩ := found.some v rfl
    exact of_ok same
  | none =>
    refine ⟨fun _ same => (nomatch same), ?_⟩
    intro last e' same
    rw [found.none last rfl]
    exact ⟨f, rfl, Except.error.inj same ▸ h⟩

end Agree

/-- The same cause, the refused text of a name apart. -/
def Cause.SameKind (c c' : Cause) : Prop :=
  c' = c ∨ ∃ name name', c = .invalidPassName name ∧ c' = .invalidPassName name'

/-- Faults `d` bytes apart, of the same kind. -/
def Fault.Follows (strict : Prop) (d : Nat) (s s' : Bytes) (e f : Fault) : Prop :=
  ∃ offset cause cause', e = Fault.locate s offset cause ∧
    f = Fault.locate s' (offset + d) cause' ∧ cause.SameKind cause' ∧ (strict → cause' = cause)

theorem Fault.follows_locate (strict : Prop) (d : Nat) (s s' : Bytes) (offset : Nat)
    (cause : Cause) : Fault.Follows strict d s s' (Fault.locate s offset cause)
      (Fault.locate s' (offset + d) cause) :=
  ⟨offset, cause, cause, rfl, rfl, .inl rfl, fun _ => rfl⟩

/-- Sources whose argument lists agree, too. Arguments are compared by `A`. -/
structure Counterpart (strict final : Prop) (d : Nat) (A : Bytes → Bytes → Prop)
    (s s' : Bytes) : Prop extends Twin strict final d s s' where
  reads : ∀ o ∈ scan s 0, ∀ c ∈ scan s 0, o.isCodeByte Delimiter.paren.opener = true →
    c.isCodeByte Delimiter.paren.closer = true →
    Agree True (Fault.Follows strict d s s') (List.Forall₂ A)
      (Argument.read s ⟨o.offset + 1, c.offset⟩)
      (Argument.read s' ⟨o.offset + 1 + d, c.offset + d⟩)

namespace Source

variable {s keyword : Bytes} {boundary : Boundary} {start stop : Nat}

theorem mem_of_nextCode {m : Mark} (resumes : Resumes s start) (stops : Stops s stop)
    (h : nextCode s start stop = some m) : m ∈ scan s 0 ∧ m.isCode = true := by
  have holds := List.find?_some h
  simp only [Bool.and_eq_true] at holds
  exact ⟨(mem_window resumes stops (List.mem_of_find?_eq_some h)).1, holds.1⟩

theorem mem_of_matchingClose {m : Mark} {kind : Delimiter} {close : Nat} (hm : m ∈ scan s 0)
    (opens : m.isCodeByte kind.opener = true) (stops : Stops s stop) (inside : m.offset < stop)
    (h : matchingClose (s.take stop) m.offset = some close) :
    ∃ c ∈ scan s 0, c.isCodeByte kind.closer = true ∧ c.offset = close ∧ m.offset < close ∧
      close < stop := by
  obtain ⟨code, byte⟩ := Mark.isCodeByte_iff.mp opens
  have here : (s.take stop)[m.offset]? = some kind.opener := by
    rw [List.getElem?_take_of_lt inside, getElem?_of_mem_scan hm, byte]
  rw [matchingClose_eq here] at h
  obtain ⟨⟨c, behind⟩, found, rfl⟩ := Option.map_eq_some_iff.mp h
  obtain ⟨_, _, _, closes⟩ := Group.close?_eq_some_iff.mp found
  obtain ⟨member, low, high⟩ := mem_window (resumes_of_mem hm code) stops
    (Group.mem_of_close? found)
  exact ⟨c, member, closes, rfl, Nat.lt_of_succ_le low, high⟩

theorem Occurs.resumes (isWord : IsWord keyword) {i : Nat} (h : Occurs s keyword i) :
    Resumes s (i + keyword.length) := by
  have long := List.length_pos_iff.mpr isWord.1
  obtain ⟨m, hm, at', code, _⟩ := (occurs_iff isWord).mp h (keyword.length - 1)
    keyword[keyword.length - 1] (List.getElem?_eq_getElem (by omega))
  exact .inr ⟨m, hm, code, by omega⟩

theorem Occurs.stops {i : Nat} (h : Occurs s keyword i) : Stops s i := by
  obtain ⟨m, hm, at', code⟩ := h.code
  exact .inr ⟨m, hm, code, at'⟩

theorem occurs_of_find (isWord : IsWord keyword) (resumes : Resumes s start)
    (stops : Stops s stop) {span : Span}
    (h : find s ⟨start, stop⟩ keyword boundary = .found span) :
    Occurs s keyword span.start ∧ span.stop = span.start + keyword.length ∧
      start ≤ span.start ∧ span.stop ≤ stop := by
  obtain ⟨long, here, _⟩ := find_eq_found_iff.mp h
  obtain ⟨after, inside, occurs, _⟩ := (sighted_iff isWord.1 resumes stops).mp here
  dsimp only at after inside
  exact ⟨occurs, long, after, by omega⟩

theorem Occurs.lt_length {i : Nat} (h : Occurs s keyword i) : i < s.length := by
  obtain ⟨m, hm, rfl, _⟩ := h.code
  exact offset_lt_of_mem hm

theorem result_terminator (source owner keyword : Bytes) (range : Span) (fault : Fault) :
    (terminator source owner keyword range fault).result =
      match find source range keyword .terminator with
      | .found span => .ok span
      | .commented _ | .absent => .error fault := by
  have seen {miss : Option NearMiss} (h : findTerminator source range keyword = .error miss)
      (span : Span) : find source range keyword .terminator ≠ .found span := by
    intro found
    rw [findTerminator, found] at h
    contradiction
  unfold terminator
  cases h : findTerminator source range keyword with
  | ok span =>
    rw [find_of_findTerminator h]
    rfl
  | error miss =>
    cases sighting : find source range keyword .terminator with
    | found span => exact absurd sighting (seen h span)
    | commented span => rfl
    | absent => rfl

end Source

namespace Keyword

theorem isWord_passBegin : IsWord passBegin := by decide
theorem isWord_passEnd : IsWord passEnd := by decide
theorem isWord_fixedBegin : IsWord fixedBegin := by decide
theorem isWord_fixedEnd : IsWord fixedEnd := by decide

end Keyword

namespace Counterpart

variable {strict final : Prop} {d : Nat} {A : Bytes → Bytes → Prop} {s s' : Bytes}
  (t : Counterpart strict final d A s s')
include t

theorem opener_filter {start stop stop' : Nat} {cut : Prop} (resumes : Resumes s start)
    (ends : Ends d s s' cut stop stop') (b : UInt8) :
    Found (final ∨ cut) (fun m n => m ∈ scan s 0 ∧ m.isCodeByte b = true ∧ m.Follows strict d n)
      ((nextCode s start stop).filter (·.byte == b))
      ((nextCode s' (start + d) stop').filter (·.byte == b)) := by
  have found := t.nextCode resumes ends
  constructor
  · intro m hm
    obtain ⟨seen, byte⟩ := Option.filter_eq_some_iff.mp hm
    obtain ⟨member, code⟩ := mem_of_nextCode resumes (t.stops_of_ends ends).1 seen
    obtain ⟨n, seen', same⟩ := found.some m seen
    have byte : m.byte = b := by simpa using byte
    refine ⟨n, ?_, member, Mark.isCodeByte_iff.mpr ⟨code, byte⟩, same⟩
    rw [seen', Option.filter_some, same.byte (.inr code), byte, beq_self_eq_true, if_pos rfl]
  · intro last none
    cases seen : nextCode s start stop with
    | none => rw [found.none last seen, Option.filter_none]
    | some m =>
      obtain ⟨n, seen', same⟩ := found.some m seen
      have code := (mem_of_nextCode resumes (t.stops_of_ends ends).1 seen).2
      rw [seen, Option.filter_some] at none
      rw [seen', Option.filter_some, same.byte (.inr code)]
      split at none
      · contradiction
      · next other => rw [if_neg other]

theorem terminator (owner owner' : Bytes) {keyword : Bytes} (isWord : IsWord keyword) {cut : Prop}
    {start stop stop' : Nat} {fault fault' : Fault} (resumes : Resumes s start)
    (ends : Ends d s s' cut stop stop') (h : Fault.Follows strict d s s' fault fault') :
    Agree (final ∨ cut) (Fault.Follows strict d s s')
      (fun x y => y = ⟨x.start + d, x.stop + d⟩ ∧
        find s ⟨start, stop⟩ keyword .terminator = .found x)
      (Source.terminator s owner keyword ⟨start, stop⟩ fault).result
      (Source.terminator s' owner' keyword ⟨start + d, stop'⟩ fault').result := by
  rw [result_terminator, result_terminator]
  cases seen : find s ⟨start, stop⟩ keyword .terminator with
  | found span =>
    rw [t.find_found isWord resumes ends seen]
    exact .of_ok ⟨rfl, rfl⟩
  | commented _ | absent =>
    refine ⟨fun _ same => (nomatch same), ?_⟩
    intro last e same
    have none : ∀ span, find s' ⟨start + d, stop'⟩ keyword .terminator ≠ .found span :=
      t.find_absent isWord resumes ends last (by simp [seen])
    cases seen' : find s' ⟨start + d, stop'⟩ keyword .terminator with
    | found span => exact absurd seen' (none span)
    | commented _ | absent => exact ⟨fault', rfl, Except.error.inj same ▸ h⟩

end Counterpart
end PassCompiler
