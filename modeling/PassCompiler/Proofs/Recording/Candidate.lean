import PassCompiler.Proofs.Recording.Retarget
import PassCompiler.Proofs.Source.Group

/-! Which call of a statement counts, and what becomes of the statement: `classify_first`. All is
said by offsets of the statement: where words of code stand, what the next code behind one is, and
which parenthesis closes which. -/
namespace PassCompiler

open Source

namespace Statement

variable {table : CallTable} {x name : Bytes} {slot : Slot} {i o : Nat} {m : Mark}
  {front marks behind : List Mark}

/-- What a scan has next behind a gap is the next code. -/
theorem dropWhile_isGap_iff (split : scan x 0 = front ++ marks) :
    (∃ behind, marks.dropWhile isGap = m :: behind) ↔
      m ∈ marks ∧ NextCode x front.length m.offset := by
  rw [← find?_solid_iff split, List.find?_eq_head?_dropWhile_not, List.head?_eq_some_iff]
  simp only [isSolid, Bool.not_and, Bool.not_not]
  exact Iff.rfl

theorem exists_opens_iff (split : scan x 0 = front ++ marks) : (∃ behind, Opens marks m behind) ↔
    m ∈ marks ∧ NextCode x front.length m.offset ∧ x[m.offset]? = some Delimiter.paren.opener := by
  have same : (∃ behind, Opens marks m behind) ↔
      (∃ behind, marks.dropWhile isGap = m :: behind) ∧ m.byte = Delimiter.paren.opener :=
    exists_and_right
  rw [same, dropWhile_isGap_iff split, and_assoc]
  refine and_congr_right fun member => and_congr_right fun _ => ?_
  rw [getElem?_of_mem_scan ((mem_behind_iff split).mp member).1, Option.some.injEq]

/-- The word of code at offset `i` is one that the table knows, and the next code behind it is a
parenthesis, at offset `o`. -/
structure CallsAt (table : CallTable) (x name : Bytes) (slot : Slot) (i o : Nat) : Prop where
  isWord : IsWord name
  word : WordAt x name i
  known : table.slot? name = some slot
  next : NextCode x (i + name.length) o
  opener : x[o]? = some Delimiter.paren.opener

/-- The first such word from offset `p` on. -/
structure FirstCall (table : CallTable) (x : Bytes) (p : Nat) (name : Bytes) (slot : Slot)
    (i o : Nat) : Prop where
  calls : CallsAt table x name slot i o
  after : p ≤ i
  least : ∀ name' slot' i' o', CallsAt table x name' slot' i' o' → p ≤ i' → i ≤ i'

theorem FirstCall.unique {name' : Bytes} {slot' : Slot} {p i' o' : Nat}
    (h : FirstCall table x p name slot i o) (h' : FirstCall table x p name' slot' i' o') :
    name = name' ∧ slot = slot' ∧ i = i' ∧ o = o' := by
  obtain rfl : i = i' := Nat.le_antisymm (h.least _ _ _ _ h'.calls h'.after)
    (h'.least _ _ _ _ h.calls h.after)
  obtain rfl := h.calls.word.unique h.calls.isWord h'.calls.isWord h'.calls.word
  have known := h.calls.known.symm.trans h'.calls.known
  exact ⟨rfl, Option.some.inj known, rfl, h.calls.next.unique h'.calls.next⟩

def Finds (table : CallTable) (x : Bytes) (p : Nat) (found : Option Candidate) : Prop :=
  (∃ name slot i o, FirstCall table x p name slot i o ∧
      found = some ⟨name, slot, o, matchingClose x o⟩) ∨
    (∀ name slot i o, CallsAt table x name slot i o → i < p) ∧ found = none

/-- A search may go on where no call stands before. -/
theorem Finds.skip {found : Option Candidate} {p q : Nat} (h : Finds table x q found) (le : p ≤ q)
    (bare : ∀ name slot i o, CallsAt table x name slot i o → p ≤ i → q ≤ i) :
    Finds table x p found := by
  rcases h with ⟨name, slot, i, o, first, same⟩ | ⟨none, same⟩
  · refine .inl ⟨name, slot, i, o, ⟨first.calls, le.trans first.after, ?_⟩, same⟩
    intro name' slot' i' o' calls after
    exact first.least _ _ _ _ calls (bare _ _ _ _ calls after)
  · refine .inr ⟨fun name slot i o calls => ?_, same⟩
    by_contra after
    have := bare _ _ _ _ calls (by omega)
    have := none _ _ _ _ calls
    omega

/-- Behind a word that is no call. -/
theorem Finds.behindWord {found : Option Candidate} {rest : List Mark} {p : Nat}
    (isWord : IsWord (word m rest)) (here : WordAt x (word m rest) p)
    (bare : ∀ slot o, ¬ CallsAt table x (word m rest) slot p o)
    (h : Finds table x (p + (word m rest).length) found) : Finds table x p found := by
  refine h.skip (Nat.le_add_right _ _) fun name slot i o calls after => ?_
  rcases here.eq_or_le isWord calls.word after with rfl | behind
  · obtain rfl := here.unique isWord calls.isWord calls.word
    exact absurd calls (bare slot o)
  · exact behind

/-- The search finds the first call of what it scans. -/
theorem finds_earliest? (split : scan x 0 = front ++ marks)
    (apart : Apart x front.length marks) : Finds table x front.length (earliest? table marks) := by
  fun_induction earliest? table marks generalizing front with
  | case1 =>
    refine .inr ⟨fun name slot i o calls => ?_, rfl⟩
    have lt := calls.word.occurs.lt_length
    rwa [← length_scan_zero, split, List.append_nil] at lt
  | case2 m rest first unknown ih =>
    obtain ⟨isWord, here, front', split', long⟩ := exists_behindWord split apart first
    have later := ih split' (apart_behindWord x _ rest)
    rw [long] at later
    refine later.behindWord isWord here fun slot o calls => ?_
    rw [calls.known] at unknown
    contradiction
  | case3 m rest first slot known bare ih =>
    obtain ⟨isWord, here, front', split', long⟩ := exists_behindWord split apart first
    have later := ih split' (apart_behindWord x _ rest)
    rw [long] at later
    refine later.behindWord isWord here fun slot' o calls => ?_
    have next := calls.next
    obtain ⟨n, member, rfl, _⟩ := next.code
    rw [← long] at next
    obtain ⟨behind, opens⟩ := (exists_opens_iff split').mpr
      ⟨(mem_behind_iff split').mpr ⟨member, next.after⟩, next, calls.opener⟩
    rw [nextGroup?_eq opens] at bare
    contradiction
  | case4 m rest first slot known group opens =>
    obtain ⟨isWord, here, front', split', long⟩ := exists_behindWord split apart first
    obtain ⟨o, behind, opens'⟩ := opens_of_nextGroup? opens
    obtain ⟨member, next, opener⟩ := (exists_opens_iff split').mp ⟨behind, opens'⟩
    rw [long] at next
    rw [nextGroup?_eq opens'] at opens
    obtain rfl := Option.some.inj opens
    refine .inl ⟨word m rest, slot, front.length, o.offset,
      ⟨⟨isWord, here, known, next, opener⟩, Nat.le_refl _, fun _ _ _ _ _ after => after⟩, ?_⟩
    have gap : scan x 0 = (front' ++ (behindWord rest).takeWhile isGap) ++ o :: behind := by
      rw [split', List.append_assoc, ← opens'.1, List.takeWhile_append_dropWhile]
    rw [← close?_eq_matchingClose gap opens'.isCodeByte, Option.map_map]
    rfl
  | case5 m rest other ih =>
    have split' : scan x 0 = (front ++ [m]) ++ rest := by simp [split]
    have long : (front ++ [m]).length = front.length + 1 := by simp
    have apart' := apart_of_split split (by simpa using other)
    rw [← long] at apart'
    have later := ih split' apart'
    rw [long] at later
    refine later.skip (Nat.le_succ _) fun name slot i o calls after => ?_
    by_contra here
    obtain rfl : i = front.length := by omega
    have member : m ∈ scan x 0 := by simp [split]
    obtain ⟨code, ident⟩ := calls.word.occurs.head calls.isWord member (offset_of_split split)
    exact other (by rw [code, ident]; rfl)

theorem finds_scan (table : CallTable) (x : Bytes) :
    Finds table x 0 (earliest? table (scan x 0)) :=
  finds_earliest? (List.nil_append _).symm fun _ _ _ _ => .inl rfl

theorem earliest?_of_first (first : FirstCall table x 0 name slot i o) :
    earliest? table (scan x 0) = some ⟨name, slot, o, matchingClose x o⟩ := by
  rcases finds_scan table x with ⟨name', slot', i', o', first', found⟩ | ⟨none, _⟩
  · obtain ⟨rfl, rfl, rfl, rfl⟩ := first.unique first'
    exact found
  · have := none _ _ _ _ first.calls
    omega

theorem first_of_earliest? {c : Candidate} (found : earliest? table (scan x 0) = some c) :
    ∃ i, FirstCall table x 0 c.name c.slot i c.start ∧ c.stop = matchingClose x c.start := by
  rcases finds_scan table x with ⟨name, slot, i, o, first, found'⟩ | ⟨_, none⟩
  · obtain rfl := Option.some.inj (found.symm.trans found')
    exact ⟨i, first, rfl⟩
  · rw [none] at found
    contradiction

theorem first_of_classify {c : Call} (h : classify table x = .call c) :
    ∃ slot i o close, FirstCall table x 0 c.name slot i o ∧ matchingClose x o = some close ∧
      Argument.read x ⟨o + 1, close⟩ = .ok c.args ∧ slot.index? c.args.length = some c.slot ∧
      c.head = x.take (o + 1) ∧ c.tail = x.drop close := by
  obtain ⟨slot, start, stop, found, parts⟩ := exists_candidate h
  obtain ⟨i, first, closed⟩ := first_of_earliest? found
  exact ⟨slot, i, start, stop, first, closed.symm, parts⟩

theorem call_of_first {close k : Nat} {args : List Bytes}
    (first : FirstCall table x 0 name slot i o) (closed : matchingClose x o = some close)
    (read : Argument.read x ⟨o + 1, close⟩ = .ok args) (index : slot.index? args.length = some k) :
    ∃ c, classify table x = .call c := by
  have found := earliest?_of_first first
  rw [closed] at found
  exact ⟨_, classify_eq found read index⟩

theorem raw_of_not_call (h : ¬ ∃ c, classify table x = .call c) :
    ∃ refusal, classify table x = .raw x refusal := by
  cases kind : classify table x with
  | raw text refusal =>
    obtain rfl := text_of_classify kind
    exact ⟨refusal, rfl⟩
  | call c => exact absurd ⟨c, kind⟩ h

/-- The first word of code that the table knows and that a parenthesis follows decides: the
statement is a call if the parenthesis is closed, the arguments can be read and the table has a
slot for their number. A later word does not stand in for it. -/
theorem classify_first (table : CallTable) (x : Bytes) :
    ((∃ c, classify table x = .call c) ↔
      ∃ name slot i o close args k, FirstCall table x 0 name slot i o ∧
        matchingClose x o = some close ∧ Argument.read x ⟨o + 1, close⟩ = .ok args ∧
        slot.index? args.length = some k) ∧
    (∀ c, classify table x = .call c →
      ∃ slot i o close, FirstCall table x 0 c.name slot i o ∧ matchingClose x o = some close ∧
        Argument.read x ⟨o + 1, close⟩ = .ok c.args ∧
        slot.index? c.args.length = some c.slot ∧ c.slot < c.args.length ∧
        c.head = x.take (o + 1) ∧ c.head.getLast? = some Delimiter.paren.opener ∧
        c.tail = x.drop close ∧ c.tail.head? = some Delimiter.paren.closer) ∧
    ((¬ ∃ c, classify table x = .call c) → ∃ refusal, classify table x = .raw x refusal) ∧
    ∀ name slot i o, FirstCall table x 0 name slot i o →
      (∀ k, i ≤ k → k < i + name.length → CodeAt x 0 k) ∧
      (i = 0 ∨ (x[i - 1]?).any Bytes.isIdent = false) ∧
      (x[i + name.length]?).any Bytes.isIdent = false := by
  refine ⟨⟨?_, ?_⟩, ?_, raw_of_not_call, ?_⟩
  · rintro ⟨c, isCall⟩
    obtain ⟨slot, i, o, close, first, closed, read, index, _⟩ := first_of_classify isCall
    exact ⟨c.name, slot, i, o, close, c.args, c.slot, first, closed, read, index⟩
  · rintro ⟨name, slot, i, o, close, args, k, first, closed, read, index⟩
    exact call_of_first first closed read index
  · intro c isCall
    obtain ⟨slot, i, o, close, first, closed, read, index, head, tail⟩ := first_of_classify isCall
    have opener := first.calls.opener
    refine ⟨slot, i, o, close, first, closed, read, index, c.slot_lt, head, ?_, tail, ?_⟩
    · rw [head, List.take_add_one, opener, Option.toList_some, List.getLast?_concat]
    · rw [tail, List.head?_drop, getElem?_matchingClose opener closed]
  · intro name slot i o first
    have word := first.calls.word
    exact ⟨fun k after before => word.codeAt first.calls.isWord after before, word.before,
      word.behind⟩

example : (classify .standard
    (bytes "redraw(p, q), draw, draw /* ( */ (p, cmd), vkCmdDraw(c);")).commandBuffer? =
      some (bytes "cmd") := by
  decide +kernel

end Statement
end PassCompiler
