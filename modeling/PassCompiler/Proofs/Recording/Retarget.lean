import PassCompiler.Proofs.Pass.Argument.Joined
import PassCompiler.Proofs.Recording.Cut
import PassCompiler.Proofs.Recording.Earliest

/-! Retargeted texts. The statements of a text with another command buffer are the statements of
the text with another command buffer: each is cut off at the same place, and a call is found, closed
and read as before. -/
namespace PassCompiler

open Source

def Call.withBuffer (c : Call) (buffer : Bytes) : Call :=
  { c with
    args := c.args.set c.slot buffer
    slot_lt := by simpa using c.slot_lt }

theorem Call.render_withBuffer (c : Call) (buffer other : Bytes) :
    (c.withBuffer buffer).render other = c.render other := by
  simp only [render, withBuffer, List.set_set]

namespace Statement

variable {table : CallTable} {x buffer : Bytes} {c : Call} {slot : Slot}
  {front inside behind : List Mark} {o closer : Mark}

def withBuffer (s : Statement) (buffer : Bytes) : Statement :=
  match s with
  | raw text refusal => raw text refusal
  | call c => call (c.withBuffer buffer)

theorem render_withBuffer (s : Statement) (buffer other : Bytes) :
    (s.withBuffer buffer).render other = s.render other := by
  cases s with
  | raw => rfl
  | call c => exact c.render_withBuffer buffer other

/-- Where call `c` stands in the statement `x`: its opening parenthesis `o` behind `front`, its
closing one before `behind`. -/
structure Records (table : CallTable) (x : Bytes) (c : Call) (slot : Slot)
    (front inside behind : List Mark) (o closer : Mark) : Prop where
  split : scan x 0 = front ++ o :: (inside ++ closer :: behind)
  earliest : ∀ other, Earliest table (front ++ o :: other) c.name slot o other
  opens : o.isCodeByte Delimiter.paren.opener = true
  closes : closer.isCodeByte Delimiter.paren.closer = true
  balanced : Delimiter.paren.Balanced inside
  read : Argument.read x ⟨o.offset + 1, closer.offset⟩ = .ok c.args
  index : slot.index? c.args.length = some c.slot
  head : c.head = x.take (o.offset + 1)
  tail : c.tail = x.drop closer.offset

theorem classify_eq {name : Bytes} {start stop i : Nat} {args : List Bytes}
    (found : earliest? table (scan x 0) = some ⟨name, slot, start, some stop⟩)
    (read : Argument.read x ⟨start + 1, stop⟩ = .ok args)
    (index : slot.index? args.length = some i) :
    classify table x =
      .call ⟨name, args, i, Slot.lt_of_index? index, x.take (start + 1), x.drop stop⟩ := by
  unfold classify
  rw [found]
  dsimp only
  rw [read]
  dsimp only
  split
  · next unknown =>
    rw [index] at unknown
    contradiction
  · next known =>
    rw [index] at known
    obtain rfl := Option.some.inj known
    rfl

theorem Records.classify (h : Records table x c slot front inside behind o closer) :
    Statement.classify table x = .call c := by
  have earliest := (h.earliest (inside ++ closer :: behind)).eq_some
  have closed : Group.close? ⟨.paren, 1⟩ (inside ++ closer :: behind) = some (closer, behind) :=
    Group.close?_eq_some_iff.mpr ⟨inside, rfl, h.balanced, h.closes⟩
  rw [← h.split, candidate, closed] at earliest
  obtain ⟨name, args, i, lt, head, tail⟩ := c
  obtain rfl := h.head
  obtain rfl := h.tail
  exact classify_eq earliest h.read h.index

theorem exists_candidate (h : classify table x = .call c) : ∃ slot start stop,
    earliest? table (scan x 0) = some ⟨c.name, slot, start, some stop⟩ ∧
      Argument.read x ⟨start + 1, stop⟩ = .ok c.args ∧ slot.index? c.args.length = some c.slot ∧
      c.head = x.take (start + 1) ∧ c.tail = x.drop stop := by
  unfold classify at h
  split at h
  · contradiction
  · contradiction
  · next name slot start stop found =>
    split at h
    · contradiction
    · next args read =>
      split at h
      · contradiction
      · next index =>
        obtain rfl := Statement.call.inj h
        exact ⟨slot, start, stop, found, read, index, rfl, rfl⟩

theorem exists_records (h : classify table x = .call c) :
    ∃ slot front inside behind o closer, Records table x c slot front inside behind o closer := by
  obtain ⟨slot, start, stop, found, read, index, head, tail⟩ := exists_candidate h
  obtain ⟨o, marks, earliest, same⟩ := earliest_of_eq_some found
  obtain ⟨rfl, closed⟩ : start = o.offset ∧
      (Group.close? ⟨.paren, 1⟩ marks).map (·.1.offset) = some stop := by
    simp only [candidate, Candidate.mk.injEq] at same
    exact ⟨same.2.2.1, same.2.2.2.symm⟩
  obtain ⟨⟨closer, behind⟩, closes, rfl⟩ := Option.map_eq_some_iff.mp closed
  obtain ⟨inside, rfl, balanced, isCloser⟩ := Group.close?_eq_some_iff.mp closes
  obtain ⟨front, split, opens, later⟩ := earliest.replace
  exact ⟨slot, front, inside, behind, o, closer, split, later, opens, isCloser, balanced, read,
    index, head, tail⟩

theorem ne_slash_of_paren {m : Mark} {kind : Delimiter}
    (h : m.isCodeByte kind.opener = true ∨ m.isCodeByte kind.closer = true) : m.byte ≠ 0x2F := by
  rcases h with h | h
  · exact (Mark.isCodeByte_iff.mp h).2 ▸ kind.opener_ne_slash
  · exact (Mark.isCodeByte_iff.mp h).2 ▸ kind.closer_ne_slash

/-- The scan of a statement with another text in its parentheses. -/
theorem scan_replaced (split : scan x 0 = front ++ o :: (inside ++ closer :: behind))
    (opens : o.isCodeByte Delimiter.paren.opener = true)
    (closes : closer.isCodeByte Delimiter.paren.closer = true) {list : Bytes} (ends : Closed list) :
    scan (text (front ++ [o]) ++ (list ++ text (closer :: behind))) 0 =
      front ++ o :: (scanFrom .code (front.length + 1) list ++
        ⟨front.length + 1 + list.length, closer.byte, .code⟩ ::
          scanFrom .code (front.length + 1 + list.length + 1) (text behind)) := by
  have openerCode := (Mark.isCodeByte_iff.mp opens).1
  have head := (scanFrom_split split openerCode (ne_slash_of_paren (.inl opens))).1
  have front' : Sealed (text (front ++ [o])) :=
    sealed_of_scan head openerCode (ne_slash_of_paren (.inl opens))
  have calm : Calm closer.byte := by
    rw [(Mark.isCodeByte_iff.mp closes).2]
    decide
  have tail := scanFrom_divided ends calm (front.length + 1) (text behind)
  have long : (text (front ++ [o])).length = front.length + 1 := by simp [text]
  have whole : scan (text (front ++ [o]) ++ (list ++ text (closer :: behind))) 0 =
      scanFrom .code 0 (text (front ++ [o])) ++
        scanFrom .code (0 + (text (front ++ [o])).length) (list ++ closer.byte :: text behind) :=
    scanFrom_seam (front' _)
  rw [whole, head, long, Nat.zero_add, tail]
  simp

namespace Records

variable (h : Records table x c slot front inside behind o closer)
include h

theorem offsets : o.offset = front.length ∧ closer.offset = front.length + 1 + inside.length := by
  have later : scan x 0 = (front ++ o :: inside) ++ closer :: behind := by simp [h.split]
  have place := offset_of_split later
  rw [List.length_append, List.length_cons] at place
  exact ⟨offset_of_split h.split, by omega⟩

theorem window : scan (x.take closer.offset) (o.offset + 1) = inside := by
  obtain ⟨first, last⟩ := h.offsets
  have member : o ∈ scan x 0 := by simp [h.split]
  have member' : closer ∈ scan x 0 := by simp [h.split]
  rw [scan_window (resumes_of_mem member (Mark.isCodeByte_iff.mp h.opens).1)
    (stops_of_mem member' (Mark.isCodeByte_iff.mp h.closes).1), h.split, first, last]
  have upto : front ++ o :: (inside ++ closer :: behind) =
      ((front ++ [o]) ++ inside) ++ closer :: behind := by simp
  rw [upto, List.take_left' (by simp; omega), List.drop_left' (by simp)]

theorem texts : c.head = text (front ++ [o]) ∧ c.tail = text (closer :: behind) := by
  obtain ⟨first, last⟩ := h.offsets
  have whole : x = text (front ++ [o]) ++ (text inside ++ text (closer :: behind)) := by
    rw [← text_scanFrom .code 0 x, ← show scan x 0 = scanFrom .code 0 x from rfl, h.split]
    simp [text]
  rw [h.head, h.tail, first, last]
  constructor
  · conv_lhs => rw [whole]
    exact List.take_left' (by simp [text])
  · conv_lhs => rw [whole]
    rw [← List.append_assoc]
    exact List.drop_left' (by simp [text]; omega)

/-- The arguments of a call whose groups nest. -/
theorem items {stack open' : List Delimiter} (valid : Utf8.isValid x = true)
    (nests : nest stack (scan x 0) = some open') : ∀ arg ∈ c.args, Argument.Item arg := by
  obtain ⟨r, rs, reading, same⟩ := Argument.read_eq_ok_iff.mp h.read
  rw [h.split, nest_append] at nests
  obtain ⟨middle, _, later⟩ := Option.bind_eq_some_iff.mp nests
  have nested := nest_group h.opens h.closes h.balanced later
  have window := h.window
  rw [← window] at nested
  rw [same]
  refine reading.items ?_ nested
  exact Argument.valid_slice valid (by simp [h.split]) (by simp [h.split]) h.opens h.closes

theorem closed?_eq : closed? 0 (scan x 0) =
    (level 0 front).bind fun e => closed? (e + 1) (closer :: behind) := by
  rw [h.split]
  exact closed?_group h.opens h.balanced

/-- The statement with another buffer holds the call with that buffer, at the same place. -/
theorem rewritten (items : ∀ arg ∈ c.args, Argument.Item arg) (item : Argument.Item buffer) :
    ∃ inside' behind' closer', Records table (c.render buffer) (c.withBuffer buffer) slot front
        inside' behind' o closer' ∧
      List.Forall₂ (Mark.Alike True) (closer :: behind) (closer' :: behind') := by
  have items' : ∀ arg ∈ (c.withBuffer buffer).args, Argument.Item arg := by
    intro arg member
    rcases List.mem_or_eq_of_mem_set member with member | rfl
    · exact items arg member
    · exact item
  obtain ⟨head, tail⟩ := h.texts
  obtain ⟨first, _⟩ := h.offsets
  generalize joined : Bytes.join (bytes ", ") (c.withBuffer buffer).args = list
  have rendered : c.render buffer = text (front ++ [o]) ++ (list ++ text (closer :: behind)) := by
    rw [← head, ← tail, ← joined, ← List.append_assoc]
    rfl
  have long : (text (front ++ [o])).length = front.length + 1 := by simp [text]
  have long' : (text (front ++ [o]) ++ list).length = front.length + 1 + list.length := by
    rw [List.length_append, long]
  have separated : Argument.IsSeparator (bytes ", ") := ⟨[0x20], by decide, by decide⟩
  have closed := @closed_join (bytes ", ") _ (by decide) (by decide) fun arg member =>
    (items' arg member).closed
  have nested := Argument.nest_join separated items' (front.length + 1)
  rw [joined] at closed nested
  have scanned := scan_replaced h.split h.opens h.closes closed
  refine ⟨scanFrom .code (front.length + 1) list,
    scanFrom .code (front.length + 1 + list.length + 1) (text behind),
    ⟨front.length + 1 + list.length, closer.byte, .code⟩, ?_, .cons ⟨?_, fun _ => rfl⟩ ?_⟩
  · exact {
      split := rendered ▸ scanned
      earliest := h.earliest
      opens := h.opens
      closes := Mark.isCodeByte_iff.mpr ⟨rfl, (Mark.isCodeByte_iff.mp h.closes).2⟩
      balanced := @depth_of_nest .paren _ _ _ nested
      read := by
        refine Argument.read_join separated items' ?_
        rw [joined, first, Bytes.slice, rendered, ← List.append_assoc, List.take_left' long',
          List.drop_left' long]
      index := by simpa [Call.withBuffer] using h.index
      head := by rw [first, rendered, List.take_left' long]; exact head
      tail := by rw [rendered, ← List.append_assoc, List.drop_left' long']; exact tail }
  · exact (Mark.isCode_iff.mp (Mark.isCodeByte_iff.mp h.closes).1).symm
  · have split : scan x 0 = (front ++ o :: inside) ++ closer :: behind := by simp [h.split]
    have back := (scanFrom_split split (Mark.isCodeByte_iff.mp h.closes).1
      (ne_slash_of_paren (.inr h.closes))).2
    conv_lhs => rw [← back]
    exact alike_scanFrom ..

end Records

theorem text_of_classify {text : Bytes} {refusal : Option Refusal}
    (h : classify table x = .raw text refusal) : text = x := by
  unfold classify at h
  split at h
  · exact (Statement.raw.inj h).1.symm
  · exact (Statement.raw.inj h).1.symm
  · split at h
    · exact (Statement.raw.inj h).1.symm
    · split at h
      · exact (Statement.raw.inj h).1.symm
      · contradiction

variable {stack open' : List Delimiter}

/-- A statement with another buffer is the same statement with that buffer, and it ends where the
statement ended. -/
theorem classify_render (valid : Utf8.isValid x = true)
    (nests : nest stack (scan x 0) = some open') (item : Argument.Item buffer) :
    classify table ((classify table x).render buffer) = (classify table x).withBuffer buffer ∧
      closed? 0 (scan ((classify table x).render buffer) 0) = closed? 0 (scan x 0) ∧
      (x ≠ [] → (classify table x).render buffer ≠ []) := by
  cases kind : classify table x with
  | raw text refusal =>
    obtain rfl := text_of_classify kind
    exact ⟨kind, rfl, id⟩
  | call c =>
    obtain ⟨slot, front, inside, behind, o, closer, records⟩ := exists_records kind
    obtain ⟨inside', behind', closer', records', alike⟩ :=
      records.rewritten (records.items valid nests) item
    refine ⟨records'.classify, ?_, ?_⟩
    · rw [render, records'.closed?_eq, records.closed?_eq]
      simp only [closed?_alike alike]
    · intro _ none
      have split := records'.split
      rw [show c.render buffer = [] from none] at split
      simp [scan, scanFrom] at split

theorem commandBuffer?_withBuffer (s : Statement) (buffer : Bytes) :
    (s.withBuffer buffer).commandBuffer? = s.commandBuffer?.map fun _ => buffer := by
  cases s with
  | raw => rfl
  | call c => simp [withBuffer, commandBuffer?, Call.commandBuffer, Call.withBuffer]

/-- Rewriting retargets every recording call of a text and nothing else, and the last rewrite
wins. -/
theorem ofText_retarget {source : Bytes} (valid : Utf8.isValid source = true)
    (nested : nest [] (scan source 0) = some []) (filled : buffer ≠ [])
    (simple : ∀ b ∈ buffer, Argument.isSimple b = true) :
    ofText table (retarget table source buffer) =
        (ofText table source).map (·.withBuffer buffer) ∧
      (∀ other, retarget table (retarget table source buffer) other =
        retarget table source other) ∧
      firstCommandBuffer? table (retarget table source buffer) =
        (firstCommandBuffer? table source).map fun _ => buffer := by
  obtain ⟨xs, cuts⟩ := exists_cuts source
  have item := Argument.item_of_simple filled simple
  have each : ∀ y ∈ xs, _ := fun y hy =>
    have ⟨_, _, nests⟩ := cuts.nested nested y hy
    @classify_render table y buffer _ _ (cuts.valid valid y hy) nests item
  have before : ofText table source = xs.map (classify table) := by rw [ofText, cuts.slices_eq]
  have rewritten : retarget table source buffer =
      xs.flatMap fun y => (classify table y).render buffer := by
    rw [retarget, before, List.flatMap_map]
  have cuts' := cuts.map (fun y => (classify table y).render buffer) fun y hy => (each y hy).2
  have after : ofText table (retarget table source buffer) =
      (ofText table source).map (·.withBuffer buffer) := by
    rw [before, rewritten, ofText, cuts'.slices_eq, List.map_map, List.map_map]
    apply List.map_congr_left
    intro y hy
    exact (each y hy).1
  refine ⟨after, ?_, ?_⟩
  · intro other
    rw [retarget, after, List.flatMap_map, retarget]
    simp only [render_withBuffer]
  · have same : commandBuffer? ∘ (withBuffer · buffer) =
        Option.map (fun _ => buffer) ∘ commandBuffer? :=
      funext fun s => commandBuffer?_withBuffer s buffer
    rw [firstCommandBuffer?, after, firstCommandBuffer?, List.findSome?_map, same,
      List.map_findSome?]

theorem ofText_retarget_standard :
    let source := bytes "\x7b draw(a, b /* ; */); for (;;) \x7b draw(f(x), cmd,, i); \x7d \x7d"
    let buffer := bytes "baked[1]"
    Utf8.isValid source = true ∧ nest [] (scan source 0) = some [] ∧ buffer ≠ [] ∧
      (∀ b ∈ buffer, Argument.isSimple b = true) ∧
      ofText .standard (retarget .standard source buffer) =
        (ofText .standard source).map (·.withBuffer buffer) := by
  intro source buffer
  have valid : Utf8.isValid source = true := by decide +kernel
  have nested : nest [] (scan source 0) = some [] := by decide +kernel
  have filled : buffer ≠ [] := by decide +kernel
  have simple : ∀ b ∈ buffer, Argument.isSimple b = true := by decide +kernel
  exact ⟨valid, nested, filled, simple, (ofText_retarget valid nested filled simple).1⟩

end Statement
end PassCompiler
