import PassCompiler.Proofs.Pass.Argument.Tokens
import PassCompiler.Proofs.Recording.Partition
import PassCompiler.Proofs.Recording.Sealed

/-! Statements keep their code when they are written anew: a call has the same tokens as before but
for those of its command buffer, and everything else is copied. Only an empty argument, which is
not read, takes its comma along. Main statement: `ofText_keeps`. -/
namespace PassCompiler.Statement

open Source

variable {table : CallTable} {x b source : Bytes} {c : Call} {slot : Slot}
  {front inside behind : List Mark} {o closer : Mark}

namespace Records

variable (h : Records table x c slot front inside behind o closer)
include h

/-- What stands around the argument list of a call. -/
theorem frame : ∃ u z, c.head = u ++ [0x28] ∧ c.tail = 0x29 :: z ∧ Closed u ∧
    Closed (text inside) ∧ x = c.head ++ (text inside ++ c.tail) := by
  obtain ⟨opener, opens⟩ := Mark.isCodeByte_iff.mp h.opens
  obtain ⟨closing, closes⟩ := Mark.isCodeByte_iff.mp h.closes
  have ho : o ∈ scan x 0 := by simp [h.split]
  have hc : closer ∈ scan x 0 := by simp [h.split]
  obtain ⟨first, last⟩ := h.offsets
  obtain ⟨head, tail⟩ := h.texts
  refine ⟨x.take o.offset, text behind, ?_, ?_, ?_, ?_, ?_⟩
  · rw [h.head, List.take_add_one, getElem?_of_mem_scan ho, opens]
    rfl
  · rw [tail, text, List.map_cons, closes]
    rfl
  · apply closed_take ho opener
    · rw [opens]
      decide
    · rw [opens]
      decide
  · rw [← h.list]
    apply closed_slice ho opener hc closing
    · rw [closes]
      decide
    · rw [closes]
      decide
    · omega
  · rw [head, tail]
    conv_lhs => rw [h.whole]
    simp [text, opens, closes, Delimiter.opener, Delimiter.closer]

theorem tokens_render (valid : Utf8.isValid x = true) (closed : Closed b) :
    tokens (c.render b) = tokens c.head ++
      ([bytes ","].intercalate ((c.args.map tokens).set c.slot (tokens b)) ++ tokens c.tail) := by
  obtain ⟨u, z, head, tail, front, _, _⟩ := h.frame
  have args : ∀ a ∈ c.args.set c.slot b, Closed a := by
    intro a member
    rcases List.mem_or_eq_of_mem_set member with member | rfl
    · exact (h.tidy valid a member).closed
    · exact closed
  have list : Closed (Bytes.join (bytes ", ") (c.args.set c.slot b)) :=
    closed_join (by decide) (by decide) args
  rw [Call.render, head, tail, List.append_assoc,
    tokens_enclosed front list (by decide) (by decide), tokens_join args, List.map_set]

theorem tokens_eq (valid : Utf8.isValid x = true) (filled : Argument.Filled (text inside)) :
    tokens x = tokens c.head ++ ([bytes ","].intercalate (c.args.map tokens) ++ tokens c.tail) := by
  obtain ⟨u, z, head, tail, front, list, whole⟩ := h.frame
  have read := Argument.read_slice h.read
  rw [h.list] at read
  have validList : Utf8.isValid (text inside) = true := by
    rw [← h.list]
    exact Argument.valid_slice valid (by simp [h.split]) (by simp [h.split]) h.opens h.closes
  rw [← Argument.tokens_of_read validList filled read]
  conv_lhs => rw [whole, head, tail]
  rw [head, tail, tokens_enclosed front list (by decide) (by decide)]

end Records

/-- What a statement that was read from `x` keeps of it when it is written anew. A call keeps its
tokens if no argument is empty, and with another buffer all of them but those of the buffer. -/
def Keeps (x : Bytes) : Statement → Prop
  | raw text refusal => ∀ b, (raw text refusal).render b = x
  | call c => ∃ list, x = c.head ++ (list ++ c.tail) ∧ (Argument.Filled list →
      tokens ((call c).render c.commandBuffer) = tokens x ∧
      tokens x = tokens c.head ++
        ([bytes ","].intercalate (c.args.map tokens) ++ tokens c.tail) ∧
      ∀ b, (∀ m ∈ scan b 0, m.isCode = true) → tokens ((call c).render b) = tokens c.head ++
        ([bytes ","].intercalate ((c.args.map tokens).set c.slot (tokens b)) ++ tokens c.tail))

theorem keeps_classify (valid : Utf8.isValid x = true) : (classify table x).Keeps x := by
  cases kind : classify table x with
  | raw text refusal => exact fun _ => text_of_classify kind
  | call c =>
    obtain ⟨slot, front, inside, behind, o, closer, records⟩ := exists_records kind
    obtain ⟨_, _, _, _, _, _, whole⟩ := records.frame
    refine ⟨text inside, whole, fun filled => ?_⟩
    have same := records.tokens_eq valid filled
    refine ⟨?_, same, ?_⟩
    · have own : c.commandBuffer ∈ c.args := List.get_mem ..
      have unchanged : (c.args.map tokens).set c.slot (tokens c.commandBuffer) =
          c.args.map tokens := by
        rw [← List.map_set, Call.commandBuffer, List.get_eq_getElem, List.set_getElem_self]
      rw [same, render, records.tokens_render valid (records.tidy valid _ own).closed, unchanged]
    · intro b free
      apply records.tokens_render valid
      exact closed_of_last fun m last => free m (List.mem_of_getLast? last)

/-- Statements keep their code: raw ones as it is, and calls token by token. -/
theorem ofText_keeps (valid : Utf8.isValid source = true) :
    (slices 0 (scan source 0)).flatten = source ∧
      List.Forall₂ Keeps (slices 0 (scan source 0)) (ofText table source) := by
  constructor
  · exact flatten_slices source
  · obtain ⟨xs, cuts⟩ := exists_cuts source
    rw [ofText, cuts.slices_eq, List.forall₂_map_right_iff, List.forall₂_same]
    exact fun x member => keeps_classify (cuts.valid valid x member)

/-- Comments inside an argument, in a group and behind the last argument. -/
theorem ofText_keeps_draw :
    let list := bytes "a/* , */b, f(x, /* ) */ cmd) // ;\n"
    let x := bytes " draw(" ++ (list ++ bytes ");")
    let source := bytes "/* ; */ y;" ++ x
    Utf8.isValid source = true ∧ Argument.Filled list ∧ ∃ c,
      ofText .standard source = [.raw (bytes "/* ; */ y;") none, .call c] ∧
      c.render c.commandBuffer = bytes " draw(a b, f(x, /* ) */ cmd));" ∧
      tokens (c.render c.commandBuffer) = tokens x := by
  intro list x source
  let c : Call := ⟨bytes "draw", [bytes "a b", bytes "f(x, /* ) */ cmd)"], 1, by decide,
    bytes " draw(", bytes ");"⟩
  have valid : Utf8.isValid source = true := by decide +kernel
  have filled : Argument.Filled list := by decide +kernel
  have sliced : slices 0 (scan source 0) = [bytes "/* ; */ y;", x] := by decide +kernel
  have read : ofText .standard source = [.raw (bytes "/* ; */ y;") none, .call c] := by
    decide +kernel
  obtain ⟨_, keeps⟩ := @ofText_keeps .standard _ valid
  rw [sliced, read] at keeps
  obtain ⟨_, later⟩ := List.forall₂_cons.mp keeps
  obtain ⟨⟨list', whole, tokens⟩, _⟩ := List.forall₂_cons.mp later
  obtain rfl : list = list' := List.append_cancel_right (List.append_cancel_left whole)
  exact ⟨valid, filled, c, read, by decide +kernel, (tokens filled).1⟩

end PassCompiler.Statement
