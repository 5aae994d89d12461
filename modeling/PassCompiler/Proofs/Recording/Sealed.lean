import PassCompiler.Proofs.Pass.Argument.Tidy
import PassCompiler.Proofs.Recording.Retarget

/-! A retargeted text ends in code where the text did. Each statement is taken out of its text and
put together anew from what stands around its arguments, the arguments and the buffer. -/
namespace PassCompiler.Statement

open Source

variable {table : CallTable} {x buffer : Bytes} {xs : List Bytes} {c : Call}

theorem Cuts.sealed (h : Cuts x xs) (ends : Sealed x) : ∀ y ∈ xs, Sealed y := by
  induction h with
  | done => nofun
  | last => simpa using ends
  | next single _ ih =>
    have first := sealed_of_closed? single
    exact List.forall_mem_cons.mpr ⟨first, ih (first.of_append ends)⟩

theorem Records.tidy {slot : Slot} {front inside behind : List Mark} {o closer : Mark}
    (h : Records table x c slot front inside behind o closer) (valid : Utf8.isValid x = true) :
    ∀ a ∈ c.args, Argument.Tidy a :=
  Argument.tidy_of_read valid (by simp [h.split]) (by simp [h.split]) h.opens h.closes h.read

theorem sealed_render (valid : Utf8.isValid x = true) (ends : Sealed x) (closed : Closed buffer) :
    Sealed ((classify table x).render buffer) := by
  cases kind : classify table x with
  | raw text refusal =>
    obtain rfl := text_of_classify kind
    exact ends
  | call c =>
    obtain ⟨slot, front, inside, behind, o, closer, records⟩ := exists_records kind
    have opener : o ∈ scan x 0 := by simp [records.split]
    have closer' : closer ∈ scan x 0 := by simp [records.split]
    have head : Sealed c.head := records.head ▸
      sealed_take opener (Mark.isCodeByte_iff.mp records.opens).1
        (ne_slash_of_paren (.inl records.opens))
    obtain ⟨code, byte⟩ := Mark.isCodeByte_iff.mp records.closes
    have args : ∀ a ∈ c.args.set c.slot buffer, Closed a := by
      intro a member
      rcases List.mem_or_eq_of_mem_set member with member | rfl
      · exact (records.tidy valid a member).closed
      · exact closed
    -- A scan of the statement reaches the closing parenthesis in code.
    have tail : Sealed c.tail := records.tail ▸
      ends.drop (phaseAt_of_mem closer' code (byte ▸ by decide)) (offset_lt_of_mem closer')
    have begins : c.tail = closer.byte :: text behind := records.texts.2
    rw [begins] at tail
    rw [render, Call.render, begins]
    refine (head.append_closed (closed_join (by decide) (by decide) args)).append ?_ tail
    rw [byte]
    decide

/-- A retargeted text is sealed if the text is. -/
theorem sealed_retarget (valid : Utf8.isValid x = true) (ends : Sealed x)
    (closed : Closed buffer) : Sealed (retarget table x buffer) := by
  obtain ⟨xs, cuts⟩ := exists_cuts x
  rw [retarget, ofText, cuts.slices_eq, List.flatMap_map, List.flatMap_def]
  apply Sealed.flatten
  rw [List.forall_mem_map]
  intro y hy
  exact sealed_render (cuts.valid valid y hy) (cuts.sealed ends y hy) closed

theorem closed_firstCommandBuffer? (valid : Utf8.isValid x = true)
    (h : firstCommandBuffer? table x = some buffer) : Closed buffer := by
  obtain ⟨xs, cuts⟩ := exists_cuts x
  obtain ⟨s, member, holds⟩ := List.exists_of_findSome?_eq_some h
  rw [ofText, cuts.slices_eq] at member
  obtain ⟨y, hy, kind⟩ := List.mem_map.mp member
  cases s with
  | raw => contradiction
  | call c =>
    obtain rfl := Option.some.inj holds
    obtain ⟨_, _, _, _, _, _, records⟩ := exists_records kind
    exact (records.tidy (cuts.valid valid y hy) _ (List.get_mem ..)).closed

end PassCompiler.Statement
