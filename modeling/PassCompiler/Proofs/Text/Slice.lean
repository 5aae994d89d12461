import PassCompiler.Text.Bytes

/-! Slices of a text, and kinds of bytes. -/
namespace PassCompiler.Bytes

variable {x k : Bytes} {a b c i : Nat}

theorem length_slice (bound : b ≤ x.length) : (slice x ⟨a, b⟩).length = b - a := by
  rw [slice, List.length_drop, List.length_take, Nat.min_eq_left bound]

theorem slice_append (first : a ≤ b) (second : b ≤ c) :
    slice x ⟨a, c⟩ = slice x ⟨a, b⟩ ++ slice x ⟨b, c⟩ := by
  simp only [slice, List.drop_take]
  have rest : (x.drop a).drop (b - a) = x.drop b := by
    rw [List.drop_drop, Nat.add_sub_cancel' first]
  rw [← Nat.sub_add_sub_cancel second first, Nat.add_comm, List.take_add, rest]

theorem slice_of_prefix (h : k <+: x.drop i) : slice x ⟨i, i + k.length⟩ = k := by
  rw [slice, List.drop_take, Nat.add_sub_cancel_left]
  exact (List.prefix_iff_eq_take.mp h).symm

theorem slice_single {v : UInt8} (h : x[i]? = some v) : slice x ⟨i, i + 1⟩ = [v] := by
  obtain ⟨lt, same⟩ := List.getElem?_eq_some_iff.mp h
  apply slice_of_prefix (k := [v])
  rw [List.drop_eq_getElem_cons lt, same]
  exact List.cons_prefix_cons.mpr ⟨rfl, List.nil_prefix⟩

theorem slice_to_end : slice x ⟨i, x.length⟩ = x.drop i := by
  rw [slice, List.take_length]

theorem not_isIdent_of_isBlank {v : UInt8} (h : isBlank v = true) : isIdent v = false := by
  simp only [isBlank, Bool.or_eq_true, beq_iff_eq] at h
  rcases h with ((rfl | rfl) | rfl) | rfl <;> decide

end PassCompiler.Bytes
