import PassCompiler.Source.Delimiter

/-! Words and what follows them, read off a scan. A word is a longest run of identifier bytes; no
identifier byte is part of a comment marker, so a word that starts in code is code throughout. -/
namespace PassCompiler.Source

/-- The word that starts with `m`, which `rest` follows. -/
def word (m : Mark) (rest : List Mark) : Bytes :=
  m.byte :: text (rest.takeWhile (Bytes.isIdent ·.byte))

def behindWord (rest : List Mark) : List Mark := rest.dropWhile (Bytes.isIdent ·.byte)

theorem length_behindWord_le (rest : List Mark) : (behindWord rest).length ≤ rest.length :=
  (List.dropWhile_suffix _).length_le

structure Parenthesised where
  /-- The offset of the opening parenthesis. -/
  start : Nat
  /-- The offset of the closing one and the marks behind it; `none` if the scan ends first. -/
  closed : Option (Nat × List Mark)

/-- The group that is the next code of a scan, blanks apart. -/
def nextGroup? (marks : List Mark) : Option Parenthesised :=
  match marks.dropWhile fun m => !m.isCode || Bytes.isBlank m.byte with
  | [] => none
  | m :: rest =>
    if m.byte == Delimiter.paren.opener then
      some ⟨m.offset, (Group.close? ⟨.paren, 1⟩ rest).map fun (closer, behind) =>
        (closer.offset, behind)⟩
    else none

theorem length_le_of_nextGroup? {marks behind : List Mark} {start stop : Nat}
    (h : nextGroup? marks = some ⟨start, some (stop, behind)⟩) :
    behind.length ≤ marks.length := by
  unfold nextGroup? at h
  split at h
  · contradiction
  · next a rest hdrop =>
    split at h
    · have closed := (Parenthesised.mk.inj (Option.some.inj h)).2
      obtain ⟨⟨closer, others⟩, hclose, same⟩ := Option.map_eq_some_iff.mp closed
      obtain ⟨_, rfl⟩ := Prod.mk.inj same
      have shorter := Group.length_lt_of_close? hclose
      have suffix : (a :: rest).length ≤ marks.length := by
        rw [← hdrop]
        exact (List.dropWhile_suffix _).length_le
      rw [List.length_cons] at suffix
      omega
    · contradiction

end PassCompiler.Source
