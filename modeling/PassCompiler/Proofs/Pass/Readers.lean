import PassCompiler.Proofs.Pass.Counterpart.Header
import PassCompiler.Proofs.Source.Restart
import PassCompiler.Recording.Statement

/-! Where the readers take a scan up again: behind the closer of an argument list, of a clause or of
a call, and at the end of a word. In any window these are places at which a scan goes on as it was.
Main statement: `Source.agrees_of_restartAt`. -/
namespace PassCompiler

def Header.Step.behind? : Header.Step → Option (List Source.Mark)
  | .skip behind | .clause _ _ behind => some behind
  | .body _ | .fault _ _ => none

namespace Source

variable {phase : Phase} {s x y : Bytes} {start limit offset p i k : Nat} {m n : Mark}

/-- Offset `p` comes behind a byte of code, no slash, of the scan of `w` from `q` on. -/
def Seekable (w : Bytes) (q p : Nat) : Prop :=
  ∃ n ∈ scan w q, n.isCode = true ∧ n.byte ≠ 0x2F ∧ n.offset + 1 = p

theorem Seekable.restartAt {q : Nat} (h : Seekable (s.take limit) q p)
    (resumes : RestartAt s start q) : RestartAt s start p := by
  obtain ⟨n, cut, code, other, rfl⟩ := h
  have bounds := bounds_of_mem_scan cut
  rw [List.length_take] at bounds
  obtain ⟨m, here, place⟩ := exists_mark bounds.1 (by omega : n.offset < s.length)
  have whole := List.mem_of_getElem? here
  obtain ⟨byte, region⟩ := scan_take whole cut place.symm
  have region := region.resolve_right fun cutOff => other (byte.trans cutOff.slash)
  refine .inr ⟨n.offset, ⟨m, resumes.mem whole, place, ?_⟩, rfl⟩
  rw [Mark.isCode_iff, ← region, ← Mark.isCode_iff, code]

section Split

variable {w : Bytes} {q : Nat} {front marks rest behind : List Mark} {closer : Mark}
  {kind : Delimiter}

theorem offset_of_scan_split (split : scan w q = front ++ m :: rest) :
    m.offset = q + front.length := by
  have here : (scan w q)[front.length]? = some m := by simp [split]
  exact (getElem?_scan_iff.mp here).2

/-- Behind a mark of code stands the scan that starts there. -/
theorem eq_scan_of_split (split : scan w q = front ++ m :: rest) (code : m.isCode = true) :
    rest = scan w (m.offset + 1) := by
  have place := offset_of_scan_split split
  have restart : RestartAt w q (m.offset + 1) :=
    .inr ⟨_, ⟨m, by simp [split], rfl, code⟩, rfl⟩
  rw [restart.scan_eq, split, place, List.append_cons, List.drop_left' (by simp; omega)]

theorem matchingClose_of_split (split : scan w q = front ++ m :: rest) (code : m.isCode = true)
    (opens : m.byte = kind.opener) :
    matchingClose w m.offset = (Group.close? ⟨kind, 1⟩ rest).map (·.1.offset) := by
  have member : m ∈ scan (w.take w.length) q := by simp [split]
  have here := getElem?_of_mem_window member
  rw [matchingClose_eq (opens ▸ here), ← eq_scan_of_split split code]

/-- Behind the closer of a group stands the scan that starts there. -/
theorem seekable_of_close? (split : scan w q = front ++ m :: rest)
    (closed : Group.close? ⟨kind, 1⟩ rest = some (closer, behind)) :
    Seekable w q (closer.offset + 1) ∧ behind = scan w (closer.offset + 1) := by
  obtain ⟨inside, rfl, _, closes⟩ := Group.close?_eq_some_iff.mp closed
  obtain ⟨code, byte⟩ := Mark.isCodeByte_iff.mp closes
  have split' : scan w q = (front ++ m :: inside) ++ closer :: behind := by simp [split]
  exact ⟨⟨closer, by simp [split], code, byte ▸ kind.closer_ne_slash, rfl⟩,
    eq_scan_of_split split' code⟩

/-- The group that a scan has next, and the scan behind it. -/
theorem seekable_of_nextGroup? {o c : Nat} (split : scan w q = front ++ marks)
    (h : nextGroup? marks = some ⟨o, some (c, behind)⟩) :
    matchingClose w o = some c ∧ Seekable w q (c + 1) ∧ behind = scan w (c + 1) := by
  obtain ⟨n, rest, next, opens, same⟩ := nextGroup?_eq_some_iff.mp h
  obtain ⟨rfl, closed⟩ := Parenthesised.mk.inj same
  obtain ⟨⟨closer, others⟩, found, same⟩ := Option.map_eq_some_iff.mp closed.symm
  obtain ⟨rfl, rfl⟩ := Prod.mk.inj same
  obtain ⟨code, byte⟩ := Mark.isCodeByte_iff.mp opens
  have split' : scan w q = (front ++ marks.takeWhile
      fun m => !m.isCode || Bytes.isBlank m.byte) ++ n :: rest := by
    rw [split, List.append_assoc, ← next, List.takeWhile_append_dropWhile]
  rw [matchingClose_of_split split' code byte, found]
  exact ⟨rfl, seekable_of_close? split' found⟩

theorem isCode_of_mem_word (chain : (m :: rest).IsChain Adjacent) (code : m.isCode = true) :
    ∀ n ∈ rest.takeWhile (Bytes.isIdent ·.byte), n.isCode = true := by
  induction rest generalizing m with
  | nil => simp
  | cons a rest ih =>
    obtain ⟨near, chain⟩ := List.isChain_cons_cons.mp chain
    rw [List.takeWhile_cons]
    split
    · next ident =>
      have code' : a.isCode = true := by
        by_contra comment
        have slash := near.1 code (by simpa using comment)
        rw [slash] at ident
        contradiction
      exact List.forall_mem_cons.mpr ⟨code', ih chain code'⟩
    · simp

/-- Behind a word of code stands the scan that starts there. -/
theorem seekable_of_word (split : scan w q = front ++ m :: rest) (code : m.isCode = true)
    (ident : Bytes.isIdent m.byte = true) :
    Seekable w q (m.offset + (word m rest).length) ∧
      behindWord rest = scan w (m.offset + (word m rest).length) := by
  have chain : (m :: rest).IsChain Adjacent := by
    have whole := isChain_scan w q
    rw [split] at whole
    exact (List.isChain_append.mp whole).2.1
  have letters : ∀ n ∈ m :: rest.takeWhile (Bytes.isIdent ·.byte),
      n.isCode = true ∧ Bytes.isIdent n.byte = true :=
    List.forall_mem_cons.mpr ⟨⟨code, ident⟩, fun n member =>
      ⟨isCode_of_mem_word chain code n member,
        List.mem_takeWhile_imp (p := fun n : Mark => Bytes.isIdent n.byte) member⟩⟩
  have long : (word m rest).length = (m :: rest.takeWhile (Bytes.isIdent ·.byte)).length := by
    simp [word, text]
  have parts : scan w q =
      front ++ (m :: rest.takeWhile (Bytes.isIdent ·.byte)) ++ behindWord rest := by
    rw [split, List.append_assoc, List.cons_append, behindWord, List.takeWhile_append_dropWhile]
  obtain ⟨init, n, concat⟩ := (List.eq_nil_or_concat' _).resolve_left
    (List.cons_ne_nil m (rest.takeWhile (Bytes.isIdent ·.byte)))
  rw [concat] at letters long parts
  obtain ⟨code', ident'⟩ := letters n (by simp)
  have split' : scan w q = (front ++ init) ++ n :: behindWord rest := by simp [parts]
  have place : n.offset + 1 = m.offset + (word m rest).length := by
    rw [offset_of_scan_split split, offset_of_scan_split split', long, List.length_append,
      List.length_append, List.length_singleton]
    omega
  rw [← place]
  refine ⟨⟨n, by simp [parts], code', ?_, rfl⟩, eq_scan_of_split split' code'⟩
  intro slash
  rw [slash] at ident'
  contradiction

/-- An argument list takes a group as it stands and goes on behind its closer. -/
theorem pieces_of_close? {g : Group} {o : Nat} (closed : g.close? rest = some (closer, behind)) :
    ∃ copied, rest = copied ++ behind ∧ Argument.pieces (some ⟨o, g⟩) rest =
      (Argument.pieces none behind).map (copied.map .kept ++ ·) := by
  induction rest generalizing g with
  | nil => contradiction
  | cons a rest ih =>
    rw [Group.close?] at closed
    rw [Argument.pieces]
    cases stepped : g.step a with
    | none =>
      rw [stepped] at closed
      obtain ⟨rfl, rfl⟩ := Prod.mk.inj (Option.some.inj closed)
      exact ⟨[a], rfl, rfl⟩
    | some g' =>
      rw [stepped] at closed
      obtain ⟨copied, rfl, read⟩ := ih closed
      refine ⟨a :: copied, rfl, ?_⟩
      rw [Option.map_some, read]
      cases Argument.pieces none behind <;> rfl

end Split

/-- Where a reader takes a scan up again that stands at the mark `m`, with `rest` behind it. -/
inductive ResumePoint (w : Bytes) (m : Mark) (rest : List Mark) : Nat → Prop
  /-- The end of the word that begins there. -/
  | word : Bytes.isIdent m.byte = true → ResumePoint w m rest (m.offset + (word m rest).length)
  /-- Behind the closer of a group. -/
  | group {o c : Nat} : matchingClose w o = some c → ResumePoint w m rest (c + 1)

/-- From the mark `m` of a window `w`, every reader goes on with a scan of the window that starts
where a scan of the whole source `s` may be taken up. -/
structure ReadersResume (s : Bytes) (start : Nat) (w : Bytes) (m : Mark) (rest : List Mark) :
    Prop where
  /-- A list of arguments copies a group. -/
  arguments : ∀ kind : Delimiter, m.byte = kind.opener → ∀ c, matchingClose w m.offset = some c →
    RestartAt s start (c + 1) ∧ ∃ copied, m :: rest = copied ++ scan w (c + 1) ∧
      Argument.pieces none (m :: rest) =
        (Argument.pieces none (scan w (c + 1))).map (copied.map .kept ++ ·)
  /-- A header passes over a word or a group, or reads a clause. -/
  header : ∀ declared behind, (Header.step declared m rest).behind? = some behind →
    behind = rest ∨ ∃ p, ResumePoint w m rest p ∧ RestartAt s start p ∧ behind = scan w p
  /-- The search for a call passes over a word, and over one that it knows if no group follows. -/
  statement : Bytes.isIdent m.byte = true →
    RestartAt s start (m.offset + (word m rest).length) ∧
      ∀ table, Statement.earliest? table (m :: rest) =
        match table.slot? (word m rest), nextGroup? (scan w (m.offset + (word m rest).length)) with
        | some slot, some group =>
          some ⟨word m rest, slot, group.start, group.closed.map (·.1)⟩
        | _, _ => Statement.earliest? table (scan w (m.offset + (word m rest).length))

/-- What a header that reads a word has ahead. -/
theorem resumePoint_of_wordStep {front rest behind : List Mark} {declared : List Clause}
    (resumes : RestartAt s start p) (split : scan (s.take limit) p = front ++ m :: rest)
    (code : m.isCode = true) (ident : Bytes.isIdent m.byte = true)
    (goesOn : (Header.wordStep declared m rest).behind? = some behind) :
    ∃ q, ResumePoint (s.take limit) m rest q ∧ RestartAt s start q ∧
      behind = scan (s.take limit) q := by
  obtain ⟨seekable, scanned⟩ := seekable_of_word split code ident
  have restart := seekable.restartAt resumes
  unfold Header.wordStep at goesOn
  split at goesOn
  · obtain rfl := Option.some.inj goesOn
    exact ⟨_, .word ident, restart, scanned⟩
  · split at goesOn
    · contradiction
    · contradiction
    · next o c others next =>
      split at goesOn
      · contradiction
      · obtain rfl := Option.some.inj goesOn
        have split' : scan (s.take limit) p =
            (front ++ m :: rest.takeWhile (Bytes.isIdent ·.byte)) ++ behindWord rest := by
          rw [split, List.append_assoc, List.cons_append, behindWord,
            List.takeWhile_append_dropWhile]
        obtain ⟨matching, seekable, scanned⟩ := seekable_of_nextGroup? split' next
        exact ⟨_, .group matching, seekable.restartAt resumes, scanned⟩

theorem resumePoint_of_step {front rest behind : List Mark} {declared : List Clause}
    (resumes : RestartAt s start p) (split : scan (s.take limit) p = front ++ m :: rest)
    (code : m.isCode = true) (goesOn : (Header.step declared m rest).behind? = some behind) :
    behind = rest ∨ ∃ q, ResumePoint (s.take limit) m rest q ∧ RestartAt s start q ∧
      behind = scan (s.take limit) q := by
  rw [Header.step, if_pos code] at goesOn
  split at goesOn
  · contradiction
  · next opens =>
    split at goesOn
    · contradiction
    · next closer others closed =>
      obtain rfl := Option.some.inj goesOn
      obtain ⟨seekable, scanned⟩ := seekable_of_close? split closed
      refine .inr ⟨_, .group (o := m.offset) ?_, seekable.restartAt resumes, scanned⟩
      rw [matchingClose_of_split split code (Delimiter.opening?_eq_some_iff.mp opens), closed,
        Option.map_some]
  · split at goesOn
    · next ident => exact .inr (resumePoint_of_wordStep resumes split code ident goesOn)
    · exact .inl (Option.some.inj goesOn).symm

theorem readersResume {front rest : List Mark} (resumes : RestartAt s start p)
    (split : scan (s.take limit) p = front ++ m :: rest) (code : m.isCode = true) :
    ReadersResume s start (s.take limit) m rest where
  arguments kind opens c closed := by
    rw [matchingClose_of_split split code opens] at closed
    obtain ⟨⟨closer, behind⟩, found, rfl⟩ := Option.map_eq_some_iff.mp closed
    obtain ⟨seekable, scanned⟩ := seekable_of_close? split found
    obtain ⟨copied, parts, read⟩ := @pieces_of_close? _ _ _ _ m.offset found
    dsimp only
    rw [← scanned]
    refine ⟨seekable.restartAt resumes, m :: copied, congrArg (m :: ·) parts, ?_⟩
    have notComma : (m.byte == 0x2C) = false := by
      rw [opens]
      cases kind <;> rfl
    rw [Argument.pieces, code, notComma, Delimiter.opening?_eq_some_iff.mpr opens, Option.map_some,
      read]
    cases Argument.pieces none behind <;> rfl
  header declared behind goesOn := resumePoint_of_step resumes split code goesOn
  statement ident := by
    obtain ⟨seekable, scanned⟩ := seekable_of_word split code ident
    refine ⟨seekable.restartAt resumes, fun table => ?_⟩
    rw [← scanned, Statement.earliest?, code, ident]
    simp only [Bool.and_self, if_true]
    cases table.slot? (word m rest) with
    | none => rfl
    | some slot => cases nextGroup? (behindWord rest) <;> rfl

/-- A scan taken up again at an offset of code, or behind one, in a window: it marks the source as
the whole scan does, and so do the scans that the readers of the window take up in it. -/
structure Agrees (s : Bytes) (start limit p : Nat) : Prop where
  marks : ∀ i, p ≤ i → i < limit → i < s.length →
    ∃ m ∈ scan s start, ∃ n ∈ scan (s.take limit) p, m.offset = i ∧ n.offset = i ∧
      n.byte = m.byte ∧ (n.region = m.region ∨
        i + 1 = limit ∧ n.region = .code ∧ m.byte = 0x2F ∧ Opens s start m)
  readers : ∀ front m rest, scan (s.take limit) p = front ++ m :: rest → m.isCode = true →
    ReadersResume s start (s.take limit) m rest

/-- A scan may be taken up again wherever it has code, and behind every such offset, in any
window. -/
theorem agrees_of_restartAt (resumes : RestartAt s start p) (limit : Nat) :
    Agrees s start limit p where
  marks i after inside lt := by
    obtain ⟨m, here, rfl⟩ := exists_mark after lt
    obtain ⟨n, there, place⟩ := exists_mark (s := s.take limit) after
      (by rw [List.length_take]; omega)
    have marked := List.mem_of_getElem? here
    have cut := List.mem_of_getElem? there
    obtain ⟨byte, region⟩ := scan_take marked cut place
    refine ⟨m, resumes.mem marked, n, cut, rfl, place, byte, region.imp_right fun cutOff => ?_⟩
    refine ⟨cutOff.last, cutOff.code, cutOff.slash, ?_⟩
    exact cutOff.opens (resumes.mem marked) ((resumes.take (by omega)).mem cut) place
  readers _ _ _ split code := readersResume resumes split code

/-- Taken up behind a group, in a window that ends within a marker. -/
theorem agrees_of_restartAt_marker :
    let s := bytes "f(a)//b"
    RestartAt s 0 4 ∧ Agrees s 0 5 4 ∧ scan (s.take 5) 4 = [⟨4, 0x2F, .code⟩] ∧
      (⟨4, 0x2F, .line⟩ : Mark) ∈ scan s 0 := by
  intro s
  have resumes : RestartAt s 0 4 := .inr ⟨3, by decide, rfl⟩
  exact ⟨resumes, agrees_of_restartAt resumes 5, by decide, by decide⟩

end Source
end PassCompiler
