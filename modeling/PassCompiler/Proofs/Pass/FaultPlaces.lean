import PassCompiler.Proofs.Pass.Parts
import PassCompiler.Proofs.Source.BesideAscii

/-! Where the faults of a pass point: into the source, not before the pass, and next to an ASCII
byte, so that no character of a valid source is split there. Main statement:
`Pass.pointsFrom_of_read`. -/
namespace PassCompiler

open Source

variable {source : Bytes} {start stop : Nat} {e : Fault} {m : Mark}

/-- The fault points into the source, to `start` or behind it, and next to an ASCII byte. -/
structure Fault.PointsFrom (source : Bytes) (start : Nat) (e : Fault) : Prop where
  located : e.position = Source.position source e.offset
  after : start ≤ e.offset
  beside : BesideAscii source e.offset

theorem Fault.pointsFrom_locate {offset : Nat} (after : start ≤ offset)
    (beside : BesideAscii source offset) (cause : Cause) :
    (locate source offset cause).PointsFrom source start :=
  ⟨rfl, after, beside⟩

theorem Fault.PointsFrom.mono (h : e.PointsFrom source stop) (le : start ≤ stop) :
    e.PointsFrom source start :=
  { h with after := Nat.le_trans le h.after }

theorem Logged.eq_of_ofOption_error {ε α : Type} {e e' : ε} {o : Option α}
    (h : (ofOption e o).result = .error e') : e' = e := by
  cases o with
  | none => exact (Except.error.inj h).symm
  | some a => contradiction

namespace Argument

theorem opener_of_pieces {marks : List Mark} {og : Option OpenGroup} {inside : OpenGroup}
    (h : pieces og marks = .error inside) :
    (∃ g, og = some g ∧ g.offset = inside.offset) ∨
      ∃ m ∈ marks, m.offset = inside.offset ∧ ∃ kind : Delimiter, m.byte = kind.opener := by
  induction marks generalizing og with
  | nil =>
    cases og with
    | none => contradiction
    | some g =>
      obtain rfl := Except.error.inj h
      exact .inl ⟨g, rfl, rfl⟩
  | cons m rest ih =>
    have later {og : Option OpenGroup} (h : pieces og rest = .error inside) :
        (∃ g, og = some g ∧ g.offset = inside.offset) ∨ ∃ n ∈ m :: rest,
          n.offset = inside.offset ∧ ∃ kind : Delimiter, n.byte = kind.opener :=
      (ih h).imp_right fun ⟨n, member, opens⟩ => ⟨n, List.mem_cons_of_mem _ member, opens⟩
    cases og with
    | some g =>
      rw [pieces, map_eq_error_iff] at h
      rcases later h with ⟨g', stays, same⟩ | opens
      · obtain ⟨_, _, rfl⟩ := Option.map_eq_some_iff.mp stays
        exact .inl ⟨g, rfl, same⟩
      · exact .inr opens
    | none =>
      rw [pieces] at h
      right
      split at h
      · exact (later (map_eq_error_iff.mp h)).resolve_left (by simp)
      split at h
      · exact (later (map_eq_error_iff.mp h)).resolve_left (by simp)
      · rcases later (map_eq_error_iff.mp h) with ⟨g, opened, same⟩ | opens
        · obtain ⟨kind, opening, rfl⟩ := Option.map_eq_some_iff.mp opened
          exact ⟨m, List.mem_cons_self, same, kind, Delimiter.opening?_eq_some_iff.mp opening⟩
        · exact opens

/-- A list fails at the delimiter that opens a group which is not closed in it. -/
theorem pointsFrom_of_read {span : Span} (h : read source span = .error e) :
    e.PointsFrom source span.start := by
  unfold read at h
  split at h
  · next inside unclosed =>
    obtain rfl := Except.error.inj h
    obtain ⟨m, member, place, kind, opens⟩ := (opener_of_pieces unclosed).resolve_left (by simp)
    have here := getElem?_of_mem_window member
    rw [place, opens] at here
    exact Fault.pointsFrom_locate (place ▸ (bounds_of_mem_scan member).1)
      (besideAscii_at here kind.ascii_opener) _
  · contradiction

end Argument

namespace Header

variable {declared : List Clause} {marks rest : List Mark}

/-- A word ends behind its last letter. -/
theorem besideAscii_word (tail : m :: rest <:+ scan (source.take stop) start)
    (ident : Bytes.isIdent m.byte = true) :
    BesideAscii source (m.offset + (word m rest).length) := by
  obtain ⟨front, split⟩ := tail
  -- The offsets of a scan count on, so the last letter stands where the length of the word says.
  let letters := m :: rest.takeWhile (Bytes.isIdent ·.byte)
  have whole : m :: rest = letters ++ behindWord rest :=
    (congrArg (m :: ·) (List.takeWhile_append_dropWhile ..)).symm
  have first : (scan (source.take stop) start)[front.length]? = some m := by simp [← split]
  obtain ⟨n, last⟩ : ∃ n, letters[letters.length - 1]? = some n :=
    ⟨_, List.getElem?_eq_getElem (Nat.sub_one_lt_of_lt (Nat.succ_pos _))⟩
  have member : n ∈ letters := List.mem_of_getElem? last
  have there : (scan (source.take stop) start)[front.length + (letters.length - 1)]? = some n := by
    rw [← split, List.getElem?_append_right (Nat.le_add_right ..), Nat.add_sub_cancel_left, whole,
      List.getElem?_append_left (List.getElem?_eq_some_iff.mp last).1, last]
  have letter : Bytes.isIdent n.byte = true := by
    rcases List.mem_cons.mp member with rfl | later
    · exact ident
    · exact List.mem_takeWhile_imp (p := fun n : Mark => Bytes.isIdent n.byte) later
  have begins := offset_of_getElem?_scanFrom first
  have ends := offset_of_getElem?_scanFrom there
  have long : (word m rest).length = letters.length := by simp [word, text, letters]
  have pos : 0 < letters.length := Nat.succ_pos _
  rw [show m.offset + (word m rest).length = n.offset + 1 by omega]
  exact besideAscii_behind (getElem?_of_mem_window (List.mem_of_getElem? there))
    (ascii_of_isIdent letter)

/-- A step fails at a byte of the header, or behind the word that it read. -/
theorem besideAscii_of_step (tail : m :: rest <:+ scan (source.take stop) start) {offset : Nat}
    {cause : Cause} (h : step declared m rest = .fault offset cause) :
    start ≤ offset ∧ BesideAscii source offset := by
  have here {n : Mark} (hn : n ∈ m :: rest) : start ≤ n.offset ∧ source[n.offset]? = some n.byte :=
    ⟨(bounds_of_mem_scan (tail.subset hn)).1, getElem?_of_mem_window (tail.subset hn)⟩
  obtain ⟨after, first⟩ := here List.mem_cons_self
  unfold step at h
  split at h
  · split at h
    · contradiction
    · next opens =>
      split at h
      · obtain ⟨rfl, _⟩ := Step.fault.inj h
        rw [Delimiter.opening?_eq_some_iff.mp opens] at first
        exact ⟨after, besideAscii_at first (Delimiter.ascii_opener _)⟩
      · contradiction
    · split at h
      · next ident =>
        unfold wordStep at h
        split at h
        · contradiction
        split at h
        · obtain ⟨rfl, _⟩ := Step.fault.inj h
          exact ⟨Nat.le_trans after (Nat.le_add_right ..), besideAscii_word tail ident⟩
        · next group =>
          obtain ⟨rfl, _⟩ := Step.fault.inj h
          obtain ⟨⟨o, member, opens, place⟩, _⟩ := mem_of_nextGroup? group
          obtain ⟨low, there⟩ :=
            here (List.mem_cons_of_mem _ ((List.dropWhile_suffix _).subset member))
          rw [(Mark.isCodeByte_iff.mp opens).2] at there
          obtain rfl := place
          exact ⟨low, besideAscii_at there (Delimiter.ascii_opener _)⟩
        · split at h
          · obtain ⟨rfl, _⟩ := Step.fault.inj h
            exact ⟨after, besideAscii_at first (ascii_of_isIdent ident)⟩
          · contradiction
      · contradiction
  · contradiction

/-- What is left of a header fails inside it, or at its start. -/
theorem pointsFrom_of_readFrom {place : Place} {clauses : Clauses}
    (tail : marks <:+ scan (place.source.take place.span.stop) place.span.start)
    (edge : BesideAscii place.source place.span.start)
    (h : (readFrom place declared clauses marks).result = .error e) :
    e.PointsFrom place.source place.span.start := by
  induction marks using suffix_induction generalizing declared clauses with
  | nil =>
    rw [readFrom] at h
    obtain rfl := Except.error.inj h
    exact Fault.pointsFrom_locate (Nat.le_refl _) edge _
  | cons m rest ih =>
    have go {l : List Mark} {declared : List Clause} {clauses : Clauses} (behind : l <:+ rest)
        (h : (readFrom place declared clauses l).result = .error e) :
        e.PointsFrom place.source place.span.start :=
      ih l behind ((behind.trans (List.suffix_cons m rest)).trans tail) h
    have stands := step_from declared m rest
    rw [result_readFrom_cons] at h
    cases taken : step declared m rest with
    | skip behind =>
      rw [taken] at h stands
      exact go stands h
    | body offset =>
      rw [taken] at h
      contradiction
    | clause clause span behind =>
      rw [taken] at h stands
      obtain ⟨suffix, ⟨o, ho, _, opens⟩, _⟩ := stands
      have low := (bounds_of_mem_scan (tail.subset (List.mem_cons_of_mem _ ho))).1
      dsimp only at h
      cases read : Argument.read place.source span with
      | error e' =>
        rw [read] at h
        obtain rfl := Except.error.inj h
        exact (Argument.pointsFrom_of_read read).mono (by omega)
      | ok args =>
        rw [read] at h
        exact go suffix h
    | fault offset cause =>
      rw [taken] at h
      obtain rfl := Except.error.inj h
      obtain ⟨after, beside⟩ := besideAscii_of_step tail taken
      exact Fault.pointsFrom_locate after beside _

end Header

theorem Source.eq_of_terminator_error {owner keyword : Bytes} {range : Span} {fault : Fault}
    (h : (terminator source owner keyword range fault).result = .error e) : e = fault := by
  rw [result_terminator] at h
  split at h
  · contradiction
  all_goals exact (Except.error.inj h).symm

/-- The parenthesis that a search for one finds. -/
theorem Source.opener_of_filter {b : UInt8}
    (h : (nextCode source start stop).filter (·.byte == b) = some m) :
    start ≤ m.offset ∧ source[m.offset]? = some b := by
  obtain ⟨seen, byte⟩ := Option.filter_eq_some_iff.mp h
  have here := getElem?_of_mem_window (List.mem_of_find?_eq_some seen)
  rw [beq_iff_eq.mp byte] at here
  exact ⟨(bounds_of_nextCode seen).1, here⟩

namespace FixedBlock

variable {body beginning : Span}

theorem pointsFrom_of_readAt
    (seen : find source ⟨start, body.stop⟩ Keyword.fixedBegin .terminator = .found beginning)
    (h : (readAt source body beginning).result = .error e) : e.PointsFrom source start := by
  obtain ⟨front, behind⟩ := besideAscii_of_find Keyword.isWord_fixedBegin seen
  obtain ⟨after, long⟩ := bounds_of_find seen
  dsimp only at after
  unfold readAt at h
  rcases Logged.result_bind_error h with h | ⟨o, opener, h⟩
  · rw [Logged.eq_of_ofOption_error h]
    exact Fault.pointsFrom_locate (by omega) behind _
  obtain ⟨low, here⟩ := opener_of_filter (Logged.result_ofOption_ok.mp opener)
  have opens := besideAscii_at here (by decide)
  rcases Logged.result_bind_error h with h | ⟨close, closer, h⟩
  · rw [Logged.eq_of_ofOption_error h]
    exact Fault.pointsFrom_locate (by omega) opens _
  have inside := (bounds_of_matchingClose (Logged.result_ofOption_ok.mp closer)).1
  rcases Logged.result_bind_error h with h | ⟨args, _, h⟩
  · exact (Argument.pointsFrom_of_read h).mono (by dsimp only; omega)
  split at h
  · rcases Logged.result_bind_error h with h | ⟨ending, _, h⟩
    · rw [eq_of_terminator_error h]
      exact Fault.pointsFrom_locate after front _
    split at h
    · next nested again =>
      obtain rfl := Except.error.inj h
      have later := (bounds_of_find again).1
      dsimp only at later
      exact Fault.pointsFrom_locate (by omega)
        (besideAscii_of_find Keyword.isWord_fixedBegin again).1 _
    all_goals contradiction
  · obtain rfl := Except.error.inj h
    exact Fault.pointsFrom_locate (by omega) opens _

theorem pointsFrom_of_readFrom {cursor : Nat}
    (h : (readFrom source body cursor).result = .error e) : e.PointsFrom source cursor := by
  induction cursor using readFrom_induction source body with
  | block cursor beginning seen ih =>
    rw [result_readFrom, seen] at h
    dsimp only at h
    cases first : (readAt source body beginning).result with
    | error e' =>
      rw [first] at h
      obtain rfl := Except.error.inj h
      exact pointsFrom_of_readAt seen first
    | ok located =>
      rw [first] at h
      have bounds := bounds_of_readAt first
      have ahead := bounds_of_find seen
      dsimp only at ahead
      cases later : (readFrom source body located.ending.stop).result with
      | error e' =>
        rw [Except.bind, later] at h
        obtain rfl := Except.error.inj h
        exact (ih located first later).mono (by omega)
      | ok blocks =>
        rw [Except.bind, later] at h
        contradiction
  | rest cursor absent =>
    rw [result_readFrom_rest absent] at h
    contradiction

end FixedBlock

namespace Pass

theorem pointsFrom_of_readName (edge : BesideAscii source start)
    (h : (readName source start).result = .error e) : e.PointsFrom source start := by
  unfold readName at h
  rcases Logged.result_bind_error h with h | ⟨o, opener, h⟩
  · rw [Logged.eq_of_ofOption_error h]
    exact Fault.pointsFrom_locate (Nat.le_refl _) edge _
  obtain ⟨low, here⟩ := opener_of_filter (Logged.result_ofOption_ok.mp opener)
  rcases Logged.result_bind_error h with h | ⟨close, _, h⟩
  · rw [Logged.eq_of_ofOption_error h]
    exact Fault.pointsFrom_locate low (besideAscii_at here (by decide)) _
  dsimp only at h
  split at h
  · contradiction
  · obtain rfl := Except.error.inj h
    exact Fault.pointsFrom_locate (by omega) (besideAscii_behind here (by decide)) _

theorem eq_of_readEnd_error {name : Bytes} {offset : Nat}
    (h : (readEnd source name offset start).result = .error e) :
    e = Fault.locate source start .missingPassEnd := by
  unfold readEnd at h
  rcases Logged.result_bind_error h with h | ⟨ending, _, h⟩
  · exact eq_of_terminator_error h
  split at h
  · exact (Except.error.inj h).symm
  all_goals contradiction

theorem pointsFrom_of_readBody {o : Mark} (ho : o ∈ scan source 0)
    (opens : o.isCodeByte Delimiter.brace.opener = true) (stops : Stops source stop)
    (h : (readBody source o.offset stop).result = .error e) : e.PointsFrom source o.offset := by
  have here := getElem?_of_mem_scan ho
  rw [(Mark.isCodeByte_iff.mp opens).2] at here
  have edge := besideAscii_at here (Delimiter.ascii_opener _)
  unfold readBody at h
  rcases Logged.result_bind_error h with h | ⟨close, closer, h⟩
  · rw [Logged.eq_of_ofOption_error h]
    exact Fault.pointsFrom_locate (Nat.le_refl _) edge _
  have found := Logged.result_ofOption_ok.mp closer
  rw [← List.take_length (l := source)] at found
  obtain ⟨c, hc, closes, rfl, after, _⟩ :=
    mem_of_matchingClose ho opens stops_length (offset_lt_of_mem ho) found
  obtain ⟨code, byte⟩ := Mark.isCodeByte_iff.mp closes
  split at h
  · obtain rfl := Except.error.inj h
    exact Fault.pointsFrom_locate (Nat.le_refl _) edge _
  split at h
  · next stray seen =>
    obtain rfl := Except.error.inj h
    have there := getElem?_of_mem_scan hc
    rw [byte] at there
    have low := (bounds_of_nextCode seen).1
    exact Fault.pointsFrom_locate (by omega) (besideAscii_of_nextCode (resumes_of_mem hc code)
      stops (besideAscii_behind there (Delimiter.ascii_closer _)) seen) _
  · contradiction

/-- A pass that cannot be read is at fault inside it or behind it, never before it. -/
theorem pointsFrom_of_read (begins : Occurs source Keyword.passBegin start)
    (h : (read source start).result = .error e) : e.PointsFrom source start := by
  have t := Counterpart.refl source
  obtain ⟨front, inside⟩ := besideAscii_of_spelled Keyword.isWord_passBegin begins.spelled
  unfold read at h
  rw [if_pos (List.isPrefixOf_iff_prefix.mpr begins.spelled)] at h
  rcases Logged.result_bind_error h with h | ⟨⟨name, close⟩, named, h⟩
  · exact (pointsFrom_of_readName inside h).mono (Nat.le_add_right ..)
  have behind := begins.resumes Keyword.isWord_passBegin
  obtain ⟨_, _, _, resumes⟩ := (t.readName behind).ok _ named
  obtain ⟨_, first, group, _⟩ := readName_ok behind named
  have after := lt_of_readName named
  have edge := besideAscii_behind group.group.closer (by decide)
  rcases Logged.result_bind_error h with h | ⟨ending, ended, h⟩
  · rw [eq_of_readEnd_error h]
    exact Fault.pointsFrom_locate (Nat.le_refl _) front _
  obtain ⟨_, _, _, _, stops, _⟩ := (t.readEnd resumes).ok _ ended
  rcases Logged.result_bind_error h with h | ⟨header, headed, h⟩
  · have points := Header.pointsFrom_of_readFrom List.suffix_rfl edge h
    exact points.mono (by dsimp only; omega)
  obtain ⟨o, ho, opens, place⟩ := Header.opener_of_readFrom headed
  obtain ⟨ho, low, _⟩ := mem_window resumes stops ho
  dsimp only at low
  rw [← place] at h
  rcases Logged.result_bind_error h with h | ⟨body, bodied, h⟩
  · exact (pointsFrom_of_readBody ho opens stops h).mono (by omega)
  obtain ⟨c, _, rfl⟩ := braces_of_readBody ho opens bodied
  rcases Logged.result_bind_error h with h | ⟨blocks, _, h⟩
  · have points := FixedBlock.pointsFrom_of_readFrom h
    exact points.mono (by dsimp only; omega)
  · contradiction

end Pass
end PassCompiler
