import PassCompiler.Proofs.Pass.Argument.Entries
import PassCompiler.Proofs.Pass.Argument.Tokens
import PassCompiler.Proofs.Text.Squeeze

/-! Comments in argument lists. Outside groups a comment reads as blanks do; inside groups it is
kept. Main statement: `read_comments`. -/
namespace PassCompiler

namespace Source

variable {phase : Phase} {offset : Nat} {x : Bytes} {marks : List Mark} {m : Mark}

def Mark.cleared (m : Mark) : Mark := if m.isCode then m else ⟨m.offset, 0x20, .code⟩

/-- The text with a space for every byte of a comment. -/
def uncommented (x : Bytes) : Bytes := text ((scan x 0).map Mark.cleared)

theorem Mark.cleared_code (code : m.isCode = true) : m.cleared = m := if_pos code

theorem Mark.cleared_comment (comment : m.isCode = false) :
    m.cleared = ⟨m.offset, 0x20, .code⟩ := if_neg (by simp [comment])

theorem Mark.isCode_cleared (m : Mark) : m.cleared.isCode = true := by
  cases code : m.isCode with
  | true => rwa [cleared_code code]
  | false => rw [cleared_comment code]; rfl

theorem map_cleared (code : ∀ m ∈ marks, m.isCode = true) : marks.map Mark.cleared = marks :=
  (List.map_congr_left fun m member => Mark.cleared_code (code m member)).trans (List.map_id _)

theorem uncommented_of_code (code : ∀ m ∈ scan x 0, m.isCode = true) : uncommented x = x := by
  rw [uncommented, map_cleared code, scan, text_scanFrom]
  rfl

theorem text_cleared_alike {others : List Mark} (h : List.Forall₂ (Mark.Alike True) marks others) :
    text (others.map Mark.cleared) = text (marks.map Mark.cleared) := by
  induction h with
  | nil => rfl
  | @cons m n marks others first _ ih =>
    have here : n.cleared.byte = m.cleared.byte := by
      cases code : m.isCode with
      | true =>
        rw [Mark.cleared_code code, Mark.cleared_code (first.isCode.trans code),
          first.byte (.inr code)]
      | false =>
        rw [Mark.cleared_comment code, Mark.cleared_comment (first.isCode.trans code)]
    simp only [text, List.map_cons, here] at ih ⊢
    rw [ih]

theorem Group.step_cleared (g : Group) (m : Mark) : g.step m.cleared = g.step m := by
  cases code : m.isCode with
  | true => rw [Mark.cleared_code code]
  | false =>
    have plain : m.Plain := fun _ => by simp [Mark.isCodeByte, code]
    have cleared : m.cleared.Plain := by
      rw [Mark.cleared_comment code]
      intro kind
      cases kind <;> exact ⟨rfl, rfl⟩
    rw [Group.step_plain plain, Group.step_plain cleared]

end Source

namespace Argument

open Source

variable {phase : Phase} {g : Option Group} {last : Option Mark} {marks r : List Mark}
  {rs : List (List Mark)} {m : Mark} {x : Bytes}

/-- Without its comments a text is scanned as code. -/
theorem Scanned.cleared (h : Scanned phase marks) : Scanned .code (marks.map Mark.cleared) := by
  induction marks generalizing phase with
  | nil => trivial
  | cons m marks ih =>
    obtain ⟨region, rest⟩ := h
    have later := ih rest
    have step :
        Phase.code.step m.cleared.byte (ahead (marks.map Mark.cleared)) = (.code, .code) := by
      cases code : m.isCode with
      | false => rw [Mark.cleared_comment code]; rfl
      | true =>
        have here : (phase.step m.byte (ahead marks)).1 = .code :=
          region.symm.trans (Mark.isCode_iff.mp code)
        rw [Mark.cleared_code code]
        cases marks with
        | nil => exact Phase.code_step here
        | cons n marks =>
          cases code' : n.isCode with
          | true =>
            have look : ahead ((n :: marks).map Mark.cleared) = ahead (n :: marks) := by
              rw [List.map_cons, Mark.cleared_code code']
              rfl
            rw [look]
            exact Phase.code_step here
          | false =>
            have look : ahead ((n :: marks).map Mark.cleared) = some 0x20 := by
              rw [List.map_cons, Mark.cleared_comment code']
              rfl
            rw [look]
            simp [Phase.step]
    rw [List.map_cons, Scanned, step]
    exact ⟨Mark.isCode_iff.mp m.isCode_cleared, later⟩

theorem squeeze_cons_congr {c : UInt8} {y z : Bytes}
    (same : Bytes.squeeze (Bytes.isBlank c) y = Bytes.squeeze (Bytes.isBlank c) z) (after : Bool) :
    Bytes.squeeze after (c :: y) = Bytes.squeeze after (c :: z) := by
  cases blank : Bytes.isBlank c with
  | false =>
    rw [blank] at same
    rw [Bytes.squeeze_other blank, Bytes.squeeze_other blank, same]
  | true =>
    rw [blank] at same
    rw [Bytes.squeeze_blank blank, Bytes.squeeze_blank blank, same]

/-- The list is read without its comments, too, and the arguments are the same up to blanks once
they are cleared of theirs. -/
theorem Reading.cleared (h : Reading g last marks r rs)
    (code : g = none → ∀ m, last = some m → m.isCode = true) :
    ∃ r' rs', (∀ last', Reading g last' (marks.map Mark.cleared) r' rs') ∧
      Bytes.squeeze (!spaced (last.map Mark.cleared)) (text r') =
        Bytes.squeeze (!spaced (last.map Mark.cleared)) (text (r.map Mark.cleared)) ∧
      List.Forall₂ (fun x' x => Bytes.UpToBlanks (text x') (text (x.map Mark.cleared))) rs' rs := by
  -- what a byte is written as decides whether a blank goes before the next one
  have behind (m : Mark) :
      (!spaced ((some m).map Mark.cleared)) = Bytes.isBlank m.cleared.byte := by
    simp [spaced]
  induction h with
  | done => exact ⟨[], [], fun _ => .done, rfl, .nil⟩
  | @inside g last m marks r rs _ ih =>
    obtain ⟨r', rs', read, same, others⟩ := ih fun closed a h => Option.some.inj h ▸
      (Mark.isCodeByte_iff.mp (Group.closer_of_step closed)).1
    rw [behind] at same
    refine ⟨m.cleared :: r', rs', fun _ => .inside ?_, squeeze_cons_congr same _, others⟩
    rw [Group.step_cleared]
    exact read _
  | @kept last m marks r rs here other _ ih =>
    obtain ⟨r', rs', read, same, others⟩ := ih fun _ a h => Option.some.inj h ▸ here
    rw [behind] at same
    refine ⟨m.cleared :: r', rs', fun _ => ?_, squeeze_cons_congr same _, others⟩
    rw [List.map_cons, Mark.cleared_code here]
    exact .kept here other (read _)
  | @comma last m marks r rs here comma _ ih =>
    obtain ⟨r', rs', read, same, others⟩ := ih (by simp)
    refine ⟨[], r' :: rs', fun _ => ?_, rfl, .cons same others⟩
    rw [List.map_cons, Mark.cleared_code here]
    exact .comma here comma (read _)
  | @space last m marks r rs comment shown _ ih =>
    obtain ⟨r', rs', read, same, others⟩ := ih fun _ a h => Option.some.inj h ▸ rfl
    rw [behind] at same
    refine ⟨m.cleared :: r', rs', fun _ => ?_, ?_, others⟩
    · rw [List.map_cons, Mark.cleared_comment comment]
      exact .kept rfl (by simp) (read _)
    · rw [Mark.cleared_comment comment]
      exact squeeze_cons_congr same _
  | @gap last m marks r rs comment hidden _ ih =>
    obtain ⟨r', rs', read, same, others⟩ := ih code
    have blank : (!spaced (last.map Mark.cleared)) = true := by
      cases last with
      | none => rfl
      | some a =>
        rw [Option.map_some, Mark.cleared_code (code rfl a rfl), hidden]
        rfl
    refine ⟨m.cleared :: r', rs', fun _ => ?_, ?_, others⟩
    · rw [List.map_cons, Mark.cleared_comment comment]
      exact .kept rfl (by simp) (read _)
    · rw [blank] at same ⊢
      rw [Mark.cleared_comment comment]
      exact same

def clearFrom (phase : Phase) (x : Bytes) : Bytes := text ((scanFrom phase 0 x).map Mark.cleared)

theorem clearFrom_cons (phase : Phase) (b : UInt8) (x : Bytes) :
    clearFrom phase (b :: x) = (if (phase.step b x.head?).1 = .code then b else 0x20) ::
      clearFrom (phase.step b x.head?).2 x := by
  have later := text_cleared_alike (alike_scanFrom (phase.step b x.head?).2 0 1 x)
  rw [clearFrom, scanFrom_cons, clearFrom, ← later]
  by_cases code : (phase.step b x.head?).1 = .code
  · simp [text, Mark.cleared, Mark.isCode, code]
  · simp [text, Mark.cleared, Mark.isCode, code]

theorem ascii_head_clearFrom (ends : ∀ b ∈ x.head?, b < 0x80) (phase : Phase) :
    ∀ b ∈ (clearFrom phase x).head?, b < 0x80 := by
  cases x with
  | nil => exact nofun
  | cons b x =>
    rw [clearFrom_cons]
    intro c first
    obtain rfl := Option.some.inj first
    split
    · exact ends b rfl
    · decide

/-- A part without an ASCII byte is code throughout, or part of one comment. -/
theorem clearFrom_high {u : Bytes} (high : Utf8.High u) (ready : phase ≠ .closeMarker) (x : Bytes) :
    clearFrom phase (u ++ x) =
      (if phase = .code then u else List.replicate u.length 0x20) ++ clearFrom phase.passed x := by
  obtain ⟨filled, high⟩ := high
  induction u generalizing phase with
  | nil => contradiction
  | cons b u ih =>
    obtain ⟨here, later⟩ := List.forall_mem_cons.mp high
    obtain ⟨behind, code⟩ := @Phase.step_high b phase here (u ++ x).head?
    rw [List.cons_append, clearFrom_cons, behind]
    simp only [code]
    cases u with
    | nil => split <;> rfl
    | cons c u =>
      have passed : phase.passed = .code ↔ phase = .code := by
        cases phase <;> simp_all [Phase.passed]
      rw [ih (by cases phase <;> simp [Phase.passed]) (by simp) later, Phase.passed_passed]
      simp only [passed]
      split <;> rfl

/-- Comments may be cleared before or after the text is repaired. -/
theorem squeeze_repair_clearFrom (ready : phase = .closeMarker → x.head? = some 0x2F)
    (after : Bool) : Bytes.squeeze after (Utf8.repair (clearFrom phase x)) =
      Bytes.squeeze after (clearFrom phase (Utf8.repair x)) := by
  induction x using Utf8.run_induction generalizing phase after with
  | nil => rfl
  | ascii b x small ih =>
    have mends := Utf8.mends_repair x
    have step : phase.step b (Utf8.repair x).head? = phase.step b x.head? :=
      Phase.step_congr_next b (mends.head?_iff (by decide)) (mends.head?_iff (by decide))
    have small' : (if (phase.step b x.head?).1 = .code then b else 0x20) < 0x80 := by
      split
      · exact small
      · decide
    rw [Utf8.repair_ascii small, clearFrom_cons, clearFrom_cons, step, Utf8.repair_ascii small']
    exact squeeze_cons_congr (ih slash_of_closeMarker _) _
  | high u x high ends ih =>
    have open' : phase ≠ .closeMarker := fun closes =>
      high.head?_append x (by decide) (ready closes)
    have passed (after : Bool) :=
      @ih phase.passed (by cases phase <;> simp [Phase.passed]) after
    rw [Utf8.repair_append ends, clearFrom_high high open', clearFrom_high high.repair open',
      Utf8.repair_append (ascii_head_clearFrom ends _)]
    split
    · rw [Bytes.squeeze_append high.repair.not_isBlank high.repair.1,
        Bytes.squeeze_append high.repair.not_isBlank high.repair.1, passed]
    · have blanks (n : Nat) : ∀ b ∈ List.replicate n (0x20 : UInt8), Bytes.isBlank b = true := by
        simp [Bytes.isBlank]
      have filled {y : Bytes} (h : Utf8.High y) : List.replicate y.length (0x20 : UInt8) ≠ [] := by
        simpa using h.1
      have same : Utf8.repair (List.replicate u.length 0x20) = List.replicate u.length 0x20 :=
        Utf8.repair_of_valid (Utf8.isValid_of_ascii (by simp))
      rw [same, Bytes.squeeze_blanks (blanks _) (filled high),
        Bytes.squeeze_blanks (blanks _) (filled high.repair)]
      exact squeeze_cons_congr (passed _) _

theorem trimSpace_between {u v : Bytes} (front : ∀ b ∈ u, Bytes.isSpace b = true)
    (back : ∀ b ∈ v, Bytes.isSpace b = true) (trimmed : Bytes.trimSpace x = x) :
    Bytes.trimSpace (u ++ (x ++ v)) = x := by
  have back' : (x ++ v).rdropWhile Bytes.isSpace = x.rdropWhile Bytes.isSpace := by
    rw [List.rdropWhile, List.reverse_append,
      List.dropWhile_append_of_pos fun b member => back b (List.mem_reverse.mp member)]
    rfl
  rw [Blank.trims_trimSpace.both, List.dropWhile_append_of_pos front]
  cases x with
  | nil =>
    rw [List.nil_append, List.dropWhile_eq_nil_iff.mpr back]
    rfl
  | cons b x =>
    have solid := Blank.trimSpace_eq_self_iff.mp trimmed b (.inl rfl)
    rw [Blank.trims_trimSpace.both, List.dropWhile_cons_of_neg (by simp [solid])] at trimmed
    rwa [List.cons_append, List.dropWhile_cons_of_neg (by simp [solid]), ← List.cons_append, back']

/-- White space at the ends of an argument is code. -/
theorem Written.code_around {a b : List Mark} (h : Written (a ++ (r ++ b))) (front : Loose a)
    (back : Loose b) : ∀ m ∈ a ++ b, m.isCode = true := by
  have outside : ∀ m ∈ b, m.isCode = true := ((h.drop front).whole.take back).2
  induction a with
  | nil => exact outside
  | cons m a ih =>
    obtain ⟨later, whole⟩ := h.whole
    have rest := h.drop (a := [m]) fun n member => front n (by simp_all)
    exact List.forall_mem_cons.mpr ⟨h.whole.1, ih rest fun n member => front n (by simp [member])⟩

/-- An argument begins and ends with code. -/
theorem Written.trimSpace_cleared (h : Written r) (trimmed : Bytes.trimSpace (text r) = text r) :
    Bytes.trimSpace (text (r.map Mark.cleared)) = text (r.map Mark.cleared) := by
  rw [Blank.trimSpace_eq_self_iff] at trimmed ⊢
  rintro b (first | last)
  · cases r with
    | nil => exact nomatch first
    | cons m r =>
      rw [List.map_cons, Mark.cleared_code h.whole.1] at first
      exact trimmed b (.inl first)
  · rw [text, List.getLast?_map, List.getLast?_map] at last
    obtain ⟨n, cleared, rfl⟩ := Option.map_eq_some_iff.mp last
    obtain ⟨m, here, rfl⟩ := Option.map_eq_some_iff.mp cleared
    rw [Mark.cleared_code (h.whole.last_code here)]
    exact trimmed _ (.inr (by rw [text, List.getLast?_map, here]; rfl))

/-- What the argument of a run is, and what it is without comments. -/
theorem Written.exists_argument (h : Written r) : ∃ q, Written q ∧
    text q = Bytes.trimSpace (text r) ∧
    Bytes.trimSpace (text (r.map Mark.cleared)) = text (q.map Mark.cleared) ∧
    ((∀ m ∈ q, m.isCode = true) ↔ ∀ m ∈ r, m.isCode = true) := by
  obtain ⟨a, q, b, rfl, front, back, same⟩ := exists_of_trimSpace r
  have written := h.between (loose_of_isSpace front) (loose_of_isSpace back)
  have around := h.code_around (loose_of_isSpace front) (loose_of_isSpace back)
  obtain ⟨code, code'⟩ := List.forall_mem_append.mp around
  have trimmed : Bytes.trimSpace (text q) = text q := by rw [same, Blank.trimSpace_trimSpace]
  refine ⟨q, written, same, ?_, ?_⟩
  · rw [List.map_append, List.map_append, map_cleared code, map_cleared code']
    have between := trimSpace_between (u := text a) (v := text b)
      (List.forall_mem_map.mpr front) (List.forall_mem_map.mpr back)
      (written.trimSpace_cleared trimmed)
    simpa [text] using between
  · rw [List.forall_mem_append, List.forall_mem_append]
    exact ⟨fun all => ⟨code, all, code'⟩, fun all => all.2.1⟩

theorem text_eq_nil_iff : text r = [] ↔ r = [] := List.map_eq_nil_iff

/-- What is read for a run without its comments is the argument of the run, the comments in it
cleared. -/
theorem Written.upToBlanks (h : Written r) (same : Bytes.UpToBlanks x (text (r.map Mark.cleared))) :
    (Bytes.trimSpace x = [] ↔ Bytes.trimSpace (text r) = []) ∧
      Bytes.UpToBlanks (Utf8.repair (Bytes.trimSpace x))
        (uncommented (Utf8.repair (Bytes.trimSpace (text r)))) := by
  obtain ⟨q, written, argument, cleared, _⟩ := h.exists_argument
  have inner := same.trimSpace
  rw [cleared] at inner
  rw [← argument]
  have trimmed : Bytes.trimSpace (text (q.map Mark.cleared)) = text (q.map Mark.cleared) :=
    written.trimSpace_cleared (by rw [argument, Blank.trimSpace_trimSpace])
  constructor
  · rw [← Bytes.squeeze_eq_nil_iff (Blank.trimSpace_trimSpace x), inner,
      Bytes.squeeze_eq_nil_iff trimmed, text_eq_nil_iff, text_eq_nil_iff, List.map_eq_nil_iff]
  · have alone : clearFrom .code (text q) = text (q.map Mark.cleared) :=
      text_cleared_alike (written.scanned.alike 0)
    have repaired := @squeeze_repair_clearFrom .code (text q) nofun true
    rw [alone] at repaired
    exact inner.repair.trans repaired

def grouped : Option Group → List Mark → List Mark
  | _, [] => []
  | none, m :: rest => grouped (if m.isCode then opens m else none) rest
  | some g, m :: rest => m :: grouped (g.step m) rest

theorem Whole.grouped (h : Whole g r) :
    ∀ m ∈ r, m.isCode = false → m ∈ Argument.grouped g r := by
  induction r generalizing g with
  | nil => exact nofun
  | cons n r ih =>
    intro m member comment
    cases g with
    | none =>
      obtain ⟨code, _, whole⟩ := h
      rcases List.mem_cons.mp member with rfl | later
      · simp [code] at comment
      · rw [Argument.grouped, if_pos code]
        exact ih whole m later comment
    | some g =>
      rcases List.mem_cons.mp member with rfl | later
      · exact List.mem_cons_self
      · exact List.mem_cons_of_mem _ (ih h m later comment)

/-- The comments that are written are those in groups. -/
theorem Reading.code_iff (h : Reading g last marks r rs) :
    (∀ m ∈ grouped g marks, m.isCode = true) ↔
      (∀ m ∈ r, m.isCode = true) ∧ ∀ x ∈ rs, ∀ m ∈ x, m.isCode = true := by
  induction h with
  | done => simp [grouped]
  | inside _ ih => rw [grouped, List.forall_mem_cons, ih, List.forall_mem_cons, and_assoc]
  | kept code _ _ ih =>
    rw [grouped, if_pos code, ih, List.forall_mem_cons]
    exact ⟨fun all => ⟨⟨code, all.1⟩, all.2⟩, fun all => ⟨all.1.2, all.2⟩⟩
  | @comma last m marks r rs code comma _ ih =>
    have outside : opens m = none := by
      rw [opens, comma]
      rfl
    rw [grouped, if_pos code, outside, ih, List.forall_mem_cons]
    exact ⟨fun all => ⟨List.forall_mem_nil _, all⟩, And.right⟩
  | space comment _ _ ih =>
    rw [grouped, if_neg (by simp [comment]), ih, List.forall_mem_cons]
    exact ⟨fun all => ⟨⟨rfl, all.1⟩, all.2⟩, fun all => ⟨all.1.2, all.2⟩⟩
  | gap comment _ _ ih => rw [grouped, if_neg (by simp [comment]), ih]

theorem code_iff_alike {strict : Prop} {others : List Mark}
    (h : List.Forall₂ (Mark.Alike strict) marks others) :
    (∀ m ∈ others, m.isCode = true) ↔ ∀ m ∈ marks, m.isCode = true := by
  induction h with
  | nil => rfl
  | cons first _ ih => rw [List.forall_mem_cons, List.forall_mem_cons, first.isCode, ih]

theorem code_iff_high {u : Bytes} (high : ∀ b ∈ u, 0x80 ≤ b) (offset : Nat) (x : Bytes) :
    (∀ m ∈ scanFrom .code offset (u ++ x), m.isCode = true) ↔
      ∀ m ∈ scanFrom .code (offset + u.length) x, m.isCode = true := by
  induction u generalizing offset with
  | nil => rfl
  | cons b u ih =>
    obtain ⟨here, later⟩ := List.forall_mem_cons.mp high
    obtain ⟨behind, code⟩ := @Phase.step_high b .code here (u ++ x).head?
    have first : (Phase.code.step b (u ++ x).head?).1 = .code := code.mpr rfl
    have long : offset + (b :: u).length = offset + 1 + u.length := by
      simp only [List.length_cons]
      omega
    rw [List.cons_append, scanFrom_cons, behind, first, List.forall_mem_cons, long, ← ih later]
    exact and_iff_right rfl

/-- Repairing a text brings no comments into it, and takes none out. -/
theorem code_iff_mends {y : Bytes} (same : Utf8.Mends x y) (offset offset' : Nat) :
    (∀ m ∈ scanFrom .code offset' y, m.isCode = true) ↔
      ∀ m ∈ scanFrom .code offset x, m.isCode = true := by
  induction same generalizing offset offset' with
  | nil => rfl
  | @ascii b x y _ same ih =>
    have step : Phase.code.step b y.head? = Phase.code.step b x.head? :=
      Phase.step_congr_next b (same.head?_iff (by decide)) (same.head?_iff (by decide))
    rw [scanFrom_cons, scanFrom_cons, List.forall_mem_cons, List.forall_mem_cons, step]
    refine and_congr_right fun code => ?_
    rw [Phase.step_of_code (Mark.isCode_iff.mp code)]
    exact ih _ _
  | high hu hv _ _ ih =>
    rw [code_iff_high hu.2, code_iff_high hv.2]
    exact ih _ _

/-- An argument has the comments of its run. -/
theorem Written.code_iff (h : Written r) :
    (∀ m ∈ scan (Utf8.repair (Bytes.trimSpace (text r))) 0, m.isCode = true) ↔
      ∀ m ∈ r, m.isCode = true := by
  obtain ⟨q, written, argument, _, code⟩ := h.exists_argument
  rw [← argument, ← code, ← code_iff_alike (written.scanned.alike 0)]
  exact code_iff_mends (Utf8.mends_repair (text q)) 0 0

theorem uncommented_slice (source : Bytes) (span : Span) :
    uncommented (Bytes.slice source span) =
      text ((scan (source.take span.stop) span.start).map Mark.cleared) :=
  text_cleared_alike (alike_scanFrom .code span.start 0 _)

theorem forall₂_trimmed {R : Bytes → Bytes → Prop} {rs' : List (List Mark)}
    (h : List.Forall₂ (fun x' x =>
      (Bytes.trimSpace (text x') = [] ↔ Bytes.trimSpace (text x) = []) ∧
        R (Utf8.repair (Bytes.trimSpace (text x'))) (Utf8.repair (Bytes.trimSpace (text x))))
      rs' rs) : List.Forall₂ R (trimmed rs') (trimmed rs) := by
  rw [trimmed, trimmed, List.forall₂_map_left_iff, List.forall₂_map_right_iff]
  induction h with
  | nil => exact .nil
  | @cons x' x rs' rs first _ ih =>
    obtain ⟨empty, same⟩ := first
    have kept : (!(Bytes.trimSpace (text x')).isEmpty) = !(Bytes.trimSpace (text x)).isEmpty := by
      rw [Bool.eq_iff_iff]
      simp [empty]
    rw [List.map_cons, List.map_cons, List.filter_cons, List.filter_cons, kept]
    split
    · exact .cons same ih
    · exact ih

theorem forall_trimmed_iff {P : Bytes → Prop} (nil : P []) :
    (∀ arg ∈ trimmed rs, P arg) ↔
      ∀ r ∈ rs, P (Utf8.repair (Bytes.trimSpace (text r))) := by
  simp only [trimmed, List.forall_mem_map, List.mem_filter, and_imp]
  constructor
  · intro all r member
    by_cases empty : Bytes.trimSpace (text r) = []
    · rw [empty]
      exact nil
    · exact all r member (by simpa using empty)
  · exact fun all r member _ => all r member

/-- A comment that is read stands in a group. The arguments have no comments just if the groups of
the list have none. The list without comments is read as the same arguments without theirs, up to
blanks; so comments outside groups only count as blanks do. -/
theorem read_comments {source : Bytes} {span : Span} {args : List Bytes}
    (h : read source span = .ok args) :
    (∀ arg ∈ args, ∀ m ∈ scan arg 0, m.isCode = false → m ∈ grouped none (scan arg 0)) ∧
    ((∀ arg ∈ args, ∀ m ∈ scan arg 0, m.isCode = true) ↔
      ∀ m ∈ grouped none (scan (source.take span.stop) span.start), m.isCode = true) ∧
    ∃ others, read (uncommented (Bytes.slice source span))
        ⟨0, (uncommented (Bytes.slice source span)).length⟩ = .ok others ∧
      List.Forall₂ Bytes.UpToBlanks others (args.map uncommented) ∧
      ((∀ arg ∈ args, ∀ m ∈ scan arg 0, m.isCode = true) →
        List.Forall₂ Bytes.UpToBlanks others args) := by
  have entries := entries_of_read h
  obtain ⟨r, rs, reading, rfl⟩ := read_eq_ok_iff.mp h
  have scanned := scanned_scanFrom .code span.start ((source.take span.stop).drop span.start)
  have written : ∀ q ∈ r :: rs, Written q := by
    obtain ⟨here, later⟩ := reading.scanned scanned
    obtain ⟨whole, wholes⟩ := reading.whole
    exact List.forall_mem_cons.mpr
      ⟨⟨here, whole⟩, fun q hq => ⟨later q hq, wholes q hq⟩⟩
  refine ⟨fun arg member => (entries arg member).whole.grouped, ?_, ?_⟩
  · rw [forall_trimmed_iff (by simp [scan, scanFrom]), reading.code_iff,
      ← List.forall_mem_cons (p := fun x : List Mark => ∀ m ∈ x, m.isCode = true)]
    exact forall₂_congr fun q member => (written q member).code_iff
  · obtain ⟨r', rs', read, same, others⟩ := reading.cleared (by simp)
    obtain ⟨r'', rs'', read', alike⟩ :=
      (read none).alike (scanned.cleared.alike 0) (.none none)
    have pairs : List.Forall₂ (fun x' x => Bytes.UpToBlanks (text x') (text (x.map Mark.cleared)))
        (r' :: rs') (r :: rs) := .cons same others
    have alikeArgs : List.Forall₂ Bytes.UpToBlanks (trimmed (r' :: rs'))
        ((trimmed (r :: rs)).map uncommented) := by
      rw [List.forall₂_map_right_iff]
      apply forall₂_trimmed
      apply List.Forall₂.flip
      apply ((List.forall₂_and_left _ _).mpr ⟨written, pairs.flip⟩).imp
      rintro _ _ ⟨written, same⟩
      exact written.upToBlanks same
    refine ⟨trimmed (r' :: rs'), ?_, alikeArgs, ?_⟩
    · rw [uncommented_slice]
      apply read_eq_ok_iff.mpr
      rw [List.take_length]
      exact ⟨r'', rs'', read', (trimmed_eq alike).symm⟩
    · intro code
      have same : (trimmed (r :: rs)).map uncommented = trimmed (r :: rs) :=
        (List.map_congr_left fun arg member => uncommented_of_code (code arg member)).trans
          (List.map_id _)
      rwa [same] at alikeArgs

/-- Comments before, behind and inside a group, and one that a line ends. -/
theorem read_comments_grouped :
    let source := bytes "(a/*1*/b, f(c/*2*/d)// 3\n\x7b e /*4*/ \x7d)"
    let args := [bytes "a b", bytes "f(c/*2*/d) \n\x7b e /*4*/ \x7d"]
    let others := [bytes "a     b", bytes "f(c     d)    \n\x7b e       \x7d"]
    read source ⟨1, source.length - 1⟩ = .ok args ∧
      read (uncommented (Bytes.slice source ⟨1, source.length - 1⟩)) ⟨0, source.length - 2⟩ =
        .ok others ∧
      List.Forall₂ Bytes.UpToBlanks others (args.map uncommented) := by
  intro source args others
  have first : read source ⟨1, source.length - 1⟩ = .ok args := by decide +kernel
  obtain ⟨_, _, found, again, alike, _⟩ := read_comments first
  have length : (uncommented (Bytes.slice source ⟨1, source.length - 1⟩)).length =
      source.length - 2 := by decide +kernel
  have second : read (uncommented (Bytes.slice source ⟨1, source.length - 1⟩))
      ⟨0, source.length - 2⟩ = .ok others := by decide +kernel
  rw [length] at again
  obtain rfl := Except.ok.inj (again.symm.trans second)
  exact ⟨first, second, alike⟩

/-- A comment in a group is read. -/
theorem read_keeps_comment :
    ¬ ∀ source span args, read source span = .ok args →
      ∀ arg ∈ args, ∀ m ∈ scan arg 0, m.isCode = true := by
  intro all
  have kept : read (bytes "f(const/*inline*/int x)") ⟨0, 23⟩ =
      .ok [bytes "f(const/*inline*/int x)"] := by decide +kernel
  have code := all _ _ _ kept _ List.mem_cons_self
  revert code
  decide +kernel

end Argument
end PassCompiler
