import PassCompiler.Proofs.Pass.Argument.Reading
import PassCompiler.Proofs.Source.Nesting
import PassCompiler.Proofs.Text.Trim
import PassCompiler.Proofs.Text.Valid

/-! What is written for an argument. A scan of its text alone marks every byte as the scan it was
read from did, and reading it as a list gives it back: it has no comma and no comment outside its
groups, and closes all of them. -/
namespace PassCompiler.Argument

open Source

variable {phase : Phase} {g : Option Group} {last : Option Mark} {marks r : List Mark}
  {rs : List (List Mark)} {m : Mark}

def ahead (marks : List Mark) : Option UInt8 := marks.head?.map (·.byte)

def Scanned : Phase → List Mark → Prop
  | _, [] => True
  | phase, m :: rest => m.region = (phase.step m.byte (ahead rest)).1 ∧
      Scanned (phase.step m.byte (ahead rest)).2 rest

theorem ahead_scanFrom (phase : Phase) (offset : Nat) (x : Bytes) :
    ahead (scanFrom phase offset x) = x.head? := by
  cases x <;> rfl

theorem scanned_scanFrom (phase : Phase) (offset : Nat) (x : Bytes) :
    Scanned phase (scanFrom phase offset x) := by
  induction x generalizing phase offset with
  | nil => trivial
  | cons b rest ih =>
    rw [scanFrom_cons, Scanned, ahead_scanFrom]
    exact ⟨rfl, ih _ _⟩

theorem Scanned.alike (h : Scanned phase r) (offset : Nat) :
    List.Forall₂ (Mark.Alike True) r (scanFrom phase offset (text r)) := by
  induction r generalizing phase offset with
  | nil => exact .nil
  | cons m rest ih =>
    have look : (text rest).head? = ahead rest := List.head?_map
    have split : text (m :: rest) = m.byte :: text rest := rfl
    rw [split, scanFrom_cons, look]
    exact .cons ⟨h.1.symm, fun _ => rfl⟩ (ih h.2 _)

/-- A byte of code leaves the scan in code. -/
theorem Scanned.of_code (h : Scanned phase (m :: marks)) (code : m.isCode = true) :
    (phase.step m.byte (ahead marks)).1 = .code ∧ Scanned .code marks := by
  have region := h.1.symm.trans (Mark.isCode_iff.mp code)
  exact ⟨region, Phase.step_of_code region ▸ h.2⟩

theorem ahead_inside {g : Group} (h : Reading (some g) last marks r rs) :
    ahead r = ahead marks := by
  cases h
  rfl

theorem ahead_code (h : Reading none last (m :: marks) r rs) (code : m.isCode = true) :
    ahead r = none ∨ ahead r = some m.byte := by
  cases h with
  | kept => exact .inr rfl
  | comma => exact .inl rfl
  | space comment | gap comment => simp [code] at comment

theorem isSlash_of_comment (h : Scanned .code (m :: marks)) (comment : m.isCode = false) :
    m.byte = 0x2F := by
  have region : m.region ≠ .code := by simpa [Mark.isCode] using comment
  rw [h.1] at region
  grind [Phase.step]

/-- A slash of code opens no marker in what is written for it, either. -/
theorem step_ahead (h : Scanned .code marks) (code : (phase.step m.byte (ahead marks)).1 = .code)
    (read : Reading none last marks r rs) :
    Phase.code.step m.byte (ahead r) = (.code, .code) := by
  by_cases slash : m.byte = 0x2F
  · cases marks with
    | nil =>
      cases read
      rw [slash]
      rfl
    | cons n marks =>
      have code' : n.isCode = true := by
        by_contra comment
        have next : ahead (n :: marks) = some 0x2F :=
          congrArg some (isSlash_of_comment h (by simpa using comment))
        rw [slash, next] at code
        cases phase <;> contradiction
      have apart : ahead (n :: marks) = some n.byte := rfl
      rcases ahead_code read code' with none | same
      · rw [none, slash]
        rfl
      · rw [same, ← apart]
        exact Phase.code_step code
  · exact Phase.step_of_ne_slash (congrArg Prod.fst (Phase.code_step code)) slash _

theorem opener_of_opens {g : Group} (h : opens m = some g) : m.byte ≠ 0x2F := by
  obtain ⟨kind, opening, _⟩ := Option.map_eq_some_iff.mp h
  rw [Delimiter.opening?_eq_some_iff.mp opening]
  exact kind.opener_ne_slash

theorem Reading.scanned (h : Reading g last marks r rs) (scanned : Scanned phase marks) :
    Scanned (if g.isSome then phase else .code) r ∧ ∀ x ∈ rs, Scanned .code x := by
  induction h generalizing phase with
  | done => exact ⟨trivial, nofun⟩
  | @inside g last m marks r rs read ih =>
    obtain ⟨here, later⟩ := ih scanned.2
    refine ⟨?_, later⟩
    cases next : g.step m with
    | some g' =>
      rw [next] at read here
      rw [Option.isSome_some, if_pos rfl] at here ⊢
      rw [Scanned, ahead_inside read]
      exact ⟨scanned.1, here⟩
    | none =>
      obtain ⟨code, byte⟩ := Mark.isCodeByte_iff.mp (Group.closer_of_step next)
      obtain ⟨region, _⟩ := scanned.of_code code
      have same := Phase.step_of_ne_slash region (byte ▸ g.kind.closer_ne_slash) (ahead r)
      rw [next, Option.isSome_none, if_neg Bool.false_ne_true] at here
      rw [Option.isSome_some, if_pos rfl, Scanned, same, scanned.1, region]
      exact ⟨rfl, here⟩
  | @kept last m marks r rs code other read ih =>
    obtain ⟨region, rest⟩ := scanned.of_code code
    obtain ⟨here, later⟩ := ih rest
    rw [ite_self] at here
    refine ⟨?_, later⟩
    rw [if_neg (by simp), Scanned]
    cases opening : opens m with
    | none =>
      rw [opening] at read
      rw [step_ahead rest region read, scanned.1, region]
      exact ⟨rfl, here⟩
    | some g =>
      rw [Phase.step_of_ne_slash (congrArg Prod.fst (Phase.code_step region))
        (opener_of_opens opening), scanned.1, region]
      exact ⟨rfl, here⟩
  | @comma last m marks r rs code comma _ ih =>
    obtain ⟨here, later⟩ := ih (scanned.of_code code).2
    exact ⟨trivial, List.forall_mem_cons.mpr ⟨here, later⟩⟩
  | @space last m marks r rs comment shown _ ih =>
    obtain ⟨here, later⟩ := ih scanned.2
    exact ⟨⟨rfl, here⟩, later⟩
  | @gap last m marks r rs comment hidden _ ih =>
    obtain ⟨here, later⟩ := ih scanned.2
    exact ⟨here, later⟩

/-- Neither a comma nor a comment stands outside groups, and every group is closed. -/
def Whole : Option Group → List Mark → Prop
  | none, [] => True
  | some _, [] => False
  | none, m :: rest => m.isCode = true ∧ m.byte ≠ 0x2C ∧ Whole (opens m) rest
  | some g, m :: rest => Whole (g.step m) rest

theorem Reading.whole (h : Reading g last marks r rs) : Whole g r ∧ ∀ x ∈ rs, Whole none x := by
  induction h with
  | done => exact ⟨trivial, nofun⟩
  | inside _ ih => exact ih
  | kept code other _ ih => exact ⟨⟨code, other, ih.1⟩, ih.2⟩
  | comma _ _ _ ih => exact ⟨trivial, List.forall_mem_cons.mpr ih⟩
  | space _ _ _ ih => exact ⟨⟨rfl, by decide, ih.1⟩, ih.2⟩
  | gap _ _ _ ih => exact ih

theorem Whole.alike {strict : Prop} {others : List Mark} (h : Whole g r)
    (same : List.Forall₂ (Mark.Alike strict) r others) : Whole g others := by
  induction same generalizing g with
  | nil => exact h
  | @cons m n r others first _ ih =>
    cases g with
    | none =>
      obtain ⟨code, other, whole⟩ := h
      refine ⟨first.isCode.trans code, (first.byte (.inr code)).symm ▸ other, ?_⟩
      rw [opens_congr first code]
      exact ih whole
    | some g =>
      rw [Whole, Group.step_congr first]
      exact ih h

/-- The last byte is code, whether it stands outside groups or closes one. -/
theorem Whole.last_code (h : Whole g r) (last : r.getLast? = some m) : m.isCode = true := by
  induction r generalizing g with
  | nil => contradiction
  | cons n r ih =>
    cases r with
    | cons o r =>
      rw [List.getLast?_cons_cons] at last
      cases g with
      | none => exact ih h.2.2 last
      | some g => exact ih h last
    | nil =>
      obtain rfl := Option.some.inj last
      cases g with
      | none => exact h.1
      | some g =>
        cases closed : g.step n with
        | none => exact (Mark.isCodeByte_iff.mp (Group.closer_of_step closed)).1
        | some g' =>
          rw [Whole, closed] at h
          exact h.elim

/-- Marks that are kept when they are read before any others. -/
theorem Whole.reading {x : List Mark} (h : Whole g x)
    (read : ∀ last, Reading none last marks r rs) :
    Reading g last (x ++ marks) (x ++ r) rs := by
  induction x generalizing g last with
  | nil =>
    cases g with
    | none => exact read last
    | some g => exact h.elim
  | cons m x ih =>
    cases g with
    | none => exact .kept h.1 h.2.1 (ih h.2.2)
    | some g => exact .inside (ih h)

theorem slash_of_closeMarker {b : UInt8} {next : Option UInt8}
    (h : (phase.step b next).2 = .closeMarker) : next = some 0x2F := by
  cases phase <;> grind [Phase.step]

theorem code_behind_comment {b : UInt8} {next : Option UInt8} (h : (phase.step b next).1 ≠ .code)
    (behind : (phase.step b next).2 = .code) : phase = .closeMarker := by
  cases phase <;> grind [Phase.step]

/-- Characters outside a comment do not go on inside it, or behind it. -/
theorem valid_comment (scanned : Scanned phase (m :: marks)) (comment : m.isCode = false)
    (ready : phase = .closeMarker → ahead (m :: marks) = some 0x2F) {p : Option Utf8.Pending}
    (begun : Utf8.Begun p) (valid : Utf8.ValidFrom p (text (m :: marks))) :
    (phase = .code → p = none) ∧ ∃ q, Utf8.Begun q ∧ Utf8.ValidFrom q (text marks) ∧
      ((phase.step m.byte (ahead marks)).2 = .code → q = none) := by
  have region : (phase.step m.byte (ahead marks)).1 ≠ .code := by
    rw [← scanned.1]
    simpa [Mark.isCode] using comment
  have split : text (m :: marks) = m.byte :: text marks := rfl
  rw [split] at valid
  by_cases slash : m.byte = 0x2F
  · obtain ⟨rfl, rest⟩ := (Utf8.validFrom_ascii begun (slash ▸ by decide)).mp valid
    exact ⟨fun _ => rfl, none, Utf8.begun_none, rest, fun _ => rfl⟩
  · refine ⟨?_, _, Utf8.step_begun begun m.byte, (Utf8.validFrom_cons.mp valid).2, ?_⟩
    · rintro rfl
      exact absurd (isSlash_of_comment scanned comment) slash
    · intro behind
      exact absurd (Option.some.inj (ready (code_behind_comment region behind))) slash

/-- The characters of an argument are characters of the list. -/
theorem Reading.valid (h : Reading g last marks r rs) (scanned : Scanned phase marks)
    (ready : phase = .closeMarker → ahead marks = some 0x2F) {p : Option Utf8.Pending}
    (begun : Utf8.Begun p) (valid : Utf8.ValidFrom p (text marks)) :
    Utf8.ValidFrom (if g.isSome ∨ phase = .code then p else none) (text r) ∧
      ∀ x ∈ rs, Utf8.isValid (text x) = true := by
  have outside {phase : Phase} {q : Option Utf8.Pending} (h : phase = .code → q = none) :
      (if (none : Option Group).isSome ∨ phase = .code then q else none) = none := by
    split
    · next code => exact h (code.resolve_left (by simp))
    · rfl
  induction h generalizing phase p with
  | done =>
    rw [show text [] = [] from rfl, Utf8.validFrom_nil] at *
    exact ⟨by simp [valid], nofun⟩
  | @inside g last m marks r rs read ih =>
    obtain ⟨items, rest⟩ := Utf8.validFrom_cons.mp valid
    obtain ⟨here, later⟩ := ih scanned.2 slash_of_closeMarker (Utf8.step_begun begun _) rest
    rw [if_pos] at here
    · exact ⟨Utf8.validFrom_cons.mpr ⟨items, here⟩, later⟩
    · cases next : g.step m with
      | some g' => exact .inl rfl
      | none =>
        have code := (Mark.isCodeByte_iff.mp (Group.closer_of_step next)).1
        exact .inr (Phase.step_of_code (scanned.of_code code).1)
  | @kept last m marks r rs code other read ih =>
    have region := (scanned.of_code code).1
    by_cases outside : phase = .code
    · rw [if_pos (.inr outside)]
      obtain ⟨items, rest⟩ := Utf8.validFrom_cons.mp valid
      obtain ⟨here, later⟩ := ih scanned.2 slash_of_closeMarker (Utf8.step_begun begun _) rest
      rw [if_pos (.inr (Phase.step_of_code region))] at here
      exact ⟨Utf8.validFrom_cons.mpr ⟨items, here⟩, later⟩
    · have ascii : m.byte < 0x80 := Phase.feed_of_code region outside ▸ by decide
      obtain ⟨_, rest⟩ := (Utf8.validFrom_ascii begun ascii).mp valid
      obtain ⟨here, later⟩ := ih scanned.2 slash_of_closeMarker Utf8.begun_none rest
      rw [ite_self] at here
      rw [if_neg (by simp [outside])]
      exact ⟨(Utf8.validFrom_ascii Utf8.begun_none ascii).mpr ⟨rfl, here⟩, later⟩
  | @comma last m marks r rs code comma _ ih =>
    have ascii : m.byte < 0x80 := comma ▸ by decide
    obtain ⟨rfl, rest⟩ := (Utf8.validFrom_ascii begun ascii).mp valid
    obtain ⟨here, later⟩ := ih scanned.2 slash_of_closeMarker Utf8.begun_none rest
    rw [ite_self] at here ⊢
    exact ⟨Utf8.validFrom_nil.mpr rfl, List.forall_mem_cons.mpr ⟨here, later⟩⟩
  | @space last m marks r rs comment shown _ ih =>
    obtain ⟨before, q, begun', rest, behind⟩ := valid_comment scanned comment ready begun valid
    obtain ⟨here, later⟩ := ih scanned.2 slash_of_closeMarker begun' rest
    rw [outside behind] at here
    rw [outside before]
    exact ⟨(Utf8.validFrom_ascii Utf8.begun_none (by decide)).mpr ⟨rfl, here⟩, later⟩
  | @gap last m marks r rs comment hidden _ ih =>
    obtain ⟨before, q, begun', rest, behind⟩ := valid_comment scanned comment ready begun valid
    obtain ⟨here, later⟩ := ih scanned.2 slash_of_closeMarker begun' rest
    rw [outside behind] at here
    rw [outside before]
    exact ⟨here, later⟩

structure Written (r : List Mark) : Prop where
  scanned : Scanned .code r
  whole : Whole none r

theorem solid_opener (kind : Delimiter) : Blank.Solid kind.opener := by
  cases kind <;> decide

theorem solid_closer (kind : Delimiter) : Blank.Solid kind.closer := by
  cases kind <;> decide

def Loose (r : List Mark) : Prop := ∀ m ∈ r, ¬ Blank.Solid m.byte

theorem plain_of_loose (h : ¬ Blank.Solid m.byte) : m.Plain := by
  have ne {b : UInt8} (solid : Blank.Solid b) : m.isCodeByte b = false := by
    by_contra same
    rw [Bool.not_eq_false, Mark.isCodeByte_iff] at same
    exact h (same.2 ▸ solid)
  exact fun kind => ⟨ne (solid_opener kind), ne (solid_closer kind)⟩

theorem opens_plain (h : m.Plain) (code : m.isCode = true) : opens m = none := by
  unfold opens
  cases opening : Delimiter.opening? m.byte with
  | none => rfl
  | some kind =>
    have byte := Delimiter.opening?_eq_some_iff.mp opening
    have impossible := (h kind).1
    rw [Mark.isCodeByte_iff.mpr ⟨code, byte⟩] at impossible
    contradiction

theorem Written.drop {a r : List Mark} (h : Written (a ++ r)) (loose : Loose a) : Written r := by
  induction a with
  | nil => exact h
  | cons m a ih =>
    obtain ⟨⟨region, scanned⟩, code, _, whole⟩ := h
    have behind := Phase.step_of_code (region.symm.trans (Mark.isCode_iff.mp code))
    rw [behind] at scanned
    rw [opens_plain (plain_of_loose (loose m List.mem_cons_self)) code] at whole
    apply ih ⟨scanned, whole⟩
    intro n hn
    exact loose n (List.mem_cons_of_mem _ hn)

theorem Whole.take {a : List Mark} (h : Whole g (r ++ a)) (loose : Loose a) :
    Whole g r ∧ ∀ m ∈ a, m.isCode = true := by
  induction r generalizing g with
  | nil =>
    rw [List.nil_append] at h
    induction a generalizing g with
    | nil => exact ⟨h, nofun⟩
    | cons m a ih =>
      have free := plain_of_loose (loose m List.mem_cons_self)
      have later : Loose a := fun n hn => loose n (List.mem_cons_of_mem _ hn)
      cases g with
      | none =>
        obtain ⟨code, _, rest⟩ := h
        rw [opens_plain free code] at rest
        exact ⟨trivial, List.forall_mem_cons.mpr ⟨code, (ih later rest).2⟩⟩
      | some g =>
        rw [Whole, Group.step_plain free] at h
        exact (ih later h).1.elim
  | cons m r ih =>
    cases g with
    | none =>
      obtain ⟨code, other, rest⟩ := h
      obtain ⟨whole, all⟩ := ih rest
      exact ⟨⟨code, other, whole⟩, all⟩
    | some g => exact ih h

theorem Scanned.take {a : List Mark} (h : Scanned phase (r ++ a))
    (code : ∀ m ∈ a, m.isCode = true) :
    Scanned phase r := by
  induction r generalizing phase with
  | nil => trivial
  | cons m r ih =>
    obtain ⟨region, rest⟩ := h
    cases r with
    | cons n r => exact ⟨region, ih rest⟩
    | nil =>
      cases a with
      | nil => exact ⟨region, trivial⟩
      | cons n a =>
        have next : ((phase.step m.byte (some n.byte)).2.step n.byte (ahead a)).1 = .code :=
          rest.1.symm.trans (Mark.isCode_iff.mp (code n List.mem_cons_self))
        exact ⟨region.trans (Phase.step_end next).symm, trivial⟩

/-- What is left of an argument when white space is taken off both ends. -/
theorem Written.between {a b : List Mark} (h : Written (a ++ (r ++ b))) (front : Loose a)
    (back : Loose b) : Written r := by
  obtain ⟨scanned, whole⟩ := h.drop front
  obtain ⟨whole, code⟩ := whole.take back
  exact ⟨scanned.take code, whole⟩

theorem exists_of_text_append {x y : Bytes} (h : text r = x ++ y) :
    ∃ a b, r = a ++ b ∧ text a = x ∧ text b = y := List.map_eq_append_iff.mp h

theorem loose_of_text {x : Bytes} (h : text r = x) (loose : ∀ b ∈ x, ¬ Blank.Solid b) : Loose r :=
  fun _ hm => loose _ (h ▸ List.mem_map_of_mem hm)

theorem exists_of_trims {op front back : Bytes → Bytes} (trims : Blank.Trims op front back)
    (r : List Mark) :
    ∃ a q b, r = a ++ (q ++ b) ∧ Loose a ∧ Loose b ∧ text q = op (text r) := by
  obtain ⟨x, split, loose⟩ := trims.front_drops (text r)
  obtain ⟨y, split', loose'⟩ := trims.back_drops (front (text r))
  obtain ⟨a, r, rfl, front, rest⟩ := exists_of_text_append split
  obtain ⟨q, b, rfl, inner, back⟩ := exists_of_text_append (rest.trans split')
  refine ⟨a, q, b, rfl, loose_of_text front loose, loose_of_text back loose', ?_⟩
  rw [inner, trims.both]

theorem Written.trim {op front back : Bytes → Bytes} (h : Written r)
    (trims : Blank.Trims op front back) : ∃ q, Written q ∧ text q = op (text r) := by
  obtain ⟨a, q, b, rfl, loose, loose', same⟩ := exists_of_trims trims r
  exact ⟨q, h.between loose loose', same⟩

/-- The text between parentheses of a valid text. -/
theorem valid_slice {s : Bytes} {o c : Mark} (valid : Utf8.isValid s = true) (ho : o ∈ scan s 0)
    (hc : c ∈ scan s 0) (opens : o.isCodeByte Delimiter.paren.opener = true)
    (closes : c.isCodeByte Delimiter.paren.closer = true) :
    Utf8.isValid (Bytes.slice s ⟨o.offset + 1, c.offset⟩) = true := by
  have first := getElem?_of_mem_scan ho
  have last := getElem?_of_mem_scan hc
  rw [(Mark.isCodeByte_iff.mp opens).2] at first
  rw [(Mark.isCodeByte_iff.mp closes).2] at last
  exact Utf8.isValid_slice valid first last (by decide) (by decide)

/-- The arguments of a valid text that is scanned from code on. -/
theorem Reading.written {offset : Nat} {x : Bytes} (valid : Utf8.isValid x = true)
    (h : Reading none last (scanFrom .code offset x) r rs) :
    ∀ q ∈ r :: rs, Written q ∧ Utf8.isValid (text q) = true := by
  have scanned := h.scanned (scanned_scanFrom .code offset x)
  have whole := h.whole
  have characters := h.valid (scanned_scanFrom .code offset x) (by simp) Utf8.begun_none
    (by rwa [text_scanFrom])
  rw [ite_self] at characters
  intro q hq
  rcases List.mem_cons.mp hq with rfl | hq
  · exact ⟨⟨scanned.1, whole.1⟩, characters.1⟩
  · exact ⟨⟨scanned.2 q hq, whole.2 q hq⟩, characters.2 q hq⟩

theorem trimmed_of_valid (h : ∀ r ∈ rs, Utf8.isValid (text r) = true) :
    trimmed rs = (rs.map fun r => Bytes.trimSpace (text r)).filter (!·.isEmpty) := by
  unfold trimmed
  refine (List.map_congr_left ?_).trans (List.map_id _)
  intro x hx
  obtain ⟨r, hr, rfl⟩ := List.mem_map.mp (List.mem_of_mem_filter hx)
  exact Utf8.repair_of_valid (Utf8.isValid_trimSpace (h r hr))

end PassCompiler.Argument
