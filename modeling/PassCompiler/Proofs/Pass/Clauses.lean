import PassCompiler.Proofs.Pass.Parts

/-! What a header says, by offsets of the source: the body opens at the first brace outside
parentheses, and a clause has the arguments that stand behind its keyword. Main statement:
`Graph.parse_clauses`. -/
namespace PassCompiler

open Source

variable {source x : Bytes} {p q i j o c : Nat} {span : Span} {clause : Clause}
  {declared : List Clause} {before : Clauses} {header : Header} {args : List Bytes}

namespace Clause

theorem isWord_keyword (clause : Clause) : IsWord clause.keyword := by
  cases clause <;> decide

theorem ofKeyword?_eq_some_iff {word : Bytes} :
    ofKeyword? word = some clause ↔ word = clause.keyword := by
  constructor
  · intro known
    have same := List.find?_some known
    exact (beq_iff_eq.mp same).symm
  · rintro rfl
    cases clause <;> decide

/-- The keyword of a clause stands at `i` as a word of code, and in no parentheses that open in
`span`. -/
structure DeclaredAt (x : Bytes) (span : Span) (clause : Clause) (i : Nat) : Prop where
  after : span.start ≤ i
  lt : i < span.stop
  word : WordAt x clause.keyword i
  outside : ¬ InGroup x span.start i

instance (x : Bytes) (span : Span) (clause : Clause) (i : Nat) :
    Decidable (DeclaredAt x span clause i) :=
  decidable_of_iff (span.start ≤ i ∧ i < span.stop ∧ WordAt x clause.keyword i ∧
      ¬ InGroup x span.start i)
    ⟨fun h => ⟨h.1, h.2.1, h.2.2.1, h.2.2.2⟩, fun h => ⟨h.after, h.lt, h.word, h.outside⟩⟩

theorem DeclaredAt.unique {clause' : Clause} (h : DeclaredAt x span clause i)
    (h' : DeclaredAt x span clause' i) : clause = clause' := by
  have same := h.word.unique clause.isWord_keyword clause'.isWord_keyword h'.word
  have known := ofKeyword?_eq_some_iff.mpr same
  rw [ofKeyword?_eq_some_iff.mpr rfl] at known
  exact Option.some.inj known

/-- None of the words in a group declares a clause. -/
theorem DeclaredAt.lt_of_group (h : DeclaredAt x ⟨p, c + 1⟩ clause i) (group : GroupAt x o c)
    (le : p ≤ o) : i < o := by
  have ident := h.word.occurs.any_isIdent clause.isWord_keyword
  have last : i ≤ c := Nat.le_of_lt_succ h.lt
  by_contra inside
  rcases Nat.lt_or_ge o i with later | first
  · rcases Nat.lt_or_ge i c with before | behind
    · exact h.outside ⟨o, c, group, le, later, before⟩
    · rw [Nat.le_antisymm last behind, group.closer] at ident
      contradiction
  · rw [Nat.le_antisymm first (Nat.le_of_not_lt inside), group.opener] at ident
    contradiction

/-- A stretch of a header that closes its groups has clauses of its own. -/
theorem declaredAt_iff (contained : Contained x p q) (le : p ≤ q) {r : Nat} (le' : q ≤ r) :
    DeclaredAt x ⟨p, r⟩ clause i ↔ DeclaredAt x ⟨p, q⟩ clause i ∨ DeclaredAt x ⟨q, r⟩ clause i := by
  constructor
  · rintro ⟨after, lt, word, outside⟩
    rcases Nat.lt_or_ge i q with first | second
    · exact .inl ⟨after, first, word, outside⟩
    · exact .inr ⟨second, lt, word, mt (contained.inGroup_iff le second).mpr outside⟩
  · rintro (⟨after, lt, word, outside⟩ | ⟨after, lt, word, outside⟩)
    · exact ⟨after, Nat.lt_of_lt_of_le lt le', word, outside⟩
    · exact ⟨Nat.le_trans le after, lt, word, mt (contained.inGroup_iff le after).mp outside⟩

end Clause

namespace Header

/-- What the rest of a header from `start` on says, where `declared` are the clauses before it and
`before` their arguments. The scan is one of `x`, the arguments are read from `source`. -/
structure Reads (source x : Bytes) (declared : List Clause) (before : Clauses) (start : Nat)
    (header : Header) : Prop where
  le : start ≤ header.bodyOpen
  body : CodeAt x 0 header.bodyOpen ∧ x[header.bodyOpen]? = some Delimiter.brace.opener
  contained : Contained x start header.bodyOpen
  once : ∀ (clause : Clause) i j, clause.DeclaredAt x ⟨start, header.bodyOpen⟩ i →
    clause.DeclaredAt x ⟨start, header.bodyOpen⟩ j → i = j
  args : ∀ (clause : Clause) i, clause.DeclaredAt x ⟨start, header.bodyOpen⟩ i →
    clause ∉ declared ∧ ∃ o c, GroupBehind x (i + clause.keyword.length) o c ∧
      c < header.bodyOpen ∧ Argument.read source ⟨o + 1, c⟩ = .ok (header.clauses.get clause)
  others : ∀ clause : Clause, (∀ i, ¬ clause.DeclaredAt x ⟨start, header.bodyOpen⟩ i) →
    header.clauses.get clause = before.get clause

namespace Reads

/-- What declares no clause may stand before. -/
theorem skip (h : Reads source x declared before q header) (le : p ≤ q)
    (contained : Contained x p q) (none : ∀ clause i, ¬ Clause.DeclaredAt x ⟨p, q⟩ clause i) :
    Reads source x declared before p header := by
  have same (clause : Clause) (i : Nat) :
      clause.DeclaredAt x ⟨p, header.bodyOpen⟩ i ↔
        clause.DeclaredAt x ⟨q, header.bodyOpen⟩ i := by
    rw [Clause.declaredAt_iff contained le h.le]
    exact or_iff_right (none clause i)
  exact {
    le := Nat.le_trans le h.le
    body := h.body
    contained := contained.trans h.contained le h.le
    once := by simpa only [same] using h.once
    args := by simpa only [same] using h.args
    others := by simpa only [same] using h.others }

/-- So may the keyword of a clause, with its arguments. -/
theorem declare (h : Reads source x (clause :: declared) (before.set clause args) q header)
    (le : p ≤ q) (contained : Contained x p q) (new : clause ∉ declared)
    (here : clause.DeclaredAt x ⟨p, q⟩ p)
    (only : ∀ clause' i, Clause.DeclaredAt x ⟨p, q⟩ clause' i → i = p)
    (group : GroupBehind x (p + clause.keyword.length) o c) (lt : c < q)
    (read : Argument.read source ⟨o + 1, c⟩ = .ok args) :
    Reads source x declared before p header := by
  have split (clause' : Clause) (i : Nat) :
      clause'.DeclaredAt x ⟨p, header.bodyOpen⟩ i ↔ (clause' = clause ∧ i = p) ∨
        clause'.DeclaredAt x ⟨q, header.bodyOpen⟩ i := by
    rw [Clause.declaredAt_iff contained le h.le]
    refine or_congr_left ⟨fun first => ?_, ?_⟩
    · obtain rfl := only clause' i first
      exact ⟨first.unique here, rfl⟩
    · rintro ⟨rfl, rfl⟩
      exact here
  have last (i : Nat) : ¬ clause.DeclaredAt x ⟨q, header.bodyOpen⟩ i :=
    fun again => (h.args clause i again).1 List.mem_cons_self
  exact {
    le := Nat.le_trans le h.le
    body := h.body
    contained := contained.trans h.contained le h.le
    once := by
      intro clause' i j hi hj
      rcases (split clause' i).mp hi with ⟨rfl, rfl⟩ | first
      · rcases (split _ j).mp hj with ⟨_, rfl⟩ | second
        · rfl
        · exact absurd second (last j)
      · rcases (split clause' j).mp hj with ⟨rfl, rfl⟩ | second
        · exact absurd first (last i)
        · exact h.once clause' i j first second
    args := by
      intro clause' i hi
      rcases (split clause' i).mp hi with ⟨rfl, rfl⟩ | hi
      · refine ⟨new, o, c, group, Nat.lt_of_lt_of_le lt h.le, ?_⟩
        rw [h.others _ last, Clauses.get_set_self]
        exact read
      · obtain ⟨fresh, rest⟩ := h.args clause' i hi
        exact ⟨fun member => fresh (List.mem_cons_of_mem _ member), rest⟩
    others := by
      intro clause' none
      have ne : clause ≠ clause' := by
        rintro rfl
        exact none p ((split _ p).mpr (.inl ⟨rfl, rfl⟩))
      rw [h.others clause' fun i hi => none i ((split clause' i).mpr (.inr hi)),
        Clauses.get_set_of_ne _ ne] }

variable {m : Mark} {front rest : List Mark}

/-- A mark that belongs to no word and opens nothing. -/
theorem skip_mark (split : scan x 0 = front ++ m :: rest)
    (plain : ∀ kind : Delimiter, m.isCodeByte kind.opener = false)
    (other : ¬ (m.isCode = true ∧ Bytes.isIdent m.byte = true))
    (h : Reads source x declared before (front.length + 1) header) :
    Reads source x declared before front.length header := by
  have place := offset_of_split split
  have member : m ∈ scan x 0 := by simp [split]
  refine h.skip (Nat.le_succ _) (.plain fun i low high code kind opens => ?_) ?_
  · obtain rfl : i = m.offset := by omega
    rw [getElem?_of_mem_scan member, Option.some.injEq] at opens
    have opened := plain kind
    rw [Mark.isCodeByte_iff.mpr ⟨(codeAt_iff member).mp code, opens⟩] at opened
    contradiction
  · rintro clause i ⟨low, high, word, _⟩
    dsimp only at low high
    exact other (word.occurs.head clause.isWord_keyword member (by omega))

theorem skip_group (group : GroupAt x p c) (h : Reads source x declared before (c + 1) header) :
    Reads source x declared before p header := by
  have lt := group.lt
  refine h.skip (by omega) (.group group) fun clause i declares => ?_
  have := declares.lt_of_group group (Nat.le_refl _)
  have := declares.after
  dsimp only at this
  omega

/-- A word that is no keyword. -/
theorem skip_word {word : Bytes} (isWord : IsWord word) (here : WordAt x word p)
    (unknown : Clause.ofKeyword? word = none)
    (h : Reads source x declared before (p + word.length) header) :
    Reads source x declared before p header := by
  refine h.skip (Nat.le_add_right ..) (.word isWord here) ?_
  rintro clause i ⟨low, high, keyword, _⟩
  rcases here.eq_or_le isWord keyword low with rfl | behind
  · have same := here.unique isWord clause.isWord_keyword keyword
    rw [Clause.ofKeyword?_eq_some_iff.mpr same] at unknown
    contradiction
  · exact absurd high (Nat.not_lt.mpr behind)

/-- A keyword with the group behind it. -/
theorem declare_word (here : WordAt x clause.keyword p) (new : clause ∉ declared)
    (group : GroupBehind x (p + clause.keyword.length) o c)
    (read : Argument.read source ⟨o + 1, c⟩ = .ok args)
    (h : Reads source x (clause :: declared) (before.set clause args) (c + 1) header) :
    Reads source x declared before p header := by
  have isWord := clause.isWord_keyword
  have behind := group.next.after
  have lt := group.group.lt
  have contained : Contained x p (c + 1) :=
    (Contained.word isWord here).trans ((Contained.gap group.next).trans (.group group.group)
      behind (by omega)) (Nat.le_add_right ..) (by omega)
  refine h.declare (by omega) contained new ⟨Nat.le_refl _, by dsimp only; omega, here, ?_⟩ ?_
    group (Nat.lt_succ_self c) read
  · rintro ⟨_, _, _, low, high, _⟩
    dsimp only at low
    omega
  · intro clause' i declares
    have before := declares.lt_of_group group.group (by omega)
    rcases here.eq_or_le isWord declares.word declares.after with same | later
    · exact same
    · have := group.lt_of_occurs clause'.isWord_keyword declares.word.occurs later
      omega

end Reads

theorem reads_of_readFrom {place : Place} {front marks : List Mark}
    (split : scan x 0 = front ++ marks) (apart : Apart x front.length marks)
    (h : (readFrom place declared before marks).result = .ok header) :
    Reads place.source x declared before front.length header := by
  fun_induction readFrom place declared before marks generalizing front with
  | case1 => contradiction
  | case2 declared before m rest comment ih =>
    have comment : m.isCode = false := by simpa using comment
    have split' : scan x 0 = (front ++ [m]) ++ rest := by simp [split]
    have other : ¬ (m.isCode = true ∧ Bytes.isIdent m.byte = true) := by simp [comment]
    have later := ih split' (by simpa using apart_of_split split other) h
    rw [List.length_append] at later
    exact later.skip_mark split (fun kind => by simp [Mark.isCodeByte, comment]) other
  | case3 declared before m rest code opens =>
    obtain rfl := Except.ok.inj h
    have place := offset_of_split split
    have member : m ∈ scan x 0 := by simp [split]
    have code : m.isCode = true := by simpa using code
    rw [← place]
    exact {
      le := Nat.le_refl _
      body := ⟨⟨m, member, rfl, code⟩, by
        rw [getElem?_of_mem_scan member, Delimiter.opening?_eq_some_iff.mp opens]⟩
      contained := .plain fun i low high => absurd high (Nat.not_lt.mpr low)
      once := fun _ _ _ h => absurd h.lt (Nat.not_lt.mpr h.after)
      args := fun _ _ h => absurd h.lt (Nat.not_lt.mpr h.after)
      others := fun _ _ => rfl }
  | case4 => contradiction
  | case5 declared before m rest code opens closer behind closed ih =>
    have code : m.isCode = true := by simpa using code
    have opens := Mark.isCodeByte_iff.mpr ⟨code, Delimiter.opening?_eq_some_iff.mp opens⟩
    obtain ⟨inside, rfl, balanced, closes⟩ := Group.close?_eq_some_iff.mp closed
    have group : GroupAt x front.length closer.offset := groupAt_iff.mpr
      ⟨front, m, inside, closer, behind, split, opens, balanced, closes, offset_of_split split, rfl⟩
    have split' : scan x 0 = (front ++ m :: inside) ++ closer :: behind := by simp [split]
    have split'' : scan x 0 = (front ++ m :: inside ++ [closer]) ++ behind := by simp [split]
    have long : (front ++ m :: inside ++ [closer]).length = closer.offset + 1 := by
      rw [List.length_append, ← offset_of_split split', List.length_singleton]
    have later := ih split'' (long ▸ apart_of_getElem? group.closer (by decide) _) h
    rw [long] at later
    exact later.skip_group group
  | case6 declared before m rest code opens ident _ unknown =>
    rename_i ih
    have code : m.isCode = true := by simpa using code
    obtain ⟨isWord, here, front', split', long⟩ :=
      exists_behindWord split apart (by rw [code, ident]; rfl)
    rw [Logged.result_bind] at h
    have later := ih split' (apart_behindWord x _ rest) h
    rw [long] at later
    exact later.skip_word isWord here unknown
  | case7 => contradiction
  | case8 => contradiction
  | case9 => contradiction
  | case10 declared before m rest code opens ident _ clause known start stop behind next new =>
    rename_i ih
    have code : m.isCode = true := by simpa using code
    obtain ⟨_, here, front', split', long⟩ :=
      exists_behindWord split apart (by rw [code, ident]; rfl)
    obtain ⟨group, front'', split'', long'⟩ := groupBehind_of_nextGroup? split' next
    obtain ⟨args, read, h⟩ := Logged.result_bind_ok.mp h
    have keyword : word m rest = clause.keyword := Clause.ofKeyword?_eq_some_iff.mp known
    rw [long, keyword] at group
    rw [keyword] at here
    have later := ih args split'' (long' ▸ apart_of_getElem? group.group.closer (by decide) _) h
    rw [long'] at later
    exact later.declare_word here (by simpa using new) group read
  | case11 declared before m rest code opens other ih =>
    have split' : scan x 0 = (front ++ [m]) ++ rest := by simp [split]
    have other : ¬ (m.isCode = true ∧ Bytes.isIdent m.byte = true) := fun both => other both.2
    have later := ih split' (by simpa using apart_of_split split other) h
    rw [List.length_append] at later
    refine later.skip_mark split (fun kind => ?_) other
    by_contra opened
    have byte := (Mark.isCodeByte_iff.mp (by simpa using opened)).2
    rw [Delimiter.opening?_eq_some_iff.mpr byte] at opens
    contradiction

end Header
/-- What a header assigns, from behind the name of its pass to the brace that opens the body. -/
structure Header.Assigns (source : Bytes) (span : Span) (clauses : Clauses) : Prop where
  le : span.start ≤ span.stop
  body : CodeAt source 0 span.stop ∧ source[span.stop]? = some Delimiter.brace.opener
  outside : ¬ InGroup source span.start span.stop
  /-- No brace before it stands outside parentheses. -/
  contained : Contained source span.start span.stop
  once : ∀ (clause : Clause) i j, clause.DeclaredAt source span i →
    clause.DeclaredAt source span j → i = j
  args : ∀ (clause : Clause) i, clause.DeclaredAt source span i →
    ∃ o c, GroupBehind source (i + clause.keyword.length) o c ∧ c < span.stop ∧
      Argument.read source ⟨o + 1, c⟩ = .ok (clauses.get clause)
  empty : ∀ clause : Clause, (∀ i, ¬ clause.DeclaredAt source span i) → clauses.get clause = []

/-- A brace ends the words before it, so the rest of the text does not matter to them. -/
theorem Clause.declaredAt_take {stop : Nat} (stops : Stops x stop)
    (contained : Contained (x.take stop) p q) (lt : q < stop)
    (brace : x[q]? = some Delimiter.brace.opener) :
    clause.DeclaredAt (x.take stop) ⟨p, q⟩ i ↔ clause.DeclaredAt x ⟨p, q⟩ i := by
  have isWord := clause.isWord_keyword
  have brace' : (x.take stop)[q]? = some Delimiter.brace.opener := by
    rw [List.getElem?_take_of_lt lt, brace]
  constructor
  · rintro ⟨low, high, word, outside⟩
    have ends := word.occurs.apart isWord brace' (by decide)
    dsimp only at high
    refine ⟨low, high, (wordAt_take stops isWord (by omega)).mp word, ?_⟩
    rwa [contained.inGroup_take stops (Nat.le_of_lt lt) (Nat.le_of_lt high)] at outside
  · rintro ⟨low, high, word, outside⟩
    have ends := word.occurs.apart isWord brace (by decide)
    dsimp only at high
    refine ⟨low, high, (wordAt_take stops isWord (by omega)).mpr word, ?_⟩
    rwa [contained.inGroup_take stops (Nat.le_of_lt lt) (Nat.le_of_lt high)]

namespace Header

theorem Reads.assigns {stop : Nat} (stops : Stops source stop)
    (h : Reads source (source.take stop) [] {} p header) :
    Assigns source ⟨p, header.bodyOpen⟩ header.clauses := by
  obtain ⟨code, brace⟩ := h.body
  obtain ⟨code, lt⟩ := (codeAt_take stops).mp code
  rw [List.getElem?_take_of_lt lt] at brace
  have contained := h.contained.of_take stops (Nat.le_of_lt lt)
  have declared (clause : Clause) (i : Nat) :
      clause.DeclaredAt (source.take stop) ⟨p, header.bodyOpen⟩ i ↔
        clause.DeclaredAt source ⟨p, header.bodyOpen⟩ i :=
    Clause.declaredAt_take stops h.contained lt brace
  exact {
    le := h.le
    body := ⟨code, brace⟩
    outside := contained.not_inGroup
    contained
    once := by simpa only [declared] using h.once
    args := by
      intro clause i declares
      obtain ⟨_, o, c, group, inside, read⟩ := h.args clause i ((declared clause i).mpr declares)
      exact ⟨o, c, ((groupBehind_take stops).mp group).1, inside, read⟩
    empty := by
      intro clause none
      rw [h.others clause fun i declares => none i ((declared clause i).mp declares)]
      cases clause <;> rfl }

theorem assigns_of_read {name : Bytes} {close stop : Nat}
    (closer : source[close]? = some Delimiter.paren.closer) (resumes : Resumes source (close + 1))
    (stops : Stops source stop) (le : close < stop)
    (h : (read ⟨source, name, ⟨close + 1, stop⟩⟩).result = .ok header) :
    Assigns source ⟨close + 1, header.bodyOpen⟩ header.clauses := by
  have window := scan_window resumes stops
  have whole : scan (source.take stop) 0 = (scan source 0).take stop :=
    scan_window resumes_zero stops
  rw [← whole] at window
  have split : scan (source.take stop) 0 =
      (scan (source.take stop) 0).take (close + 1) ++ scan (source.take stop) (close + 1) := by
    rw [window, List.take_append_drop]
  have long : ((scan (source.take stop) 0).take (close + 1)).length = close + 1 := by
    have short := (List.getElem?_eq_some_iff.mp closer).1
    rw [List.length_take, length_scan_zero, List.length_take]
    omega
  have here : (source.take stop)[close]? = some Delimiter.paren.closer := by
    rw [List.getElem?_take_of_lt le, closer]
  have reads := reads_of_readFrom split (by rw [long]; exact apart_of_getElem? here (by decide) _) h
  rw [long] at reads
  exact reads.assigns stops

end Header

/-- A clause may not be declared twice, or without a group behind its keyword. -/
def Header.Faulty (source : Bytes) (span : Span) : Prop :=
  (∃ (clause : Clause) (i j : Nat), clause.DeclaredAt source span i ∧
    clause.DeclaredAt source span j ∧ i ≠ j) ∨
  ∃ (clause : Clause) (i : Nat), clause.DeclaredAt source span i ∧
    ∀ o c, ¬ GroupBehind source (i + clause.keyword.length) o c

namespace Pass

/-- The header of the pass that spans `x` lies between its name and its body. -/
def Headed (source : Bytes) (p : Pass) (x : Span) : Prop :=
  ∃ first close bodyOpen bodyClose,
    GroupBehind source (x.start + Keyword.passBegin.length) first close ∧
      p.name = Blank.trim (Bytes.slice source ⟨first + 1, close⟩) ∧
      Header.Assigns source ⟨close + 1, bodyOpen⟩ p.clauses ∧
      p.body = Bytes.slice source ⟨bodyOpen + 1, bodyClose⟩

theorem headed_of_read {start stop : Nat} {p : Pass}
    (begins : Occurs source Keyword.passBegin start)
    (h : (read source start).result = .ok (p, stop)) : p.Headed source ⟨start, stop⟩ := by
  obtain ⟨first, close, last, o, c, stretch, _, named, parts⟩ := outline_of_read begins h
  have assigns := Header.assigns_of_read stretch.group.group.closer parts.resumes parts.stops
    stretch.after parts.header
  exact ⟨first, close, o.offset, c.offset, stretch.group, named, assigns, parts.body⟩

/-- A pass with a faulty clause before the first brace outside parentheses is rejected. -/
theorem exists_error_of_faulty {start first close stop : Nat}
    (begins : Occurs source Keyword.passBegin start)
    (name : GroupBehind source (start + Keyword.passBegin.length) first close)
    (unopened : ∀ i, close + 1 ≤ i → i < stop → CodeAt source 0 i →
      source[i]? = some Delimiter.brace.opener → InGroup source (close + 1) i)
    (faulty : Header.Faulty source ⟨close + 1, stop⟩) :
    ∃ e, (read source start).result = .error e := by
  cases accepted : (read source start).result with
  | error e => exact ⟨e, rfl⟩
  | ok result =>
    obtain ⟨first', close', bodyOpen, _, group, _, assigns, _⟩ := headed_of_read begins accepted
    obtain ⟨rfl, rfl⟩ := name.unique group
    have before (clause : Clause) (i : Nat) (h : clause.DeclaredAt source ⟨close + 1, stop⟩ i) :
        clause.DeclaredAt source ⟨close + 1, bodyOpen⟩ i := by
      refine ⟨h.after, ?_, h.word, h.outside⟩
      by_contra behind
      have lt : bodyOpen < stop := Nat.lt_of_le_of_lt (Nat.le_of_not_lt behind) h.lt
      exact assigns.outside (unopened bodyOpen assigns.le lt assigns.body.1 assigns.body.2)
    rcases faulty with ⟨clause, i, j, hi, hj, ne⟩ | ⟨clause, i, declares, bare⟩
    · exact absurd (assigns.once clause i j (before clause i hi) (before clause j hj)) ne
    · obtain ⟨o, c, group, _⟩ := assigns.args clause i (before clause i declares)
      exact absurd group (bare o c)

end Pass

/-- The header of every pass of a parsed source has the clauses that its words outside parentheses
declare, and a pass is rejected if one of them is declared twice or has no group behind it. -/
theorem Graph.parse_clauses (source : Bytes) :
    (∀ g, (parse source).result = .ok g → ∃ spans, g.Partition source spans ∧
      List.Forall₂ (Pass.Headed source) g.passes spans) ∧
    ∀ start first close stop, Occurs source Keyword.passBegin start →
      GroupBehind source (start + Keyword.passBegin.length) first close →
      (∀ i, close + 1 ≤ i → i < stop → CodeAt source 0 i →
        source[i]? = some Delimiter.brace.opener → InGroup source (close + 1) i) →
      Header.Faulty source ⟨close + 1, stop⟩ → ∃ e, (Pass.read source start).result = .error e := by
  refine ⟨fun g parsed => ?_, fun _ _ _ _ => Pass.exists_error_of_faulty⟩
  obtain ⟨spans, partition, _⟩ := exists_partition parsed
  refine ⟨spans, partition, partition.passes.imp fun p x stands => ?_⟩
  -- The reader leaves the epilogue open, of which the header has nothing.
  have headed : Pass.Headed source { p with epilogue := [] } x :=
    Pass.headed_of_read stands.begins stands.read
  exact headed

/-- Keywords in a comment, in parentheses and in a longer word declare nothing, and a clause is not
declared twice. -/
theorem Graph.parse_clauses_words : (∃ spans, Graph.Partition
      (bytes "PASS_BEGIN(p) /* READ(x) */ READ_WRITE (a, b) (WRITE(c) \x7b) PREREAD " ++
        bytes "\x7b f(); \x7d PASS_END")
      ⟨[], [⟨bytes "p", ⟨[], [], [bytes "a", bytes "b"], []⟩, [], bytes " f(); ", []⟩]⟩ spans ∧
    List.Forall₂ (Pass.Headed
      (bytes "PASS_BEGIN(p) /* READ(x) */ READ_WRITE (a, b) (WRITE(c) \x7b) PREREAD " ++
        bytes "\x7b f(); \x7d PASS_END"))
      [⟨bytes "p", ⟨[], [], [bytes "a", bytes "b"], []⟩, [], bytes " f(); ", []⟩] spans) ∧
    ∃ e, (Pass.read (bytes "PASS_BEGIN(p) READ(a) READ(b) \x7b \x7d PASS_END") 0).result =
      .error e := by
  refine ⟨(parse_clauses _).1 ⟨[], [_]⟩ (by decide +kernel), ?_⟩
  have none : ∀ i < 30, (bytes "PASS_BEGIN(p) READ(a) READ(b) \x7b \x7d PASS_END")[i]? ≠
      some Delimiter.brace.opener := by
    decide +kernel
  apply (parse_clauses _).2 0 10 12 30
  · exact ⟨⟨⟨0, 0x50, .code⟩, by decide +kernel, rfl, rfl⟩, by decide +kernel⟩
  · refine ⟨⟨Nat.le_refl _, by decide +kernel, by decide +kernel, fun k low lt => ?_⟩,
      by decide +kernel, by decide +kernel, by decide +kernel⟩
    exact absurd lt (Nat.not_lt.mpr low)
  · exact fun i _ lt _ opens => absurd opens (none i lt)
  · exact .inl ⟨.read, 14, 22, by decide +kernel, by decide +kernel, by decide⟩

end PassCompiler
