import PassCompiler.Proofs.Pass.Argument.Compare
import PassCompiler.Proofs.Pass.Argument.Written
import PassCompiler.Proofs.Source.Nesting
import PassCompiler.Proofs.Source.Divided

/-! Arguments written back as a list. What is read from a list whose groups nest is read again when
the arguments are joined by commas. -/
namespace PassCompiler.Argument

open Source

variable {g : Option Group} {last : Option Mark} {marks r : List Mark} {rs : List (List Mark)}
  {m : Mark} {stack : List Delimiter}

/-- The groups open inside the group of a reader, which is the outermost of them. -/
def Within : Option Group → List Delimiter → Prop
  | none, stack => stack = []
  | some g, stack => ∃ inner, stack = inner ++ [g.kind] ∧ inner.count g.kind + 1 = g.depth

theorem plain_of_comment (comment : m.isCode = false) : m.Plain :=
  fun _ => by simp [Mark.isCodeByte, comment]

theorem Within.step {g : Group} (h : Within (some g) stack)
    (nests : nest stack (m :: marks) = some []) :
    ∃ stack', nest stack [m] = some stack' ∧ nest stack' marks = some [] ∧
      Within (g.step m) stack' := by
  obtain ⟨inner, rfl, deep⟩ := h
  obtain ⟨kind, depth⟩ := g
  rcases m.delimiter_cases with ⟨other, opens⟩ | ⟨other, closes⟩ | plain
  · rw [nest_opener opens] at nests ⊢
    refine ⟨_, rfl, nests, ?_⟩
    by_cases same : other = kind
    · subst same
      rw [Group.step, if_pos opens]
      exact ⟨other :: inner, rfl, by simpa using deep⟩
    · rw [Group.step, Mark.not_opener_of_ne opens same, Mark.not_closer_of_opener opens]
      exact ⟨other :: inner, rfl, by simpa [List.count_cons, same] using deep⟩
  · obtain ⟨outer, split, later⟩ := exists_of_nest_closer closes nests
    have noOpener : m.isCodeByte kind.opener = false := Mark.not_opener_of_closer closes
    rw [nest_closer closes, split, List.head?_cons, if_pos rfl, List.tail_cons]
    refine ⟨outer, rfl, later, ?_⟩
    cases inner with
    | nil =>
      obtain ⟨rfl, rfl⟩ := List.cons.inj split
      obtain rfl : 1 = depth := by simpa using deep
      simp [Group.step, noOpener, closes, Within]
    | cons first inner =>
      obtain ⟨rfl, rfl⟩ := List.cons.inj split
      by_cases same : first = kind
      · subst same
        rw [List.count_cons_self] at deep
        dsimp only at deep
        have open' : ¬ depth ≤ 1 := by omega
        simp only [Group.step, noOpener, closes, if_true, if_neg open', Bool.false_eq_true,
          if_false]
        exact ⟨inner, rfl, by dsimp only; omega⟩
      · rw [Group.step, noOpener, Mark.not_closer_of_ne closes same]
        exact ⟨inner, rfl, by simpa [List.count_cons, same] using deep⟩
  · rw [nest_plain plain] at nests ⊢
    rw [Group.step_plain plain]
    exact ⟨_, rfl, nests, inner, rfl, deep⟩

theorem within_opens (code : m.isCode = true) (nests : nest [] (m :: marks) = some []) :
    ∃ stack', nest [] [m] = some stack' ∧ nest stack' marks = some [] ∧
      Within (opens m) stack' := by
  rcases m.delimiter_cases with ⟨kind, opens⟩ | ⟨kind, closes⟩ | plain
  · rw [nest_opener opens] at nests ⊢
    refine ⟨[kind], rfl, nests, ?_⟩
    rw [Argument.opens, Delimiter.opening?_eq_some_iff.mpr (Mark.isCodeByte_iff.mp opens).2]
    exact ⟨[], rfl, rfl⟩
  · obtain ⟨_, impossible, _⟩ := exists_of_nest_closer closes nests
    contradiction
  · rw [nest_plain plain] at nests ⊢
    rw [opens_plain plain code]
    exact ⟨[], rfl, nests, rfl⟩

theorem nest_cons (stack : List Delimiter) (m : Mark) (r : List Mark) :
    nest stack (m :: r) = (nest stack [m]).bind (nest · r) :=
  nest_append stack [m] r

/-- The arguments of a list whose groups nest have groups that nest. -/
theorem Reading.nested (h : Reading g last marks r rs) (within : Within g stack)
    (nests : nest stack marks = some []) :
    nest stack r = some [] ∧ ∀ x ∈ rs, nest [] x = some [] := by
  induction h generalizing stack with
  | done =>
    obtain rfl := within
    exact ⟨rfl, nofun⟩
  | @inside g last m marks r rs _ ih =>
    obtain ⟨stack', first, rest, within⟩ := within.step nests
    obtain ⟨here, later⟩ := ih within rest
    exact ⟨by rw [nest_cons, first, Option.bind_some, here], later⟩
  | @kept last m marks r rs code _ _ ih =>
    obtain rfl := within
    obtain ⟨stack', first, rest, within⟩ := within_opens code nests
    obtain ⟨here, later⟩ := ih within rest
    exact ⟨by rw [nest_cons, first, Option.bind_some, here], later⟩
  | @comma last m marks r rs code comma _ ih =>
    obtain rfl := within
    have plain : m.Plain := by
      intro kind
      cases kind <;> simp [Mark.isCodeByte, comma, Delimiter.opener, Delimiter.closer]
    rw [nest_plain plain] at nests
    obtain ⟨here, later⟩ := ih rfl nests
    exact ⟨rfl, List.forall_mem_cons.mpr ⟨here, later⟩⟩
  | @space last m marks r rs comment _ _ ih =>
    obtain rfl := within
    rw [nest_plain (plain_of_comment comment)] at nests
    obtain ⟨here, later⟩ := ih rfl nests
    exact ⟨here, later⟩
  | @gap last m marks r rs comment _ _ ih =>
    obtain rfl := within
    rw [nest_plain (plain_of_comment comment)] at nests
    exact ih rfl nests

theorem Loose.nest {a : List Mark} (h : Loose a) : Source.nest stack a = some stack :=
  nest_of_plain fun m hm => plain_of_loose (h m hm)

/-- What a reader gives as an argument of a list whose groups nest. -/
structure Item (arg : Bytes) : Prop where
  filled : arg ≠ []
  trimmed : Bytes.trimSpace arg = arg
  valid : Utf8.isValid arg = true
  whole : Whole none (scan arg 0)
  nested : nest [] (scan arg 0) = some []

/-- What a reader gives as an argument: white space stands at neither end, code alone stands outside
the groups, and no comma there, and every group is closed. -/
structure Entry (arg : Bytes) : Prop where
  filled : arg ≠ []
  trimmed : Bytes.trimSpace arg = arg
  valid : Utf8.isValid arg = true
  whole : Whole none (scan arg 0)
  closed : Closed arg

theorem closed_of_whole {arg : Bytes} (whole : Whole none (scan arg 0)) : Closed arg :=
  closed_of_last fun _ last => whole.last_code last

theorem Item.closed {arg : Bytes} (item : Item arg) : Closed arg := closed_of_whole item.whole

theorem Item.entry {arg : Bytes} (item : Item arg) : Entry arg where
  filled := item.filled
  trimmed := item.trimmed
  valid := item.valid
  whole := item.whole
  closed := item.closed

/-- The arguments of a valid text whose groups nest. -/
theorem Reading.items {offset : Nat} {x : Bytes} (valid : Utf8.isValid x = true)
    (nests : nest [] (scanFrom .code offset x) = some [])
    (h : Reading none last (scanFrom .code offset x) r rs) :
    ∀ arg ∈ trimmed (r :: rs), Item arg := by
  have written := h.written valid
  have nested : ∀ q ∈ r :: rs, nest [] q = some [] :=
    List.forall_mem_cons.mpr (h.nested rfl nests)
  rw [trimmed_of_valid fun q hq => (written q hq).2]
  intro arg member
  obtain ⟨member, filled⟩ := List.mem_filter.mp member
  obtain ⟨q, hq, rfl⟩ := List.mem_map.mp member
  obtain ⟨a, w, b, rfl, loose, loose', same⟩ := exists_of_trims Blank.trims_trimSpace q
  have nested := nested _ hq
  rw [nest_append, loose.nest, Option.bind_some, nest_append] at nested
  obtain ⟨stack, inner, later⟩ := Option.bind_eq_some_iff.mp nested
  rw [loose'.nest] at later
  obtain rfl := Option.some.inj later
  have alone := (written _ hq).1.between loose loose'
  have alike := alone.scanned.alike 0
  rw [same] at alike
  exact {
    filled := by simpa using filled
    trimmed := Blank.trimSpace_trimSpace _
    valid := Utf8.isValid_trimSpace (written _ hq).2
    whole := alone.whole.alike alike
    nested := (nest_alike alike).trans inner }

/-- An identifier byte or a square bracket, as in `cmd[0]`. It means nothing to a list reader. -/
def isSimple (b : UInt8) : Bool := Bytes.isIdent b || b == 0x5B || b == 0x5D

theorem simple_facts {b : UInt8} (h : isSimple b = true) :
    b < 0x80 ∧ b ≠ 0x2F ∧ b ≠ 0x2C ∧ Bytes.isSpace b = false ∧
      ∀ kind : Delimiter, b ≠ kind.opener ∧ b ≠ kind.closer := by
  have all : ∀ n : Fin 256, isSimple (UInt8.ofNat n) = true →
      UInt8.ofNat n < 0x80 ∧ UInt8.ofNat n ≠ 0x2F ∧ UInt8.ofNat n ≠ 0x2C ∧
        Bytes.isSpace (UInt8.ofNat n) = false ∧ UInt8.ofNat n ≠ 0x28 ∧ UInt8.ofNat n ≠ 0x29 ∧
        UInt8.ofNat n ≠ 0x7B ∧ UInt8.ofNat n ≠ 0x7D := by decide +kernel
  have here := all ⟨b.toNat, b.toNat_lt⟩
  simp only [UInt8.ofNat_toNat] at here
  obtain ⟨ascii, slash, comma, space, open', close, openBrace, closeBrace⟩ := here h
  refine ⟨ascii, slash, comma, space, ?_⟩
  intro kind
  cases kind with
  | paren => exact ⟨open', close⟩
  | brace => exact ⟨openBrace, closeBrace⟩

theorem code_of_ne_slash {offset : Nat} {x : Bytes} (h : ∀ b ∈ x, b ≠ 0x2F) :
    ∀ m ∈ scanFrom .code offset x, m.isCode = true := by
  induction x generalizing offset with
  | nil => nofun
  | cons b x ih =>
    have step : Phase.code.step b x.head? = (.code, .code) := by
      simp [Phase.step, h b List.mem_cons_self]
    rw [scanFrom_cons, step]
    exact List.forall_mem_cons.mpr ⟨rfl, ih fun c hc => h c (List.mem_cons_of_mem _ hc)⟩

theorem whole_of_plain (h : ∀ m ∈ r, m.isCode = true ∧ m.byte ≠ 0x2C ∧ m.Plain) : Whole none r := by
  induction r with
  | nil => trivial
  | cons m r ih =>
    obtain ⟨⟨code, other, plain⟩, later⟩ := List.forall_mem_cons.mp h
    refine ⟨code, other, ?_⟩
    rw [opens_plain plain code]
    exact ih later

theorem item_of_simple {arg : Bytes} (filled : arg ≠ []) (h : ∀ b ∈ arg, isSimple b = true) :
    Item arg := by
  have plain : ∀ m ∈ scan arg 0, m.isCode = true ∧ m.byte ≠ 0x2C ∧ m.Plain := by
    intro m hm
    have member : m.byte ∈ arg := by
      rw [← text_scanFrom .code 0 arg]
      exact List.mem_map_of_mem hm
    obtain ⟨_, _, comma, _, delimiters⟩ := simple_facts (h _ member)
    refine ⟨code_of_ne_slash (fun b hb => (simple_facts (h b hb)).2.1) m hm, comma, ?_⟩
    intro kind
    simp [Mark.isCodeByte, delimiters kind]
  exact {
    filled := filled
    trimmed := Blank.trimSpace_of_not_isSpace fun b hb => (simple_facts (h b hb)).2.2.2.1
    valid := Utf8.isValid_of_ascii fun b hb => (simple_facts (h b hb)).1
    whole := whole_of_plain plain
    nested := nest_of_plain fun m hm => (plain m hm).2.2 }

variable {args : List Bytes} {separator : Bytes} {offset : Nat}

def IsSeparator (separator : Bytes) : Prop :=
  ∃ gap, separator = 0x2C :: gap ∧ ∀ b ∈ gap, Bytes.isBlank b = true

theorem neutral_of_blank {x : Bytes} (blank : ∀ b ∈ x, Bytes.isBlank b = true) : Neutral x := by
  intro b hb
  have here := blank b hb
  constructor <;> rintro rfl <;> contradiction

/-- Blanks are code and mean nothing to a list reader. -/
theorem plain_of_blank {x : Bytes} (blank : ∀ b ∈ x, Bytes.isBlank b = true) (offset : Nat) :
    ∀ m ∈ scanFrom .code offset x, m.isCode = true ∧ m.byte ≠ 0x2C ∧ m.Plain := by
  intro m hm
  have member : m.byte ∈ x := by
    rw [← text_scanFrom .code offset x]
    exact List.mem_map_of_mem hm
  have here := blank _ member
  refine ⟨code_of_ne_slash (fun b hb => (neutral_of_blank blank b hb).1) m hm, ?_, ?_⟩
  · intro comma
    rw [comma] at here
    contradiction
  · apply plain_of_loose
    intro solid
    have space := Blank.not_isSpace_of_solid solid
    rw [Bytes.isSpace, here] at space
    contradiction

theorem trimSpace_append {gap : Bytes} (blank : ∀ b ∈ gap, Bytes.isBlank b = true) (x : Bytes) :
    Bytes.trimSpace (gap ++ x) = Bytes.trimSpace x := by
  have space : ∀ b ∈ gap, Bytes.isSpace b = true := fun b hb => by
    rw [Bytes.isSpace, blank b hb, Bool.true_or]
  rw [Bytes.trimSpace, Bytes.trimBoth, List.dropWhile_append_of_pos space]
  rfl

/-- A list of two arguments or more. -/
theorem Entry.scanFrom_join {arg next gap : Bytes} (entry : Entry arg)
    (blank : ∀ b ∈ gap, Bytes.isBlank b = true) (offset : Nat) (rest : List Bytes) :
    scanFrom .code offset (Bytes.join (0x2C :: gap) (arg :: next :: rest)) =
      scanFrom .code offset arg ++ ⟨offset + arg.length, 0x2C, .code⟩ ::
        (scanFrom .code (offset + arg.length + 1) gap ++
          scanFrom .code (offset + arg.length + 1 + gap.length)
            (Bytes.join (0x2C :: gap) (next :: rest))) := by
  have split : Bytes.join (0x2C :: gap) (arg :: next :: rest) =
      arg ++ 0x2C :: (gap ++ Bytes.join (0x2C :: gap) (next :: rest)) := by
    rw [Bytes.join, List.intercalate_cons_cons, List.append_assoc]
    rfl
  rw [split, scanFrom_divided entry.closed (by decide),
    scanFrom_seam ((neutral_of_blank blank).sealed _)]

/-- A joined list is read as the arguments that were joined. -/
theorem exists_reading_join (separated : IsSeparator separator) (entries : ∀ arg ∈ args, Entry arg)
    (filled : args ≠ []) (offset : Nat) :
    ∃ r rs,
      (∀ last, Reading none last (scanFrom .code offset (Bytes.join separator args)) r rs) ∧
      (r :: rs).map (fun r => Bytes.trimSpace (text r)) = args := by
  obtain ⟨gap, rfl, blank⟩ := separated
  induction args generalizing offset with
  | nil => contradiction
  | cons arg args ih =>
    obtain ⟨entry, later⟩ := List.forall_mem_cons.mp entries
    have whole := entry.whole.alike (alike_scanFrom .code 0 offset arg)
    cases args with
    | nil =>
      refine ⟨scanFrom .code offset arg, [], ?_, ?_⟩
      · intro last
        simpa [Bytes.join] using whole.reading fun _ => .done
      · rw [List.map_singleton, text_scanFrom, entry.trimmed]
    | cons next rest =>
      obtain ⟨r, rs, read, same⟩ := ih later (by simp) (offset + arg.length + 1 + gap.length)
      have gaps := whole_of_plain (plain_of_blank blank (offset + arg.length + 1))
      refine ⟨scanFrom .code offset arg,
        (scanFrom .code (offset + arg.length + 1) gap ++ r) :: rs, ?_, ?_⟩
      · intro last
        rw [entry.scanFrom_join blank]
        have all := @Whole.reading none last _ _ _ _ whole fun last =>
          @Reading.comma last ⟨offset + arg.length, 0x2C, .code⟩ _ _ _ rfl rfl (gaps.reading read)
        simpa using all
      · have front : text (scanFrom .code (offset + arg.length + 1) gap ++ r) = gap ++ text r := by
          rw [text, List.map_append]
          exact congrArg (· ++ _) (text_scanFrom ..)
        rw [List.map_cons, text_scanFrom, entry.trimmed, List.map_cons, front,
          trimSpace_append blank]
        exact congrArg (arg :: ·) same

theorem nest_join (separated : IsSeparator separator) (items : ∀ arg ∈ args, Item arg)
    (offset : Nat) : nest [] (scanFrom .code offset (Bytes.join separator args)) = some [] := by
  obtain ⟨gap, rfl, blank⟩ := separated
  induction args generalizing offset with
  | nil => rfl
  | cons arg args ih =>
    obtain ⟨item, later⟩ := List.forall_mem_cons.mp items
    have nested := (nest_alike (alike_scanFrom .code 0 offset arg)).trans item.nested
    cases args with
    | nil => simpa [Bytes.join] using nested
    | cons next rest =>
      have gaps := @nest_of_plain [] _ fun m hm =>
        (plain_of_blank blank (offset + arg.length + 1) m hm).2.2
      rw [item.entry.scanFrom_join blank, nest_append, nested, Option.bind_some]
      change nest [] (_ ++ _) = _
      rw [nest_append, gaps]
      exact ih later _

theorem trimmed_entries {rs : List (List Mark)} (entries : ∀ arg ∈ args, Entry arg)
    (same : rs.map (fun r => Bytes.trimSpace (text r)) = args) : trimmed rs = args := by
  rw [trimmed, same]
  have filled : args.filter (!·.isEmpty) = args :=
    List.filter_eq_self.mpr fun arg h => by simpa using (entries arg h).filled
  rw [filled]
  exact (List.map_congr_left fun arg h => Utf8.repair_of_valid (entries arg h).valid).trans
    (List.map_id _)

theorem read_entries (separated : IsSeparator separator) (entries : ∀ arg ∈ args, Entry arg)
    {source : Bytes} {span : Span} (list : Bytes.slice source span = Bytes.join separator args) :
    read source span = .ok args := by
  rw [read_eq_ok_iff, scan, show (source.take span.stop).drop span.start = _ from list]
  rcases eq_or_ne args [] with rfl | filled
  · exact ⟨[], [], .done, rfl⟩
  · obtain ⟨r, rs, reading, same⟩ := exists_reading_join separated entries filled span.start
    exact ⟨r, rs, reading none, (trimmed_entries entries same).symm⟩

theorem read_join (separated : IsSeparator separator) (items : ∀ arg ∈ args, Item arg)
    {source : Bytes} {span : Span} (list : Bytes.slice source span = Bytes.join separator args) :
    read source span = .ok args :=
  read_entries separated (fun arg h => (items arg h).entry) list

end PassCompiler.Argument
