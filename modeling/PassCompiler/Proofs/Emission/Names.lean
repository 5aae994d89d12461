import PassCompiler.Proofs.Emission.Baking

/-! The names that an output declares at file scope: for each pass the arrays of its fixed blocks,
its execute function, and its bake function if it has one. Each of them shows what it is the name
of, so names clash just where two passes share theirs, and sources with such passes are read like
any other. -/
namespace PassCompiler

/-- What has a name at file scope. -/
inductive Symbol where
  /-- The array of fixed block `k`. -/
  | array (pass : Bytes) (k : Nat)
  | execute (pass : Bytes)
  | bake (pass : Bytes)
  deriving DecidableEq, Repr

/-- Texts that begin differently. -/
theorem Bytes.append_ne_append {l l' : Bytes} (apart : ¬ l <+: l' ∧ ¬ l' <+: l) (x y : Bytes) :
    l ++ x ≠ l' ++ y := by
  intro same
  have begins : l' <+: l ++ x := same ▸ List.prefix_append l' y
  exact (List.prefix_or_prefix_of_prefix (List.prefix_append l x) begins).elim apart.1 apart.2

namespace Symbol

def text : Symbol → Bytes
  | array pass k => Pass.bakedArray pass k
  | execute pass => Pass.executeName pass
  | bake pass => Pass.bakeName pass

def owner : Symbol → Bytes
  | array pass _ | execute pass | bake pass => pass

theorem bakedArray_ne {l : Bytes} (apart : ¬ bytes "__" <+: l ∧ ¬ l <+: bytes "__")
    (pass rest : Bytes) (k : Nat) : Pass.bakedArray pass k ≠ l ++ rest := by
  rw [Pass.bakedArray, List.append_assoc, List.append_assoc]
  exact Bytes.append_ne_append apart _ rest

/-- Whatever the passes are called, a text is the name of one symbol at most. -/
theorem text_inj {x y : Symbol} (same : x.text = y.text) : x = y := by
  have functions (pass pass' : Bytes) : Pass.executeName pass ≠ Pass.bakeName pass' :=
    Bytes.append_ne_append (by decide) pass pass'
  cases x with
  | array pass k =>
    cases y with
    | array pass' k' =>
      obtain ⟨rfl, rfl⟩ := Pass.bakedArray_inj same
      rfl
    | execute pass' => exact absurd same (bakedArray_ne (by decide) pass pass' k)
    | bake pass' => exact absurd same (bakedArray_ne (by decide) pass pass' k)
  | execute pass =>
    cases y with
    | array pass' k => exact absurd same.symm (bakedArray_ne (by decide) pass' pass k)
    | execute pass' => exact congrArg execute (List.append_cancel_left same)
    | bake pass' => exact absurd same (functions pass pass')
  | bake pass =>
    cases y with
    | array pass' k => exact absurd same.symm (bakedArray_ne (by decide) pass' pass k)
    | execute pass' => exact absurd same.symm (functions pass' pass)
    | bake pass' => exact congrArg bake (List.append_cancel_left same)

/-- Symbols of a pass that was read have names that are identifiers. -/
theorem isIdent_text {x : Symbol} (named : Pass.isName x.owner = true) :
    ∀ b ∈ x.text, Bytes.isIdent b = true := by
  have owner : ∀ b ∈ x.owner, Bytes.isIdent b = true :=
    List.all_eq_true.mp (Bool.and_eq_true_iff.mp named).2
  cases x with
  | array pass k =>
    have digits : ∀ b ∈ Bytes.ofNat k, Bytes.isIdent b = true :=
      Bytes.positional_ofNat.forall_mem (by decide) k
    simp only [text, Pass.bakedArray, List.forall_mem_append]
    exact ⟨⟨⟨by decide, owner⟩, by decide⟩, digits⟩
  | execute pass => exact List.forall_mem_append.mpr ⟨by decide, owner⟩
  | bake pass => exact List.forall_mem_append.mpr ⟨by decide, owner⟩

end Symbol

/-- The symbols of a pass, as its output declares them. -/
def Pass.symbols (p : Pass) : List Symbol :=
  (List.range p.fixedBlocks.length).map (.array p.name) ++
    .execute p.name :: if p.fixedBlocks.isEmpty then [] else [.bake p.name]

def Graph.symbols (g : Graph) : List Symbol := g.passes.flatMap Pass.symbols

theorem Pass.nodup_symbols (p : Pass) : p.symbols.Nodup := by
  have arrays : ((List.range p.fixedBlocks.length).map (Symbol.array p.name)).Nodup :=
    List.nodup_range.map fun j k same => (Symbol.array.inj same).2
  have functions : (Symbol.execute p.name ::
      if p.fixedBlocks.isEmpty then [] else [.bake p.name]).Nodup := by
    split <;> simp
  refine arrays.append functions fun x member function => ?_
  obtain ⟨k, _, rfl⟩ := List.mem_map.mp member
  split at function <;> simp at function

theorem Pass.owner_of_mem_symbols {p : Pass} {x : Symbol} (h : x ∈ p.symbols) :
    x.owner = p.name := by
  rcases List.mem_append.mp h with array | function
  · obtain ⟨k, _, rfl⟩ := List.mem_map.mp array
    rfl
  · split at function
    · obtain rfl := List.mem_singleton.mp function
      rfl
    · rcases List.mem_cons.mp function with rfl | bake
      · rfl
      · obtain rfl := List.mem_singleton.mp bake
        rfl

/-- No two symbols are the same just if no two passes have the same name. -/
theorem Graph.nodup_symbols_iff (g : Graph) :
    g.symbols.Nodup ↔ (g.passes.map (·.name)).Nodup := by
  rw [symbols, List.nodup_flatMap, List.nodup_iff_pairwise_ne, List.pairwise_map]
  constructor
  · rintro ⟨_, disjoint⟩
    refine disjoint.imp fun {p q} apart same => ?_
    have execute (p : Pass) : Symbol.execute p.name ∈ p.symbols := by simp [Pass.symbols]
    exact apart (execute p) (same ▸ execute q)
  · intro distinct
    refine ⟨fun p _ => p.nodup_symbols, distinct.imp fun {p q} other x hp hq => other ?_⟩
    rw [← Pass.owner_of_mem_symbols hp, ← Pass.owner_of_mem_symbols hq]

namespace Emission

def nameBehind? (front text : Bytes) : Option Bytes :=
  if front.isPrefixOf text then some ((text.drop front.length).takeWhile Bytes.isIdent) else none

/-- The name that an item declares at file scope, if it was generated and does. -/
def Item.declares? : Item → Option Bytes
  | .line text => nameBehind? (bytes "static VkCommandBuffer ") text
  | .opening text | .generated text => nameBehind? (bytes "void ") text
  | .closing _ | .source _ | .lineEnd => none

theorem nameBehind?_append (front : Bytes) {name rest : Bytes} {b : UInt8}
    (named : ∀ b ∈ name, Bytes.isIdent b = true) (ends : Bytes.isIdent b = false) :
    nameBehind? front (front ++ (name ++ b :: rest)) = some name := by
  have begins : front.isPrefixOf (front ++ (name ++ b :: rest)) = true :=
    List.isPrefixOf_iff_prefix.mpr (List.prefix_append _ _)
  rw [nameBehind?, if_pos begins, List.drop_left, List.takeWhile_append_of_pos named,
    List.takeWhile_cons_of_neg (by rw [ends]; exact Bool.false_ne_true), List.append_nil]

/-- Text that begins with other words. -/
theorem nameBehind?_of_apart {front words : Bytes} (apart : ¬ front <+: words ∧ ¬ words <+: front)
    (rest : Bytes) : nameBehind? front (words ++ rest) = none := by
  refine if_neg fun begins => ?_
  obtain ⟨name, same⟩ := List.isPrefixOf_iff_prefix.mp begins
  exact Bytes.append_ne_append apart name rest same

def Item.Silent (item : Item) : Prop := item.declares? = none

instance (item : Item) : Decidable item.Silent := inferInstanceAs (Decidable (_ = none))

namespace Item.Silent

variable {words rest : Bytes}

theorem line (apart : ¬ bytes "static VkCommandBuffer " <+: words ∧
    ¬ words <+: bytes "static VkCommandBuffer ") : (line (words ++ rest)).Silent :=
  nameBehind?_of_apart apart rest

theorem opening (apart : ¬ bytes "void " <+: words ∧ ¬ words <+: bytes "void ") :
    (opening (words ++ rest)).Silent := nameBehind?_of_apart apart rest

theorem generated (apart : ¬ bytes "void " <+: words ∧ ¬ words <+: bytes "void ") :
    (generated (words ++ rest)).Silent := nameBehind?_of_apart apart rest

end Item.Silent

namespace Setting

variable (s : Setting) (p : Pass)

theorem silent_allocation (array : Bytes) : ∀ item ∈ s.allocation array, item.Silent := by
  simp only [allocation, List.append_assoc, List.forall_mem_cons]
  exact ⟨by decide, by decide, by decide, .line (by decide), by decide, .line (by decide),
    .opening (by decide), by decide, by decide, by decide, List.forall_mem_nil _⟩

theorem silent_inheritance (block : FixedBlock) : ∀ item ∈ inheritance block, item.Silent := by
  simp only [inheritance, List.append_assoc, List.forall_mem_cons]
  exact ⟨by decide, by decide, .line (by decide), .line (by decide), by decide, by decide,
    by decide, by decide, List.forall_mem_nil _⟩

theorem silent_recording (interior buffer : Bytes) :
    ∀ item ∈ s.recording interior buffer, item.Silent := by
  simp only [recording, List.append_assoc, List.forall_mem_cons]
  exact ⟨.opening (by decide), by decide, by decide, by decide, rfl, by decide, by decide,
    .opening (by decide), by decide, by decide, List.forall_mem_nil _⟩

theorem silent_bakeBlock (k : Nat) (block : FixedBlock) :
    ∀ item ∈ s.bakeBlock p k block, item.Silent := by
  simp only [bakeBlock, List.forall_mem_append, List.forall_mem_cons]
  refine ⟨⟨⟨⟨.line (by decide), s.silent_allocation _⟩, by decide, silent_inheritance block⟩, ?_⟩,
    by decide, List.forall_mem_nil _⟩
  intro item member
  obtain ⟨i, _, member⟩ := List.mem_flatMap.mp member
  exact s.silent_recording _ _ item member

theorem silent_bodyFrom (k cursor : Nat) (blocks : List FixedBlock) :
    ∀ item ∈ s.bodyFrom p k cursor blocks, item.Silent := by
  induction blocks generalizing k cursor with
  | nil => exact List.forall_mem_singleton.mpr rfl
  | cons block rest ih =>
    refine List.forall_mem_cons.mpr ⟨rfl, List.forall_mem_cons.mpr ⟨?_, ih _ _⟩⟩
    simp only [executeStatement, List.append_assoc]
    exact .generated (by decide)

variable {s p}

theorem declares?_arrayLine (named : Pass.isName p.name = true) (k : Nat) :
    (s.arrayLine p k).declares? = some (Symbol.array p.name k).text := by
  have text : bytes "static VkCommandBuffer " ++ Pass.bakedArray p.name k ++ bytes "[" ++
      Bytes.ofNat s.frames.count ++ bytes "];" = bytes "static VkCommandBuffer " ++
        ((Symbol.array p.name k).text ++ 0x5B :: (Bytes.ofNat s.frames.count ++ bytes "];")) := by
    simp only [List.append_assoc]
    rfl
  rw [arrayLine, Item.declares?, text]
  exact nameBehind?_append _ (Symbol.isIdent_text named) (by decide)

/-- The head of a function. -/
theorem nameBehind?_head (x : Symbol) (named : Pass.isName x.owner = true) (parameters : Bytes) :
    nameBehind? (bytes "void ") (bytes "void " ++ x.text ++ bytes "(" ++ parameters ++
      bytes ") \x7b") = some x.text := by
  have text : bytes "void " ++ x.text ++ bytes "(" ++ parameters ++ bytes ") \x7b" =
      bytes "void " ++ (x.text ++ 0x28 :: (parameters ++ bytes ") \x7b")) := by
    simp only [List.append_assoc]
    rfl
  rw [text]
  exact nameBehind?_append _ (Symbol.isIdent_text named) (by decide)

theorem declares_passItems (named : Pass.isName p.name = true) :
    (s.passItems p).filterMap Item.declares? = p.symbols.map Symbol.text := by
  have arrays : ((List.range p.fixedBlocks.length).map (s.arrayLine p)).filterMap Item.declares? =
      ((List.range p.fixedBlocks.length).map (Symbol.array p.name)).map Symbol.text := by
    have each : Item.declares? ∘ s.arrayLine p = some ∘ Symbol.text ∘ Symbol.array p.name :=
      funext fun k => declares?_arrayLine named k
    rw [List.filterMap_map, each, List.filterMap_eq_map, List.map_map]
  have execute : (s.executeItems p).filterMap Item.declares? =
      [(Symbol.execute p.name).text] := by
    have head : (Item.generated (bytes "void " ++ Pass.executeName p.name ++ bytes "(" ++
        Pass.signature s.options.contextParam p.params ++ bytes ") \x7b")).declares? =
          some (Symbol.execute p.name).text := nameBehind?_head (.execute p.name) named _
    have rest := List.filterMap_eq_nil_iff.mpr (s.silent_bodyFrom p 0 0 p.fixedBlocks)
    rw [executeItems, List.cons_append, List.filterMap_cons_some head, List.filterMap_append, rest]
    rfl
  have bake : (s.bakeItems p).filterMap Item.declares? =
      if p.fixedBlocks.isEmpty then [] else [(Symbol.bake p.name).text] := by
    rw [bakeItems]
    split
    · rfl
    · have head : (Item.opening (bytes "void " ++ Pass.bakeName p.name ++ bytes "(" ++
          Pass.signature s.options.contextParam (p.params ++ p.bakeParams) ++
            bytes ") \x7b")).declares? = some (Symbol.bake p.name).text :=
        nameBehind?_head (.bake p.name) named _
      rw [List.cons_append, List.filterMap_cons_some head, List.filterMap_append]
      refine congrArg (_ :: ·) (List.append_eq_nil_iff.mpr ⟨?_, rfl⟩)
      refine List.filterMap_eq_nil_iff.mpr fun item member => ?_
      obtain ⟨⟨block, k⟩, _, member⟩ := List.mem_flatMap.mp member
      exact s.silent_bakeBlock p k block item member
  rw [passItems, List.filterMap_append, List.filterMap_append, arrays, execute, bake,
    Pass.symbols, List.map_append, List.map_cons, List.append_assoc]
  split <;> rfl

/-- What an output declares. -/
theorem declares_items {g : Graph} (named : ∀ p ∈ g.passes, Pass.isName p.name = true) :
    (s.items g).filterMap Item.declares? = g.symbols.map Symbol.text := by
  have includes : s.includeLines.filterMap Item.declares? = [] := by
    refine List.filterMap_eq_nil_iff.mpr fun item member => ?_
    obtain ⟨target, _, rfl⟩ := List.mem_map.mp member
    exact Item.Silent.line (by decide)
  rw [items, List.filterMap_append, includes, List.nil_append, List.filterMap_cons_none rfl,
    List.filterMap_flatMap, Graph.symbols, List.map_flatMap]
  refine List.flatMap_congr fun p member => ?_
  rw [List.filterMap_append, declares_passItems (named p member)]
  exact List.append_nil _

/-- The names that the output for a source declares. They are distinct just if those of the passes
are. -/
theorem declared_nodup_iff {source : Bytes} {g : Graph}
    (parsed : (Graph.parse source).result = .ok g) (s : Setting) :
    (s.items g).filterMap Item.declares? = g.symbols.map Symbol.text ∧
      ((g.symbols.map Symbol.text).Nodup ↔ (g.passes.map (·.name)).Nodup) := by
  constructor
  · refine declares_items fun p member => ?_
    obtain ⟨_, _, _, parts⟩ := Graph.parts_of_parse parsed member
    exact parts.named
  · have distinct : Function.Injective Symbol.text := fun _ _ same => Symbol.text_inj same
    exact (List.nodup_map_iff distinct).trans g.nodup_symbols_iff

/-- A pass with a fixed block, and one whose name is that of its array in front of a digit. -/
theorem declared_nodup_iff_two :
    let s : Setting := ⟨⟨2, by decide, by decide⟩, {}⟩
    let g : Graph := ⟨[], [⟨bytes "p", {}, [⟨⟨1, 31⟩, ⟨18, 22⟩, .ofText (bytes "r"),
        .ofText (bytes "0")⟩], bytes " FIXED_BEGIN(r, 0) x; FIXED_END ", bytes "\n"⟩,
      ⟨bytes "__p_fixed_cmd_buffers_", {}, [], bytes " y; ", []⟩]⟩
    (s.items g).filterMap Item.declares? = g.symbols.map Symbol.text ∧
      ((g.symbols.map Symbol.text).Nodup ↔ (g.passes.map (·.name)).Nodup) := by
  intro s g
  have parsed : (Graph.parse (bytes "PASS_BEGIN(p) \x7b FIXED_BEGIN(r, 0) x; FIXED_END " ++
      bytes "\x7d PASS_END\nPASS_BEGIN(__p_fixed_cmd_buffers_) \x7b y; \x7d PASS_END")).result =
        .ok g := by decide +kernel
  exact declared_nodup_iff parsed s

/-- Two passes with one name. -/
theorem parse_same_name :
    let g : Graph := ⟨[], [⟨bytes "A", {}, [], bytes " ", bytes " "⟩,
      ⟨bytes "A", {}, [], bytes " ", []⟩]⟩
    (Graph.parse (bytes "PASS_BEGIN(A) \x7b \x7d PASS_END " ++
        bytes "PASS_BEGIN(A) \x7b \x7d PASS_END")).result = .ok g ∧
      ¬ (g.symbols.map Symbol.text).Nodup := by
  decide +kernel

end Setting
end Emission
end PassCompiler
