import PassCompiler.Proofs.Emission.Layout

/-! Passes are written one by one: what a pass becomes depends neither on the passes before it nor
on how the output in front of it ends. Main statement: `emit_independent`. -/
namespace PassCompiler.Emission.Setting

variable {s : Setting}

def bare (s : Setting) : Setting := { s with options := { s.options with includes := [] } }

/-- The output for some passes by themselves, with an empty prelude and no include lines. -/
def added (s : Setting) (passes : List Pass) : Bytes := s.bare.emit ⟨[], passes⟩

def passesItems (s : Setting) (passes : List Pass) : List Item :=
  passes.flatMap fun p => s.passItems p ++ [.source p.epilogue]

theorem passText_bare (s : Setting) (p : Pass) : s.bare.passText p = s.passText p := rfl

theorem added_eq (s : Setting) (passes : List Pass) :
    s.added passes = passes.flatMap fun p => s.passText p ++ p.epilogue := by
  rw [added, emit_eq]
  simp only [passText_bare]
  rfl

theorem added_singleton (s : Setting) (p : Pass) :
    s.added [p] = s.passText p ++ p.epilogue := by
  rw [added_eq, List.flatMap_singleton]

/-- The passes of an output are what they are alone, wherever they stand: on any line, the one in
front of them being ended or not, they are written as the same text, and the line behind them is as
little indented as the first. -/
theorem emit_independent (s : Setting) (prelude : Bytes) (front back : List Pass) :
    s.emit ⟨prelude, front ++ back⟩ = s.emit ⟨prelude, front⟩ ++ s.added back ∧
    s.emit ⟨[], back⟩ = text s.includeLines ++ s.added back ∧
    s.added back = back.flatMap (fun p => s.added [p]) ∧
    s.items ⟨prelude, front ++ back⟩ = s.items ⟨prelude, front⟩ ++ s.passesItems back ∧
    (Writer.initial.behind (s.items ⟨prelude, front⟩)).depth = 0 ∧
    ∀ start, Writer.Spells ⟨0, start⟩ (s.passesItems back) (s.added back) := by
  refine ⟨?text, ?alone, ?single, ?items, ?depth, ?anywhere⟩
  case text => rw [emit_eq, emit_eq, added_eq, List.flatMap_append, ← List.append_assoc]
  case alone =>
    have includes := (writes_includeLines (s := s) true).1
    rw [emit_eq, added_eq, List.append_nil, text, Writer.initial, includes]
  case single =>
    rw [added_eq]
    simp only [added_singleton]
  case items =>
    rw [items, items, passesItems, List.flatMap_append, List.append_assoc, List.cons_append]
  case depth =>
    obtain ⟨_, last, behind⟩ := writes_items (s := s) ⟨prelude, front⟩ true
    rw [Writer.initial, behind]
  case anywhere =>
    rw [added_eq]
    exact writes_passes back

end PassCompiler.Emission.Setting
