import PassCompiler.Text.Bytes

/-! Computations that may fail and keep a log of what they noticed. The log never decides a
result: `result` commutes with every way of combining computations. -/
namespace PassCompiler

inductive Level where
  | debug
  | info
  | warn
  deriving DecidableEq, Repr

structure LogRecord where
  level : Level
  text : Bytes
  deriving DecidableEq, Repr

def LogRecord.warn (text : Bytes) : LogRecord := ⟨.warn, text⟩
def LogRecord.info (text : Bytes) : LogRecord := ⟨.info, text⟩
def LogRecord.debug (text : Bytes) : LogRecord := ⟨.debug, text⟩

theorem exists_of_bind_ok {ε α β : Type} {f : α → Except ε β} {x : Except ε α} {b : β}
    (h : x.bind f = .ok b) : ∃ a, x = .ok a ∧ f a = .ok b := by
  cases x with
  | error e => contradiction
  | ok a => exact ⟨a, rfl, h⟩

theorem ok_of_mapError {ε ε' α : Type} {f : ε → ε'} {x : Except ε α} {a : α}
    (h : x.mapError f = .ok a) : x = .ok a := by
  cases x with
  | error e => contradiction
  | ok b => exact congrArg Except.ok (Except.ok.inj h)

/-- A result, and the records made on the way to it in order. -/
structure Logged (ε α : Type) where
  result : Except ε α
  log : List LogRecord

namespace Logged

variable {ε α β : Type}

def fail (e : ε) : Logged ε α := ⟨.error e, []⟩

def ofExcept (x : Except ε α) : Logged ε α := ⟨x, []⟩

def ofOption (e : ε) : Option α → Logged ε α
  | some a => ⟨.ok a, []⟩
  | none => fail e

def note (record : LogRecord) : Logged ε Unit := ⟨.ok (), [record]⟩

/-- Goes on with a value that is known to be the result of `x`. -/
def andThen (x : Logged ε α) (f : (a : α) → x.result = .ok a → Logged ε β) : Logged ε β :=
  match h : x.result with
  | .error e => ⟨.error e, x.log⟩
  | .ok a => ⟨(f a h).result, x.log ++ (f a h).log⟩

instance : Monad (Logged ε) where
  pure a := ⟨.ok a, []⟩
  bind x f := x.andThen fun a _ => f a

@[simp] theorem result_pure (a : α) : (pure a : Logged ε α).result = .ok a := rfl

@[simp] theorem result_fail (e : ε) : (fail e : Logged ε α).result = .error e := rfl

@[simp] theorem result_ofExcept (x : Except ε α) : (ofExcept x).result = x := rfl

@[simp] theorem result_note (record : LogRecord) : (note record : Logged ε Unit).result = .ok () :=
  rfl

@[simp] theorem result_bind (x : Logged ε α) (f : α → Logged ε β) :
    (x >>= f).result = x.result.bind fun a => (f a).result := by
  change (x.andThen fun a _ => f a).result = _
  unfold andThen
  split
  · next e h => simp [h, Except.bind]
  · next a h => simp [h, Except.bind]

theorem result_ofOption_ok {e : ε} {o : Option α} {a : α} :
    (ofOption e o).result = .ok a ↔ o = some a := by
  cases o with
  | none => simp [ofOption, fail]
  | some b => simp [ofOption]

/-- The steps of a computation that succeeds. -/
theorem result_bind_ok {x : Logged ε α} {f : α → Logged ε β} {b : β} :
    (x >>= f).result = .ok b ↔ ∃ a, x.result = .ok a ∧ (f a).result = .ok b := by
  rw [result_bind]
  cases x.result with
  | error e => simp [Except.bind]
  | ok a => simp [Except.bind]

/-- A computation fails in its first part or, behind it, in the second. -/
theorem result_bind_error {x : Logged ε α} {f : α → Logged ε β} {e : ε}
    (h : (x >>= f).result = .error e) :
    x.result = .error e ∨ ∃ a, x.result = .ok a ∧ (f a).result = .error e := by
  rw [result_bind] at h
  cases first : x.result with
  | error e' =>
    rw [first] at h
    exact .inl (congrArg Except.error (Except.error.inj h))
  | ok a =>
    rw [first] at h
    exact .inr ⟨a, rfl, h⟩

def mapError {ε' : Type} (f : ε → ε') (x : Logged ε α) : Logged ε' α :=
  ⟨x.result.mapError f, x.log⟩

end Logged
end PassCompiler
