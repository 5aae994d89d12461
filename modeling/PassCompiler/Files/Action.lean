import PassCompiler.Files.Store
import PassCompiler.Log

/-! Computations on a store. What was done to the store before a failure stays done. -/
namespace PassCompiler

/-- A result, the store it left, and the records made on the way. -/
structure Outcome (ε α : Type) where
  result : Except ε α
  store : Store
  log : List LogRecord

def Action (ε α : Type) := Store → Outcome ε α

namespace Action

variable {ε ε' α β : Type}

instance : Monad (Action ε) where
  pure a s := ⟨.ok a, s, []⟩
  bind x f s :=
    match x s with
    | ⟨.error e, s', log⟩ => ⟨.error e, s', log⟩
    | ⟨.ok a, s', log⟩ => ⟨(f a s').result, (f a s').store, log ++ (f a s').log⟩

def fail (e : ε) : Action ε α := fun s => ⟨.error e, s, []⟩

def note (record : LogRecord) : Action ε Unit := fun s => ⟨.ok (), s, [record]⟩

def look : Action ε Store := fun s => ⟨.ok s, s, []⟩

def ofExcept (x : Except ε α) : Action ε α := fun s => ⟨x, s, []⟩

def ofLogged (x : Logged ε α) : Action ε α := fun s => ⟨x.result, s, x.log⟩

/-- Changes the store, where `f` gives the error its meaning. -/
def change (f : ε' → ε) (step : Store → Except ε' α × Store) : Action ε α := fun s =>
  ⟨(step s).1.mapError f, (step s).2, []⟩

@[simp] theorem pure_apply (a : α) (s : Store) : (pure a : Action ε α) s = ⟨.ok a, s, []⟩ := rfl

theorem look_bind (f : Store → Action ε α) (s : Store) : (look >>= f) s = f s s := rfl

theorem bind_of_ok {x : Action ε α} {f : α → Action ε β} {s s' : Store} {a : α}
    {log : List LogRecord} (h : x s = ⟨.ok a, s', log⟩) :
    (x >>= f) s = ⟨(f a s').result, (f a s').store, log ++ (f a s').log⟩ := by
  change (match x s with
    | ⟨.error e, s', log⟩ => (⟨.error e, s', log⟩ : Outcome ε β)
    | ⟨.ok a, s', log⟩ => ⟨(f a s').result, (f a s').store, log ++ (f a s').log⟩) = _
  rw [h]

theorem bind_of_error {x : Action ε α} {f : α → Action ε β} {s s' : Store} {e : ε}
    {log : List LogRecord} (h : x s = ⟨.error e, s', log⟩) : (x >>= f) s = ⟨.error e, s', log⟩ := by
  change (match x s with
    | ⟨.error e, s', log⟩ => (⟨.error e, s', log⟩ : Outcome ε β)
    | ⟨.ok a, s', log⟩ => ⟨(f a s').result, (f a s').store, log ++ (f a s').log⟩) = _
  rw [h]

end Action
end PassCompiler
