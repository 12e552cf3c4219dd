/-! Logs: records of what a computation did, kept beside its outcome whether it succeeds or fails. -/
namespace TaggedWire

inductive Level where
  | trace | debug
deriving DecidableEq

def Level.name : Level → String
  | .trace => "TRACE"
  | .debug => "DEBUG"

structure Record where
  level : Level
  message : String
  fields : List (String × String)
deriving DecidableEq

/-- A computation that emits events of type `ω` and then fails with an `ε` or yields an `α`. -/
structure Traced (ω ε α : Type) where
  log : List ω
  outcome : Except ε α

namespace Traced
variable {ω ε α β : Type}

protected def pure (a : α) : Traced ω ε α := ⟨[], .ok a⟩

def fail (e : ε) : Traced ω ε α := ⟨[], .error e⟩

def emit (event : ω) : Traced ω ε Unit := ⟨[event], .ok ()⟩

/-- The event before all that the computation does. -/
def after (x : Traced ω ε α) (event : ω) : Traced ω ε α := ⟨event :: x.log, x.outcome⟩

/-- A failure keeps the log up to it. -/
protected def bind (x : Traced ω ε α) (f : α → Traced ω ε β) : Traced ω ε β :=
  match x.outcome with
  | .error e => ⟨x.log, .error e⟩
  | .ok a =>
    let y := f a
    ⟨x.log ++ y.log, y.outcome⟩

instance : Monad (Traced ω ε) where
  pure := Traced.pure
  bind := Traced.bind

theorem bind_ok {x : Traced ω ε α} {a : α} (h : x.outcome = .ok a) (f : α → Traced ω ε β) :
    x >>= f = ⟨x.log ++ (f a).log, (f a).outcome⟩ := by
  simp [Bind.bind, Traced.bind, h]

theorem bind_error {x : Traced ω ε α} {e : ε} (h : x.outcome = .error e) (f : α → Traced ω ε β) :
    x >>= f = ⟨x.log, .error e⟩ := by
  simp [Bind.bind, Traced.bind, h]

end Traced
end TaggedWire
