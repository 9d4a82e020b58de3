import FiniteAutomata.Report.Record

/-!
# Results with their records

A computation that may fail and reports its progress. The records stand beside the result and not
inside it: what was reported before a failure stays reported.
-/

namespace FiniteAutomata

universe u

/-- The result of a computation, and what was reported on the way. -/
structure Reported (ε : Type) (α : Type u) where
  result : Except ε α
  /-- What was reported, first to last. -/
  records : List Record

namespace Reported

variable {ε : Type} {α β : Type u}

/-- Reports one record. -/
def note (r : Record) : Reported ε Unit := ⟨.ok (), [r]⟩

/-- Gives up without a report. -/
def fail (e : ε) : Reported ε α := ⟨.error e, []⟩

/-- Goes on with the value of `x`, if it has one, and reports both parts. -/
def bind (x : Reported ε α) (f : α → Reported ε β) : Reported ε β :=
  match x.result with
  | .error e => ⟨.error e, x.records⟩
  | .ok a =>
    let y := f a
    ⟨y.result, x.records ++ y.records⟩

instance : Monad (Reported ε) where
  pure a := ⟨.ok a, []⟩
  bind := bind

/-- Reports do not influence results. -/
@[simp] theorem result_bind (x : Reported ε α) (f : α → Reported ε β) :
    (x >>= f).result = x.result >>= fun a => (f a).result := by
  rcases x with ⟨_ | a, records⟩ <;> rfl

theorem result_bind_of_ok {x : Reported ε α} {a : α} (h : x.result = .ok a)
    (f : α → Reported ε β) : (x >>= f).result = (f a).result := by
  rw [result_bind, h]
  rfl

end Reported

end FiniteAutomata
