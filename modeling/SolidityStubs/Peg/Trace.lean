/-! # Failures of a run

A trace holds the rules that failed during a run, in order, each with where it was entered and what
failed inside it. `Trace.furthest` reads off it the furthest place at which rules failed and which
rules those were: a rule stands for the failures inside it at its own start, unless there was only
one of them.
-/
namespace SolidityStubs.Peg

inductive Trace (ρ : Type)
  | none
  | append (first second : Trace ρ)
  | failed (rule : ρ) (offset : Nat) (inner : Trace ρ)

/-- The furthest failure known so far: its offset and the rules that failed there. -/
structure Furthest (ρ : Type) where
  offset : Nat
  expected : List ρ
deriving DecidableEq, Repr

namespace Furthest

variable {ρ : Type}

def start : Furthest ρ := ⟨0, []⟩

def countAt (f : Furthest ρ) (offset : Nat) : Nat :=
  if offset = f.offset then f.expected.length else 0

/-- Records that `rule`, entered at `offset` when `before` was known, failed; `after` is known by
now. -/
def record (before after : Furthest ρ) (rule : ρ) (offset : Nat) : Furthest ρ :=
  if after.countAt offset = before.countAt offset + 1 then after
  else if offset = after.offset then
    ⟨offset, after.expected.take (before.countAt offset) ++ [rule]⟩
  else if after.offset < offset then ⟨offset, [rule]⟩
  else after

end Furthest

namespace Trace

variable {ρ : Type}

def failures : Trace ρ → List (ρ × Nat)
  | .none => []
  | .append a b => a.failures ++ b.failures
  | .failed r offset inner => inner.failures ++ [(r, offset)]

def furthestFrom : Trace ρ → Furthest ρ → Furthest ρ
  | .none, f => f
  | .append a b, f => b.furthestFrom (a.furthestFrom f)
  | .failed r offset inner, f => f.record (inner.furthestFrom f) r offset

def furthest (t : Trace ρ) : Furthest ρ := t.furthestFrom .start

end Trace

end SolidityStubs.Peg
