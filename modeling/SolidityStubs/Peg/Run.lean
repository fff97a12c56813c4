import SolidityStubs.Peg.Basic
import SolidityStubs.Peg.Trace

/-! # Running a grammar

`Expr.eval` runs an expression when it is told how to skip padding and how to call a rule.
`Grammar.run` ties the knot with a bound on the depth of calls; a run that needs more depth ends as
`exhausted`, which is neither a match nor a failure.
-/
namespace SolidityStubs.Peg

variable {ρ : Type}

inductive Outcome (ρ : Type)
  | matched (stop : Cursor) (nodes : List (Node ρ))
  | failed
  | exhausted

structure Run (ρ : Type) where
  outcome : Outcome ρ
  trace : Trace ρ

namespace Run

def matched (stop : Cursor) : Run ρ := ⟨.matched stop [], .none⟩

def failed : Run ρ := ⟨.failed, .none⟩

def exhausted : Run ρ := ⟨.exhausted, .none⟩

def ofCursor? : Option Cursor → Run ρ
  | some stop => matched stop
  | none => failed

def andThen (run : Run ρ) (next : Cursor → Run ρ) : Run ρ :=
  match run.outcome with
  | .matched stop nodes =>
    let more := next stop
    match more.outcome with
    | .matched stop nodes' => ⟨.matched stop (nodes ++ nodes'), run.trace.append more.trace⟩
    | outcome => ⟨outcome, run.trace.append more.trace⟩
  | _ => run

def orElse (run : Run ρ) (next : Unit → Run ρ) : Run ρ :=
  match run.outcome with
  | .failed =>
    let more := next ()
    ⟨more.outcome, run.trace.append more.trace⟩
  | _ => run

def invert (run : Run ρ) (start : Cursor) : Run ρ :=
  match run.outcome with
  | .matched _ _ => failed
  | .failed => matched start
  | .exhausted => exhausted

/-- Takes `step` as often as it succeeds. There is a budget of one step for each character in
`budget`; `nodes`, latest first, and `trace` are what came before. -/
def repeatFrom (step : Cursor → Run ρ) (budget : List Char) (c : Cursor) (nodes : List (Node ρ))
    (trace : Trace ρ) : Run ρ :=
  let run := step c
  match run.outcome with
  | .matched stop more =>
    match budget with
    | [] => ⟨.exhausted, trace.append run.trace⟩
    | _ :: budget => repeatFrom step budget stop (more.reverse ++ nodes) (trace.append run.trace)
  | .failed => ⟨.matched c nodes.reverse, trace.append run.trace⟩
  | .exhausted => ⟨.exhausted, trace.append run.trace⟩

def many (first later : Cursor → Run ρ) (c : Cursor) : Run ρ :=
  let run := first c
  match run.outcome with
  | .matched stop nodes => repeatFrom later c.rest stop nodes.reverse run.trace
  | .failed => ⟨.matched c [], run.trace⟩
  | .exhausted => run

def wrap (run : Run ρ) (r : ρ) (start : Cursor) : Run ρ :=
  match run.outcome with
  | .matched stop nodes => ⟨.matched stop [⟨r, start, stop, nodes⟩], run.trace⟩
  | .failed => ⟨.failed, .failed r start.offset run.trace⟩
  | .exhausted => run

end Run

def Expr.eval (skip : Cursor → Cursor) (call : ρ → Cursor → Run ρ) : Expr ρ → Cursor → Run ρ
  | .char accept, c => .ofCursor? (c.char? accept)
  | .text cs, c => .ofCursor? (c.text? cs)
  | .seq a b, c => (a.eval skip call c).andThen fun stop => b.eval skip call (skip stop)
  | .choice a b, c => (a.eval skip call c).orElse fun _ => b.eval skip call c
  | .maybe a, c => (a.eval skip call c).orElse fun _ => .matched c
  | .many a, c => .many (a.eval skip call) (fun stop => a.eval skip call (skip stop)) c
  | .never a, c => (a.eval skip call c).invert c
  | .rule r, c => call r c

/-- Whether padding is skipped and structure is kept. -/
inductive Mode
  | spaced
  | tight
deriving DecidableEq, Repr

namespace Mode

def enter : Mode → Shape → Mode
  | .spaced, .atomic => .tight
  | mode, _ => mode

def skip (g : Grammar ρ) : Mode → Cursor → Cursor
  | .spaced, c => g.skip c
  | .tight, c => c

def shows : Mode → Shape → Bool
  | .tight, _ => false
  | .spaced, .silent => false
  | .spaced, _ => true

end Mode

namespace Grammar

/-- Runs a rule with at most `depth` rules open at a time. -/
def run (g : Grammar ρ) : Nat → Mode → ρ → Cursor → Run ρ
  | 0, _, _, _ => .exhausted
  | depth + 1, mode, r, c =>
    let p := g.production r
    let inner := mode.enter p.shape
    let result := p.body.eval (inner.skip g) (g.run depth inner) c
    if mode.shows p.shape then result.wrap r c else result

end Grammar

end SolidityStubs.Peg
