import SolidityStubs.Proofs.Peg.Progress

/-! # Runs at greater depth

A run that is not exhausted is the same run at every greater depth, with the same failures.
-/
namespace SolidityStubs.Peg

variable {ρ : Type} {g : Grammar ρ}

/-- The second run is the first one, unless the first one was exhausted. -/
def Run.Within (run run' : Run ρ) : Prop := run.outcome ≠ .exhausted → run' = run

namespace Run

variable {run run' : Run ρ} {next next' : Cursor → Run ρ}

theorem Within.andThen (h : run.Within run') (hnext : ∀ c, (next c).Within (next' c)) :
    (run.andThen next).Within (run'.andThen next') := by
  intro hends
  rw [andThen_outcome] at hends
  cases ho : run.outcome with
  | exhausted => simp [ho] at hends
  | failed =>
    obtain rfl := h (by simp [ho])
    simp [Run.andThen, ho]
  | matched d ns =>
    obtain rfl := h (by simp [ho])
    have hmore : (next d).outcome ≠ .exhausted := by
      intro hd
      simp [ho, hd] at hends
    simp [Run.andThen, ho, hnext d hmore]

theorem Within.orElse {other other' : Unit → Run ρ} (h : run.Within run')
    (hother : (other ()).Within (other' ())) : (run.orElse other).Within (run'.orElse other') := by
  intro hends
  rw [orElse_outcome] at hends
  cases ho : run.outcome with
  | exhausted => simp [ho] at hends
  | matched d ns =>
    obtain rfl := h (by simp [ho])
    simp [Run.orElse, ho]
  | failed =>
    obtain rfl := h (by simp [ho])
    simp only [ho] at hends
    simp [Run.orElse, ho, hother hends]

theorem Within.invert (h : run.Within run') (c : Cursor) :
    (run.invert c).Within (run'.invert c) := by
  intro hends
  have hrun : run.outcome ≠ .exhausted := by
    intro ho
    simp [Run.invert, ho, Run.exhausted] at hends
  rw [h hrun]

theorem Within.wrap (h : run.Within run') (r : ρ) (c : Cursor) :
    (run.wrap r c).Within (run'.wrap r c) := by
  intro hends
  have hrun : run.outcome ≠ .exhausted := by
    intro ho
    simp [Run.wrap, ho] at hends
  rw [h hrun]

theorem Within.repeatFrom (hnext : ∀ c, (next c).Within (next' c)) (budget : List Char) (c : Cursor)
    (nodes : List (Node ρ)) (trace : Trace ρ) :
    (repeatFrom next budget c nodes trace).Within (repeatFrom next' budget c nodes trace) := by
  induction budget generalizing c nodes trace with
  | nil =>
    intro hends
    have hstep : (next c).outcome ≠ .exhausted := by
      intro ho
      simp [Run.repeatFrom, ho] at hends
    unfold Run.repeatFrom
    rw [hnext c hstep]
  | cons _ budget ih =>
    intro hends
    have hstep : (next c).outcome ≠ .exhausted := by
      intro ho
      simp [Run.repeatFrom, ho] at hends
    unfold Run.repeatFrom at hends ⊢
    rw [hnext c hstep]
    cases ho : (next c).outcome with
    | matched d ns =>
      simp only [ho] at hends ⊢
      exact ih d _ _ hends
    | failed => simp [ho]
    | exhausted => exact absurd ho hstep

theorem Within.many {later later' : Cursor → Run ρ} (hfirst : ∀ c, (next c).Within (next' c))
    (hlater : ∀ c, (later c).Within (later' c)) (c : Cursor) :
    (many next later c).Within (many next' later' c) := by
  intro hends
  have hrun : (next c).outcome ≠ .exhausted := by
    intro ho
    simp [Run.many, ho] at hends
  unfold Run.many at hends ⊢
  rw [hfirst c hrun]
  cases ho : (next c).outcome with
  | matched d ns =>
    simp only [ho] at hends ⊢
    exact Within.repeatFrom hlater _ _ _ _ hends
  | failed => simp [ho]
  | exhausted => exact absurd ho hrun

end Run

theorem Expr.eval_within {skip : Cursor → Cursor} {call call' : ρ → Cursor → Run ρ}
    (hcall : ∀ r c, (call r c).Within (call' r c)) (e : Expr ρ) (c : Cursor) :
    (e.eval skip call c).Within (e.eval skip call' c) := by
  induction e generalizing c with
  | char | text => exact fun _ => rfl
  | seq a b iha ihb => exact (iha c).andThen fun d => ihb (skip d)
  | choice a b iha ihb => exact (iha c).orElse (ihb c)
  | maybe a iha => exact (iha c).orElse fun _ => rfl
  | many a iha => exact Run.Within.many iha (fun d => iha (skip d)) c
  | never a iha => exact (iha c).invert c
  | rule r => exact hcall r c

theorem Grammar.run_within_succ (depth : Nat) (m : Mode) (r : ρ) (c : Cursor) :
    (g.run depth m r c).Within (g.run (depth + 1) m r c) := by
  induction depth generalizing m r c with
  | zero => exact fun hends => absurd rfl hends
  | succ depth ih =>
    have hcall := ih (m.enter (g.production r).shape)
    rw [Grammar.run, Grammar.run]
    cases m.shows (g.production r).shape with
    | true => exact (Expr.eval_within hcall (g.production r).body c).wrap r c
    | false => exact Expr.eval_within hcall (g.production r).body c

theorem Grammar.run_eq_of_le {depth depth' : Nat} (hle : depth ≤ depth') {m : Mode} {r : ρ}
    {c : Cursor} (hends : (g.run depth m r c).outcome ≠ .exhausted) :
    g.run depth' m r c = g.run depth m r c := by
  induction hle with
  | refl => rfl
  | step _ ih => rw [Grammar.run_within_succ _ m r c (ih ▸ hends), ih]

end SolidityStubs.Peg
