import SolidityStubs.Proofs.Peg.Calls

/-! # What the trace of a run holds

The trace of a run holds the rules that failed while it ran, outside of atomic rules, each with the
place where it was entered, and it holds all of them. The furthest failure is read off such a trace:
no failure lies behind it and every rule that it names failed there.
-/
namespace SolidityStubs.Peg

variable {ρ : Type} {g : Grammar ρ}

/-- While the stage runs, a rule that shows is entered at `c` and fails there. -/
structure FailsDuring (g : Grammar ρ) (x : Stage ρ) (r : ρ) (c : Cursor) : Prop where
  entered : ComesTo g x ⟨.spaced, .once (.rule r), c⟩
  shows : (g.production r).shape ≠ .silent
  fails : Fails g .spaced (.rule r) c

def Noted (g : Grammar ρ) (x : Stage ρ) (p : ρ × Nat) : Prop :=
  ∃ c, FailsDuring g x p.1 c ∧ c.offset = p.2

section Noted

variable {m : Mode} {a b : Expr ρ} {c : Cursor} {p : ρ × Nat}

/-- What is noted is the failure of the stage itself or is noted by a stage that it calls. -/
theorem noted_iff {x : Stage ρ} :
    Noted g x p ↔ (x = ⟨.spaced, .once (.rule p.1), x.place⟩ ∧ FailsDuring g x p.1 x.place ∧
        x.place.offset = p.2) ∨ ∃ y, Calls g x y ∧ Noted g y p := by
  constructor
  · rintro ⟨d, ⟨hentered, hshows, hfails⟩, hoff⟩
    rcases Relation.ReflTransGen.cases_head hentered with rfl | ⟨y, hcall, hrest⟩
    · exact .inl ⟨rfl, ⟨.refl, hshows, hfails⟩, hoff⟩
    · exact .inr ⟨y, hcall, d, ⟨hrest, hshows, hfails⟩, hoff⟩
  · rintro (⟨-, h, hoff⟩ | ⟨y, hcall, d, ⟨hentered, hshows, hfails⟩, hoff⟩)
    · exact ⟨_, h, hoff⟩
    · exact ⟨d, ⟨.head hcall hentered, hshows, hfails⟩, hoff⟩

theorem noted_iff_calls {x : Stage ρ} (hx : ∀ r, x.task ≠ .once (.rule r)) :
    Noted g x p ↔ ∃ y, Calls g x y ∧ Noted g y p := by
  rw [noted_iff, or_iff_right]
  rintro ⟨hrule, -⟩
  rw [hrule] at hx
  exact hx p.1 rfl

theorem not_noted_char {accept : Char → Bool} : ¬ Noted g ⟨m, .once (.char accept), c⟩ p := by
  rw [noted_iff_calls (by simp)]
  rintro ⟨y, ⟨⟩, -⟩

theorem not_noted_text {cs : List Char} : ¬ Noted g ⟨m, .once (.text cs), c⟩ p := by
  rw [noted_iff_calls (by simp)]
  rintro ⟨y, ⟨⟩, -⟩

theorem noted_seq_iff :
    Noted g ⟨m, .once (.seq a b), c⟩ p ↔ Noted g ⟨m, .once a, c⟩ p ∨
      ∃ d ns, Takes g m a c d ns ∧ Noted g ⟨m, .once b, m.skip g d⟩ p := by
  rw [noted_iff_calls (by simp)]
  constructor
  · rintro ⟨y, hcall, hy⟩
    cases hcall with
    | seqFirst => exact .inl hy
    | seqSecond h => exact .inr ⟨_, _, h, hy⟩
  · rintro (h | ⟨d, ns, hd, h⟩)
    · exact ⟨_, .seqFirst, h⟩
    · exact ⟨_, .seqSecond hd, h⟩

theorem noted_choice_iff :
    Noted g ⟨m, .once (.choice a b), c⟩ p ↔ Noted g ⟨m, .once a, c⟩ p ∨
      Fails g m a c ∧ Noted g ⟨m, .once b, c⟩ p := by
  rw [noted_iff_calls (by simp)]
  constructor
  · rintro ⟨y, hcall, hy⟩
    cases hcall with
    | choiceFirst => exact .inl hy
    | choiceSecond h => exact .inr ⟨h, hy⟩
  · rintro (h | ⟨hfail, h⟩)
    · exact ⟨_, .choiceFirst, h⟩
    · exact ⟨_, .choiceSecond hfail, h⟩

theorem noted_maybe_iff : Noted g ⟨m, .once (.maybe a), c⟩ p ↔ Noted g ⟨m, .once a, c⟩ p := by
  rw [noted_iff_calls (by simp)]
  constructor
  · rintro ⟨y, ⟨⟩, hy⟩
    exact hy
  · exact fun h => ⟨_, .maybe, h⟩

theorem noted_many_iff :
    Noted g ⟨m, .once (.many a), c⟩ p ↔ Noted g ⟨m, .once a, c⟩ p ∨
      ∃ d ns, Takes g m a c d ns ∧ Noted g ⟨m, .again a, d⟩ p := by
  rw [noted_iff_calls (by simp)]
  constructor
  · rintro ⟨y, hcall, hy⟩
    cases hcall with
    | many => exact .inl hy
    | manyMore h => exact .inr ⟨_, _, h, hy⟩
  · rintro (h | ⟨d, ns, hd, h⟩)
    · exact ⟨_, .many, h⟩
    · exact ⟨_, .manyMore hd, h⟩

theorem noted_again_iff :
    Noted g ⟨m, .again a, c⟩ p ↔ Noted g ⟨m, .once a, m.skip g c⟩ p ∨
      ∃ d ns, Takes g m a (m.skip g c) d ns ∧ Noted g ⟨m, .again a, d⟩ p := by
  rw [noted_iff_calls (by simp)]
  constructor
  · rintro ⟨y, hcall, hy⟩
    cases hcall with
    | again => exact .inl hy
    | againMore h => exact .inr ⟨_, _, h, hy⟩
  · rintro (h | ⟨d, ns, hd, h⟩)
    · exact ⟨_, .again, h⟩
    · exact ⟨_, .againMore hd, h⟩

theorem noted_rule_iff {r : ρ} :
    Noted g ⟨m, .once (.rule r), c⟩ p ↔
      (m.shows (g.production r).shape = true ∧ Fails g m (.rule r) c ∧ p = (r, c.offset)) ∨
        Noted g ⟨m.enter (g.production r).shape, .once (g.production r).body, c⟩ p := by
  have hshows : m.shows (g.production r).shape = true ↔
      m = .spaced ∧ (g.production r).shape ≠ .silent := by
    cases m <;> cases (g.production r).shape <;> simp [Mode.shows]
  obtain ⟨r', n⟩ := p
  rw [noted_iff]
  refine or_congr ?_ ⟨?_, fun h => ⟨_, .rule, h⟩⟩
  · rw [hshows]
    constructor
    · rintro ⟨hx, hfails, hoff⟩
      cases hx
      exact ⟨⟨rfl, hfails.shows⟩, hfails.fails, Prod.ext rfl hoff.symm⟩
    · rintro ⟨⟨rfl, hsilent⟩, hfails, hp⟩
      cases hp
      exact ⟨rfl, ⟨.refl, hsilent, hfails⟩, rfl⟩
  · rintro ⟨y, ⟨⟩, hy⟩
    exact hy

end Noted

namespace Expr

def ruleFree : Expr ρ → Bool
  | .char _ | .text _ => true
  | .seq a b | .choice a b => a.ruleFree && b.ruleFree
  | .maybe a | .many a | .never a => a.ruleFree
  | .rule _ => false

/-- Whether an expression calls no rule to look ahead. -/
def looksPlainly : Expr ρ → Bool
  | .char _ | .text _ | .rule _ => true
  | .seq a b | .choice a b => a.looksPlainly && b.looksPlainly
  | .maybe a | .many a => a.looksPlainly
  | .never a => a.ruleFree

end Expr

def Task.ruleFree : Task ρ → Bool
  | .once e | .again e => e.ruleFree

theorem Calls.ruleFree {x y : Stage ρ} (h : Calls g x y) (hx : x.task.ruleFree = true) :
    y.task.ruleFree = true := by
  cases h with
  | seqFirst | choiceFirst =>
    simp only [Task.ruleFree, Expr.ruleFree, Bool.and_eq_true] at hx ⊢
    exact hx.1
  | seqSecond | choiceSecond =>
    simp only [Task.ruleFree, Expr.ruleFree, Bool.and_eq_true] at hx ⊢
    exact hx.2
  | maybe | never | many | manyMore | again | againMore => exact hx
  | rule => cases hx

theorem not_noted_of_ruleFree {x : Stage ρ} (hx : x.task.ruleFree = true) {p : ρ × Nat} :
    ¬ Noted g x p := by
  rintro ⟨c, ⟨hentered, -, -⟩, -⟩
  have hfree : ∀ y, ComesTo g x y → y.task.ruleFree = true := by
    intro y hy
    induction hy with
    | refl => exact hx
    | tail _ hcall ih => exact hcall.ruleFree ih
  exact absurd (hfree _ hentered) (by simp [Task.ruleFree, Expr.ruleFree])

section Traces

variable {m : Mode} {call : ρ → Cursor → Run ρ} {p : ρ × Nat}

def Run.Traces (g : Grammar ρ) (run : Run ρ) (x : Stage ρ) : Prop :=
  run.outcome ≠ .exhausted → ∀ p, p ∈ run.trace.failures ↔ Noted g x p

theorem Run.mem_failures_andThen {run : Run ρ} {next : Cursor → Run ρ} :
    p ∈ (run.andThen next).trace.failures ↔ p ∈ run.trace.failures ∨
      ∃ d ns, run.outcome = .matched d ns ∧ p ∈ (next d).trace.failures := by
  unfold andThen
  cases ho : run.outcome with
  | matched d ns => cases hn : (next d).outcome <;> simp [hn, Trace.failures]
  | failed => simp
  | exhausted => simp

theorem Run.mem_failures_orElse {run : Run ρ} {next : Unit → Run ρ} :
    p ∈ (run.orElse next).trace.failures ↔ p ∈ run.trace.failures ∨
      run.outcome = .failed ∧ p ∈ (next ()).trace.failures := by
  unfold orElse
  cases ho : run.outcome <;> simp [Trace.failures]

section Ends

variable {run : Run ρ} {a : Expr ρ} {c d : Cursor} {ns : List (Node ρ)}
    (hyields : ∀ x, run.outcome.reading? = some x → Yields g m (.once a) c x)
    (hends : run.outcome ≠ .exhausted)

include hyields hends

theorem Run.takes_iff_matched : Takes g m a c d ns ↔ run.outcome = .matched d ns := by
  constructor
  · intro htakes
    cases ho : run.outcome with
    | exhausted => exact absurd ho hends
    | matched d' ns' =>
      cases htakes.unique (hyields _ (Outcome.reading?_eq_matched.2 ho))
      rfl
    | failed => cases htakes.unique (hyields _ (Outcome.reading?_eq_failed.2 ho))
  · exact fun ho => hyields _ (Outcome.reading?_eq_matched.2 ho)

theorem Run.fails_iff_failed : Fails g m a c ↔ run.outcome = .failed := by
  constructor
  · intro hfails
    cases ho : run.outcome with
    | exhausted => exact absurd ho hends
    | matched d ns => cases hfails.unique (hyields _ (Outcome.reading?_eq_matched.2 ho))
    | failed => rfl
  · exact fun ho => hyields _ (Outcome.reading?_eq_failed.2 ho)

end Ends

theorem Run.mem_failures_repeatFrom {a : Expr ρ} {step : Cursor → Run ρ}
    (hstep : ∀ c x, (step c).outcome.reading? = some x → Yields g m (.once a) (m.skip g c) x)
    (htraces : ∀ c, (step c).Traces g ⟨m, .once a, m.skip g c⟩) (budget : List Char) (c : Cursor)
    (nodes : List (Node ρ)) (trace : Trace ρ)
    (hends : (repeatFrom step budget c nodes trace).outcome ≠ .exhausted) :
    p ∈ (repeatFrom step budget c nodes trace).trace.failures ↔
      p ∈ trace.failures ∨ Noted g ⟨m, .again a, c⟩ p := by
  have hnoted : ∀ d, (step d).outcome ≠ .exhausted → (Noted g ⟨m, .again a, d⟩ p ↔
      p ∈ (step d).trace.failures ∨
        ∃ e ns, (step d).outcome = .matched e ns ∧ Noted g ⟨m, .again a, e⟩ p) := by
    intro d hd
    rw [noted_again_iff, htraces d hd p]
    simp only [Run.takes_iff_matched (hstep d) hd]
  induction budget generalizing c nodes trace with
  | nil =>
    unfold repeatFrom at hends ⊢
    cases ho : (step c).outcome with
    | matched d ns => simp [ho] at hends
    | exhausted => simp [ho] at hends
    | failed => simp [hnoted c (by simp [ho]), ho, Trace.failures]
  | cons _ budget ih =>
    unfold repeatFrom at hends ⊢
    cases ho : (step c).outcome with
    | exhausted => simp [ho] at hends
    | failed => simp [hnoted c (by simp [ho]), ho, Trace.failures]
    | matched d ns =>
      simp only [ho] at hends ⊢
      refine (ih d _ _ hends).trans ?_
      rw [hnoted c (by simp [ho])]
      simp [ho, Trace.failures, or_assoc]

/-- The run of an expression traces the expression if calls trace the rules that they run. -/
theorem Expr.eval_traces (hs : SoundCall g m call)
    (hcall : ∀ r c, (call r c).Traces g ⟨m, .once (.rule r), c⟩) (e : Expr ρ)
    (he : e.looksPlainly = true) (c : Cursor) :
    (e.eval (m.skip g) call c).Traces g ⟨m, .once e, c⟩ := by
  induction e generalizing c with
  | char accept =>
    intro _ p
    unfold Expr.eval
    cases c.char? accept <;>
      simp [Run.ofCursor?, Run.matched, Run.failed, Trace.failures, not_noted_char]
  | text cs =>
    intro _ p
    unfold Expr.eval
    cases c.text? cs <;>
      simp [Run.ofCursor?, Run.matched, Run.failed, Trace.failures, not_noted_text]
  | seq a b iha ihb =>
    simp only [looksPlainly, Bool.and_eq_true] at he
    intro hends p
    rw [Expr.eval, Run.andThen_outcome] at hends
    have hfirst : (a.eval (m.skip g) call c).outcome ≠ .exhausted := by
      intro ho
      simp [ho] at hends
    rw [Expr.eval, Run.mem_failures_andThen, noted_seq_iff, iha he.1 c hfirst p]
    refine or_congr_right (exists₂_congr fun d ns => ?_)
    rw [Run.takes_iff_matched (Expr.eval_yields hs a c) hfirst]
    refine and_congr_right fun ho => ihb he.2 (m.skip g d) ?_ p
    intro ho'
    simp [ho, ho'] at hends
  | choice a b iha ihb =>
    simp only [looksPlainly, Bool.and_eq_true] at he
    intro hends p
    rw [Expr.eval, Run.orElse_outcome] at hends
    have hfirst : (a.eval (m.skip g) call c).outcome ≠ .exhausted := by
      intro ho
      simp [ho] at hends
    rw [Expr.eval, Run.mem_failures_orElse, noted_choice_iff, iha he.1 c hfirst p,
      Run.fails_iff_failed (Expr.eval_yields hs a c) hfirst]
    refine or_congr_right (and_congr_right fun ho => ihb he.2 c ?_ p)
    simpa only [ho] using hends
  | maybe a iha =>
    intro hends p
    rw [Expr.eval, Run.orElse_outcome] at hends
    rw [Expr.eval, Run.mem_failures_orElse, noted_maybe_iff]
    have hrun : (a.eval (m.skip g) call c).outcome ≠ .exhausted := by
      intro ho
      simp [ho] at hends
    rw [iha he c hrun p]
    simp [Run.matched, Trace.failures]
  | many a iha =>
    intro hends p
    have hfirst : (a.eval (m.skip g) call c).outcome ≠ .exhausted := by
      intro ho
      simp [Expr.eval, Run.many, ho] at hends
    rw [noted_many_iff, ← iha he c hfirst p]
    simp only [Run.takes_iff_matched (Expr.eval_yields hs a c) hfirst]
    rw [Expr.eval, Run.many] at hends ⊢
    cases ho : (a.eval (m.skip g) call c).outcome with
    | exhausted => exact absurd ho hfirst
    | failed => simp
    | matched d ns =>
      simp only [ho] at hends ⊢
      rw [Run.mem_failures_repeatFrom (fun c x hx => Expr.eval_yields hs a (m.skip g c) x hx)
        (fun c => iha he (m.skip g c)) _ _ _ _ hends]
      simp
  | never a iha =>
    intro _ p
    have hfree : (Task.once (Expr.never a)).ruleFree = true := he
    refine iff_of_false ?_ (not_noted_of_ruleFree hfree)
    unfold Expr.eval Run.invert
    cases (a.eval (m.skip g) call c).outcome <;>
      simp [Run.matched, Run.failed, Run.exhausted, Trace.failures]
  | rule r => exact hcall r c

theorem Grammar.run_traces (hg : ∀ r, (g.production r).body.looksPlainly = true) (depth : Nat)
    (m : Mode) (r : ρ) (c : Cursor) : (g.run depth m r c).Traces g ⟨m, .once (.rule r), c⟩ := by
  induction depth generalizing m r c with
  | zero => exact fun hends => absurd rfl hends
  | succ depth ih =>
    intro hends p
    have hbody := Expr.eval_traces (Grammar.run_yields depth (m.enter (g.production r).shape))
      (ih (m.enter (g.production r).shape)) (g.production r).body (hg r) c
    have hyields := Expr.eval_yields (Grammar.run_yields (g := g) depth
      (m.enter (g.production r).shape)) (g.production r).body c
    rw [noted_rule_iff]
    unfold Grammar.run at hends ⊢
    dsimp only at hends ⊢
    generalize (g.production r).body.eval _ _ c = run at hends hbody hyields ⊢
    cases hs : m.shows (g.production r).shape with
    | false =>
      simp only [hs, Bool.false_eq_true, ↓reduceIte, false_and, false_or] at hends ⊢
      exact hbody hends p
    | true =>
      simp only [hs, ↓reduceIte, true_and, Run.wrap] at hends ⊢
      cases ho : run.outcome with
      | exhausted => simp [ho] at hends
      | matched d ns =>
        have htakes : Takes g m (.rule r) c d [⟨r, c, d, ns⟩] :=
          .ruleShown hs (hyields _ (Outcome.reading?_eq_matched.2 ho))
        simp only [hbody (by simp [ho]) p]
        refine (or_iff_right ?_).symm
        rintro ⟨hfails, -⟩
        cases htakes.unique hfails
      | failed =>
        have hfails : Fails g m (.rule r) c :=
          .ruleFail (hyields _ (Outcome.reading?_eq_failed.2 ho))
        simp only [Trace.failures, List.mem_append, List.mem_singleton,
          hbody (by simp [ho]) p, hfails, true_and]
        exact or_comm

end Traces

section Furthest

variable {f f' f'' : Furthest ρ} {fs fs' : List (ρ × Nat)}

/-- `f'` is the furthest that is known when the failures `fs` have come after `f`. -/
structure Furthest.Covers (f f' : Furthest ρ) (fs : List (ρ × Nat)) : Prop where
  offset_le : f.offset ≤ f'.offset
  reached : ∀ p ∈ fs, p.2 ≤ f'.offset
  failed : ∀ r ∈ f'.expected, (r, f'.offset) ∈ fs ∨ f'.offset = f.offset ∧ r ∈ f.expected
  /-- Only where nothing has failed is no rule expected. -/
  empty : f'.expected = [] → f'.offset = 0 ∧ fs = [] ∧ f.expected = []

theorem Furthest.Covers.trans (h : Covers f f' fs) (h' : Covers f' f'' fs') :
    Covers f f'' (fs ++ fs') where
  offset_le := Nat.le_trans h.offset_le h'.offset_le
  reached p hp := by
    rcases List.mem_append.1 hp with hp | hp
    · exact Nat.le_trans (h.reached p hp) h'.offset_le
    · exact h'.reached p hp
  failed r hr := by
    rcases h'.failed r hr with hmem | ⟨hoff, hr'⟩
    · exact .inl (List.mem_append_right _ hmem)
    · rw [hoff]
      exact (h.failed r hr').imp_left (List.mem_append_left _)
  empty he := by
    obtain ⟨hoff, rfl, he'⟩ := h'.empty he
    obtain ⟨-, rfl, he''⟩ := h.empty he'
    exact ⟨hoff, rfl, he''⟩

/-- A rule that fails is recorded in place of what failed inside it. -/
theorem Furthest.covers_record (h : Covers f f' fs) (r : ρ) (n : Nat) :
    Covers f (f.record f' r n) (fs ++ [(r, n)]) := by
  have hfailed : ∀ r' ∈ f'.expected, (r', f'.offset) ∈ fs ++ [(r, n)] ∨
      f'.offset = f.offset ∧ r' ∈ f.expected :=
    fun r' hr' => (h.failed r' hr').imp_left (List.mem_append_left _)
  unfold record
  split
  · -- one rule failed inside at the same place, so this place is the furthest one
    rename_i hone
    by_cases hn : n = f'.offset
    · subst hn
      refine ⟨h.offset_le, List.forall_mem_append.2 ⟨h.reached, by simp⟩, hfailed, fun he => ?_⟩
      simp [countAt, he] at hone
    · simp [countAt, hn] at hone
  · split
    · rename_i hn
      subst hn
      refine ⟨h.offset_le, List.forall_mem_append.2 ⟨h.reached, by simp⟩, ?_, by simp⟩
      intro r' hr'
      rcases List.mem_append.1 hr' with hr' | hr'
      · exact hfailed r' (List.mem_of_mem_take hr')
      · exact .inl (List.mem_append_right _ (by simp [List.mem_singleton.1 hr']))
    · split
      · rename_i hlt
        have hreached : ∀ p ∈ fs, p.2 ≤ n :=
          fun p hp => Nat.le_trans (h.reached p hp) (Nat.le_of_lt hlt)
        exact ⟨Nat.le_trans h.offset_le (Nat.le_of_lt hlt),
          List.forall_mem_append.2 ⟨hreached, by simp⟩, by simp, by simp⟩
      · rename_i hne hle
        refine ⟨h.offset_le, List.forall_mem_append.2 ⟨h.reached, ?_⟩, hfailed, fun he => ?_⟩
        · simpa using hle
        · obtain ⟨hoff, -, -⟩ := h.empty he
          omega

theorem Trace.covers_furthestFrom (t : Trace ρ) (f : Furthest ρ)
    (hf : f.expected = [] → f.offset = 0) : f.Covers (t.furthestFrom f) t.failures := by
  induction t generalizing f with
  | none => exact ⟨Nat.le_refl _, by simp [failures], fun r hr => .inr ⟨rfl, hr⟩,
      fun he => ⟨hf he, rfl, he⟩⟩
  | append a b iha ihb =>
    have ha := iha f hf
    exact ha.trans (ihb _ fun he => (ha.empty he).1)
  | failed r n inner ih => exact Furthest.covers_record (ih f hf) r n

/-- The furthest failure of a trace that holds one is at the greatest offset, and every rule that it
names failed there. -/
theorem Trace.furthest_spec {t : Trace ρ} (ht : t.failures ≠ []) :
    (∀ p ∈ t.failures, p.2 ≤ t.furthest.offset) ∧ t.furthest.expected ≠ [] ∧
      ∀ r ∈ t.furthest.expected, (r, t.furthest.offset) ∈ t.failures := by
  have h := t.covers_furthestFrom .start fun _ => rfl
  refine ⟨h.reached, fun he => ht (h.empty he).2.1, fun r hr => ?_⟩
  exact (h.failed r hr).resolve_right (by simp [Furthest.start])

end Furthest

end SolidityStubs.Peg
