import SolidityStubs.Peg.Run

/-! # Readings of a grammar

`Yields` gives the readings of a grammar as a relation, without a bound on depth. Each expression has
at most one reading at a position, and a run that is not exhausted comes to it.
-/
namespace SolidityStubs.Peg

variable {ρ : Type} {g : Grammar ρ}

abbrev Reading (ρ : Type) := Option (Cursor × List (Node ρ))

/-- An expression taken once, or taken again, after a first time, as often as it succeeds. -/
inductive Task (ρ : Type)
  | once (e : Expr ρ)
  | again (e : Expr ρ)

inductive Yields (g : Grammar ρ) : Mode → Task ρ → Cursor → Reading ρ → Prop
  | char {m accept c d} (h : c.char? accept = some d) :
      Yields g m (.once (.char accept)) c (some (d, []))
  | charFail {m accept c} (h : c.char? accept = none) : Yields g m (.once (.char accept)) c none
  | text {m cs c d} (h : c.text? cs = some d) : Yields g m (.once (.text cs)) c (some (d, []))
  | textFail {m cs c} (h : c.text? cs = none) : Yields g m (.once (.text cs)) c none
  | seq {m a b c d e ns ns'} (ha : Yields g m (.once a) c (some (d, ns)))
      (hb : Yields g m (.once b) (m.skip g d) (some (e, ns'))) :
      Yields g m (.once (.seq a b)) c (some (e, ns ++ ns'))
  | seqFirst {m a b c} (ha : Yields g m (.once a) c none) : Yields g m (.once (.seq a b)) c none
  | seqSecond {m a b c d ns} (ha : Yields g m (.once a) c (some (d, ns)))
      (hb : Yields g m (.once b) (m.skip g d) none) : Yields g m (.once (.seq a b)) c none
  | choiceLeft {m a b c p} (ha : Yields g m (.once a) c (some p)) :
      Yields g m (.once (.choice a b)) c (some p)
  | choiceRight {m a b c r} (ha : Yields g m (.once a) c none) (hb : Yields g m (.once b) c r) :
      Yields g m (.once (.choice a b)) c r
  | maybe {m a c p} (ha : Yields g m (.once a) c (some p)) :
      Yields g m (.once (.maybe a)) c (some p)
  | maybeNot {m a c} (ha : Yields g m (.once a) c none) :
      Yields g m (.once (.maybe a)) c (some (c, []))
  | many {m a c d e ns ns'} (ha : Yields g m (.once a) c (some (d, ns)))
      (hs : Yields g m (.again a) d (some (e, ns'))) :
      Yields g m (.once (.many a)) c (some (e, ns ++ ns'))
  | manyNot {m a c} (ha : Yields g m (.once a) c none) :
      Yields g m (.once (.many a)) c (some (c, []))
  | again {m a c d e ns ns'} (ha : Yields g m (.once a) (m.skip g c) (some (d, ns)))
      (hs : Yields g m (.again a) d (some (e, ns'))) :
      Yields g m (.again a) c (some (e, ns ++ ns'))
  | againNot {m a c} (ha : Yields g m (.once a) (m.skip g c) none) :
      Yields g m (.again a) c (some (c, []))
  | never {m a c} (ha : Yields g m (.once a) c none) : Yields g m (.once (.never a)) c (some (c, []))
  | neverFail {m a c p} (ha : Yields g m (.once a) c (some p)) : Yields g m (.once (.never a)) c none
  | ruleShown {m r c d ns} (hs : m.shows (g.production r).shape = true)
      (hb : Yields g (m.enter (g.production r).shape) (.once (g.production r).body) c
        (some (d, ns))) :
      Yields g m (.once (.rule r)) c (some (d, [⟨r, c, d, ns⟩]))
  | ruleHidden {m r c p} (hs : m.shows (g.production r).shape = false)
      (hb : Yields g (m.enter (g.production r).shape) (.once (g.production r).body) c (some p)) :
      Yields g m (.once (.rule r)) c (some p)
  | ruleFail {m r c}
      (hb : Yields g (m.enter (g.production r).shape) (.once (g.production r).body) c none) :
      Yields g m (.once (.rule r)) c none

/-- The expression matches from `c` to `d` and leaves `ns`. -/
abbrev Takes (g : Grammar ρ) (m : Mode) (e : Expr ρ) (c d : Cursor) (ns : List (Node ρ)) : Prop :=
  Yields g m (.once e) c (some (d, ns))

abbrev Fails (g : Grammar ρ) (m : Mode) (e : Expr ρ) (c : Cursor) : Prop :=
  Yields g m (.once e) c none

theorem Yields.unique {m : Mode} {t : Task ρ} {c : Cursor} {r r' : Reading ρ}
    (h : Yields g m t c r) (h' : Yields g m t c r') : r = r' := by
  induction h generalizing r' with
  | char h => cases h' <;> simp_all
  | charFail h => cases h' <;> simp_all
  | text h => cases h' <;> simp_all
  | textFail h => cases h' <;> simp_all
  | seq _ _ iha ihb =>
    cases h' with
    | seq ha hb =>
      cases iha ha
      cases ihb hb
      rfl
    | seqFirst ha => cases iha ha
    | seqSecond ha hb =>
      cases iha ha
      cases ihb hb
  | seqFirst _ iha =>
    cases h' with
    | seq ha _ => cases iha ha
    | seqFirst _ => rfl
    | seqSecond ha _ => cases iha ha
  | seqSecond _ _ iha ihb =>
    cases h' with
    | seq ha hb =>
      cases iha ha
      cases ihb hb
    | seqFirst _ => rfl
    | seqSecond _ _ => rfl
  | choiceLeft _ iha =>
    cases h' with
    | choiceLeft ha => exact iha ha
    | choiceRight ha _ => cases iha ha
  | choiceRight _ _ iha ihb =>
    cases h' with
    | choiceLeft ha => cases iha ha
    | choiceRight _ hb => exact ihb hb
  | maybe _ iha =>
    cases h' with
    | maybe ha => exact iha ha
    | maybeNot ha => cases iha ha
  | maybeNot _ iha =>
    cases h' with
    | maybe ha => cases iha ha
    | maybeNot _ => rfl
  | many _ _ iha ihs =>
    cases h' with
    | many ha hs =>
      cases iha ha
      cases ihs hs
      rfl
    | manyNot ha => cases iha ha
  | manyNot _ iha =>
    cases h' with
    | many ha _ => cases iha ha
    | manyNot _ => rfl
  | again _ _ iha ihs =>
    cases h' with
    | again ha hs =>
      cases iha ha
      cases ihs hs
      rfl
    | againNot ha => cases iha ha
  | againNot _ iha =>
    cases h' with
    | again ha _ => cases iha ha
    | againNot _ => rfl
  | never _ iha =>
    cases h' with
    | never _ => rfl
    | neverFail ha => cases iha ha
  | neverFail _ iha =>
    cases h' with
    | never ha => cases iha ha
    | neverFail _ => rfl
  | ruleShown hs _ ihb =>
    cases h' with
    | ruleShown _ hb =>
      cases ihb hb
      rfl
    | ruleHidden hs' _ => simp [hs] at hs'
    | ruleFail hb => cases ihb hb
  | ruleHidden hs _ ihb =>
    cases h' with
    | ruleShown hs' _ => simp [hs] at hs'
    | ruleHidden _ hb => exact ihb hb
    | ruleFail hb => cases ihb hb
  | ruleFail _ ihb =>
    cases h' with
    | ruleShown _ hb => cases ihb hb
    | ruleHidden _ hb => cases ihb hb
    | ruleFail _ => rfl

theorem takes_seq_iff {m : Mode} {a b : Expr ρ} {c e : Cursor} {ns : List (Node ρ)} :
    Takes g m (.seq a b) c e ns ↔
      ∃ d as bs, Takes g m a c d as ∧ Takes g m b (m.skip g d) e bs ∧ ns = as ++ bs := by
  constructor
  · intro h
    cases h with
    | seq ha hb => exact ⟨_, _, _, ha, hb, rfl⟩
  · rintro ⟨d, as, bs, ha, hb, rfl⟩
    exact .seq ha hb

theorem Takes.seq_nil {m : Mode} {a b : Expr ρ} {c d e : Cursor} (ha : Takes g m a c d [])
    (hb : Takes g m b (m.skip g d) e []) : Takes g m (.seq a b) c e [] :=
  takes_seq_iff.2 ⟨d, [], [], ha, hb, rfl⟩

theorem takes_rule_iff {r : ρ} (hs : (g.production r).shape ≠ .silent) {c d : Cursor}
    {ns : List (Node ρ)} :
    Takes g .spaced (.rule r) c d ns ↔
      ∃ children, Takes g (Mode.spaced.enter (g.production r).shape) (g.production r).body c d
        children ∧ ns = [⟨r, c, d, children⟩] := by
  have hshows : Mode.spaced.shows (g.production r).shape = true := by
    cases h : (g.production r).shape <;> simp_all [Mode.shows]
  constructor
  · intro h
    cases h with
    | ruleShown _ hb => exact ⟨_, hb, rfl⟩
    | ruleHidden hh => simp [hshows] at hh
  · rintro ⟨children, hb, rfl⟩
    exact .ruleShown hshows hb

def Outcome.reading? : Outcome ρ → Option (Reading ρ)
  | .matched d ns => some (some (d, ns))
  | .failed => some none
  | .exhausted => none

@[simp]
theorem Outcome.reading?_eq_matched {o : Outcome ρ} {d : Cursor} {ns : List (Node ρ)} :
    o.reading? = some (some (d, ns)) ↔ o = .matched d ns := by
  cases o <;> simp [reading?]

@[simp]
theorem Outcome.reading?_eq_failed {o : Outcome ρ} : o.reading? = some none ↔ o = .failed := by
  cases o <;> simp [reading?]

@[simp]
theorem Outcome.reading?_eq_none {o : Outcome ρ} : o.reading? = none ↔ o = .exhausted := by
  cases o <;> simp [reading?]

def SoundCall (g : Grammar ρ) (m : Mode) (call : ρ → Cursor → Run ρ) : Prop :=
  ∀ r c x, (call r c).outcome.reading? = some x → Yields g m (.once (.rule r)) c x

theorem Run.andThen_outcome (run : Run ρ) (next : Cursor → Run ρ) :
    (run.andThen next).outcome =
      match run.outcome with
      | .matched d ns =>
        match (next d).outcome with
        | .matched e ns' => .matched e (ns ++ ns')
        | o => o
      | o => o := by
  unfold andThen
  cases hr : run.outcome with
  | matched d ns => cases hn : (next d).outcome <;> simp [hn]
  | failed => simp [hr]
  | exhausted => simp [hr]

theorem Run.orElse_outcome (run : Run ρ) (next : Unit → Run ρ) :
    (run.orElse next).outcome =
      match run.outcome with
      | .failed => (next ()).outcome
      | o => o := by
  unfold orElse
  cases hr : run.outcome <;> simp [hr]

/-- A repetition comes to what the repeated expression, taken again and again, comes to. The nodes
that came before are kept, latest first. -/
theorem Run.repeatFrom_yields {m : Mode} {a : Expr ρ} {step : Cursor → Run ρ}
    (hstep : ∀ c x, (step c).outcome.reading? = some x → Yields g m (.once a) (m.skip g c) x)
    (budget : List Char) (c : Cursor) (nodes : List (Node ρ)) (trace : Trace ρ) (x : Reading ρ)
    (h : (repeatFrom step budget c nodes trace).outcome.reading? = some x) :
    ∃ d ns, x = some (d, nodes.reverse ++ ns) ∧ Yields g m (.again a) c (some (d, ns)) := by
  induction budget generalizing c nodes trace with
  | nil =>
    unfold repeatFrom at h
    cases hs : (step c).outcome with
    | matched d ns => simp [hs, Outcome.reading?] at h
    | failed =>
      simp only [hs, Outcome.reading?, Option.some.injEq] at h
      exact ⟨c, [], by simp [← h], .againNot (hstep c none (by simp [hs]))⟩
    | exhausted => simp [hs, Outcome.reading?] at h
  | cons _ budget ih =>
    unfold repeatFrom at h
    cases hs : (step c).outcome with
    | matched d ns =>
      simp only [hs] at h
      obtain ⟨e, ns', hx, hy⟩ := ih d (ns.reverse ++ nodes) _ h
      refine ⟨e, ns ++ ns', ?_, .again (hstep c _ (Outcome.reading?_eq_matched.2 hs)) hy⟩
      simpa using hx
    | failed =>
      simp only [hs, Outcome.reading?, Option.some.injEq] at h
      exact ⟨c, [], by simp [← h], .againNot (hstep c none (by simp [hs]))⟩
    | exhausted => simp [hs, Outcome.reading?] at h

theorem Run.many_yields {m : Mode} {a : Expr ρ} (first : Cursor → Run ρ)
    (hfirst : ∀ c x, (first c).outcome.reading? = some x → Yields g m (.once a) c x) {c : Cursor}
    {x : Reading ρ}
    (h : (Run.many first (fun d => first (m.skip g d)) c).outcome.reading? = some x) :
    Yields g m (.once (.many a)) c x := by
  unfold Run.many at h
  cases hf : (first c).outcome with
  | matched d ns =>
    simp only [hf] at h
    obtain ⟨e, ns', rfl, hy⟩ := repeatFrom_yields (g := g) (m := m) (a := a)
      (fun c x hx => hfirst (m.skip g c) x hx) _ _ _ _ _ h
    simpa using Yields.many (hfirst c _ (Outcome.reading?_eq_matched.2 hf)) hy
  | failed =>
    simp only [hf, Outcome.reading?, Option.some.injEq] at h
    subst h
    exact .manyNot (hfirst c none (by simp [hf]))
  | exhausted => simp [hf, Outcome.reading?] at h

theorem Expr.eval_yields {m : Mode} {call : ρ → Cursor → Run ρ} (hc : SoundCall g m call)
    (e : Expr ρ) (c : Cursor) (x : Reading ρ)
    (h : (e.eval (m.skip g) call c).outcome.reading? = some x) : Yields g m (.once e) c x := by
  induction e generalizing c x with
  | char accept =>
    unfold Expr.eval at h
    cases hd : c.char? accept <;> rw [hd] at h <;> cases h
    · exact .charFail hd
    · exact .char hd
  | text cs =>
    unfold Expr.eval at h
    cases hd : c.text? cs <;> rw [hd] at h <;> cases h
    · exact .textFail hd
    · exact .text hd
  | seq a b iha ihb =>
    rw [Expr.eval, Run.andThen_outcome] at h
    cases ha : (a.eval (m.skip g) call c).outcome with
    | matched d ns =>
      have hya := iha c _ (Outcome.reading?_eq_matched.2 ha)
      simp only [ha] at h
      cases hb : (b.eval (m.skip g) call (m.skip g d)).outcome with
      | matched e ns' =>
        simp only [hb] at h
        cases h
        exact .seq hya (ihb _ _ (Outcome.reading?_eq_matched.2 hb))
      | failed =>
        simp only [hb] at h
        cases h
        exact .seqSecond hya (ihb _ _ (Outcome.reading?_eq_failed.2 hb))
      | exhausted => simp [hb, Outcome.reading?] at h
    | failed =>
      simp only [ha] at h
      cases h
      exact .seqFirst (iha c _ (Outcome.reading?_eq_failed.2 ha))
    | exhausted => simp [ha, Outcome.reading?] at h
  | choice a b iha ihb =>
    rw [Expr.eval, Run.orElse_outcome] at h
    cases ha : (a.eval (m.skip g) call c).outcome with
    | matched d ns =>
      simp only [ha] at h
      cases h
      exact .choiceLeft (iha c _ (Outcome.reading?_eq_matched.2 ha))
    | failed =>
      simp only [ha] at h
      exact .choiceRight (iha c _ (Outcome.reading?_eq_failed.2 ha)) (ihb c x h)
    | exhausted => simp [ha, Outcome.reading?] at h
  | maybe a iha =>
    rw [Expr.eval, Run.orElse_outcome] at h
    cases ha : (a.eval (m.skip g) call c).outcome with
    | matched d ns =>
      simp only [ha] at h
      cases h
      exact .maybe (iha c _ (Outcome.reading?_eq_matched.2 ha))
    | failed =>
      simp only [ha] at h
      cases h
      exact .maybeNot (iha c _ (Outcome.reading?_eq_failed.2 ha))
    | exhausted => simp [ha, Outcome.reading?] at h
  | many a iha => exact Run.many_yields (a.eval (m.skip g) call) iha h
  | never a iha =>
    unfold Expr.eval Run.invert at h
    cases ha : (a.eval (m.skip g) call c).outcome with
    | matched d ns =>
      simp only [ha] at h
      cases h
      exact .neverFail (iha c _ (Outcome.reading?_eq_matched.2 ha))
    | failed =>
      simp only [ha] at h
      cases h
      exact .never (iha c _ (Outcome.reading?_eq_failed.2 ha))
    | exhausted => simp [ha, Outcome.reading?, Run.exhausted] at h
  | rule r => exact hc r c x h

theorem Grammar.run_yields (depth : Nat) (m : Mode) : SoundCall g m (g.run depth m) := by
  induction depth generalizing m with
  | zero =>
    intro r c x h
    simp [Grammar.run, Run.exhausted, Outcome.reading?] at h
  | succ depth ih =>
    intro r c x h
    have hbody := Expr.eval_yields (ih (m.enter (g.production r).shape)) (g.production r).body c
    unfold Grammar.run at h
    dsimp only at h
    generalize (g.production r).body.eval _ _ c = run at h hbody
    cases hs : m.shows (g.production r).shape with
    | false =>
      simp only [hs, Bool.false_eq_true, ↓reduceIte] at h
      cases x with
      | none => exact .ruleFail (hbody none h)
      | some p => exact .ruleHidden hs (hbody (some p) h)
    | true =>
      simp only [hs, ↓reduceIte, Run.wrap] at h
      cases ho : run.outcome with
      | matched d ns =>
        simp only [ho] at h
        cases h
        exact .ruleShown hs (hbody _ (Outcome.reading?_eq_matched.2 ho))
      | failed =>
        simp only [ho] at h
        cases h
        exact .ruleFail (hbody _ (Outcome.reading?_eq_failed.2 ho))
      | exhausted => simp [ho, Outcome.reading?] at h

end SolidityStubs.Peg
