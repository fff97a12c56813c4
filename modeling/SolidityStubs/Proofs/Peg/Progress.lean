import SolidityStubs.Proofs.Peg.Reading

/-! # Progress and termination

A reading only moves forward. `Expr.nullable` says which expressions can match nothing and
`Expr.heads` which rules they can call before they take a character. If no repeated expression can
match nothing and rules call each other at one position only along falling ranks, then a depth that
is linear in the text left suffices for every run.
-/
namespace SolidityStubs.Peg

variable {ρ : Type} {g : Grammar ρ}

namespace Cursor

/-- `d` is the position behind the characters `cs` at `c`. -/
def Passes (c : Cursor) (cs : List Char) (d : Cursor) : Prop :=
  c.rest = cs ++ d.rest ∧ d.offset = c.offset + Text.byteLength cs

theorem Passes.refl (c : Cursor) : c.Passes [] c := ⟨rfl, rfl⟩

theorem Passes.trans {c d e : Cursor} {as bs : List Char} (h : c.Passes as d) (h' : d.Passes bs e) :
    c.Passes (as ++ bs) e := by
  obtain ⟨hrest, hoff⟩ := h
  obtain ⟨hrest', hoff'⟩ := h'
  refine ⟨by simp [hrest, hrest'], ?_⟩
  rw [hoff', hoff, Text.byteLength_append]
  omega

theorem Passes.split {c d : Cursor} {as bs : List Char} (h : c.Passes (as ++ bs) d) :
    ∃ e, c.Passes as e ∧ e.Passes bs d := by
  obtain ⟨hrest, hoff⟩ := h
  refine ⟨⟨c.offset + Text.byteLength as, bs ++ d.rest⟩, ⟨?_, rfl⟩, rfl, ?_⟩
  · rw [hrest, List.append_assoc]
  · rw [hoff, Text.byteLength_append, Nat.add_assoc]

theorem Passes.eq_of_nil {c d : Cursor} (h : c.Passes [] d) : c = d := by
  obtain ⟨hrest, hoff⟩ := h
  cases c
  cases d
  simp_all

theorem Passes.length_le {c d : Cursor} {cs : List Char} (h : c.Passes cs d) :
    d.rest.length ≤ c.rest.length := by
  simp [h.1]

theorem Passes.upTo {c d : Cursor} {cs : List Char} (h : c.Passes cs d) : c.upTo d = cs := by
  obtain ⟨hrest, hoff⟩ := h
  rw [Cursor.upTo, hrest, hoff, Nat.add_sub_cancel_left, Text.takeBytes_append]

theorem char?_passes {accept : Char → Bool} {c d : Cursor} (h : c.char? accept = some d) :
    ∃ x, accept x = true ∧ c.Passes [x] d := by
  obtain ⟨n, cs⟩ := c
  cases cs with
  | nil => simp [char?] at h
  | cons x xs =>
    simp only [char?, Option.ite_none_right_eq_some, Option.some.injEq] at h
    obtain ⟨hx, rfl⟩ := h
    exact ⟨x, hx, rfl, by simp⟩

theorem text?_passes {cs : List Char} {c d : Cursor} (h : c.text? cs = some d) : c.Passes cs d := by
  induction cs generalizing c with
  | nil =>
    simp only [text?, Option.some.injEq] at h
    exact h ▸ .refl c
  | cons a as ih =>
    obtain ⟨n, xs⟩ := c
    cases xs with
    | nil => simp [text?] at h
    | cons x xs =>
      simp only [text?, Option.ite_none_right_eq_some, beq_iff_eq] at h
      obtain ⟨rfl, h⟩ := h
      have hx : Passes ⟨n, a :: xs⟩ [a] ⟨n + a.utf8Size, xs⟩ := ⟨rfl, by simp⟩
      exact hx.trans (ih h)

theorem text?_of_passes {cs : List Char} {c d : Cursor} (h : c.Passes cs d) : c.text? cs = some d := by
  induction cs generalizing c with
  | nil => rw [h.eq_of_nil, text?]
  | cons a as ih =>
    obtain ⟨n, xs⟩ := c
    obtain ⟨hrest, hoff⟩ := h
    simp only [List.cons_append] at hrest
    subst hrest
    simp only [text?, beq_self_eq_true, ↓reduceIte]
    exact ih ⟨rfl, by simp [hoff, Nat.add_assoc]⟩

theorem Passes.unique {cs : List Char} {c d d' : Cursor} (h : c.Passes cs d) (h' : c.Passes cs d') :
    d = d' :=
  Option.some.inj ((text?_of_passes h).symm.trans (text?_of_passes h'))

theorem text?_cons (c : Cursor) (y : Char) (ys : List Char) :
    c.text? (y :: ys) = (c.char? (y == ·)).bind (·.text? ys) := by
  obtain ⟨n, _ | ⟨z, zs⟩⟩ := c
  · rfl
  · by_cases hz : (y == z) = true <;> simp [text?, char?, hz]

end Cursor

def Grammar.SkipsForward (g : Grammar ρ) : Prop := ∀ c : Cursor, ∃ cs, c.Passes cs (g.skip c)

theorem Grammar.SkipsForward.mode (hg : g.SkipsForward) (m : Mode) (c : Cursor) :
    ∃ cs, c.Passes cs (m.skip g c) := by
  cases m with
  | spaced => exact hg c
  | tight => exact ⟨[], .refl c⟩

theorem Yields.passes (hg : g.SkipsForward) {m : Mode} {t : Task ρ} {c d : Cursor}
    {ns : List (Node ρ)} (h : Yields g m t c (some (d, ns))) : ∃ cs, c.Passes cs d := by
  generalize hx : some (d, ns) = x at h
  induction h generalizing d ns with
  | char h =>
    cases hx
    obtain ⟨x, -, hp⟩ := Cursor.char?_passes h
    exact ⟨_, hp⟩
  | text h =>
    cases hx
    exact ⟨_, Cursor.text?_passes h⟩
  | @seq m a b c e f _ _ _ _ iha ihb =>
    cases hx
    obtain ⟨as, ha⟩ := iha rfl
    obtain ⟨bs, hb⟩ := ihb rfl
    obtain ⟨ss, hs⟩ := hg.mode m e
    exact ⟨_, (ha.trans hs).trans hb⟩
  | choiceLeft _ ih => exact ih hx
  | choiceRight _ _ _ ih => exact ih hx
  | maybe _ ih => exact ih hx
  | many _ _ iha ihs =>
    cases hx
    obtain ⟨as, ha⟩ := iha rfl
    obtain ⟨bs, hb⟩ := ihs rfl
    exact ⟨_, ha.trans hb⟩
  | @again m a c e f _ _ _ _ iha ihs =>
    cases hx
    obtain ⟨as, ha⟩ := iha rfl
    obtain ⟨bs, hb⟩ := ihs rfl
    obtain ⟨ss, hs⟩ := hg.mode m c
    exact ⟨_, (hs.trans ha).trans hb⟩
  | maybeNot | manyNot | againNot | never =>
    cases hx
    exact ⟨[], .refl _⟩
  | ruleShown _ _ ih =>
    cases hx
    exact ih rfl
  | ruleHidden _ _ ih => exact ih hx
  | charFail | textFail | seqFirst | seqSecond | neverFail | ruleFail => cases hx

theorem Yields.length_le (hg : g.SkipsForward) {m : Mode} {t : Task ρ} {c d : Cursor}
    {ns : List (Node ρ)} (h : Yields g m t c (some (d, ns))) : d.rest.length ≤ c.rest.length := by
  obtain ⟨cs, hp⟩ := h.passes hg
  exact hp.length_le

theorem Grammar.SkipsForward.length_le (hg : g.SkipsForward) (m : Mode) (c : Cursor) :
    (m.skip g c).rest.length ≤ c.rest.length := by
  obtain ⟨cs, hp⟩ := hg.mode m c
  exact hp.length_le

namespace Expr

def nullable (free : ρ → Bool) : Expr ρ → Bool
  | .char _ => false
  | .text cs => cs.isEmpty
  | .seq a b => a.nullable free && b.nullable free
  | .choice a b => a.nullable free || b.nullable free
  | .maybe _ | .many _ | .never _ => true
  | .rule r => free r

def heads (free : ρ → Bool) : Expr ρ → List ρ
  | .char _ | .text _ => []
  | .seq a b => a.heads free ++ if a.nullable free then b.heads free else []
  | .choice a b => a.heads free ++ b.heads free
  | .maybe a | .many a | .never a => a.heads free
  | .rule r => [r]

/-- Whether no repeated expression can match nothing. -/
def repeatsProperly (free : ρ → Bool) : Expr ρ → Bool
  | .char _ | .text _ | .rule _ => true
  | .seq a b | .choice a b => a.repeatsProperly free && b.repeatsProperly free
  | .maybe a | .never a => a.repeatsProperly free
  | .many a => a.repeatsProperly free && !a.nullable free

end Expr

def Task.nullable (free : ρ → Bool) : Task ρ → Bool
  | .once e => e.nullable free
  | .again _ => true

/-- What makes runs end: padding lies in front, `free` holds of all rules that can match nothing,
repetitions make progress, and at one position a rule calls only rules of lower rank. -/
structure Grammar.Bounded (g : Grammar ρ) (free : ρ → Bool) (rank : ρ → Nat) (width : Nat) : Prop where
  skips : g.SkipsForward
  free_of_nullable : ∀ r, (g.production r).body.nullable free = true → free r = true
  repeats : ∀ r, (g.production r).body.repeatsProperly free = true
  rank_lt : ∀ r, ∀ r' ∈ (g.production r).body.heads free, rank r' < rank r
  rank_lt_width : ∀ r, rank r < width

variable {free : ρ → Bool} {rank : ρ → Nat} {width : Nat}

theorem Grammar.Bounded.nullable_body (hg : g.Bounded free rank width) {r : ρ}
    (h : free r = false) : (g.production r).body.nullable free = false := by
  cases hn : (g.production r).body.nullable free with
  | false => rfl
  | true => simp [hg.free_of_nullable r hn] at h

theorem Yields.length_lt (hg : g.Bounded free rank width) {m : Mode} {t : Task ρ} {c d : Cursor}
    {ns : List (Node ρ)} (h : Yields g m t c (some (d, ns))) (ht : t.nullable free = false) :
    d.rest.length < c.rest.length := by
  generalize hx : some (d, ns) = x at h
  induction h generalizing d ns with
  | char h =>
    cases hx
    obtain ⟨x, -, hp⟩ := Cursor.char?_passes h
    simp [hp.1]
  | @text m cs c _ h =>
    cases hx
    have hp := Cursor.text?_passes h
    cases cs with
    | nil => simp [Task.nullable, Expr.nullable] at ht
    | cons x xs =>
      have hlen := congrArg List.length hp.1
      simp only [List.length_append, List.length_cons] at hlen
      omega
  | @seq m a b c e f _ _ ha hb iha ihb =>
    cases hx
    have hlea := ha.length_le hg.skips
    have hleb := hb.length_le hg.skips
    have hskip := hg.skips.length_le m e
    simp only [Task.nullable, Expr.nullable, Bool.and_eq_false_iff] at ht
    rcases ht with ht | ht
    · have := iha ht rfl
      omega
    · have := ihb ht rfl
      omega
  | choiceLeft _ ih =>
    simp only [Task.nullable, Expr.nullable, Bool.or_eq_false_iff] at ht
    exact ih ht.1 hx
  | choiceRight _ _ _ ih =>
    simp only [Task.nullable, Expr.nullable, Bool.or_eq_false_iff] at ht
    exact ih ht.2 hx
  | maybe | many | maybeNot | manyNot | never | neverFail | again | againNot =>
    simp [Task.nullable, Expr.nullable] at ht
  | @ruleShown m r c _ _ _ _ ih =>
    cases hx
    exact ih (hg.nullable_body ht) rfl
  | @ruleHidden m r c _ _ _ ih =>
    exact ih (hg.nullable_body ht) hx
  | charFail | textFail | seqFirst | seqSecond | ruleFail => cases hx

theorem Run.repeatFrom_ends {step : Cursor → Run ρ} {n : Nat}
    (hends : ∀ d : Cursor, d.rest.length ≤ n → (step d).outcome ≠ .exhausted)
    (hstep : ∀ d e ns, (step d).outcome = .matched e ns → e.rest.length < d.rest.length)
    (budget : List Char) (c : Cursor) (nodes : List (Node ρ)) (trace : Trace ρ)
    (hc : c.rest.length ≤ n) (hb : c.rest.length ≤ budget.length) :
    (repeatFrom step budget c nodes trace).outcome ≠ .exhausted := by
  induction budget generalizing c nodes trace with
  | nil =>
    unfold repeatFrom
    cases hs : (step c).outcome with
    | matched d ns =>
      have hlt := hstep c d ns hs
      simp only [List.length_nil] at hb
      omega
    | failed => simp [hs]
    | exhausted => exact absurd hs (hends c hc)
  | cons _ budget ih =>
    unfold repeatFrom
    cases hs : (step c).outcome with
    | matched d ns =>
      have hlt := hstep c d ns hs
      simp only [List.length_cons] at hb
      simp only [hs]
      exact ih d _ _ (by omega) (by omega)
    | failed => simp [hs]
    | exhausted => exact absurd hs (hends c hc)

/-- An expression is not exhausted where the calls that it can make are not. -/
theorem Expr.eval_ends (hg : g.Bounded free rank width) {m : Mode} {call : ρ → Cursor → Run ρ}
    (hs : SoundCall g m call) (e : Expr ρ) (he : e.repeatsProperly free = true) (c : Cursor)
    (hcall : ∀ r (d : Cursor), d.rest.length < c.rest.length ∨
      (d.rest.length ≤ c.rest.length ∧ r ∈ e.heads free) → (call r d).outcome ≠ .exhausted) :
    (e.eval (m.skip g) call c).outcome ≠ .exhausted := by
  induction e generalizing c with
  | char accept =>
    unfold Expr.eval
    cases c.char? accept <;> simp [Run.ofCursor?, Run.matched, Run.failed]
  | text cs =>
    unfold Expr.eval
    cases c.text? cs <;> simp [Run.ofCursor?, Run.matched, Run.failed]
  | seq a b iha ihb =>
    simp only [repeatsProperly, Bool.and_eq_true] at he
    simp only [heads, List.mem_append] at hcall
    have ha := iha he.1 c fun r d h => hcall r d (h.imp_right fun h => ⟨h.1, .inl h.2⟩)
    rw [Expr.eval, Run.andThen_outcome]
    cases hao : (a.eval (m.skip g) call c).outcome with
    | matched d ns =>
      have hya := Expr.eval_yields hs a c _ (Outcome.reading?_eq_matched.2 hao)
      have hle := hya.length_le hg.skips
      have hskip := hg.skips.length_le m d
      have hb := ihb he.2 (m.skip g d) fun r e h => by
        refine hcall r e ?_
        cases hn : a.nullable free with
        | true => exact h.imp (by omega) fun h => ⟨by omega, .inr (by simpa using h.2)⟩
        | false =>
          have hlt : d.rest.length < c.rest.length := hya.length_lt hg hn
          exact .inl (by omega)
      dsimp only
      cases hbo : (b.eval (m.skip g) call (m.skip g d)).outcome with
      | matched e ns' => simp
      | failed => simp
      | exhausted => exact absurd hbo hb
    | failed => simp
    | exhausted => exact absurd hao ha
  | choice a b iha ihb =>
    simp only [repeatsProperly, Bool.and_eq_true] at he
    simp only [heads, List.mem_append] at hcall
    have ha := iha he.1 c fun r d h => hcall r d (h.imp_right fun h => ⟨h.1, .inl h.2⟩)
    have hb := ihb he.2 c fun r d h => hcall r d (h.imp_right fun h => ⟨h.1, .inr h.2⟩)
    rw [Expr.eval, Run.orElse_outcome]
    cases hao : (a.eval (m.skip g) call c).outcome with
    | matched d ns => simp
    | failed => exact hb
    | exhausted => exact absurd hao ha
  | maybe a iha =>
    have ha := iha he c hcall
    rw [Expr.eval, Run.orElse_outcome]
    cases hao : (a.eval (m.skip g) call c).outcome with
    | matched d ns => simp
    | failed => simp [Run.matched]
    | exhausted => exact absurd hao ha
  | many a iha =>
    simp only [repeatsProperly, Bool.and_eq_true, Bool.not_eq_true'] at he
    have hlt : ∀ d e ns, (a.eval (m.skip g) call d).outcome = .matched e ns →
        e.rest.length < d.rest.length := fun d e ns ho =>
      (Expr.eval_yields hs a d _ (Outcome.reading?_eq_matched.2 ho)).length_lt hg he.2
    have ha := iha he.1 c hcall
    unfold Expr.eval Run.many
    cases hao : (a.eval (m.skip g) call c).outcome with
    | matched d ns =>
      have hd := hlt c d ns hao
      simp only [hao]
      -- from the second time on the calls are behind the start, so all of them end
      refine Run.repeatFrom_ends (n := d.rest.length) ?_ ?_ c.rest d _ _ (Nat.le_refl _) (by omega)
      · intro e hle
        have hskip := hg.skips.length_le m e
        exact iha he.1 _ fun r f h => hcall r f (.inl (by omega))
      · intro e f ns' ho
        have hskip := hg.skips.length_le m e
        have := hlt _ f ns' ho
        omega
    | failed => simp [hao]
    | exhausted => exact absurd hao ha
  | never a iha =>
    have ha := iha he c hcall
    unfold Expr.eval Run.invert
    cases hao : (a.eval (m.skip g) call c).outcome with
    | matched d ns => simp [Run.failed]
    | failed => simp [Run.matched]
    | exhausted => exact absurd hao ha
  | rule r => exact hcall r c (.inr ⟨Nat.le_refl _, by simp [heads]⟩)

theorem Run.wrap_ends {run : Run ρ} (h : run.outcome ≠ .exhausted) (r : ρ) (c : Cursor) :
    (run.wrap r c).outcome ≠ .exhausted := by
  unfold wrap
  cases ho : run.outcome with
  | matched d ns => simp
  | failed => simp
  | exhausted => exact absurd ho h

/-- A depth that is linear in the text left is never exhausted. -/
theorem Grammar.Bounded.run_ends (hg : g.Bounded free rank width) (depth : Nat) (m : Mode) (r : ρ)
    (c : Cursor) (h : width * c.rest.length + rank r < depth) :
    (g.run depth m r c).outcome ≠ .exhausted := by
  induction depth generalizing m r c with
  | zero => omega
  | succ depth ih =>
    have hbody := Expr.eval_ends hg (Grammar.run_yields depth (m.enter (g.production r).shape))
      (g.production r).body (hg.repeats r) c fun r' d h' => by
        refine ih _ r' d ?_
        have hwidth := hg.rank_lt_width r'
        rcases h' with hlt | ⟨hle, hmem⟩
        · have hmul : width * (d.rest.length + 1) ≤ width * c.rest.length :=
            Nat.mul_le_mul_left width hlt
          rw [Nat.mul_add] at hmul
          omega
        · have hmul : width * d.rest.length ≤ width * c.rest.length := Nat.mul_le_mul_left width hle
          have hrank := hg.rank_lt r r' hmem
          omega
    unfold Grammar.run
    dsimp only
    split
    · exact Run.wrap_ends hbody r c
    · exact hbody

/-- With enough depth a run comes to the reading of its rule, and only to that. -/
theorem Grammar.Bounded.reading?_run_eq_some_iff (hg : g.Bounded free rank width) {depth : Nat}
    {m : Mode} {r : ρ} {c : Cursor} (h : width * c.rest.length + rank r < depth) {x : Reading ρ} :
    (g.run depth m r c).outcome.reading? = some x ↔ Yields g m (.once (.rule r)) c x := by
  refine ⟨Grammar.run_yields depth m r c x, fun hy => ?_⟩
  cases ho : (g.run depth m r c).outcome.reading? with
  | none => exact absurd (Outcome.reading?_eq_none.1 ho) (hg.run_ends depth m r c h)
  | some y => rw [(Grammar.run_yields depth m r c y ho).unique hy]

end SolidityStubs.Peg
