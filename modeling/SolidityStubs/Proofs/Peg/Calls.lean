import Mathlib.Logic.Relation
import SolidityStubs.Proofs.Peg.Carry

/-! # The calls of a run

While a task runs it calls other tasks, each at a position. `Calls` says which, and `ComesTo`
follows calls to any depth. In a bounded grammar calls lead forward, and a rule that is called again
while it is still open is called further behind.
-/
namespace SolidityStubs.Peg

variable {ρ : Type} {g : Grammar ρ}

structure Stage (ρ : Type) where
  mode : Mode
  task : Task ρ
  place : Cursor

inductive Calls (g : Grammar ρ) : Stage ρ → Stage ρ → Prop
  | seqFirst {m a b c} : Calls g ⟨m, .once (.seq a b), c⟩ ⟨m, .once a, c⟩
  | seqSecond {m a b c d ns} (h : Takes g m a c d ns) :
      Calls g ⟨m, .once (.seq a b), c⟩ ⟨m, .once b, m.skip g d⟩
  | choiceFirst {m a b c} : Calls g ⟨m, .once (.choice a b), c⟩ ⟨m, .once a, c⟩
  | choiceSecond {m a b c} (h : Fails g m a c) :
      Calls g ⟨m, .once (.choice a b), c⟩ ⟨m, .once b, c⟩
  | maybe {m a c} : Calls g ⟨m, .once (.maybe a), c⟩ ⟨m, .once a, c⟩
  | never {m a c} : Calls g ⟨m, .once (.never a), c⟩ ⟨m, .once a, c⟩
  | many {m a c} : Calls g ⟨m, .once (.many a), c⟩ ⟨m, .once a, c⟩
  | manyMore {m a c d ns} (h : Takes g m a c d ns) :
      Calls g ⟨m, .once (.many a), c⟩ ⟨m, .again a, d⟩
  | again {m a c} : Calls g ⟨m, .again a, c⟩ ⟨m, .once a, m.skip g c⟩
  | againMore {m a c d ns} (h : Takes g m a (m.skip g c) d ns) :
      Calls g ⟨m, .again a, c⟩ ⟨m, .again a, d⟩
  | rule {m r c} : Calls g ⟨m, .once (.rule r), c⟩
      ⟨m.enter (g.production r).shape, .once (g.production r).body, c⟩

abbrev ComesTo (g : Grammar ρ) : Stage ρ → Stage ρ → Prop := Relation.ReflTransGen (Calls g)

theorem Calls.before (hg : g.SkipsForward) {x y : Stage ρ} (h : Calls g x y) :
    x.place.Before y.place := by
  cases h with
  | @seqSecond m a b c d ns h => exact Cursor.Before.trans (h.passes hg) (hg.mode m d)
  | manyMore h => exact h.passes hg
  | @again m a c => exact hg.mode m c
  | @againMore m a c d ns h => exact Cursor.Before.trans (hg.mode m c) (h.passes hg)
  | seqFirst | choiceFirst | choiceSecond | maybe | never | many | rule => exact .refl _

theorem ComesTo.before (hg : g.SkipsForward) {x y : Stage ρ} (h : ComesTo g x y) :
    x.place.Before y.place := by
  induction h with
  | refl => exact .refl _
  | tail _ hstep ih => exact ih.trans (hstep.before hg)

theorem Cursor.Before.offset_lt {c d : Cursor} (h : c.Before d)
    (hlt : d.rest.length < c.rest.length) : c.offset < d.offset := by
  obtain ⟨cs, hrest, hoff⟩ := h
  cases cs with
  | nil =>
    rw [hrest, List.nil_append] at hlt
    omega
  | cons x xs =>
    have := x.utf8Size_pos
    rw [hoff, Text.byteLength_cons]
    omega

theorem Calls.tight {x y : Stage ρ} (h : Calls g x y) (hx : x.mode = .tight) : y.mode = .tight := by
  cases h with
  | rule =>
    obtain rfl : _ = Mode.tight := hx
    rfl
  | _ => exact hx

theorem ComesTo.tight {x y : Stage ρ} (h : ComesTo g x y) (hx : x.mode = .tight) :
    y.mode = .tight := by
  induction h with
  | refl => exact hx
  | tail _ hstep ih => exact hstep.tight ih

/-- A set of stages that is closed under calls, those of atomic rules apart, has all stages that
skip padding. -/
theorem ComesTo.of_calls {set : Stage ρ → Prop}
    (hcalls : ∀ {x y}, Calls g x y →
      (∀ r, x.task = .once (.rule r) → (g.production r).shape ≠ .atomic) → set x → set y)
    {x y : Stage ρ} (h : ComesTo g x y) (hy : y.mode = .spaced) (hx : set x) : set y := by
  induction h using Relation.ReflTransGen.head_induction_on with
  | refl => exact hx
  | head hstep hrest ih =>
    refine ih (hcalls hstep (fun r hr hatomic => ?_) hx)
    cases hstep with
    | @rule m _ c =>
      cases hr
      have htight : m.enter (g.production r).shape = .tight := by
        rw [hatomic]
        cases m <;> rfl
      rw [ComesTo.tight hrest htight] at hy
      cases hy
    | _ => cases hr

inductive Node.Every (P : Node ρ → Prop) : Node ρ → Prop
  | intro {n : Node ρ} (self : P n) (children : ∀ k ∈ n.children, Every P k) : Every P n

theorem Node.Every.self {P : Node ρ → Prop} {n : Node ρ} (h : n.Every P) : P n := by
  cases h with
  | intro self _ => exact self

theorem Node.Every.child {P : Node ρ → Prop} {n k : Node ρ} (h : n.Every P) (hk : k ∈ n.children) :
    k.Every P := by
  cases h with
  | intro _ children => exact children k hk

/-- Every node that a reading leaves, at any depth, is the reading of a rule that was called. -/
theorem Yields.every {P : Node ρ → Prop} {m : Mode} {t : Task ρ} {c d : Cursor}
    {ns : List (Node ρ)} (h : Yields g m t c (some (d, ns)))
    (hP : ∀ k : Node ρ, ComesTo g ⟨m, t, c⟩ ⟨.spaced, .once (.rule k.rule), k.start⟩ →
      Takes g .spaced (.rule k.rule) k.start k.stop [k] → P k) : ∀ n ∈ ns, n.Every P := by
  generalize hx : some (d, ns) = x at h
  induction h generalizing d ns with
  | seq ha _ iha ihb =>
    cases hx
    intro n hn
    rcases List.mem_append.1 hn with hn | hn
    · exact iha (fun k hk => hP k (.head .seqFirst hk)) rfl n hn
    · exact ihb (fun k hk => hP k (.head (.seqSecond ha) hk)) rfl n hn
  | choiceLeft _ ih => exact ih (fun k hk => hP k (.head .choiceFirst hk)) hx
  | choiceRight ha _ _ ih => exact ih (fun k hk => hP k (.head (.choiceSecond ha) hk)) hx
  | maybe _ ih => exact ih (fun k hk => hP k (.head .maybe hk)) hx
  | many ha _ iha ihs =>
    cases hx
    intro n hn
    rcases List.mem_append.1 hn with hn | hn
    · exact iha (fun k hk => hP k (.head .many hk)) rfl n hn
    · exact ihs (fun k hk => hP k (.head (.manyMore ha) hk)) rfl n hn
  | again ha _ iha ihs =>
    cases hx
    intro n hn
    rcases List.mem_append.1 hn with hn | hn
    · exact iha (fun k hk => hP k (.head .again hk)) rfl n hn
    · exact ihs (fun k hk => hP k (.head (.againMore ha) hk)) rfl n hn
  | @ruleShown m r c d ns hs hb ih =>
    cases hx
    obtain rfl : m = .spaced := by
      cases m with
      | spaced => rfl
      | tight => cases hs
    intro n hn
    cases List.mem_singleton.1 hn
    exact .intro (hP _ .refl (.ruleShown hs hb)) (ih (fun k hk => hP k (.head .rule hk)) rfl)
  | ruleHidden _ _ ih => exact ih (fun k hk => hP k (.head .rule hk)) hx
  | char | text | maybeNot | manyNot | againNot | never =>
    cases hx
    simp
  | charFail | textFail | seqFirst | seqSecond | neverFail | ruleFail => cases hx

theorem Yields.comesTo_of_mem {m : Mode} {t : Task ρ} {c d : Cursor} {n : Node ρ}
    {ns : List (Node ρ)} (h : Yields g m t c (some (d, ns))) (hn : n ∈ ns) :
    ComesTo g ⟨m, t, c⟩ ⟨.spaced, .once (.rule n.rule), n.start⟩ :=
  (h.every (P := fun k => ComesTo g ⟨m, t, c⟩ ⟨.spaced, .once (.rule k.rule), k.start⟩)
    (fun _ hk _ => hk) n hn).self

/-- A map of positions carries the stages of a set that is closed under calls if it agrees with each
character, each text and all padding that is skipped. Rules may be carried as a whole. -/
theorem Carries.of_calls {φ : Cursor → Cursor} {set : Mode → Task ρ → Cursor → Prop}
    (hcalls : ∀ {x y : Stage ρ}, Calls g x y → (∀ r, x.task ≠ .once (.rule r)) →
      set x.mode x.task x.place → set y.mode y.task y.place)
    (hchar : ∀ {m accept c}, set m (.once (.char accept)) c →
      (φ c).char? accept = (c.char? accept).map φ)
    (htext : ∀ {m cs c}, set m (.once (.text cs)) c → (φ c).text? cs = (c.text? cs).map φ)
    (hseq : ∀ {m a b c d ns}, set m (.once (.seq a b)) c → Takes g m a c d ns →
      m.skip g (φ d) = φ (m.skip g d))
    (hagain : ∀ {m a c}, set m (.again a) c → m.skip g (φ c) = φ (m.skip g c))
    (hrule : ∀ {m r c}, set m (.once (.rule r)) c →
      set (m.enter (g.production r).shape) (.once (g.production r).body) c ∨
        ∀ x, Yields g m (.once (.rule r)) c x →
          Yields g m (.once (.rule r)) (φ c) (Reading.carry φ x)) : Carries g φ set where
  char := hchar
  text := htext
  seq h := ⟨hcalls .seqFirst (by simp) h,
    fun _ _ hd => ⟨hseq h hd, hcalls (.seqSecond hd) (by simp) h⟩⟩
  choice h := ⟨hcalls .choiceFirst (by simp) h,
    fun hfail => hcalls (.choiceSecond hfail) (by simp) h⟩
  maybe h := hcalls .maybe (by simp) h
  never h := hcalls .never (by simp) h
  many h := ⟨hcalls .many (by simp) h, fun _ _ hd => hcalls (.manyMore hd) (by simp) h⟩
  again h := ⟨hagain h, hcalls .again (by simp) h, fun _ _ hd => hcalls (.againMore hd) (by simp) h⟩
  rule := hrule

section Bounded

variable {free : ρ → Bool} {rank : ρ → Nat} {width : Nat}

/-- The rules that a task can call before it takes a character. -/
def Task.heads (free : ρ → Bool) : Task ρ → List ρ
  | .once e | .again e => e.heads free

def Task.repeatsProperly (free : ρ → Bool) : Task ρ → Bool
  | .once e => e.repeatsProperly free
  | .again a => a.repeatsProperly free && !a.nullable free

theorem Calls.repeatsProperly (hg : g.Bounded free rank width) {x y : Stage ρ} (h : Calls g x y)
    (hx : x.task.repeatsProperly free = true) : y.task.repeatsProperly free = true := by
  cases h with
  | seqFirst | choiceFirst | many | again =>
    simp only [Task.repeatsProperly, Expr.repeatsProperly, Bool.and_eq_true] at hx ⊢
    exact hx.1
  | seqSecond | choiceSecond =>
    simp only [Task.repeatsProperly, Expr.repeatsProperly, Bool.and_eq_true] at hx ⊢
    exact hx.2
  | maybe | never | manyMore | againMore => exact hx
  | rule => exact hg.repeats _

/-- A call takes a character, or it can still call only rules of the ranks that its caller could. -/
theorem Calls.length_lt_or_rank_lt (hg : g.Bounded free rank width) {x y : Stage ρ}
    (h : Calls g x y) (hx : x.task.repeatsProperly free = true) {k : Nat}
    (hk : ∀ r ∈ x.task.heads free, rank r < k) :
    y.place.rest.length < x.place.rest.length ∨ ∀ r ∈ y.task.heads free, rank r < k := by
  cases h with
  | seqFirst | choiceFirst =>
    exact .inr fun r hr => hk r (List.mem_append_left _ hr)
  | choiceSecond => exact .inr fun r hr => hk r (List.mem_append_right _ hr)
  | @seqSecond m a b c d ns h =>
    cases hn : a.nullable free with
    | true =>
      refine .inr fun r hr => hk r (List.mem_append_right _ ?_)
      rw [hn]
      exact hr
    | false =>
      have hlt := h.length_lt hg hn
      have hskip := hg.skips.length_le m d
      exact .inl (Nat.lt_of_le_of_lt hskip hlt)
  | maybe | never | many | again => exact .inr hk
  | manyMore h =>
    simp only [Task.repeatsProperly, Expr.repeatsProperly, Bool.and_eq_true,
      Bool.not_eq_true'] at hx
    exact .inl (h.length_lt hg hx.2)
  | @againMore m a c d ns h =>
    simp only [Task.repeatsProperly, Bool.and_eq_true, Bool.not_eq_true'] at hx
    have hskip := hg.skips.length_le m c
    exact .inl (Nat.lt_of_lt_of_le (h.length_lt hg hx.2) hskip)
  | @rule m r c =>
    have hr : rank r < k := hk r (by simp [Task.heads, Expr.heads])
    exact .inr fun r' hr' => Nat.lt_trans (hg.rank_lt r r' hr') hr

theorem ComesTo.length_lt_or_rank_lt (hg : g.Bounded free rank width) {x y : Stage ρ}
    (h : ComesTo g x y) (hx : x.task.repeatsProperly free = true) {k : Nat}
    (hk : ∀ r ∈ x.task.heads free, rank r < k) :
    y.task.repeatsProperly free = true ∧
      (y.place.rest.length < x.place.rest.length ∨ ∀ r ∈ y.task.heads free, rank r < k) := by
  induction h with
  | refl => exact ⟨hx, .inr hk⟩
  | tail hpath hstep ih =>
    obtain ⟨hproper, hfall⟩ := ih
    refine ⟨hstep.repeatsProperly hg hproper, ?_⟩
    rcases hfall with hlt | hrank
    · exact .inl (Nat.lt_of_le_of_lt (hstep.before hg.skips).length_le hlt)
    · refine (hstep.length_lt_or_rank_lt hg hproper hrank).imp_left fun hlt => ?_
      exact Nat.lt_of_lt_of_le hlt (ComesTo.before hg.skips hpath).length_le

def Expr.repeated : Expr ρ → List (Expr ρ)
  | .char _ | .text _ | .rule _ => []
  | .seq a b | .choice a b => a.repeated ++ b.repeated
  | .maybe a | .never a => a.repeated
  | .many a => a :: a.repeated

theorem Expr.nullable_of_mem_repeated {e a : Expr ρ} (he : e.repeatsProperly free = true)
    (ha : a ∈ e.repeated) : a.nullable free = false := by
  induction e with
  | char | text | rule => simp [repeated] at ha
  | seq b d ihb ihd | choice b d ihb ihd =>
    simp only [repeatsProperly, Bool.and_eq_true] at he
    rcases List.mem_append.1 ha with ha | ha
    · exact ihb he.1 ha
    · exact ihd he.2 ha
  | maybe b ih | never b ih => exact ih he ha
  | many b ih =>
    simp only [repeatsProperly, Bool.and_eq_true, Bool.not_eq_true'] at he
    rcases List.mem_cons.1 ha with rfl | ha
    · exact he.2
    · exact ih he.1 ha

/-- What is repeated takes at least one byte each time. -/
theorem Grammar.Bounded.offset_lt_of_repeated (hg : g.Bounded free rank width) {e a : Expr ρ}
    (he : e.repeatsProperly free = true) (ha : a ∈ e.repeated) {m : Mode} {c d : Cursor}
    {ns : List (Node ρ)} (h : Takes g m a c d ns) : c.offset < d.offset := by
  have hnull := Expr.nullable_of_mem_repeated he ha
  exact Cursor.Before.offset_lt (h.passes hg.skips) (h.length_lt hg hnull)

/-- A rule that is called while it is open is called behind the place where it was opened. -/
theorem Grammar.Bounded.offset_lt_of_reentry (hg : g.Bounded free rank width) {r : ρ} {m m' : Mode}
    {c d : Cursor}
    (h : Relation.TransGen (Calls g) ⟨m, .once (.rule r), c⟩ ⟨m', .once (.rule r), d⟩) :
    c.offset < d.offset := by
  obtain ⟨y, hfirst, hrest⟩ := Relation.TransGen.head'_iff.1 h
  have hbefore := (hfirst.before hg.skips).trans (ComesTo.before hg.skips hrest)
  cases hfirst with
  | rule =>
    -- the body of the rule calls at this place only rules of lower rank
    obtain ⟨-, hlt | hrank⟩ := ComesTo.length_lt_or_rank_lt hg hrest (hg.repeats r) (hg.rank_lt r)
    · exact hbefore.offset_lt hlt
    · exact absurd (hrank r (by simp [Task.heads, Expr.heads])) (Nat.lt_irrefl _)

end Bounded

end SolidityStubs.Peg
