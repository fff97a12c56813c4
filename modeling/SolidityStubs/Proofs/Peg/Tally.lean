import SolidityStubs.Proofs.Peg.Calls

/-! # How often a rule occurs

The nodes of a rule that an expression leaves can be counted off the expression itself: `Expr.tally`
gives the least and the largest number of them. So what children a node has is told by the body of
its rule alone, whatever text was read.
-/
namespace SolidityStubs.Peg

variable {ρ : Type} {g : Grammar ρ}

/-- How often something occurs: at least `least` times and, if there is a bound, at most `most`
times. -/
structure Tally where
  least : Nat
  most : Option Nat
deriving DecidableEq, Repr

namespace Tally

def exactly (n : Nat) : Tally := ⟨n, some n⟩

def atMost (n : Nat) : Tally := ⟨0, some n⟩

def atLeast (n : Nat) : Tally := ⟨n, none⟩

def Admits (s : Tally) (n : Nat) : Prop := s.least ≤ n ∧ ∀ k ∈ s.most, n ≤ k

def add (s t : Tally) : Tally :=
  ⟨s.least + t.least, s.most.bind fun n => t.most.map (n + ·)⟩

def join (s t : Tally) : Tally :=
  ⟨min s.least t.least, s.most.bind fun n => t.most.map (max n ·)⟩

def repeated (s : Tally) : Tally := if s.most = some 0 then exactly 0 else atLeast 0

variable {s t : Tally} {n k : Nat}

@[simp]
theorem admits_exactly : (exactly k).Admits n ↔ n = k := by
  simp [Admits, exactly]
  omega

@[simp]
theorem admits_atMost : (atMost k).Admits n ↔ n ≤ k := by
  simp [Admits, atMost]

@[simp]
theorem admits_atLeast : (atLeast k).Admits n ↔ k ≤ n := by
  simp [Admits, atLeast]

theorem Admits.add (hs : s.Admits n) (ht : t.Admits k) : (s.add t).Admits (n + k) := by
  refine ⟨Nat.add_le_add hs.1 ht.1, fun m hm => ?_⟩
  obtain ⟨a, ha, hm⟩ := Option.bind_eq_some_iff.1 hm
  obtain ⟨b, hb, rfl⟩ := Option.map_eq_some_iff.1 hm
  exact Nat.add_le_add (hs.2 a ha) (ht.2 b hb)

theorem Admits.join_left (hs : s.Admits n) : (s.join t).Admits n := by
  refine ⟨Nat.le_trans (Nat.min_le_left _ _) hs.1, fun m hm => ?_⟩
  obtain ⟨a, ha, hm⟩ := Option.bind_eq_some_iff.1 hm
  obtain ⟨b, -, rfl⟩ := Option.map_eq_some_iff.1 hm
  exact Nat.le_trans (hs.2 a ha) (Nat.le_max_left _ _)

theorem Admits.join_right (ht : t.Admits n) : (s.join t).Admits n := by
  refine ⟨Nat.le_trans (Nat.min_le_right _ _) ht.1, fun m hm => ?_⟩
  obtain ⟨a, -, hm⟩ := Option.bind_eq_some_iff.1 hm
  obtain ⟨b, hb, rfl⟩ := Option.map_eq_some_iff.1 hm
  exact Nat.le_trans (ht.2 b hb) (Nat.le_max_right _ _)

theorem admits_repeated_zero (s : Tally) : s.repeated.Admits 0 := by
  unfold repeated
  split <;> simp

theorem Admits.repeated_add (hs : s.Admits n) (hk : s.repeated.Admits k) :
    s.repeated.Admits (n + k) := by
  unfold repeated at hk ⊢
  split at hk
  · rename_i hzero
    have hn := hs.2 0 hzero
    rw [if_pos hzero]
    simp only [admits_exactly] at hk ⊢
    omega
  · rename_i hpos
    rw [if_neg hpos]
    simp

end Tally

section Counting

variable [DecidableEq ρ]

/-- How many nodes of the rule `r` an expression leaves where structure is kept. -/
def Expr.tally (r : ρ) : Expr ρ → Tally
  | .char _ | .text _ | .never _ => .exactly 0
  | .seq a b => (a.tally r).add (b.tally r)
  | .choice a b => (a.tally r).join (b.tally r)
  | .maybe a => (a.tally r).join (.exactly 0)
  | .many a => (a.tally r).repeated
  | .rule r' => .exactly (if r' = r then 1 else 0)

def Task.tally (r : ρ) : Task ρ → Tally
  | .once e => e.tally r
  | .again a => (a.tally r).repeated

def Grammar.Shows (g : Grammar ρ) (r : ρ) : Prop :=
  ∀ r', (g.production r').shape = .silent → r' ≠ r ∧ (g.production r').body.tally r = .exactly 0

theorem Yields.admits {r : ρ} (hr : g.Shows r) {t : Task ρ} {c d : Cursor} {ns : List (Node ρ)}
    (h : Yields g .spaced t c (some (d, ns))) : (t.tally r).Admits (ns.countP (·.rule = r)) := by
  generalize hm : Mode.spaced = m at h
  generalize hx : some (d, ns) = x at h
  induction h generalizing d ns with
  | seq _ _ iha ihb =>
    cases hx
    rw [List.countP_append]
    exact (iha hm rfl).add (ihb hm rfl)
  | choiceLeft _ ih => exact (ih hm hx).join_left
  | choiceRight _ _ _ ih => exact (ih hm hx).join_right
  | maybe _ ih => exact (ih hm hx).join_left
  | many _ _ iha ihs | again _ _ iha ihs =>
    cases hx
    rw [List.countP_append]
    exact (iha hm rfl).repeated_add (ihs hm rfl)
  | maybeNot =>
    cases hx
    exact Tally.Admits.join_right (by simp)
  | manyNot | againNot =>
    cases hx
    exact Tally.admits_repeated_zero _
  | char | text | never =>
    cases hx
    simp [Task.tally, Expr.tally]
  | ruleShown =>
    cases hx
    simp [Task.tally, Expr.tally, List.countP_singleton]
  | @ruleHidden m r' c p hs _ ih =>
    subst hm
    -- where structure is kept, only a silent rule is hidden
    have hsilent : (g.production r').shape = .silent := by
      cases hshape : (g.production r').shape <;> simp_all [Mode.shows]
    obtain ⟨hne, hbody⟩ := hr r' hsilent
    have hcount := ih (by rw [hsilent]; rfl) hx
    rw [Task.tally, hbody] at hcount
    simpa [Task.tally, Expr.tally, hne] using hcount
  | charFail | textFail | seqFirst | seqSecond | neverFail | ruleFail => cases hx

theorem Takes.admits_childrenOf {r : ρ} (hr : g.Shows r) {n : Node ρ} {c d : Cursor}
    (h : Takes g .spaced (.rule n.rule) c d [n])
    (hn : (g.production n.rule).shape = .structured) :
    ((g.production n.rule).body.tally r).Admits (n.childrenOf r).length := by
  have hbody := h.children (by rw [hn]; decide)
  rw [hn] at hbody
  rw [Node.childrenOf, ← List.countP_eq_length_filter]
  exact Yields.admits hr hbody

end Counting

theorem Yields.shape_of_mem {m : Mode} {t : Task ρ} {c d : Cursor} {n : Node ρ} {ns : List (Node ρ)}
    (h : Yields g m t c (some (d, ns))) (hn : n ∈ ns) : (g.production n.rule).shape ≠ .silent := by
  generalize hx : some (d, ns) = x at h
  induction h generalizing d ns with
  | seq _ _ iha ihb | many _ _ iha ihb | again _ _ iha ihb =>
    cases hx
    rcases List.mem_append.1 hn with hn | hn
    · exact iha hn rfl
    · exact ihb hn rfl
  | choiceLeft _ ih | choiceRight _ _ _ ih | maybe _ ih | ruleHidden _ _ ih => exact ih hn hx
  | @ruleShown m r _ _ _ hs =>
    cases hx
    cases List.mem_singleton.1 hn
    intro hsilent
    rw [hsilent] at hs
    cases m <;> cases hs
  | char | text | maybeNot | manyNot | againNot | never =>
    cases hx
    simp at hn
  | charFail | textFail | seqFirst | seqSecond | neverFail | ruleFail => cases hx

end SolidityStubs.Peg
