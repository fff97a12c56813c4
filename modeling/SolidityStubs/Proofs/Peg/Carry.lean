import SolidityStubs.Proofs.Peg.Nesting

/-! # Readings carried along a map of positions

A map of positions carries a reading to a reading if it agrees with every step that the reading
takes. `Carries` says so for a set of tasks that is closed under what each task calls.
-/
namespace SolidityStubs.Peg

variable {ρ : Type} {g : Grammar ρ} {φ : Cursor → Cursor}

namespace Node

mutual

def carry (φ : Cursor → Cursor) : Node ρ → Node ρ
  | ⟨r, start, stop, children⟩ => ⟨r, φ start, φ stop, carryAll φ children⟩

def carryAll (φ : Cursor → Cursor) : List (Node ρ) → List (Node ρ)
  | [] => []
  | n :: ns => n.carry φ :: carryAll φ ns

end

theorem carryAll_eq_map (ns : List (Node ρ)) : carryAll φ ns = ns.map (carry φ) := by
  induction ns with
  | nil => rfl
  | cons n ns ih => rw [carryAll, ih, List.map_cons]

@[simp]
theorem carry_rule (n : Node ρ) : (n.carry φ).rule = n.rule := by
  cases n
  rfl

@[simp]
theorem carry_start (n : Node ρ) : (n.carry φ).start = φ n.start := by
  cases n
  rfl

@[simp]
theorem carry_stop (n : Node ρ) : (n.carry φ).stop = φ n.stop := by
  cases n
  rfl

@[simp]
theorem carry_children (n : Node ρ) : (n.carry φ).children = n.children.map (carry φ) := by
  cases n
  exact carryAll_eq_map _

mutual

theorem carry_carry (ψ : Cursor → Cursor) : ∀ n : Node ρ, (n.carry φ).carry ψ = n.carry (ψ ∘ φ)
  | ⟨r, start, stop, children⟩ => by
    rw [carry, carry, carry, carryAll_carryAll ψ children]
    rfl

theorem carryAll_carryAll (ψ : Cursor → Cursor) :
    ∀ ns : List (Node ρ), carryAll ψ (carryAll φ ns) = carryAll (ψ ∘ φ) ns
  | [] => rfl
  | n :: ns => by rw [carryAll, carryAll, carryAll, carry_carry ψ n, carryAll_carryAll ψ ns]

end

end Node

def Reading.carry (φ : Cursor → Cursor) (x : Reading ρ) : Reading ρ :=
  x.map fun p => (φ p.1, p.2.map (Node.carry φ))

/-- Where a task of the set stands, `φ` agrees with the steps of the task and the tasks that it calls
are in the set again. A rule may also be carried as a whole. -/
structure Carries (g : Grammar ρ) (φ : Cursor → Cursor) (set : Mode → Task ρ → Cursor → Prop) :
    Prop where
  char : ∀ {m accept c}, set m (.once (.char accept)) c →
    (φ c).char? accept = (c.char? accept).map φ
  text : ∀ {m cs c}, set m (.once (.text cs)) c → (φ c).text? cs = (c.text? cs).map φ
  seq : ∀ {m a b c}, set m (.once (.seq a b)) c → set m (.once a) c ∧
    ∀ d ns, Takes g m a c d ns →
      m.skip g (φ d) = φ (m.skip g d) ∧ set m (.once b) (m.skip g d)
  choice : ∀ {m a b c}, set m (.once (.choice a b)) c →
    set m (.once a) c ∧ (Fails g m a c → set m (.once b) c)
  maybe : ∀ {m a c}, set m (.once (.maybe a)) c → set m (.once a) c
  never : ∀ {m a c}, set m (.once (.never a)) c → set m (.once a) c
  many : ∀ {m a c}, set m (.once (.many a)) c → set m (.once a) c ∧
    ∀ d ns, Takes g m a c d ns → set m (.again a) d
  again : ∀ {m a c}, set m (.again a) c →
    m.skip g (φ c) = φ (m.skip g c) ∧ set m (.once a) (m.skip g c) ∧
      ∀ d ns, Takes g m a (m.skip g c) d ns → set m (.again a) d
  rule : ∀ {m r c}, set m (.once (.rule r)) c →
    set (m.enter (g.production r).shape) (.once (g.production r).body) c ∨
      ∀ x, Yields g m (.once (.rule r)) c x →
        Yields g m (.once (.rule r)) (φ c) (Reading.carry φ x)

theorem Yields.carry {set : Mode → Task ρ → Cursor → Prop} (hφ : Carries g φ set) {m : Mode}
    {t : Task ρ} {c : Cursor} {x : Reading ρ} (h : Yields g m t c x) (hset : set m t c) :
    Yields g m t (φ c) (Reading.carry φ x) := by
  induction h with
  | char h => exact .char (by rw [hφ.char hset, h]; rfl)
  | charFail h => exact .charFail (by rw [hφ.char hset, h]; rfl)
  | text h => exact .text (by rw [hφ.text hset, h]; rfl)
  | textFail h => exact .textFail (by rw [hφ.text hset, h]; rfl)
  | seq ha _ iha ihb =>
    obtain ⟨hsa, hnext⟩ := hφ.seq hset
    obtain ⟨hskip, hsb⟩ := hnext _ _ ha
    simp only [Reading.carry, Option.map_some, List.map_append] at iha ihb ⊢
    exact .seq (iha hsa) (hskip ▸ ihb hsb)
  | seqFirst _ iha => exact .seqFirst (iha (hφ.seq hset).1)
  | seqSecond ha _ iha ihb =>
    obtain ⟨hsa, hnext⟩ := hφ.seq hset
    obtain ⟨hskip, hsb⟩ := hnext _ _ ha
    exact .seqSecond (iha hsa) (hskip ▸ ihb hsb)
  | choiceLeft _ iha => exact .choiceLeft (iha (hφ.choice hset).1)
  | choiceRight ha _ iha ihb =>
    obtain ⟨hsa, hnext⟩ := hφ.choice hset
    exact .choiceRight (iha hsa) (ihb (hnext ha))
  | maybe _ iha => exact .maybe (iha (hφ.maybe hset))
  | maybeNot _ iha => exact .maybeNot (iha (hφ.maybe hset))
  | many ha _ iha ihs =>
    obtain ⟨hsa, hnext⟩ := hφ.many hset
    simp only [Reading.carry, Option.map_some, List.map_append] at iha ihs ⊢
    exact .many (iha hsa) (ihs (hnext _ _ ha))
  | manyNot _ iha => exact .manyNot (iha (hφ.many hset).1)
  | again ha _ iha ihs =>
    obtain ⟨hskip, hsa, hnext⟩ := hφ.again hset
    simp only [Reading.carry, Option.map_some, List.map_append] at iha ihs ⊢
    exact .again (hskip ▸ iha hsa) (ihs (hnext _ _ ha))
  | againNot _ iha =>
    obtain ⟨hskip, hsa, -⟩ := hφ.again hset
    exact .againNot (hskip ▸ iha hsa)
  | never _ iha => exact .never (iha (hφ.never hset))
  | neverFail _ iha => exact .neverFail (iha (hφ.never hset))
  | @ruleShown m r c d ns hs hb ih =>
    rcases hφ.rule hset with hbody | hwhole
    · have hy := Yields.ruleShown hs (ih hbody)
      simpa [Reading.carry, Node.carry, Node.carryAll_eq_map] using hy
    · exact hwhole _ (.ruleShown hs hb)
  | ruleHidden hs hb ih =>
    rcases hφ.rule hset with hbody | hwhole
    · exact .ruleHidden hs (ih hbody)
    · exact hwhole _ (.ruleHidden hs hb)
  | ruleFail hb ih =>
    rcases hφ.rule hset with hbody | hwhole
    · exact .ruleFail (ih hbody)
    · exact hwhole _ (.ruleFail hb)

theorem Takes.carry {set : Mode → Task ρ → Cursor → Prop} (hφ : Carries g φ set) {m : Mode}
    {e : Expr ρ} {c d : Cursor} {ns : List (Node ρ)} (h : Takes g m e c d ns)
    (hset : set m (.once e) c) : Takes g m e (φ c) (φ d) (ns.map (Node.carry φ)) :=
  Yields.carry hφ h hset

end SolidityStubs.Peg
