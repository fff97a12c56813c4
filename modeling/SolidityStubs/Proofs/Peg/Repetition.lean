import SolidityStubs.Proofs.Peg.Carry

/-! # Repetitions step by step

A repetition is a row of steps, each after padding, up to where no further step can be taken.
-/
namespace SolidityStubs.Peg

variable {ρ : Type} {g : Grammar ρ} {a : Expr ρ}

inductive Steps (g : Grammar ρ) (a : Expr ρ) : Cursor → List (Node ρ) → Cursor → Prop
  | nil (c : Cursor) : Steps g a c [] c
  | cons {c d e ns ns'} (h : Takes g .spaced a (g.skip c) d ns) (hs : Steps g a d ns' e) :
      Steps g a c (ns ++ ns') e

theorem again_iff {c e : Cursor} {ns : List (Node ρ)} :
    Yields g .spaced (.again a) c (some (e, ns)) ↔
      Steps g a c ns e ∧ Fails g .spaced a (g.skip e) := by
  constructor
  · intro h
    generalize hm : Mode.spaced = m at h
    generalize ht : Task.again a = t at h
    generalize hx : some (e, ns) = x at h
    induction h generalizing e ns with
    | again ha hs _ ihs =>
      subst hm
      cases ht
      cases hx
      obtain ⟨hsteps, hfail⟩ := ihs rfl rfl rfl
      exact ⟨.cons ha hsteps, hfail⟩
    | againNot ha =>
      subst hm
      cases ht
      cases hx
      exact ⟨.nil _, ha⟩
    | _ => cases ht
  · rintro ⟨hsteps, hfail⟩
    induction hsteps with
    | nil c => exact .againNot hfail
    | cons h _ ih => exact .again h (ih hfail)

/-- At a position without padding a repetition takes its first step like the later ones. -/
theorem many_iff_again {m : Mode} {c : Cursor} (hc : m.skip g c = c) {x : Reading ρ} :
    Yields g m (.once (.many a)) c x ↔ Yields g m (.again a) c x := by
  constructor
  · intro h
    cases h with
    | many ha hs => exact .again (hc.symm ▸ ha) hs
    | manyNot ha => exact .againNot (hc.symm ▸ ha)
  · intro h
    cases h with
    | again ha hs => exact .many (hc ▸ ha) hs
    | againNot ha => exact .manyNot (hc ▸ ha)

theorem takes_many_iff {c e : Cursor} (hc : g.skip c = c) {ns : List (Node ρ)} :
    Takes g .spaced (.many a) c e ns ↔ Steps g a c ns e ∧ Fails g .spaced a (g.skip e) :=
  (many_iff_again (m := .spaced) hc).trans again_iff

namespace Steps

variable {c d e : Cursor} {ns ns' : List (Node ρ)}

theorem append (h : Steps g a c ns d) (h' : Steps g a d ns' e) : Steps g a c (ns ++ ns') e := by
  induction h with
  | nil => exact h'
  | cons ht _ ih =>
    rw [List.append_assoc]
    exact .cons ht (ih h')

theorem single (h : Takes g .spaced a (g.skip c) d ns) : Steps g a c ns d := by
  simpa using Steps.cons h (.nil d)

theorem of_skip_eq (h : Steps g a c ns d) {c' : Cursor} (hc : g.skip c' = g.skip c) :
    ∃ d', Steps g a c' ns d' ∧ g.skip d' = g.skip d := by
  cases h with
  | nil => exact ⟨c', .nil c', hc⟩
  | cons ht hs => exact ⟨d, .cons (hc ▸ ht) hs, rfl⟩

theorem before (hg : g.SkipsForward) (h : Steps g a c ns d) : c.Before d := by
  induction h with
  | nil c => exact .refl c
  | cons ht _ ih => exact Cursor.Before.trans (hg _) (Cursor.Before.trans (ht.passes hg) ih)

theorem skip_before (hg : g.SkipsForward) (h : Steps g a c ns d) :
    (g.skip c).Before (g.skip d) := by
  cases h with
  | nil => exact .refl _
  | cons ht hs =>
    exact Cursor.Before.trans (ht.passes hg) (Cursor.Before.trans (hs.before hg) (hg _))

/-- Steps that cannot go on come by every place to which steps lead. -/
theorem rejoin (h : Steps g a c ns d) (hd : Fails g .spaced a (g.skip d))
    (h' : Steps g a c ns' e) : ∃ more, Steps g a e more d := by
  induction h' generalizing ns with
  | nil => exact ⟨ns, h⟩
  | cons ht _ ih =>
    cases h with
    | nil => cases ht.unique hd
    | cons ht' hs =>
      cases ht.unique ht'
      exact ih hs

theorem chained (hg : g.SkipsForward) (h : Steps g a c ns d) : Chained c ns d := by
  induction h with
  | nil c => exact .nil (.refl c)
  | cons ht _ ih => exact ((ht.chained hg).of_before (hg _)).append ih

theorem takes_of_mem (h : Steps g a c ns d) {n : Node ρ} (hn : n ∈ ns) :
    Takes g .spaced (.rule n.rule) n.start n.stop [n] := by
  induction h with
  | nil => simp at hn
  | cons ht _ ih =>
    rcases List.mem_append.1 hn with hn | hn
    · exact ht.takes_of_mem hn
    · exact ih hn

theorem exists_takes_of_mem (h : Steps g a c ns d) {n : Node ρ} (hn : n ∈ ns) :
    ∃ c' d' ns', Takes g .spaced a c' d' ns' ∧ n ∈ ns' := by
  induction h with
  | nil => simp at hn
  | cons ht _ ih =>
    rcases List.mem_append.1 hn with hn | hn
    · exact ⟨_, _, _, ht, hn⟩
    · exact ih hn

theorem split_of_mem (hone : ∀ c d ns, Takes g .spaced a c d ns → ∃ r children,
      ns = [⟨r, c, d, children⟩])
    (h : Steps g a c ns e) {n : Node ρ} (hn : n ∈ ns) :
    ∃ before d after, ns = before ++ n :: after ∧ Steps g a c before d ∧ n.start = g.skip d ∧
      Takes g .spaced a (g.skip d) n.stop [n] ∧ Steps g a n.stop after e := by
  induction h with
  | nil => simp at hn
  | @cons c d e ns ns' ht hs ih =>
    obtain ⟨r, children, rfl⟩ := hone _ _ _ ht
    rcases List.mem_append.1 hn with hn | hn
    · cases List.mem_singleton.1 hn
      exact ⟨[], c, ns', rfl, .nil c, rfl, ht, hs⟩
    · obtain ⟨before, d', after, rfl, hbefore, hstart, htake, hafter⟩ := ih hn
      exact ⟨_ :: before, d', after, rfl, .cons ht hbefore, hstart, htake, hafter⟩

end Steps

theorem exists_takes_of_mem_many {c d : Cursor} {ns : List (Node ρ)}
    (h : Takes g .spaced (.many a) c d ns) {n : Node ρ} (hn : n ∈ ns) :
    ∃ c' d' ns', Takes g .spaced a c' d' ns' ∧ n ∈ ns' := by
  cases h with
  | many hfirst hagain =>
    rcases List.mem_append.1 hn with hn | hn
    · exact ⟨_, _, _, hfirst, hn⟩
    · exact (again_iff.1 hagain).1.exists_takes_of_mem hn
  | manyNot => simp at hn

theorem takes_many_char_iff {accept : Char → Bool} {c d : Cursor} {ns : List (Node ρ)} :
    Takes g .tight (.many (.char accept)) c d ns ↔
      ns = [] ∧ d.char? accept = none ∧ ∃ cs, c.Passes cs d ∧ cs.all accept = true := by
  rw [Takes, many_iff_again (m := .tight) rfl]
  constructor
  · intro h
    generalize hm : Mode.tight = m at h
    generalize ht : Task.again (Expr.char accept) = t at h
    generalize hx : some (d, ns) = x at h
    induction h generalizing d ns with
    | again ha _ _ ihs =>
      subst hm
      cases ht
      cases hx
      obtain ⟨rfl, hd, cs, hcs, hall⟩ := ihs rfl rfl rfl
      cases ha with
      | char ha =>
        obtain ⟨x, hx, hp⟩ := Cursor.char?_passes ha
        exact ⟨rfl, hd, x :: cs, hp.trans hcs, by simp [hx, hall]⟩
    | againNot ha =>
      subst hm
      cases ht
      cases hx
      cases ha with
      | charFail ha => exact ⟨rfl, ha, [], .refl _, rfl⟩
    | _ => cases ht
  · rintro ⟨rfl, hd, cs, hcs, hall⟩
    induction cs generalizing c with
    | nil =>
      obtain ⟨hrest, hoff⟩ := hcs
      obtain rfl : d = c := by
        cases c
        cases d
        simp_all
      exact .againNot (.charFail hd)
    | cons x xs ih =>
      simp only [List.all_cons, Bool.and_eq_true] at hall
      obtain ⟨n, rest⟩ := c
      obtain ⟨hrest, hoff⟩ := hcs
      simp only [List.cons_append] at hrest
      subst hrest
      have hone : Cursor.char? accept ⟨n, x :: (xs ++ d.rest)⟩ = some ⟨n + x.utf8Size, xs ++ d.rest⟩ := by
        simp [Cursor.char?, hall.1]
      have hnext : Cursor.Passes ⟨n + x.utf8Size, xs ++ d.rest⟩ xs d :=
        ⟨rfl, by simp [hoff, Nat.add_assoc]⟩
      have hagain := Yields.again (g := g) (m := .tight) (.char hone) (ih hnext hall.2)
      exact hagain

theorem takes_char_many_iff {first more : Char → Bool} {c d : Cursor} {ns : List (Node ρ)} :
    Takes g .tight (.seq (.char first) (.many (.char more))) c d ns ↔
      ns = [] ∧ d.char? more = none ∧
        ∃ x xs, c.Passes (x :: xs) d ∧ first x = true ∧ xs.all more = true := by
  constructor
  · intro h
    obtain ⟨e, xs, ys, hfirst, hmany, rfl⟩ := takes_seq_iff.1 h
    obtain ⟨rfl, hd, cs, hcs, hall⟩ := takes_many_char_iff.1 hmany
    cases hfirst with
    | char hfirst =>
      obtain ⟨x, hx, hp⟩ := Cursor.char?_passes hfirst
      exact ⟨rfl, hd, x, cs, hp.trans hcs, hx, hall⟩
  · rintro ⟨rfl, hd, x, xs, hp, hx, hall⟩
    obtain ⟨n, cs⟩ := c
    obtain ⟨hrest, hoff⟩ := hp
    simp only [List.cons_append] at hrest
    subst hrest
    have hfirst : Cursor.char? first ⟨n, x :: (xs ++ d.rest)⟩ =
        some ⟨n + x.utf8Size, xs ++ d.rest⟩ := by
      simp [Cursor.char?, hx]
    have hmany : Takes g .tight (.many (.char more)) ⟨n + x.utf8Size, xs ++ d.rest⟩ d [] :=
      takes_many_char_iff.2 ⟨rfl, hd, xs, ⟨rfl, by simp [hoff, Nat.add_assoc]⟩, hall⟩
    exact Takes.seq_nil (.char hfirst) hmany

/-- The position in a text of which the part from byte `start` on now comes at byte `stop`. -/
def Cursor.moved (start stop : Nat) (c : Cursor) : Cursor :=
  ⟨c.offset - start + stop, c.rest⟩

namespace Cursor

variable {start stop : Nat} {c d : Cursor}

theorem Passes.moved {cs : List Char} (hc : start ≤ c.offset) (h : c.Passes cs d) :
    (c.moved start stop).Passes cs (d.moved start stop) := by
  obtain ⟨hrest, hoff⟩ := h
  refine ⟨hrest, ?_⟩
  simp only [Cursor.moved]
  omega

theorem char?_moved {accept : Char → Bool} (hc : start ≤ c.offset) :
    (c.moved start stop).char? accept = (c.char? accept).map (Cursor.moved start stop) := by
  obtain ⟨n, cs⟩ := c
  cases cs with
  | nil => rfl
  | cons x xs =>
    by_cases hx : accept x = true
    · simp only [Cursor.moved, char?, hx, ↓reduceIte, Option.map_some, Option.some.injEq,
        Cursor.mk.injEq, and_true] at hc ⊢
      omega
    · simp [Cursor.moved, char?, hx]

theorem text?_moved {cs : List Char} (hc : start ≤ c.offset) :
    (c.moved start stop).text? cs = (c.text? cs).map (Cursor.moved start stop) := by
  induction cs generalizing c with
  | nil => rfl
  | cons a as ih =>
    obtain ⟨n, xs⟩ := c
    cases xs with
    | nil => rfl
    | cons x xs =>
      by_cases hx : (a == x) = true
      · have hn : start ≤ n + x.utf8Size := Nat.le_trans hc (Nat.le_add_right _ _)
        have hoff : n + x.utf8Size - start + stop = n - start + stop + x.utf8Size := by
          simp only at hc
          omega
        have := ih (c := ⟨n + x.utf8Size, xs⟩) hn
        simp only [Cursor.moved, hoff] at this
        simp only [Cursor.moved, text?, hx, ↓reduceIte]
        exact this
      · simp [Cursor.moved, text?, hx]

theorem Before.offset_ge {n : Nat} (h : c.Before d) (hc : n ≤ c.offset) : n ≤ d.offset :=
  Nat.le_trans hc h.offset_le

end Cursor

/-- What is read from a position on does not depend on where the position lies. -/
theorem carries_moved (hg : g.SkipsForward) {start stop : Nat}
    (hskip : ∀ c : Cursor, start ≤ c.offset →
      g.skip (c.moved start stop) = (g.skip c).moved start stop) :
    Carries g (Cursor.moved start stop) fun _ _ c => start ≤ c.offset := by
  have hmode : ∀ (m : Mode) (c : Cursor), start ≤ c.offset →
      m.skip g (c.moved start stop) = (m.skip g c).moved start stop := by
    intro m c hc
    cases m with
    | spaced => exact hskip c hc
    | tight => rfl
  exact {
    char := fun hc => Cursor.char?_moved hc
    text := fun hc => Cursor.text?_moved hc
    seq := fun {m _ _ _} hc => ⟨hc, fun d _ hd => by
      have hle := Cursor.Before.offset_ge (hd.passes hg) hc
      exact ⟨hmode m d hle, Cursor.Before.offset_ge (hg.mode m d) hle⟩⟩
    choice := fun hc => ⟨hc, fun _ => hc⟩
    maybe := id
    never := id
    many := fun hc => ⟨hc, fun _ _ hd => Cursor.Before.offset_ge (hd.passes hg) hc⟩
    again := fun {m _ c} hc => by
      have hle := Cursor.Before.offset_ge (hg.mode m c) hc
      exact ⟨hmode m c hc, hle, fun _ _ hd => Cursor.Before.offset_ge (hd.passes hg) hle⟩
    rule := .inl }

end SolidityStubs.Peg
