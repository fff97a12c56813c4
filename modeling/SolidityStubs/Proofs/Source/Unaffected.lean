import SolidityStubs.Proofs.Source.Leading
import SolidityStubs.Proofs.Source.Splice

/-! # Declarations in front of a splice

An item or a part of a contract that ends before the place where a text is spliced is read from the
new text as it was read from the old one.
-/
namespace SolidityStubs.Source

open Peg

def Flow.start : Flow := ⟨[], false, false, false⟩

theorem Flow.start_holds (c : Cursor) : Flow.start.Holds false [] c :=
  ⟨rfl, by simp [Flow.start], by simp [Flow.start], by simp [Flow.start]⟩

/-- The position lies in front of the old text, with no escape or mark left half read. -/
def Facing (old : List Char) (c : Cursor) : Prop := ∃ a, c.rest = a ++ old ∧ Settled a

theorem Facing.ahead {old : List Char} {c : Cursor} (h : Facing old c) : Ahead old c := by
  obtain ⟨a, ha, -⟩ := h
  exact ⟨a, ha⟩

theorem Facing.of_before {old : List Char} {c d : Cursor} (h : Facing old c) (hd : c.Before d)
    (hahead : Ahead old d) : Facing old d := by
  obtain ⟨a, ha, hsettled⟩ := h
  obtain ⟨a', ha'⟩ := hahead
  obtain ⟨cs, hcs, -⟩ := hd
  have : a = cs ++ a' := by
    refine (List.append_left_inj old).1 ?_
    rw [← ha, hcs, ha', List.append_assoc]
  exact ⟨a', ha', (this ▸ hsettled).of_append⟩

variable {old new : List Char} {c d : Cursor} {ns : List Tree}

/-- What is read up to a border is followed in step. -/
theorem inStep_of_takes {b : Border} {r : Rule}
    (hflow : flow b false .spaced (.rule r) .start = some .border)
    (h : Takes grammar .spaced (.rule r) c d ns) (hc : Facing old c) (hd : Ahead old d)
    (hseam : Seamless old new) : InStep (spliced old new) b [] c := by
  obtain ⟨a, ha, hsettled⟩ := hc
  obtain ⟨closers, e, x, hscan, hstop, hpass⟩ :=
    taskFlow_reached (t := .once (.rule r)) h hflow (Flow.start_holds c)
  exact inStep_spliced hscan hstop hpass.1 hd.length_le ha hsettled hseam

theorem Takes.guided {b : Border} {e : Expr Rule} {φ : Cursor → Cursor} {x : Exit}
    (h : Takes grammar .spaced e c d ns) (hflow : flow b false .spaced e .start = some x)
    (hstep : InStep φ b [] c) :
    Takes grammar .spaced e (φ c) (φ d) (ns.map (Node.carry φ)) :=
  h.carry (carries_guided φ b) ⟨false, [], .start, x, hflow, Flow.start_holds c, hstep⟩

theorem InStep.clear {b : Border} {φ : Cursor → Cursor} (h : InStep φ b [] c)
    (hc : trivium? c = none) : trivium? (φ c) = none := by
  rw [h.agrees.trivium, hc, Option.map_none]

def borderOf : Rule → Border
  | .importDirective | .usingDirective | .stateVariableDeclaration => .semicolon
  | _ => .ending

def Unaffected (old new : List Char) (e : Expr Rule) : Prop :=
  ∀ c d ns, Takes grammar .spaced e c d ns → trivium? c = none → Facing old c → Ahead old d →
    Takes grammar .spaced e (spliced old new c) (spliced old new d)
      (ns.map (Node.carry (spliced old new))) ∧
    trivium? (spliced old new c) = none

theorem contractPart_unaffected (hseam : Seamless old new) : Unaffected old new contractPart := by
  intro c d ns h hclear hc hd
  obtain ⟨r, hr, hrule⟩ := takes_rule_of_takes_contractPart h
  have hflow : ∀ r ∈ partRules, flow (borderOf r) false .spaced (.rule r) .start = some .border := by
    decide
  have hstep := inStep_of_takes (hflow r hr) hrule hc hd hseam
  refine ⟨?_, hstep.clear hclear⟩
  by_cases hvariable : r = .stateVariableDeclaration
  · -- a variable comes last: all other parts are tried before it and have to fail again
    subst hvariable
    have hall : flow .semicolon false .spaced contractPart .start = some .either := by decide
    exact Takes.guided h hall hstep
  · have hled : ∀ r ∈ partRules, r ≠ .stateVariableDeclaration → leadingWords r ≠ [] := by decide
    exact takes_contractPart_of_takes_rule hr (hled r hr hvariable)
      (Takes.guided hrule (hflow r hr) hstep)

theorem takes_pragmaValue_iff :
    Takes grammar .spaced (.rule .pragmaValue) c d ns ↔
      ns = [⟨.pragmaValue, c, d, []⟩] ∧ d.char? (· != ';') = none ∧
        ∃ x xs, c.Passes (x :: xs) d ∧ (x :: xs).all (· != ';') = true := by
  rw [takes_rule_iff (by decide)]
  change (∃ children, Takes grammar .tight (.seq (.char (· != ';')) (.many (.char (· != ';')))) c d
    children ∧ _) ↔ _
  simp only [takes_char_many_iff, List.all_cons, Bool.and_eq_true]
  constructor
  · rintro ⟨children, ⟨rfl, hd, hvalue⟩, rfl⟩
    exact ⟨rfl, hd, hvalue⟩
  · rintro ⟨rfl, hd, hvalue⟩
    exact ⟨[], ⟨rfl, hd, hvalue⟩, rfl⟩

theorem char?_spliced (hd : Ahead old c) (hlt : old.length < c.rest.length) (accept : Char → Bool) :
    (spliced old new c).char? accept = (c.char? accept).map (spliced old new) := by
  obtain ⟨a, ha⟩ := hd
  obtain ⟨n, cs⟩ := c
  simp only at ha
  subst ha
  cases a with
  | nil => simp at hlt
  | cons x a =>
    rw [spliced_append]
    by_cases hx : accept x = true <;> simp [Cursor.char?, hx]

theorem takes_pragmaDirective_iff :
    Takes grammar .spaced (.rule .pragmaDirective) c d ns ↔
      ∃ e f x xs, c.Passes "pragma".toList e ∧ e.char? isIdentifierChar = none ∧
        (skip e).Passes (x :: xs) f ∧ (x :: xs).all (· != ';') = true ∧ f.Passes [';'] d ∧
        ns = [⟨.pragmaDirective, c, d, [⟨.keyword .pragmaWord, c, e, []⟩,
          ⟨.pragmaValue, skip e, f, []⟩]⟩] := by
  rw [takes_rule_iff (by decide)]
  change (∃ children, Takes grammar .spaced
    (.seq (word .pragmaWord) (.seq (.rule .pragmaValue) (.text [';']))) c d children ∧ _) ↔ _
  constructor
  · rintro ⟨children, h, rfl⟩
    obtain ⟨e, ks, vs, hword, hrest, rfl⟩ := takes_seq_iff.1 h
    obtain ⟨f, vs', ss, hvalue, hsemi, rfl⟩ := takes_seq_iff.1 hrest
    obtain ⟨rfl, hf, x, xs, hp, hall⟩ := takes_pragmaValue_iff.1 hvalue
    obtain ⟨ws, hbody, rfl⟩ := (takes_rule_iff (by decide)).1 hword
    obtain ⟨e', ls, es, hliteral, hend, rfl⟩ := takes_seq_iff.1 hbody
    cases hsemi with
    | text hsemi =>
      -- the value stops at the semicolon, so there is no padding before it
      have hskip : skip f = f := by
        refine skip_of_none ?_
        obtain ⟨n, _ | ⟨y, ys⟩⟩ := f
        · rfl
        · have hy : y = ';' := by simpa [Cursor.char?] using hf
          exact trivium?_eq_none rfl (by rw [hy]; decide) (by rw [hy]; decide)
      have hsemi' : (skip f).text? [';'] = some d := hsemi
      rw [hskip] at hsemi'
      cases hliteral with
      | text hliteral =>
        cases hend with
        | never hend =>
          cases hend with
          | charFail hend =>
            exact ⟨_, f, x, xs, Cursor.text?_passes hliteral, hend, hp, hall,
              Cursor.text?_passes hsemi', rfl⟩
  · rintro ⟨e, f, x, xs, hliteral, hend, hp, hall, hsemi, rfl⟩
    have hf : f.rest = ';' :: d.rest := hsemi.1
    have hskip : skip f = f := skip_of_none (trivium?_eq_none hf (by decide) (by decide))
    have hstop : f.char? (· != ';') = none := by
      obtain ⟨n, cs⟩ := f
      simp only at hf
      subst hf
      simp [Cursor.char?]
    have hword : Takes grammar .spaced (word .pragmaWord) c e [⟨.keyword .pragmaWord, c, e, []⟩] := by
      refine (takes_rule_iff (by decide)).2 ⟨[], ?_, rfl⟩
      exact Takes.seq_nil (.text (Cursor.text?_of_passes hliteral)) (.never (.charFail hend))
    have hvalue : Takes grammar .spaced (.rule .pragmaValue) (skip e) f
        [⟨.pragmaValue, skip e, f, []⟩] :=
      takes_pragmaValue_iff.2 ⟨rfl, hstop, x, xs, hp, hall⟩
    have hsemi' : Takes grammar .spaced (.text [';']) (skip f) d [] :=
      .text (hskip.symm ▸ Cursor.text?_of_passes hsemi)
    exact ⟨_, takes_seq_iff.2 ⟨e, _, _, hword, takes_seq_iff.2 ⟨f, _, _, hvalue, hsemi', rfl⟩, rfl⟩,
      rfl⟩

/-- A pragma in front of a splice is read again if no padding comes in front of its value. -/
theorem takes_pragmaDirective_spliced {e f : Cursor} {x : Char} {xs : List Char} (hc : Facing old c)
    (hd : Ahead old d) (hword : c.Passes "pragma".toList e) (hend : e.char? isIdentifierChar = none)
    (hvalue : (skip e).Passes (x :: xs) f) (hall : (x :: xs).all (· != ';') = true)
    (hsemi : f.Passes [';'] d) :
    skip (spliced old new e) = skip (spliced old new (skip e)) ∧
      (trivium? (spliced old new (skip e)) = none →
        Takes grammar .spaced (.rule .pragmaDirective) (spliced old new c) (spliced old new d)
          [Node.carry (spliced old new) ⟨.pragmaDirective, c, d,
            [⟨.keyword .pragmaWord, c, e, []⟩, ⟨.pragmaValue, skip e, f, []⟩]⟩]) := by
  have hf : Ahead old f := hd.of_before ⟨_, hsemi⟩
  have hskip : Ahead old (skip e) := hf.of_before ⟨_, hvalue⟩
  have he : Ahead old e := hskip.of_before (skip_passes e)
  have hslen : old.length < (skip e).rest.length := by
    have := hf.length_le
    have := congrArg List.length hvalue.1
    simp only [List.length_append, List.length_cons] at this
    omega
  have helen : old.length < e.rest.length := by
    have := Cursor.Before.length_le (skip_passes e)
    omega
  obtain ⟨a, ha, hsettled⟩ := hc.of_before ⟨_, hword⟩ he
  have hpadding : skip (spliced old new e) = skip (spliced old new (skip e)) :=
    skip_spliced ha hsettled hskip (.inl hslen)
  refine ⟨hpadding, fun hclear => ?_⟩
  rw [skip_of_none hclear] at hpadding
  refine takes_pragmaDirective_iff.2 ⟨spliced old new e, spliced old new f, x, xs,
    passes_spliced hword he, ?_, ?_, hall, passes_spliced hsemi hd, ?_⟩
  · rw [char?_spliced he helen, hend, Option.map_none]
  · rw [hpadding]
    exact passes_spliced hvalue hf
  · simp [Node.carry, Node.carryAll, hpadding]

/-- The value of a pragma and its semicolon lie in front of what follows the pragma. -/
theorem pragmaValue_facing {e f : Cursor} {x : Char} {xs : List Char} (hc : Facing old c)
    (hd : Ahead old d) (hword : c.Passes "pragma".toList e)
    (hvalue : (skip e).Passes (x :: xs) f) (hsemi : f.Passes [';'] d) :
    ∃ a, a ≠ [] ∧ (skip e).rest = x :: a ++ old ∧ Settled (x :: a) := by
  obtain ⟨b, hb⟩ := hd
  have hrest : (skip e).rest = (x :: (xs ++ ([';'] ++ b))) ++ old := by
    rw [hvalue.1, hsemi.1, hb]
    simp
  obtain ⟨a', ha', hsettled'⟩ := hc.of_before (Cursor.Before.trans ⟨_, hword⟩ (skip_passes e))
    ⟨_, hrest⟩
  refine ⟨xs ++ ([';'] ++ b), by simp, hrest, ?_⟩
  have heq : a' = x :: (xs ++ ([';'] ++ b)) := (List.append_left_inj old).1 (ha'.symm.trans hrest)
  exact heq ▸ hsettled'

theorem pragmaDirective_unaffected (hseam : Seamless old new) :
    Unaffected old new (.rule .pragmaDirective) := by
  intro c d ns h hclear hc hd
  obtain ⟨e, f, x, xs, hword, hend, hvalue, hall, hsemi, rfl⟩ := takes_pragmaDirective_iff.1 h
  obtain ⟨a, hne, ha, hsettled⟩ := pragmaValue_facing hc hd hword hvalue hsemi
  refine ⟨(takes_pragmaDirective_spliced hc hd hword hend hvalue hall hsemi).2
    (trivium?_spliced_none (trivium?_skip e) ha hsettled hseam fun _ => hne), ?_⟩
  have he : Ahead old e := (Ahead.of_before ⟨_, ha⟩ (skip_passes e))
  have hhead : (spliced old new c).rest = 'p' :: ("ragma".toList ++ (spliced old new e).rest) :=
    (passes_spliced hword he).1
  exact trivium?_eq_none hhead (by decide) (by decide)

theorem sourceItem_unaffected (hseam : Seamless old new) : Unaffected old new sourceItem := by
  intro c d ns h hclear hc hd
  obtain ⟨r, hr, hrule⟩ := takes_rule_of_takes_sourceItem h
  by_cases hpragma : r = .pragmaDirective
  · subst hpragma
    obtain ⟨htakes, hclear'⟩ := pragmaDirective_unaffected hseam c d ns hrule hclear hc hd
    exact ⟨takes_sourceItem_of_takes_rule hr htakes, hclear'⟩
  · have hflow : ∀ r ∈ itemRules, r ≠ .pragmaDirective →
        flow (borderOf r) false .spaced (.rule r) .start = some .border := by
      decide
    have hstep := inStep_of_takes (hflow r hr hpragma) hrule hc hd hseam
    exact ⟨takes_sourceItem_of_takes_rule hr (Takes.guided hrule (hflow r hr hpragma) hstep),
      hstep.clear hclear⟩

theorem Unaffected.steps {e : Expr Rule} (he : Unaffected old new e)
    (hnull : e.nullable matchesNothing = false) (h : Steps grammar e c ns d) (hc : Facing old c)
    (hd : Ahead old d) :
    Steps grammar e (spliced old new c) (ns.map (Node.carry (spliced old new)))
      (spliced old new d) := by
  induction h with
  | nil c => exact .nil _
  | @cons c d f ns ns' ht hs ih =>
    have hf : Ahead old d := hd.of_before (hs.before grammar_bounded.skips)
    have hskip : Ahead old (skip c) := hf.of_before (ht.passes grammar_bounded.skips)
    have hlt : d.rest.length < (skip c).rest.length := Yields.length_lt grammar_bounded ht hnull
    have hle := hf.length_le
    have hfacing : Facing old (skip c) := hc.of_before (skip_passes c) hskip
    obtain ⟨htakes, hclear⟩ := he _ _ _ ht (trivium?_skip c) hfacing hf
    obtain ⟨a, ha, hsettled⟩ := hc
    have hpadding : grammar.skip (spliced old new c) = spliced old new (skip c) := by
      change skip (spliced old new c) = _
      rw [skip_spliced ha hsettled hskip (.inl (by omega))]
      exact skip_of_none hclear
    rw [List.map_append]
    exact .cons (hpadding ▸ htakes)
      (ih (hfacing.of_before (ht.passes grammar_bounded.skips) hf) hd)

end SolidityStubs.Source
