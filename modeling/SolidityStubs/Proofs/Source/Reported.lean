import SolidityStubs.Proofs.Peg.Failures
import SolidityStubs.Proofs.Source.Spans
import SolidityStubs.Proofs.Source.Totality

/-! # Where a syntax error is reported

A source that cannot be read is reported at the furthest place at which a rule failed. That place is
not before the end of the items that were read, and the report lists rules that failed there.
-/
namespace SolidityStubs.Source

open Peg

def wholeSource (source : String) : Stage Rule :=
  ⟨.spaced, .once (.rule .sourceUnit), origin source⟩

section Report

variable {source : String} {e : SyntaxError} {c d : Cursor} {ns ns' : List Tree} {r : Rule}

/-- No rule of the grammar is called to look ahead. -/
theorem production_looksPlainly (r : Rule) : (production r).body.looksPlainly = true :=
  (by decide : ∀ r ∈ Rule.all, (production r).body.looksPlainly = true) r r.mem_all

theorem mem_failures_iff {p : Rule × Nat} :
    p ∈ (runRule .sourceUnit source.toList).trace.failures ↔
      Noted grammar (wholeSource source) p :=
  Grammar.run_traces production_looksPlainly _ _ _ _ (runRule_not_exhausted _ _) p

theorem eq_ofFurthest_of_parse (h : parse source = .error e) :
    e = .ofFurthest source.toList (runRule .sourceUnit source.toList).trace.furthest := by
  unfold parse tree at h
  dsimp only at h
  split at h
  · cases h
  · cases h
    rfl

theorem mem_expected_ofFurthest {cs : List Char} {f : Furthest Rule} :
    r ∈ (SyntaxError.ofFurthest cs f).expected ↔ r ∈ f.expected := by
  simp [SyntaxError.ofFurthest, Rule.mem_all]

theorem parse_eq_error_of_failsWithin (depth : Nat) (source : String)
    (hdepth : depth ≤ depthBound source.toList) (h : failsWithin depth source = true) :
    parse source = .error (.ofFurthest source.toList
      (grammar.run depth .spaced .sourceUnit (origin source)).trace.furthest) := by
  have hends : (grammar.run depth .spaced .sourceUnit (origin source)).outcome ≠ .exhausted := by
    intro ho
    simp [failsWithin, ho] at h
  cases hparse : parse source with
  | ok u => exact absurd hparse (parse_ne_ok_of_failsWithin depth h u)
  | error e =>
    rw [eq_ofFurthest_of_parse hparse, ← Grammar.run_eq_of_le hdepth hends]
    rfl

theorem expected_ofFurthest_sublist (cs : List Char) (f : Furthest Rule) :
    (SyntaxError.ofFurthest cs f).expected.Sublist Rule.all :=
  List.filter_sublist

theorem head?_of_endOfInput_mem {rs : List Rule} (hrs : rs.Sublist Rule.all)
    (h : .endOfInput ∈ rs) : rs.head? = some .endOfInput := by
  cases hrs with
  | cons _ hrs => exact absurd (hrs.subset h) (by decide)
  | cons_cons _ hrs => rfl

theorem fits_of_failsDuring (h : FailsDuring grammar (wholeSource source) r c) :
    c.offset ≤ Text.byteLength source.toList ∧ Text.IsBoundary c.offset source.toList := by
  have hfits := fits_of_before (ComesTo.before grammar_bounded.skips h.entered) (.refl c)
  exact ⟨hfits.stop_le_length, hfits.stop_boundary⟩

/-- When a source cannot be read its end is sought, in vain, behind all items that can be read. -/
theorem endOfInput_failsDuring
    (h : Fails grammar .spaced (.rule .sourceUnit) (origin source)) :
    ∃ d, FailsDuring grammar (wholeSource source) .endOfInput (skip d) ∧
      ∀ ns d', Steps grammar sourceItem (origin source) ns d' → (skip d').Before (skip d) := by
  cases h with
  | ruleFail hbody =>
    cases hbody with
    | seqFirst hstart => cases hstart with | textFail htext => cases htext
    | seqSecond hstart hbody =>
      cases hstart with
      | text htext =>
        cases htext
        cases hbody with
        | seqFirst hmany => cases hmany
        | @seqSecond _ _ _ _ d ns hmany hend =>
          obtain ⟨hsteps, hstuck⟩ := (takes_many_iff (skip_skip _)).1 hmany
          refine ⟨d, ⟨?_, by decide, hend⟩, ?_⟩
          · exact .tail (.tail (.tail .refl .rule) (.seqSecond (.text rfl))) (.seqSecond hmany)
          · intro ns' d' hsteps'
            obtain ⟨d'', hsteps'', hskip⟩ := hsteps'.of_skip_eq (skip_skip (origin source))
            obtain ⟨more, hmore⟩ := hsteps.rejoin hstuck hsteps''
            have hbefore := hmore.skip_before grammar_bounded.skips
            rw [hskip] at hbefore
            exact hbefore

/-- A source that cannot be read is reported at the furthest place at which a rule failed that shows
and was not inside of an atomic rule. That is a place of the text, not before the end of any row of
items and the padding behind it. The report lists rules that failed there, at least one, each once
and in the order of the grammar, in which the end of the input comes first. -/
theorem error_reported_at_furthest_failure (h : parse source = .error e) :
    (e.offset ≤ Text.byteLength source.toList ∧ Text.IsBoundary e.offset source.toList) ∧
    ((∃ r c, FailsDuring grammar (wholeSource source) r c ∧ c.offset = e.offset) ∧
      ∀ r c, FailsDuring grammar (wholeSource source) r c → c.offset ≤ e.offset) ∧
    (∀ items d, Steps grammar sourceItem (origin source) items d → (skip d).offset ≤ e.offset) ∧
    (e.expected ≠ [] ∧ e.expected.Nodup ∧ e.expected.Sublist Rule.all ∧
      (.endOfInput ∈ e.expected → e.expected.head? = some .endOfInput)) ∧
    ∀ r ∈ e.expected, ∃ c, FailsDuring grammar (wholeSource source) r c ∧ c.offset = e.offset := by
  obtain ⟨d, hend, hrows⟩ := endOfInput_failsDuring (parse_eq_error_iff.1 ⟨e, h⟩)
  have hmem : (.endOfInput, (skip d).offset) ∈
      (runRule .sourceUnit source.toList).trace.failures := mem_failures_iff.2 ⟨_, hend, rfl⟩
  obtain ⟨hmax, hne, hfailed⟩ := Trace.furthest_spec (List.ne_nil_of_mem hmem)
  have hoffset : e.offset = (runRule .sourceUnit source.toList).trace.furthest.offset := by
    rw [eq_ofFurthest_of_parse h]
    rfl
  have hexpected : ∀ r ∈ e.expected, ∃ c, FailsDuring grammar (wholeSource source) r c ∧
      c.offset = e.offset := by
    intro r hr
    rw [eq_ofFurthest_of_parse h, mem_expected_ofFurthest] at hr
    rw [hoffset]
    exact mem_failures_iff.1 (hfailed r hr)
  have hsome : ∃ r, r ∈ e.expected := by
    obtain ⟨r, hr⟩ := List.exists_mem_of_ne_nil _ hne
    refine ⟨r, ?_⟩
    rw [eq_ofFurthest_of_parse h, mem_expected_ofFurthest]
    exact hr
  have hsublist : e.expected.Sublist Rule.all := by
    rw [eq_ofFurthest_of_parse h]
    exact expected_ofFurthest_sublist _ _
  have hall : ∀ r c, FailsDuring grammar (wholeSource source) r c → c.offset ≤ e.offset := by
    intro r c hc
    rw [hoffset]
    exact hmax (r, c.offset) (mem_failures_iff.2 ⟨c, hc, rfl⟩)
  obtain ⟨r, hr⟩ := hsome
  obtain ⟨c, hc, hat⟩ := hexpected r hr
  refine ⟨hat ▸ fits_of_failsDuring hc, ⟨⟨r, c, hc, hat⟩, hall⟩, fun items d' hsteps => ?_,
    ⟨List.ne_nil_of_mem hr, Rule.nodup_all.sublist hsublist, hsublist,
      head?_of_endOfInput_mem hsublist⟩, hexpected⟩
  exact Nat.le_trans (hrows items d' hsteps).offset_le (hall _ _ hend)

end Report

/-- The semicolon that is missing behind `x` is no rule, so the report is about `x`. -/
theorem error_reported_at_last_rule :
    ∃ e, parse "pragma é;contract C{uint x}" = .error e ∧ e.offset = 26 ∧
      e.expected = [.arraySuffix, .stateVariableAttribute] ∧
      ∀ r c, FailsDuring grammar (wholeSource "pragma é;contract C{uint x}") r c →
        c.offset ≤ 26 := by
  have h := parse_eq_error_of_failsWithin 12 "pragma é;contract C{uint x}" (by decide +kernel)
    (by decide +kernel)
  have hoffset : (SyntaxError.ofFurthest "pragma é;contract C{uint x}".toList
      (grammar.run 12 .spaced .sourceUnit
        (origin "pragma é;contract C{uint x}")).trace.furthest).offset = 26 := by decide +kernel
  have hmax := (error_reported_at_furthest_failure h).2.1.2
  rw [hoffset] at hmax
  exact ⟨_, h, hoffset, by decide +kernel, hmax⟩

end SolidityStubs.Source
