import SolidityStubs.Proofs.Source.Flow
import SolidityStubs.Proofs.Source.Leading

/-! # The layout of a source

The items of a source and the parts of a contract are rows of steps, and what comes before the parts
of a contract or the body of a function is a row of pieces.
-/
namespace SolidityStubs.Source

open Peg

/-- Pieces one after the other, with padding behind each. -/
inductive Row : List (Expr Rule) → Cursor → Cursor → List Tree → Prop
  | nil (c : Cursor) : Row [] c c []
  | cons {e es c d f ns ns'} (h : Takes grammar .spaced e c d ns) (hs : Row es (skip d) f ns') :
      Row (e :: es) c f (ns ++ ns')

variable {c d : Cursor} {ns : List Tree}

theorem Row.chained {es : List (Expr Rule)} (h : Row es c d ns) : Chained c ns d := by
  induction h with
  | nil c => exact .nil (.refl c)
  | cons ht _ ih =>
    exact (ht.chained grammar_bounded.skips).append (ih.of_before (skip_passes _))

theorem takes_all_append_iff {es rest : List (Expr Rule)} (hrest : rest ≠ []) :
    Takes grammar .spaced (.all (es ++ rest)) c d ns ↔
      ∃ f as bs, Row es c f as ∧ Takes grammar .spaced (.all rest) f d bs ∧ ns = as ++ bs := by
  induction es generalizing c ns with
  | nil =>
    constructor
    · intro h
      exact ⟨c, [], ns, .nil c, h, rfl⟩
    · rintro ⟨f, as, bs, hrow, h, rfl⟩
      cases hrow
      exact h
  | cons e es ih =>
    have hall : Expr.all (e :: (es ++ rest)) = .seq e (.all (es ++ rest)) := by
      cases hes : es ++ rest with
      | nil => simp [hrest] at hes
      | cons a as => rfl
    rw [List.cons_append, hall, takes_seq_iff]
    constructor
    · rintro ⟨d', as, bs, he, h, rfl⟩
      obtain ⟨f, as', bs', hrow, hrest', rfl⟩ := ih.1 h
      exact ⟨f, _, bs', .cons he hrow, hrest', by rw [List.append_assoc]⟩
    · rintro ⟨f, as, bs, hrow, h, rfl⟩
      cases hrow with
      | cons he hrow =>
        exact ⟨_, _, _, he, ih.2 ⟨f, _, bs, hrow, h, rfl⟩, by rw [List.append_assoc]⟩

theorem takes_text_iff {m : Mode} {cs : List Char} :
    Takes grammar m (.text cs) c d ns ↔ c.Passes cs d ∧ ns = [] := by
  constructor
  · intro h
    cases h with
    | text h => exact ⟨Cursor.text?_passes h, rfl⟩
  · rintro ⟨h, rfl⟩
    exact .text (Cursor.text?_of_passes h)

theorem takes_endOfInput_iff :
    Takes grammar .spaced (.rule .endOfInput) c d ns ↔
      c.rest = [] ∧ d = c ∧ ns = [⟨.endOfInput, c, c, []⟩] := by
  rw [takes_rule_iff (by decide)]
  change (∃ children, Takes grammar .spaced (.never .anyChar) c d children ∧ _) ↔ _
  constructor
  · rintro ⟨children, h, rfl⟩
    cases h with
    | never h =>
      cases h with
      | charFail h =>
        obtain ⟨n, _ | ⟨x, xs⟩⟩ := c
        · exact ⟨rfl, rfl, rfl⟩
        · simp [Cursor.char?] at h
  · rintro ⟨hc, rfl, rfl⟩
    obtain ⟨n, cs⟩ := d
    simp only at hc
    subst hc
    exact ⟨[], .never (.charFail rfl), rfl⟩

/-- A source is a row of items up to its end. -/
theorem tree_eq_ok_iff_steps {source : String} {root : Tree} :
    tree source = .ok root ↔
      ∃ items e, Steps grammar sourceItem (.ofText source.toList) items e ∧
        Fails grammar .spaced sourceItem (skip e) ∧ (skip e).rest = [] ∧
        root = ⟨.sourceUnit, .ofText source.toList, skip e,
          items ++ [⟨.endOfInput, skip e, skip e, []⟩]⟩ := by
  rw [tree_eq_ok_iff]
  have hbody : ∀ d children, Takes grammar .spaced (grammar.production .sourceUnit).body
      (.ofText source.toList) d children ↔
      ∃ items e, Steps grammar sourceItem (.ofText source.toList) items e ∧
        Fails grammar .spaced sourceItem (skip e) ∧ (skip e).rest = [] ∧ d = skip e ∧
        children = items ++ [⟨.endOfInput, skip e, skip e, []⟩] := by
    intro d children
    change Takes grammar .spaced (.seq (.text []) (.seq (.many sourceItem) (.rule .endOfInput))) _ _
      _ ↔ _
    constructor
    · intro h
      obtain ⟨o, os, rest, hstart, hrest, rfl⟩ := takes_seq_iff.1 h
      obtain ⟨e, items, ends, hmany, hend, rfl⟩ := takes_seq_iff.1 hrest
      obtain ⟨ho, rfl⟩ := takes_text_iff.1 hstart
      cases hstart with
      | text hstart =>
        cases hstart
        obtain ⟨hsteps, hfails⟩ := (takes_many_iff (skip_skip _)).1 hmany
        obtain ⟨hempty, rfl, rfl⟩ := takes_endOfInput_iff.1 hend
        obtain ⟨e', hsteps', hskip⟩ := hsteps.of_skip_eq (skip_skip (.ofText source.toList)).symm
        have hskip' : skip e' = skip e := hskip
        refine ⟨items, e', hsteps', hskip'.symm ▸ hfails, hskip'.symm ▸ hempty, hskip'.symm, ?_⟩
        rw [hskip']
        rfl
    · rintro ⟨items, e, hsteps, hfails, hrest, rfl, rfl⟩
      obtain ⟨e', hsteps', hskip⟩ := hsteps.of_skip_eq (skip_skip (.ofText source.toList))
      have hskip' : skip e' = skip e := hskip
      have hmany : Takes grammar .spaced (.many sourceItem) (skip (.ofText source.toList)) e'
          items := (takes_many_iff (skip_skip _)).2 ⟨hsteps', hskip.symm ▸ hfails⟩
      have hend : Takes grammar .spaced (.rule .endOfInput) (skip e') (skip e)
          [⟨.endOfInput, skip e, skip e, []⟩] := by
        rw [hskip']
        exact takes_endOfInput_iff.2 ⟨hrest, rfl, rfl⟩
      exact takes_seq_iff.2 ⟨_, [], _, .text rfl,
        takes_seq_iff.2 ⟨e', _, _, hmany, hend, rfl⟩, rfl⟩
  constructor
  · rintro ⟨d, h⟩
    obtain ⟨children, hb, hroot⟩ := (takes_rule_iff (by decide)).1 h
    obtain ⟨items, e, hsteps, hfails, hrest, rfl, rfl⟩ := (hbody d children).1 hb
    exact ⟨items, e, hsteps, hfails, hrest, List.singleton_inj.1 hroot⟩
  · rintro ⟨items, e, hsteps, hfails, hrest, rfl⟩
    exact ⟨skip e, (takes_rule_iff (by decide)).2
      ⟨_, (hbody _ _).2 ⟨items, e, hsteps, hfails, hrest, rfl, rfl⟩, rfl⟩⟩

def contractHeader : List (Expr Rule) :=
  [.rule .contractKind, .rule .identifier, .maybe (.rule .inheritanceList)]

theorem takes_contractDefinition_iff :
    Takes grammar .spaced (.rule .contractDefinition) c d ns ↔
      ∃ j h e header parts, Row contractHeader c j header ∧ j.Passes ['\x7b'] h ∧
        Steps grammar contractPart h parts e ∧ Fails grammar .spaced contractPart (skip e) ∧
        (skip e).Passes ['\x7d'] d ∧ ns = [⟨.contractDefinition, c, d, header ++ parts⟩] := by
  rw [takes_rule_iff (by decide)]
  change (∃ children, Takes grammar .spaced (.all (contractHeader ++
    [.text ['\x7b'], .many contractPart, .text ['\x7d']])) c d children ∧ _) ↔ _
  constructor
  · rintro ⟨children, h, rfl⟩
    obtain ⟨j, header, group, hrow, hgroup, rfl⟩ := (takes_all_append_iff (by simp)).1 h
    obtain ⟨h', os, rest, hopen, hrest, rfl⟩ := takes_seq_iff.1 hgroup
    obtain ⟨e, parts, cs, hmany, hclose, rfl⟩ := takes_seq_iff.1 hrest
    obtain ⟨hbrace, rfl⟩ := takes_text_iff.1 hopen
    obtain ⟨hbrace', rfl⟩ := takes_text_iff.1 hclose
    obtain ⟨hsteps, hfails⟩ := (takes_many_iff (skip_skip _)).1 hmany
    obtain ⟨e', hsteps', hskip⟩ := hsteps.of_skip_eq (skip_skip h').symm
    have hskip' : skip e' = skip e := hskip
    exact ⟨j, h', e', header, parts, hrow, hbrace, hsteps', hskip'.symm ▸ hfails,
      hskip'.symm ▸ hbrace', by simp⟩
  · rintro ⟨j, h, e, header, parts, hrow, hopen, hsteps, hfails, hclose, rfl⟩
    obtain ⟨e', hsteps', hskip⟩ := hsteps.of_skip_eq (skip_skip h)
    have hskip' : skip e' = skip e := hskip
    have hmany : Takes grammar .spaced (.many contractPart) (skip h) e' parts :=
      (takes_many_iff (skip_skip _)).2 ⟨hsteps', hskip.symm ▸ hfails⟩
    have hclose' : Takes grammar .spaced (.text ['\x7d']) (skip e') d [] :=
      takes_text_iff.2 ⟨hskip'.symm ▸ hclose, rfl⟩
    refine ⟨_, (takes_all_append_iff (by simp)).2 ⟨j, header, parts, hrow, ?_, rfl⟩, rfl⟩
    exact takes_seq_iff.2 ⟨h, [], parts, takes_text_iff.2 ⟨hopen, rfl⟩,
      takes_seq_iff.2 ⟨e', parts, [], hmany, hclose', by simp⟩, rfl⟩

def functionHeader : List (Expr Rule) :=
  [.rule .functionHead, .rule .parameterList, .many modifierItem]

theorem takes_functionDefinition_iff :
    Takes grammar .spaced (.rule .functionDefinition) c d ns ↔
      ∃ j header body, Row functionHeader c j header ∧
        Takes grammar .spaced bodyOrSemicolon j d body ∧
        ns = [⟨.functionDefinition, c, d, header ++ body⟩] := by
  rw [takes_rule_iff (by decide)]
  change (∃ children, Takes grammar .spaced (.all (functionHeader ++ [bodyOrSemicolon])) c d
    children ∧ _) ↔ _
  constructor
  · rintro ⟨children, h, rfl⟩
    obtain ⟨j, header, body, hrow, hbody, rfl⟩ := (takes_all_append_iff (by simp)).1 h
    exact ⟨j, header, body, hrow, hbody, rfl⟩
  · rintro ⟨j, header, body, hrow, hbody, rfl⟩
    exact ⟨_, (takes_all_append_iff (by simp)).2 ⟨j, header, body, hrow, hbody, rfl⟩, rfl⟩

/-- A choice of rules that show leaves one node, of one of these rules. -/
theorem node_of_takes_any {rs : List Rule} (hrs : ∀ r ∈ rs, (grammar.production r).shape ≠ .silent)
    (h : Takes grammar .spaced (.any (rs.map .rule)) c d ns) :
    ∃ r ∈ rs, ∃ children, ns = [⟨r, c, d, children⟩] := by
  obtain ⟨r, hr, hrule⟩ := takes_rule_of_takes_any h
  obtain ⟨children, -, rfl⟩ := (takes_rule_iff (hrs r hr)).1 hrule
  exact ⟨r, hr, children, rfl⟩

theorem itemRules_show : ∀ r ∈ itemRules, (grammar.production r).shape ≠ .silent := by decide

theorem partRules_show : ∀ r ∈ partRules, (grammar.production r).shape ≠ .silent := by decide

theorem sourceItem_node (h : Takes grammar .spaced sourceItem c d ns) :
    ∃ r children, ns = [⟨r, c, d, children⟩] := by
  obtain ⟨r, -, children, hns⟩ := node_of_takes_any itemRules_show (sourceItem_eq ▸ h)
  exact ⟨r, children, hns⟩

theorem contractPart_node (h : Takes grammar .spaced contractPart c d ns) :
    ∃ r children, ns = [⟨r, c, d, children⟩] := by
  obtain ⟨r, -, children, hns⟩ := node_of_takes_any partRules_show (contractPart_eq ▸ h)
  exact ⟨r, children, hns⟩

theorem rule_mem_of_steps {rs : List Rule} (hrs : ∀ r ∈ rs, (grammar.production r).shape ≠ .silent)
    (h : Steps grammar (.any (rs.map .rule)) c ns d) {n : Tree} (hn : n ∈ ns) : n.rule ∈ rs := by
  obtain ⟨c', d', ns', htakes, hn'⟩ := h.exists_takes_of_mem hn
  obtain ⟨r, hr, children, rfl⟩ := node_of_takes_any hrs htakes
  rw [List.mem_singleton.1 hn']
  exact hr

/-- Every item of a source is read by one of the rules for items. -/
theorem rule_mem_itemRules (h : Steps grammar sourceItem c ns d) {n : Tree} (hn : n ∈ ns) :
    n.rule ∈ itemRules :=
  rule_mem_of_steps itemRules_show (sourceItem_eq ▸ h) hn

theorem rule_mem_partRules (h : Steps grammar contractPart c ns d) {n : Tree} (hn : n ∈ ns) :
    n.rule ∈ partRules :=
  rule_mem_of_steps partRules_show (contractPart_eq ▸ h) hn

end SolidityStubs.Source
