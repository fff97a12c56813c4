import SolidityStubs.Proofs.Source.Termination

/-! # Leading words

All items of a source and all parts of a contract but the variables start with words of their own. So
if one of them can be read, those that start with other words cannot.
-/
namespace SolidityStubs.Source

open Peg

def wordAt (c : Cursor) : List Char := c.rest.takeWhile isIdentifierChar

def leadingWords : Rule → List String
  | .keyword k => [k.spelling]
  | .contractKind | .contractDefinition => ["abstract", "contract", "library", "interface"]
  | .functionHead | .functionDefinition => ["function", "constructor", "fallback", "receive"]
  | .pragmaDirective => ["pragma"]
  | .importDirective => ["import"]
  | .usingDirective => ["using"]
  | .structDefinition => ["struct"]
  | .enumDefinition => ["enum"]
  | .eventDefinition => ["event"]
  | .errorDefinition => ["error"]
  | .modifierDefinition => ["modifier"]
  | _ => []

section Words

variable {c d : Cursor} {ns : List Tree}

theorem wordAt_of_passes {cs : List Char} (h : c.Passes cs d) (hcs : cs.all isIdentifierChar = true)
    (hd : d.char? isIdentifierChar = none) : wordAt c = cs := by
  have hnone : d.rest.takeWhile isIdentifierChar = [] := by
    obtain ⟨n, _ | ⟨x, xs⟩⟩ := d
    · rfl
    · have hx : isIdentifierChar x = false := by simpa [Cursor.char?] using hd
      simp [hx]
  rw [wordAt, h.1, List.takeWhile_append_of_pos (List.all_eq_true.1 hcs), hnone, List.append_nil]

theorem char?_of_takes_wordEnd {m : Mode} {e : Cursor} (h : Takes grammar m wordEnd c e ns) :
    c.char? isIdentifierChar = none := by
  cases h with
  | never h =>
    cases h with
    | charFail h => exact h

theorem wordAt_of_literal {s : String} (hs : s.toList.all isIdentifierChar = true)
    (h : Takes grammar .tight (.seq (.literal s) wordEnd) c d ns) : wordAt c = s.toList := by
  obtain ⟨e, _, _, hliteral, hend, -⟩ := takes_seq_iff.1 h
  cases hliteral with
  | text ht => exact wordAt_of_passes (Cursor.text?_passes ht) hs (char?_of_takes_wordEnd hend)

theorem wordAt_of_keyword {k : Keyword} (h : Takes grammar .spaced (word k) c d ns) :
    wordAt c = k.spelling.toList := by
  obtain ⟨children, hb, -⟩ := (takes_rule_iff (by simp [grammar, production])).1 h
  refine wordAt_of_literal ?_ hb
  cases k <;> decide

theorem wordAt_of_contractKind (h : Takes grammar .spaced (.rule .contractKind) c d ns) :
    wordAt c ∈ (leadingWords .contractKind).map String.toList := by
  obtain ⟨children, hb, -⟩ := (takes_rule_iff (by decide)).1 h
  obtain ⟨e, ks, ws, hkind, hend, -⟩ := takes_seq_iff.1 hb
  have hone : ∀ s ∈ leadingWords .contractKind, s.toList.all isIdentifierChar = true →
      Takes grammar .tight (.literal s) c e ks →
        wordAt c ∈ (leadingWords .contractKind).map String.toList := by
    intro s hmem hs hliteral
    rw [wordAt_of_literal hs (takes_seq_iff.2 ⟨e, ks, ws, hliteral, hend, rfl⟩)]
    exact List.mem_map_of_mem hmem
  cases hkind with
  | choiceLeft habstract =>
    obtain ⟨e', _, _, hword, hspaces, -⟩ := takes_seq_iff.1 habstract
    obtain ⟨e'', _, _, hspaces, -, -⟩ := takes_seq_iff.1 hspaces
    obtain ⟨_, _, _, hspace, -, -⟩ := takes_seq_iff.1 hspaces
    cases hspace with
    | char hspace =>
      obtain ⟨x, hx, hp⟩ := Cursor.char?_passes hspace
      -- a space ends the word
      have hnot : isIdentifierChar x = false := by
        simp only [isSpace, Bool.or_eq_true, beq_iff_eq] at hx
        rcases hx with ((rfl | rfl) | rfl) | rfl <;> decide
      cases hword with
      | text ht =>
        have hend' : Cursor.char? isIdentifierChar (Mode.tight.skip grammar e') = none := by
          obtain ⟨n, cs⟩ := e'
          have hcs : cs = [x] ++ _ := hp.1
          subst hcs
          simp [Mode.skip, Cursor.char?, hnot]
        rw [wordAt_of_passes (Cursor.text?_passes ht) (by decide) hend']
        exact List.mem_map_of_mem (by simp [leadingWords])
  | choiceRight _ hkind =>
    cases hkind with
    | choiceLeft h => exact hone "contract" (by simp [leadingWords]) (by decide) h
    | choiceRight _ hkind =>
      cases hkind with
      | choiceLeft h => exact hone "library" (by simp [leadingWords]) (by decide) h
      | choiceRight _ h => exact hone "interface" (by simp [leadingWords]) (by decide) h

theorem wordAt_of_functionHead (h : Takes grammar .spaced (.rule .functionHead) c d ns) :
    wordAt c ∈ (leadingWords .functionHead).map String.toList := by
  obtain ⟨children, hb, -⟩ := (takes_rule_iff (by decide)).1 h
  have hone : ∀ (k : Keyword) (ns : List Tree) (e : Cursor), k.spelling ∈ leadingWords .functionHead →
      Takes grammar .spaced (word k) c e ns →
        wordAt c ∈ (leadingWords .functionHead).map String.toList := by
    intro k ns e hk hword
    rw [wordAt_of_keyword hword]
    exact List.mem_map_of_mem hk
  cases hb with
  | choiceLeft h =>
    obtain ⟨_, _, _, hword, -, -⟩ := takes_seq_iff.1 h
    exact hone _ _ _ (by decide) hword
  | choiceRight _ h =>
    cases h with
    | choiceLeft h => exact hone _ _ _ (by decide) h
    | choiceRight _ h =>
      cases h with
      | choiceLeft h => exact hone _ _ _ (by decide) h
      | choiceRight _ h => exact hone _ _ _ (by decide) h

/-- A declaration that has leading words starts with one of them. -/
theorem wordAt_of_takes {r : Rule} (hr : leadingWords r ≠ [])
    (h : Takes grammar .spaced (.rule r) c d ns) :
    wordAt c ∈ (leadingWords r).map String.toList := by
  have hled : ∀ k e, (grammar.production r).shape = .structured →
      (grammar.production r).body = .seq (word k) e → leadingWords r = [k.spelling] →
        wordAt c ∈ (leadingWords r).map String.toList := by
    intro k e hshape hbody hwords
    obtain ⟨children, hb, -⟩ := (takes_rule_iff (by simp [hshape])).1 h
    rw [hshape, hbody] at hb
    obtain ⟨_, _, _, hword, -, -⟩ := takes_seq_iff.1 hb
    rw [wordAt_of_keyword hword, hwords]
    simp
  cases r with
  | keyword k =>
    rw [wordAt_of_keyword h]
    simp [leadingWords]
  | contractKind => exact wordAt_of_contractKind h
  | contractDefinition =>
    obtain ⟨children, hb, -⟩ := (takes_rule_iff (by decide)).1 h
    obtain ⟨_, _, _, hkind, -, -⟩ := takes_seq_iff.1 hb
    exact wordAt_of_contractKind hkind
  | functionHead => exact wordAt_of_functionHead h
  | functionDefinition =>
    obtain ⟨children, hb, -⟩ := (takes_rule_iff (by decide)).1 h
    obtain ⟨_, _, _, hhead, -, -⟩ := takes_seq_iff.1 hb
    exact wordAt_of_functionHead hhead
  | pragmaDirective | importDirective | usingDirective | structDefinition | enumDefinition
  | eventDefinition | errorDefinition | modifierDefinition => exact hled _ _ rfl rfl rfl
  | _ => exact absurd rfl hr

end Words

def itemRules : List Rule :=
  [.pragmaDirective, .importDirective, .contractDefinition, .structDefinition, .enumDefinition,
    .errorDefinition, .usingDirective]

def partRules : List Rule :=
  [.usingDirective, .structDefinition, .enumDefinition, .eventDefinition, .errorDefinition,
    .modifierDefinition, .functionDefinition, .stateVariableDeclaration]

theorem sourceItem_eq : sourceItem = .any (itemRules.map .rule) := rfl

theorem contractPart_eq : contractPart = .any (partRules.map .rule) := rfl

section Choice

variable {c d : Cursor} {ns : List Tree} {r : Rule} {rs : List Rule}

theorem takes_rule_of_takes_any (h : Takes grammar .spaced (.any (rs.map .rule)) c d ns) :
    ∃ r ∈ rs, Takes grammar .spaced (.rule r) c d ns := by
  induction rs with
  | nil =>
    cases h with
    | never h =>
      cases h with
      | textFail h => simp [Cursor.text?] at h
  | cons r rs ih =>
    cases rs with
    | nil => exact ⟨r, by simp, h⟩
    | cons r' rs =>
      cases h with
      | choiceLeft h => exact ⟨r, by simp, h⟩
      | choiceRight _ h =>
        obtain ⟨r'', hr, ht⟩ := ih h
        exact ⟨r'', List.mem_cons_of_mem _ hr, ht⟩

theorem takes_any_of_takes_rule (hr : r ∈ rs) (h : Takes grammar .spaced (.rule r) c d ns)
    (hfail : ∀ r' ∈ rs.takeWhile (· ≠ r), Fails grammar .spaced (.rule r') c) :
    Takes grammar .spaced (.any (rs.map .rule)) c d ns := by
  induction rs with
  | nil => simp at hr
  | cons r' rs ih =>
    by_cases heq : r' = r
    · subst heq
      cases rs with
      | nil => exact h
      | cons r'' rs => exact .choiceLeft h
    · have hr' : r ∈ rs := by simpa [Ne.symm heq] using hr
      have hwhile : (r' :: rs).takeWhile (· ≠ r) = r' :: rs.takeWhile (· ≠ r) := by
        simp [heq]
      rw [hwhile] at hfail
      have hrest := ih hr' fun r'' hmem => hfail r'' (List.mem_cons_of_mem _ hmem)
      cases rs with
      | nil => simp at hr'
      | cons r'' rs => exact .choiceRight (hfail r' (by simp)) hrest

theorem exists_yields (r : Rule) (c : Cursor) : ∃ x, Yields grammar .spaced (.once (.rule r)) c x := by
  have hends := grammar_bounded.run_ends (64 * c.rest.length + rank r + 1) .spaced r c (by omega)
  cases ho : (grammar.run (64 * c.rest.length + rank r + 1) .spaced r c).outcome.reading? with
  | none => exact absurd (Outcome.reading?_eq_none.1 ho) hends
  | some x => exact ⟨x, Grammar.run_yields _ _ _ _ _ ho⟩

/-- A declaration cannot be read where another one with other leading words can. -/
theorem fails_of_leadingWords {r' : Rule} (hr : leadingWords r ≠ []) (hr' : leadingWords r' ≠ [])
    (hdisjoint : ∀ w ∈ leadingWords r, w ∉ leadingWords r')
    (h : Takes grammar .spaced (.rule r) c d ns) : Fails grammar .spaced (.rule r') c := by
  obtain ⟨x, hx⟩ := exists_yields r' c
  cases x with
  | none => exact hx
  | some p =>
    obtain ⟨w, hw, hword⟩ := List.mem_map.1 (wordAt_of_takes hr h)
    obtain ⟨w', hw', hword'⟩ := List.mem_map.1 (wordAt_of_takes hr' hx)
    cases String.toList_inj.1 (hword.trans hword'.symm)
    exact absurd hw' (hdisjoint w hw)

/-- An item or part with leading words is found by the choice that it stands in. -/
theorem takes_any_of_leadingWords (hr : r ∈ rs) (hled : leadingWords r ≠ [])
    (hothers : ∀ r' ∈ rs.takeWhile (· ≠ r), leadingWords r' ≠ [] ∧
      ∀ w ∈ leadingWords r, w ∉ leadingWords r')
    (h : Takes grammar .spaced (.rule r) c d ns) :
    Takes grammar .spaced (.any (rs.map .rule)) c d ns := by
  refine takes_any_of_takes_rule hr h fun r' hmem => ?_
  obtain ⟨hled', hdisjoint⟩ := hothers r' hmem
  exact fails_of_leadingWords hled hled' hdisjoint h

theorem takes_rule_of_takes_sourceItem (h : Takes grammar .spaced sourceItem c d ns) :
    ∃ r ∈ itemRules, Takes grammar .spaced (.rule r) c d ns :=
  takes_rule_of_takes_any (sourceItem_eq ▸ h)

theorem takes_rule_of_takes_contractPart (h : Takes grammar .spaced contractPart c d ns) :
    ∃ r ∈ partRules, Takes grammar .spaced (.rule r) c d ns :=
  takes_rule_of_takes_any (contractPart_eq ▸ h)

theorem takes_sourceItem_of_takes_rule (hr : r ∈ itemRules)
    (h : Takes grammar .spaced (.rule r) c d ns) : Takes grammar .spaced sourceItem c d ns := by
  have hall : ∀ r ∈ itemRules, leadingWords r ≠ [] ∧ ∀ r' ∈ itemRules.takeWhile (· ≠ r),
      leadingWords r' ≠ [] ∧ ∀ w ∈ leadingWords r, w ∉ leadingWords r' := by decide
  obtain ⟨hled, hothers⟩ := hall r hr
  exact takes_any_of_leadingWords hr hled hothers h

theorem takes_contractPart_of_takes_rule (hr : r ∈ partRules) (hled : leadingWords r ≠ [])
    (h : Takes grammar .spaced (.rule r) c d ns) : Takes grammar .spaced contractPart c d ns := by
  have hall : ∀ r ∈ partRules, leadingWords r ≠ [] → ∀ r' ∈ partRules.takeWhile (· ≠ r),
      leadingWords r' ≠ [] ∧ ∀ w ∈ leadingWords r, w ∉ leadingWords r' := by decide
  exact takes_any_of_leadingWords hr hled (hall r hr hled) h

end Choice

end SolidityStubs.Source
