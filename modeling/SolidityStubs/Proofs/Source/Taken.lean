import SolidityStubs.Proofs.Source.Words

/-! # What rules take

The text that names and words take of a source, told from the fact that they were read.
-/
namespace SolidityStubs.Source

open Peg

variable {c d : Cursor} {cs : List Char} {ns : List Tree}

section Names

theorem identifier_of_takes_body (h : Takes grammar .tight (production .identifier).body c d ns) :
    ns = [] ∧ d.char? isIdentifierChar = none ∧ ∃ p, isIdentifier p = true ∧ c.Passes p d := by
  obtain ⟨rfl, hd, x, xs, hpass, hx, hxs⟩ := takes_char_many_iff.1 h
  exact ⟨rfl, hd, x :: xs, by simp [isIdentifier, hx, hxs], hpass⟩

theorem takes_identifier_iff :
    Takes grammar .spaced (.rule .identifier) c d ns ↔
      d.char? isIdentifierChar = none ∧ (∃ p, isIdentifier p = true ∧ c.Passes p d) ∧
        ns = [⟨.identifier, c, d, []⟩] := by
  rw [takes_rule_iff (by decide)]
  constructor
  · rintro ⟨children, h, rfl⟩
    obtain ⟨rfl, hd, hp⟩ := identifier_of_takes_body h
    exact ⟨hd, hp, rfl⟩
  · rintro ⟨hd, ⟨p, hp, hpass⟩, rfl⟩
    exact ⟨[], takes_identifier hp hpass hd, rfl⟩

theorem parts_of_again
    (h : Yields grammar .tight (.again (.seq (.text ['.']) (.rule .identifier))) c (some (d, ns))) :
    ns = [] ∧ ∃ ps : List (List Char), (∀ p ∈ ps, isIdentifier p = true) ∧
      c.Passes (ps.flatMap ('.' :: ·)) d := by
  generalize hm : Mode.tight = m at h
  generalize ht : Task.again (Expr.seq (.text ['.']) (.rule Rule.identifier)) = t at h
  generalize hx : some (d, ns) = x at h
  induction h generalizing d ns with
  | again ha _ _ ihs =>
    subst hm
    cases ht
    cases hx
    obtain ⟨rfl, ps, hps, hpass⟩ := ihs rfl rfl rfl
    obtain ⟨e, _, _, hdot, hname, rfl⟩ := takes_seq_iff.1 ha
    obtain ⟨hpassDot, rfl⟩ := takes_text_iff.1 hdot
    cases hname with
    | ruleShown hs => cases hs
    | ruleHidden _ hb =>
      obtain ⟨rfl, -, p, hp, hpass'⟩ := identifier_of_takes_body hb
      refine ⟨rfl, p :: ps, by simpa [hp] using hps, ?_⟩
      have hall := hpassDot.trans (hpass'.trans hpass)
      exact hall
  | againNot ha =>
    cases hx
    exact ⟨rfl, [], by simp, .refl _⟩
  | _ => cases ht

theorem dotted_of_takes (h : Takes grammar .spaced (.rule .userTypeName) c d ns) :
    ns = [⟨.userTypeName, c, d, []⟩] ∧
      ∃ ps, ps ≠ [] ∧ (∀ p ∈ ps, isIdentifier p = true) ∧ c.Passes (dotted ps) d := by
  obtain ⟨children, hbody, rfl⟩ := (takes_rule_iff (by decide)).1 h
  obtain ⟨e, _, _, hname, hmore, rfl⟩ := takes_seq_iff.1 hbody
  cases hname with
  | ruleShown hs => cases hs
  | ruleHidden _ hb =>
    obtain ⟨rfl, -, p, hp, hpass⟩ := identifier_of_takes_body hb
    obtain ⟨rfl, ps, hps, hpass'⟩ := parts_of_again ((many_iff_again rfl).1 hmore)
    refine ⟨rfl, p :: ps, by simp, ?_, hpass.trans hpass'⟩
    simpa [hp] using hps

theorem keyword_of_takes {k : Keyword} (h : Takes grammar .spaced (word k) c d ns) :
    ns = [⟨.keyword k, c, d, []⟩] ∧ c.Passes k.spelling.toList d ∧
      d.char? isIdentifierChar = none := by
  obtain ⟨children, hb, rfl⟩ := (takes_rule_iff (by simp [grammar, production])).1 h
  obtain ⟨e, _, _, hliteral, hend, rfl⟩ := takes_seq_iff.1 hb
  obtain ⟨hpass, rfl⟩ := takes_text_iff.1 hliteral
  cases hend with
  | never hfails =>
    cases hfails with
    | charFail hfails => exact ⟨rfl, hpass, hfails⟩

theorem takes_keyword {k : Keyword} (h : c.Passes k.spelling.toList d)
    (hd : d.char? isIdentifierChar = none) :
    Takes grammar .spaced (word k) c d [⟨.keyword k, c, d, []⟩] :=
  (takes_rule_iff (by simp [grammar, production])).2
    ⟨[], Takes.seq_nil (takes_text_iff.2 ⟨h, rfl⟩) (takes_wordEnd hd), rfl⟩

/-- A function with a name starts with the word `function` and its name. -/
theorem functionHead_of_takes {t : Tree} {name : String}
    (h : Takes grammar .spaced (.rule .functionHead) c d [t])
    (hname : (t.child? .identifier).map (·.string) = some name) :
    isIdentifier name.toList = true ∧ ∃ e, c.Passes "function".toList e ∧
      e.char? isIdentifierChar = none ∧ (skip e).Passes name.toList d ∧
      d.char? isIdentifierChar = none := by
  obtain ⟨children, hbody, hnode⟩ := (takes_rule_iff (by decide)).1 h
  obtain rfl := List.singleton_inj.1 hnode
  have hword : ∀ k, Takes grammar .spaced (word k) c d children →
      Node.child? (⟨.functionHead, c, d, children⟩ : Tree) .identifier = none := by
    intro k hk
    obtain ⟨rfl, -⟩ := keyword_of_takes hk
    simp [Node.child?]
  cases hbody with
  | choiceLeft hfunction =>
    obtain ⟨e, _, _, hkeyword, hmaybe, rfl⟩ := takes_seq_iff.1 hfunction
    obtain ⟨rfl, hpass, hend⟩ := keyword_of_takes hkeyword
    cases hmaybe with
    | maybe hident =>
      obtain ⟨hd, ⟨p, hp, hpass'⟩, rfl⟩ := takes_identifier_iff.1 hident
      have hstring : String.ofList p = name := by
        simpa [Node.child?, Node.string, Node.text, hpass'.upTo] using hname
      subst hstring
      rw [String.toList_ofList]
      exact ⟨hp, e, hpass, hend, hpass', hd⟩
    | maybeNot => simp [Node.child?] at hname
  | choiceRight _ hrest =>
    cases hrest with
    | choiceLeft hk => simp [hword _ hk] at hname
    | choiceRight _ hrest =>
      cases hrest with
      | choiceLeft hk => simp [hword _ hk] at hname
      | choiceRight _ hk => simp [hword _ hk] at hname

end Names

end SolidityStubs.Source
