import SolidityStubs.Proofs.Source.Padding
import SolidityStubs.Source.Parse

/-! # Reading ends

The declaration grammar calls rules at one position only along falling ranks and repeats nothing
that can be empty. So the depth that `runRule` allows is never exhausted, and what it comes to is
the reading of the rule.
-/
namespace SolidityStubs.Source

open Peg

def matchesNothing : Rule → Bool
  | .endOfInput | .sourceUnit => true
  | _ => false

def rank : Rule → Nat
  | .sourceUnit | .parameter | .stateVariableDeclaration => 3
  | .inheritanceSpecifier | .typeName | .functionDefinition | .modifierInvocation => 2
  | .userTypeName | .filler | .importPath | .importSymbol | .pragmaDirective | .importDirective
  | .contractDefinition | .inheritanceList | .usingDirective | .structDefinition | .enumDefinition
  | .eventDefinition | .errorDefinition | .modifierDefinition | .functionHead | .returnsClause
  | .mappingType => 1
  | _ => 0

theorem grammar_bounded : grammar.Bounded matchesNothing rank 64 where
  skips := skip_passes
  free_of_nullable r := (by decide : ∀ r ∈ Rule.all,
    (production r).body.nullable matchesNothing = true → matchesNothing r = true) r r.mem_all
  repeats r := (by decide : ∀ r ∈ Rule.all,
    (production r).body.repeatsProperly matchesNothing = true) r r.mem_all
  rank_lt r := (by decide : ∀ r ∈ Rule.all,
    ∀ r' ∈ (production r).body.heads matchesNothing, rank r' < rank r) r r.mem_all
  rank_lt_width r := (by decide : ∀ r ∈ Rule.all, rank r < 64) r r.mem_all

theorem runRule_eq_iff {r : Rule} {cs : List Char} {x : Reading Rule} :
    (runRule r cs).outcome.reading? = some x ↔
      Yields grammar .spaced (.once (.rule r)) (.ofText cs) x := by
  refine grammar_bounded.reading?_run_eq_some_iff ?_
  have hrank := grammar_bounded.rank_lt_width r
  simp only [depthBound, Cursor.ofText]
  omega

theorem eval_eq_iff {e : Expr Rule} (he : e.repeatsProperly matchesNothing = true) {depth : Nat}
    {c : Cursor} (hdepth : depthBound c.rest ≤ depth) {x : Reading Rule} :
    (e.eval (Mode.spaced.skip grammar) (grammar.run depth .spaced) c).outcome.reading? = some x ↔
      Yields grammar .spaced (.once e) c x := by
  have hsound := Grammar.run_yields (g := grammar) depth .spaced
  refine ⟨Expr.eval_yields hsound e c x, fun hy => ?_⟩
  have hends : (e.eval (Mode.spaced.skip grammar) (grammar.run depth .spaced) c).outcome ≠
      .exhausted := by
    refine Expr.eval_ends grammar_bounded hsound e he c fun r d hd => ?_
    refine grammar_bounded.run_ends _ _ _ _ ?_
    have hrank := grammar_bounded.rank_lt_width r
    simp only [depthBound] at hdepth
    omega
  cases ho : (e.eval (Mode.spaced.skip grammar) (grammar.run depth .spaced) c).outcome.reading? with
  | none => exact absurd (Outcome.reading?_eq_none.1 ho) hends
  | some y => rw [(Expr.eval_yields hsound e c y ho).unique hy]

theorem runRule_not_exhausted (r : Rule) (cs : List Char) :
    (runRule r cs).outcome ≠ .exhausted := by
  refine grammar_bounded.run_ends _ _ _ _ ?_
  have hrank := grammar_bounded.rank_lt_width r
  simp only [depthBound, Cursor.ofText]
  omega

/-- A source has a tree exactly if the rule of the whole source matches. -/
theorem tree_eq_ok_iff {source : String} {root : Tree} :
    tree source = .ok root ↔
      ∃ d, Takes grammar .spaced (.rule .sourceUnit) (.ofText source.toList) d [root] := by
  unfold tree
  dsimp only
  constructor
  · intro h
    split at h
    · rename_i d n ns hrun
      cases h
      have hy := runRule_eq_iff.1 (Outcome.reading?_eq_matched.2 hrun)
      cases hy with
      | ruleShown hs hb => exact ⟨d, .ruleShown hs hb⟩
      | ruleHidden hs => cases hs
    · cases h
  · intro h
    obtain ⟨d, h⟩ := h
    have hrun := Outcome.reading?_eq_matched.1 (runRule_eq_iff.2 h)
    rw [hrun]

theorem parse_eq_ok_iff {source : String} {u : SourceUnit} :
    parse source = .ok u ↔ ∃ root, tree source = .ok root ∧ u = .ofTree root := by
  unfold parse
  cases tree source with
  | error e => simp [Except.map]
  | ok root => simp [Except.map, eq_comm]

def treeWithin (depth : Nat) (source : String) : Option Tree :=
  match (grammar.run depth .spaced .sourceUnit (.ofText source.toList)).outcome with
  | .matched _ [root] => some root
  | _ => none

theorem tree_eq_ok_of_treeWithin {depth : Nat} {source : String} {root : Tree}
    (h : treeWithin depth source = some root) : tree source = .ok root := by
  unfold treeWithin at h
  split at h
  · rename_i d root hrun
    cases h
    have hy := Grammar.run_yields depth .spaced Rule.sourceUnit _ _ (Outcome.reading?_eq_matched.2 hrun)
    exact tree_eq_ok_iff.2 ⟨d, hy⟩
  · cases h

def parseWithin (depth : Nat) (source : String) : Option SourceUnit :=
  (treeWithin depth source).map .ofTree

theorem parse_eq_ok_of_parseWithin (depth : Nat) (source : String) (u : SourceUnit)
    (h : parseWithin depth source = some u) : parse source = .ok u := by
  obtain ⟨root, hroot, rfl⟩ := Option.map_eq_some_iff.1 h
  exact parse_eq_ok_iff.2 ⟨root, tree_eq_ok_of_treeWithin hroot, rfl⟩

def failsWithin (depth : Nat) (source : String) : Bool :=
  match (grammar.run depth .spaced .sourceUnit (.ofText source.toList)).outcome with
  | .failed => true
  | _ => false

theorem parse_ne_ok_of_failsWithin (depth : Nat) {source : String}
    (h : failsWithin depth source = true) (u : SourceUnit) : parse source ≠ .ok u := by
  intro hparse
  obtain ⟨root, htree, -⟩ := parse_eq_ok_iff.1 hparse
  obtain ⟨d, htakes⟩ := tree_eq_ok_iff.1 htree
  unfold failsWithin at h
  split at h
  · rename_i hrun
    have hy := Grammar.run_yields depth .spaced Rule.sourceUnit _ _ (Outcome.reading?_eq_failed.2 hrun)
    cases htakes.unique hy
  · cases h

end SolidityStubs.Source
