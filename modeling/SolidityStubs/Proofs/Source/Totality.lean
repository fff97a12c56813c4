import SolidityStubs.Proofs.Peg.Calls
import SolidityStubs.Proofs.Peg.Depth
import SolidityStubs.Proofs.Source.Splice

/-! # Reading ends on every text

Whatever a text holds, each repetition of the grammar takes a byte at each step and each rule that
is entered again while it is open is entered further behind. So reading comes to an end at a depth
that is linear in the length of the text, and to the end that the grammar without a bound has.
-/
namespace SolidityStubs.Source

open Peg

def paddingPiece : Expr Rule :=
  .any [
    .char isSpace,
    .seq (.literal "//") (.many (.seq (.never (.char isLineEnd)) .anyChar)),
    .all [.literal "/*", .many (.seq (.never (.literal "*/")) .anyChar), .literal "*/"]]

section Padding

theorem lineRest_yields (n : Nat) (cs : List Char) :
    Yields grammar .tight (.again (.seq (.never (.char isLineEnd)) .anyChar)) ⟨n, cs⟩
      (some (lineEnd n cs, [])) := by
  induction cs generalizing n with
  | nil => exact .againNot (.seqSecond (.never (.charFail rfl)) (.charFail rfl))
  | cons x xs ih =>
    by_cases hx : isLineEnd x = true
    · have hend : lineEnd n (x :: xs) = ⟨n, x :: xs⟩ := by simp [lineEnd, hx]
      rw [hend]
      exact .againNot (.seqFirst (.neverFail (.char (d := ⟨n + x.utf8Size, xs⟩)
        (by simp [Mode.skip, Cursor.char?, hx]))))
    · have hend : lineEnd n (x :: xs) = lineEnd (n + x.utf8Size) xs := by simp [lineEnd, hx]
      rw [hend]
      have hone : Takes grammar .tight (.seq (.never (.char isLineEnd)) .anyChar) ⟨n, x :: xs⟩
          ⟨n + x.utf8Size, xs⟩ [] :=
        Takes.seq_nil (.never (.charFail (by simp [Cursor.char?, hx]))) (.char rfl)
      exact .again hone (ih _)

/-- The characters of a block comment are taken up to where the mark that closes it has to stand. -/
theorem blockRest_yields (n : Nat) (cs : List Char) :
    ∃ d, Yields grammar .tight (.again (.seq (.never (.literal "*/")) .anyChar)) ⟨n, cs⟩
        (some (d, [])) ∧ d.text? ['*', '/'] = blockEnd? n cs := by
  fun_induction blockEnd? n cs with
  | case1 n =>
    exact ⟨⟨n, []⟩, .againNot (.seqSecond (.never (.textFail rfl)) (.charFail rfl)), rfl⟩
  | case2 n cs =>
    exact ⟨⟨n, '*' :: '/' :: cs⟩, .againNot (.seqFirst (.neverFail (.text rfl))), rfl⟩
  | case3 n c cs hclose ih =>
    obtain ⟨d, hd, hend⟩ := ih
    have hopen : Cursor.text? "*/".toList ⟨n, c :: cs⟩ = none := by
      cases he : Cursor.text? "*/".toList ⟨n, c :: cs⟩ with
      | none => rfl
      | some e =>
        obtain ⟨hc, hcs⟩ := List.cons.inj (Cursor.text?_passes he).1
        exact absurd hcs (hclose e.rest hc)
    have hone : Takes grammar .tight (.seq (.never (.literal "*/")) .anyChar) ⟨n, c :: cs⟩
        ⟨n + c.utf8Size, cs⟩ [] := Takes.seq_nil (.never (.textFail hopen)) (.char rfl)
    exact ⟨d, .again hone hd, hend⟩

theorem paddingPiece_yields (c : Cursor) :
    Yields grammar .tight (.once paddingPiece) c ((trivium? c).map (·, [])) := by
  obtain ⟨n, cs⟩ := c
  cases cs with
  | nil =>
    exact .choiceRight (.charFail rfl)
      (.choiceRight (.seqFirst (.textFail rfl)) (.seqFirst (.textFail rfl)))
  | cons x xs =>
    cases hspace : isSpace x with
    | true =>
      rw [trivium?_of_isSpace rfl hspace]
      exact .choiceLeft (.char (by simp [Cursor.char?, hspace]))
    | false =>
      refine .choiceRight (.charFail (by simp [Cursor.char?, hspace])) ?_
      by_cases hx : x = '/'
      · subst hx
        cases xs with
        | nil => exact .choiceRight (.seqFirst (.textFail rfl)) (.seqFirst (.textFail rfl))
        | cons y ys =>
          rw [trivium?_slash]
          split
          · rename_i hy
            subst hy
            have hline := (many_iff_again (m := .tight) rfl).2 (lineRest_yields (n + 2) ys)
            exact .choiceLeft (Takes.seq_nil (.text rfl) hline)
          · rename_i hy
            refine .choiceRight (.seqFirst (.textFail (by simp [Cursor.text?, Ne.symm hy]))) ?_
            split
            · rename_i hstar
              subst hstar
              obtain ⟨d, hblock, hend⟩ := blockRest_yields (n + 2) ys
              have hblock' := (many_iff_again (m := .tight) rfl).2 hblock
              cases hd : blockEnd? (n + 2) ys with
              | none =>
                exact .seqSecond (.text rfl) (.seqSecond hblock' (.textFail (hend.trans hd)))
              | some e =>
                exact Takes.seq_nil (.text rfl) (Takes.seq_nil hblock' (.text (hend.trans hd)))
            · rename_i hstar
              exact .seqFirst (.textFail (by simp [Cursor.text?, Ne.symm hstar]))
      · rw [trivium?_eq_none rfl hx hspace]
        exact .choiceRight (.seqFirst (.textFail (by simp [Cursor.text?, Ne.symm hx])))
          (.seqFirst (.textFail (by simp [Cursor.text?, Ne.symm hx])))

theorem skip_yields (c : Cursor) :
    Takes grammar .tight (.many paddingPiece) c (skip c) [] := by
  refine (many_iff_again (m := .tight) rfl).2 ?_
  induction c using skip_induction with
  | stop c h =>
    have hpiece := paddingPiece_yields c
    rw [h] at hpiece
    rw [skip_of_none h]
    exact .againNot hpiece
  | step c d h ih =>
    have hpiece := paddingPiece_yields c
    rw [h] at hpiece
    rw [skip_of_some h]
    exact .again hpiece ih

end Padding

/-- A run that is deep enough for the text does not depend on its depth. -/
theorem run_eq_runRule (r : Rule) {cs : List Char} {depth : Nat} (h : depthBound cs ≤ depth) :
    grammar.run depth .spaced r (.ofText cs) = runRule r cs :=
  Grammar.run_eq_of_le h (runRule_not_exhausted r cs)

theorem parse_eq_error_iff {source : String} :
    (∃ e, parse source = .error e) ↔
      Fails grammar .spaced (.rule .sourceUnit) (.ofText source.toList) := by
  have hok : ∀ u, parse source = .ok u → ¬ Fails grammar .spaced (.rule .sourceUnit)
      (.ofText source.toList) := by
    intro u hu hfails
    obtain ⟨root, htree, -⟩ := parse_eq_ok_iff.1 hu
    obtain ⟨d, htakes⟩ := tree_eq_ok_iff.1 htree
    cases htakes.unique hfails
  constructor
  · rintro ⟨e, he⟩
    cases hrun : (runRule .sourceUnit source.toList).outcome with
    | failed => exact runRule_eq_iff.1 (Outcome.reading?_eq_failed.2 hrun)
    | exhausted => exact absurd hrun (runRule_not_exhausted _ _)
    | matched d ns =>
      -- the rule leaves its node, so there would be a tree
      have hy := runRule_eq_iff.1 (Outcome.reading?_eq_matched.2 hrun)
      obtain ⟨children, -, rfl⟩ := (takes_rule_iff (by decide)).1 hy
      have hparse := parse_eq_ok_iff.2 ⟨_, tree_eq_ok_iff.2 ⟨d, hy⟩, rfl⟩
      simp [he] at hparse
  · intro hfails
    cases hparse : parse source with
    | error e => exact ⟨e, rfl⟩
    | ok u => exact absurd hfails (hok u hparse)

/-- Every repetition takes a byte at each step, in the rules and in padding; a rule that is open is
entered again only further behind; and so the depth allowed to `parse` is never exhausted, more of
it would change nothing, and `parse` comes to what the grammar comes to without a bound. -/
theorem reading_ends (source : String) :
    (∀ r, ∀ a ∈ (production r).body.repeated, ∀ m c d ns, Takes grammar m a c d ns →
      c.offset < d.offset) ∧
    (∀ c, Takes grammar .tight (.many paddingPiece) c (skip c) []) ∧
    (∀ a ∈ (Expr.many paddingPiece).repeated, ∀ m c d ns, Takes grammar m a c d ns →
      c.offset < d.offset) ∧
    (∀ r m m' c d, Relation.TransGen (Calls grammar) ⟨m, .once (.rule r), c⟩
      ⟨m', .once (.rule r), d⟩ → c.offset < d.offset) ∧
    (∀ depth, depthBound source.toList ≤ depth →
      grammar.run depth .spaced .sourceUnit (.ofText source.toList) =
          runRule .sourceUnit source.toList ∧
        (grammar.run depth .spaced .sourceUnit (.ofText source.toList)).outcome ≠ .exhausted) ∧
    (∀ u, parse source = .ok u ↔ ∃ d root,
      Takes grammar .spaced (.rule .sourceUnit) (.ofText source.toList) d [root] ∧
        u = .ofTree root) ∧
    ((∃ e, parse source = .error e) ↔
      Fails grammar .spaced (.rule .sourceUnit) (.ofText source.toList)) := by
  refine ⟨fun r a ha m c d ns h => ?_, skip_yields, fun a ha m c d ns h => ?_,
    fun r m m' c d h => grammar_bounded.offset_lt_of_reentry h, fun depth h => ?_, fun u => ?_,
    parse_eq_error_iff⟩
  · exact grammar_bounded.offset_lt_of_repeated (grammar_bounded.repeats r) ha h
  · exact grammar_bounded.offset_lt_of_repeated (by decide) ha h
  · have hrun := run_eq_runRule .sourceUnit h
    exact ⟨hrun, hrun ▸ runRule_not_exhausted _ _⟩
  · rw [parse_eq_ok_iff]
    constructor
    · rintro ⟨root, htree, rfl⟩
      obtain ⟨d, htakes⟩ := tree_eq_ok_iff.1 htree
      exact ⟨d, root, htakes, rfl⟩
    · rintro ⟨d, root, htakes, rfl⟩
      exact ⟨root, tree_eq_ok_iff.2 ⟨d, htakes⟩, rfl⟩

end SolidityStubs.Source
