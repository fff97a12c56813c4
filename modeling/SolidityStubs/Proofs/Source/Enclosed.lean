import SolidityStubs.Proofs.Source.Closed
import SolidityStubs.Proofs.Source.Groups
import SolidityStubs.Proofs.Source.Rebuild

/-! # Text in brackets

Parameter lists, arguments and array suffixes are read between two brackets. They end where the
bracket is closed that they start with, so what stands behind them does not count, and in their
own text they are read again.
-/
namespace SolidityStubs.Source

open Peg

def enclosed (b : Bracket) (es : List (Expr Rule)) : Expr Rule :=
  .seq (.text [b.opening]) (.all (es ++ [.text [b.closing]]))

def listBody : Expr Rule := .maybe (.separated (.rule .parameter) (.text [',']))

variable {b : Bracket} {border : Border} {es : List (Expr Rule)} {c d e f g : Cursor} {ns : List Tree}
  {old new cs xs : List Char}

section Pieces

theorem takes_enclosed_iff :
    Takes grammar .spaced (enclosed b es) c d ns ↔
      ∃ e f, c.Passes [b.opening] e ∧ Row es (skip e) f ns ∧ f.Passes [b.closing] d := by
  constructor
  · intro h
    obtain ⟨e, os, rest, hopen, hrest, rfl⟩ := takes_seq_iff.1 h
    obtain ⟨f, body, cs, hrow, hclose, rfl⟩ := (takes_all_append_iff (by simp)).1 hrest
    obtain ⟨he, rfl⟩ := takes_text_iff.1 hopen
    obtain ⟨hd, rfl⟩ := takes_text_iff.1 hclose
    rw [List.nil_append, List.append_nil]
    exact ⟨e, f, he, hrow, hd⟩
  · rintro ⟨e, f, he, hrow, hd⟩
    have hclose : Takes grammar .spaced (.all [.text [b.closing]]) f d [] :=
      takes_text_iff.2 ⟨hd, rfl⟩
    have hrest := (takes_all_append_iff (by simp)).2 ⟨f, ns, [], hrow, hclose, rfl⟩
    rw [List.append_nil] at hrest
    exact takes_seq_iff.2 ⟨e, [], ns, takes_text_iff.2 ⟨he, rfl⟩, hrest, rfl⟩

theorem takes_parameterList_iff :
    Takes grammar .spaced (.rule .parameterList) c d ns ↔
      ∃ children, Takes grammar .spaced (enclosed .round [listBody]) c d children ∧
        ns = [⟨.parameterList, c, d, children⟩] :=
  takes_rule_iff (by decide)

theorem takes_callArguments_iff :
    Takes grammar .spaced (.rule .callArguments) c d ns ↔
      ∃ children, Takes grammar .spaced (enclosed .round [.many (.rule .filler)]) c d children ∧
        ns = [⟨.callArguments, c, d, children⟩] :=
  takes_rule_iff (by decide)

theorem takes_arraySuffix_iff :
    Takes grammar .spaced (.rule .arraySuffix) c d ns ↔
      ∃ children, Takes grammar .spaced (enclosed .square [.many (.rule .filler)]) c d children ∧
        ns = [⟨.arraySuffix, c, d, children⟩] :=
  takes_rule_iff (by decide)

theorem keepsWithin_fillers :
    ∀ a ∈ [.many (.rule Rule.filler)], keepsWithin .semicolon true a = true := by
  decide

theorem keepsWithin_listBody : ∀ a ∈ [listBody], keepsWithin .semicolon true a = true := by
  decide

end Pieces

section Scanning

theorem closing_solid (b : Bracket) :
    b.closing ≠ '/' ∧ isSpace b.closing = false ∧ b.closing ≠ ' ' := by
  cases b <;> decide

/-- No scan passes a closing bracket that is not due. -/
theorem advance_early {closers : List Char} (hdue : closers.head? ≠ some b.closing)
    (hc : c.rest = b.closing :: xs) : advance border (closers, c) = none := by
  obtain ⟨hslash, hspace, -⟩ := closing_solid b
  have hturn : turn closers b.closing = none := by
    have hnone : closer? b.closing = none ∧ isBracket b.closing = true := by cases b <;> decide
    cases closers with
    | nil => simp [turn, hnone.1, hnone.2]
    | cons z zs =>
      have hne : b.closing ≠ z := by
        rintro rfl
        exact hdue rfl
      simp [turn, hnone.1, hnone.2, hne]
  simp [advance, trivium?_eq_none hc hslash hspace, string?_eq_none hc b.isQuote_closing, hc, hturn]

/-- Below a bracket that is never closed a scan is stuck at each closing bracket that comes too
early. -/
theorem advance_closing (hc : c.rest = b.closing :: xs) : advance border ([' '], c) = none :=
  advance_early (by simpa using (closing_solid b).2.2.symm) hc

theorem Row.scans_enclosed (h : Row es (skip e) f ns)
    (hkeeps : ∀ a ∈ es, keepsWithin .semicolon true a = true) :
    Scans .semicolon ([' '], e) ([' '], f) :=
  (scans_skip .semicolon [' '] e).trans (h.scans hkeeps (trivium?_skip e))

theorem enclosed_text (hkeeps : ∀ a ∈ es, keepsWithin .semicolon true a = true)
    (h : Takes grammar .spaced (enclosed b es) c d ns) :
    ∃ cs, c.Passes (b.opening :: (cs ++ [b.closing])) d := by
  obtain ⟨e, f, he, hrow, hd⟩ := takes_enclosed_iff.1 h
  obtain ⟨cs, hcs⟩ := (hrow.scans_enclosed hkeeps).before
  exact ⟨cs, he.trans (hcs.trans hd)⟩

/-- All that is read from the same bracket on ends at the same closing bracket. -/
theorem takes_enclosed_unique {es' : List (Expr Rule)} {d' : Cursor} {ns' : List Tree}
    (hkeeps : ∀ a ∈ es, keepsWithin .semicolon true a = true)
    (hkeeps' : ∀ a ∈ es', keepsWithin .semicolon true a = true)
    (h : Takes grammar .spaced (enclosed b es) c d ns)
    (h' : Takes grammar .spaced (enclosed b es') c d' ns') : d = d' := by
  obtain ⟨e, f, he, hrow, hd⟩ := takes_enclosed_iff.1 h
  obtain ⟨e', f', he', hrow', hd'⟩ := takes_enclosed_iff.1 h'
  obtain rfl : e = e' := he.unique he'
  have hends := (hrow.scans_enclosed hkeeps).to_end (hrow'.scans_enclosed hkeeps')
    (advance_closing hd'.1)
  rcases Relation.ReflTransGen.cases_head hends with heq | ⟨q, hstep, -⟩
  · cases heq
    exact hd.unique hd'
  · rw [advance_closing hd.1] at hstep
    cases hstep

/-- What is read between brackets is read again where the lexemes up to the closing bracket agree. -/
theorem takes_enclosed_spliced
    (hkeeps : ∀ a ∈ es, keepsWithin .semicolon true a = true)
    (h : Takes grammar .spaced (enclosed b es) c d ns) (hd : Ahead old d)
    (hstep : ∀ e f, c.Passes [b.opening] e → Scans .semicolon ([' '], e) ([' '], f) →
      f.Passes [b.closing] d → InStep (spliced old new) .semicolon [' '] e) :
    Takes grammar .spaced (enclosed b es) (spliced old new c) (spliced old new d)
      (ns.map (Node.carry (spliced old new))) := by
  obtain ⟨e, f, he, hrow, hclose⟩ := takes_enclosed_iff.1 h
  have hscan := hrow.scans_enclosed hkeeps
  have hstep' := hstep e f he hscan hclose
  have hopened : Ahead old e := (hd.of_before ⟨_, hclose⟩).of_before hscan.before
  have hrow' := hrow.guided hkeeps (trivium?_skip e) (hstep'.scans (scans_skip .semicolon [' '] e))
  rw [← hstep'.skip] at hrow'
  exact takes_enclosed_iff.2
    ⟨_, _, passes_spliced he hopened, hrow', passes_spliced hclose hd⟩

theorem Bracket.turn_opening (b : Bracket) (closers : List Char) :
    turn closers b.opening = some (b.closing :: closers) := by
  cases b <;> rfl

theorem Bracket.turn_closing (b : Bracket) (y : Char) (closers : List Char) :
    turn (y :: closers) b.closing = if b.closing = y then some closers else none := by
  cases b <;> rfl

/-- The scanner of groups goes along with a scan that keeps what is due below a bracket that is never
closed. -/
theorem scan_advance {stack : List Bracket} {closers : List Char}
    (h : advance border (stack.map Bracket.closing ++ [' '], c) = some (closers, d)) :
    ∃ stack', closers = stack'.map Bracket.closing ++ [' '] ∧
      ∀ base, scan (stack ++ [base]) c = scan (stack' ++ [base]) d := by
  unfold advance at h
  cases ht : trivium? c with
  | some d' =>
    simp only [ht] at h
    cases h
    refine ⟨stack, rfl, fun base => ?_⟩
    rw [← scan_skip, skip_of_some ht, scan_skip]
  | none =>
    have hskip : skip c = c := skip_of_none ht
    cases hs : string? c with
    | some d' =>
      simp only [ht, hs] at h
      cases h
      exact ⟨stack, rfl, fun base => scan_string (hskip.symm ▸ hs)⟩
    | none =>
      obtain ⟨n, cs⟩ := c
      cases cs with
      | nil => simp [ht, hs] at h
      | cons x xs =>
        simp only [ht, hs, Option.ite_none_left_eq_some, Option.map_eq_some_iff] at h
        obtain ⟨-, closers', hturn, hd⟩ := h
        cases hd
        have hrest : (skip ⟨n, x :: xs⟩).rest = x :: xs := congrArg Cursor.rest hskip
        rcases Bracket.cases_char x with ⟨b, rfl⟩ | ⟨b, rfl⟩ | ⟨hx, hopened, hclosed⟩
        · rw [b.turn_opening, Option.some.injEq] at hturn
          refine ⟨b :: stack, hturn.symm, fun base => ?_⟩
          rw [scan_opening hrest, hskip]
          rfl
        · cases stack with
          | nil => simp [b.turn_closing, (closing_solid b).2.2] at hturn
          | cons top stack =>
            rw [List.map_cons, List.cons_append, b.turn_closing, Option.ite_none_right_eq_some,
              Option.some.injEq] at hturn
            obtain ⟨hb, rfl⟩ := hturn
            refine ⟨stack, rfl, fun base => ?_⟩
            rw [List.cons_append, scan_closing hrest, if_pos (Bracket.closing_inj hb), resume,
              if_neg (by simp), hskip]
        · rw [turn_of_not_isBracket hx, Option.some.injEq] at hturn
          refine ⟨stack, hturn.symm, fun base => ?_⟩
          rw [scan_other (hskip.symm ▸ hs) hrest hopened hclosed, hskip]

theorem scan_scans {p q : List Char × Cursor} (h : Scans border p q) (stack : List Bracket)
    (hp : p.1 = stack.map Bracket.closing ++ [' ']) (hq : q.1 = [' ']) (base : Bracket) :
    scan (stack ++ [base]) p.2 = scan [base] q.2 := by
  induction h using Relation.ReflTransGen.head_induction_on generalizing stack with
  | refl =>
    obtain rfl : stack = [] := by simpa using hp.symm.trans hq
    rfl
  | @head p p' hstep _ ih =>
    obtain ⟨closers, c⟩ := p
    obtain ⟨closers', d⟩ := p'
    subst hp
    obtain ⟨stack', hclosers, hscan⟩ := scan_advance hstep
    rw [hscan base, ih _ hclosers]

theorem takes_callArguments_of_scans {n : Nat}
    (h : Scans border ([' '], ⟨n + '('.utf8Size, xs⟩) ([' '], f)) (hd : f.Passes [')'] d) :
    ∃ ns, Takes grammar .spaced (.rule .callArguments) ⟨n, '(' :: xs⟩ d ns := by
  have hskip : skip f = f := skip_of_none (trivium?_eq_none hd.1 (by decide) rfl)
  have hopen : skip ⟨n, Bracket.round.opening :: xs⟩ = ⟨n, Bracket.round.opening :: xs⟩ :=
    skip_solid n (by decide) rfl
  have hclose : d = ⟨f.offset + Bracket.round.closing.utf8Size, d.rest⟩ :=
    hd.unique ⟨hd.1, by simp [Bracket.closing]⟩
  have hscan : scan [] ⟨n, Bracket.round.opening :: xs⟩ = some d := by
    rw [scan_opening (congrArg Cursor.rest hopen), hopen]
    have hinner := scan_scans h [] rfl rfl .round
    have hend : (skip f).rest = Bracket.round.closing :: d.rest := hskip.symm ▸ hd.1
    rw [scan_closing hend, if_pos rfl, resume, if_pos rfl, hskip, ← hclose] at hinner
    exact hinner
  obtain ⟨ns, hy⟩ := rule_yields_scan .round n xs
  rw [hscan] at hy
  exact ⟨ns, hy⟩

theorem takes_callArguments_of_enclosed (hkeeps : ∀ a ∈ es, keepsWithin .semicolon true a = true)
    (h : Takes grammar .spaced (enclosed .round es) c d ns) :
    ∃ ns, Takes grammar .spaced (.rule .callArguments) c d ns := by
  obtain ⟨e, f, he, hrow, hd⟩ := takes_enclosed_iff.1 h
  obtain ⟨n, cs⟩ := c
  obtain ⟨m, xs⟩ := e
  obtain ⟨hcs, hm⟩ := he
  simp only [Text.byteLength_cons] at hcs hm
  subst hcs hm
  exact takes_callArguments_of_scans (hrow.scans_enclosed hkeeps) hd

end Scanning

section Elsewhere

theorem takes_enclosed_of_facing
    (hkeeps : ∀ a ∈ es, keepsWithin .semicolon true a = true)
    (h : Takes grammar .spaced (enclosed b es) c d ns) (hc : Facing old c) (hd : Ahead old d)
    (hseam : Seamless old new) :
    Takes grammar .spaced (enclosed b es) (spliced old new c) (spliced old new d)
      (ns.map (Node.carry (spliced old new))) := by
  refine takes_enclosed_spliced hkeeps h hd fun e f he hscan hclose => ?_
  obtain ⟨hslash, hspace, -⟩ := closing_solid b
  obtain ⟨a, ha, hsettled⟩ := hc.of_before ⟨_, he⟩ ((hd.of_before ⟨_, hclose⟩).of_before hscan.before)
  exact inStep_spliced_of_end hscan (advance_closing hclose.1) hclose.1 hslash hspace
    b.isQuote_closing hd.length_le ha hsettled hseam

/-- What is read between brackets is read of their text alone. -/
theorem takes_enclosed_alone (hkeeps : ∀ a ∈ es, keepsWithin .semicolon true a = true)
    (h : Takes grammar .spaced (enclosed b es) c d ns) (hpass : c.Passes cs d) :
    Takes grammar .spaced (enclosed b es) ⟨0, cs⟩ ⟨Text.byteLength cs, []⟩
      ((ns.map (Node.carry (spliced d.rest []))).map (Node.carry (Cursor.moved c.offset 0))) := by
  have hsettled : Settled cs := by
    obtain ⟨mid, hmid⟩ := enclosed_text hkeeps h
    obtain rfl : cs = b.opening :: mid ++ [b.closing] :=
      (List.append_left_inj d.rest).1 (hpass.1.symm.trans hmid.1)
    exact settled_append_singleton _ (by cases b <;> decide) (by cases b <;> decide)
  have hseam : Seamless d.rest [] := seamless_of_initial List.nil_prefix
  have hspliced := takes_enclosed_of_facing hkeeps h ⟨cs, hpass.1, hsettled⟩ ⟨[], rfl⟩ hseam
  have hmoved := hspliced.carry (carries_moved_grammar c.offset 0) (Nat.le_refl _)
  rw [spliced_of_eq hpass.1, spliced_of_eq (a := []) rfl] at hmoved
  simpa [Cursor.moved, hpass.2] using hmoved

/-- What closed text between brackets is read as alone it is read as in front of any other text. -/
theorem takes_enclosed_of_closed
    (hkeeps : ∀ a ∈ es, keepsWithin .semicolon true a = true) (hclosed : Closed cs)
    (h : Takes grammar .spaced (enclosed b es) ⟨0, cs⟩ ⟨Text.byteLength cs, []⟩ ns) (n : Nat)
    (rest : List Char) :
    Takes grammar .spaced (enclosed b es) ⟨n, cs ++ rest⟩ ⟨n + Text.byteLength cs, rest⟩
      ((ns.map (Node.carry (spliced [] rest))).map (Node.carry (Cursor.moved 0 n))) := by
  have hstep : ∀ e f : Cursor, Cursor.Passes ⟨0, cs⟩ [b.opening] e →
      Scans .semicolon ([' '], e) ([' '], f) → f.Passes [b.closing] ⟨Text.byteLength cs, []⟩ →
      InStep (spliced [] rest) .semicolon [' '] e := by
    intro e f he hscan hclose
    have hopened : Closed e.rest := by
      have hcs : cs = b.opening :: e.rest := he.1
      have hbare : isBare b.opening = true := by cases b <;> rfl
      exact (closed_cons_iff hbare).1 (hcs ▸ hclosed)
    refine hopened.inStep (fun q hq => ?_) rest
    have hle := (hq.to_end hscan (advance_closing hclose.1)).before.length_le
    rw [hclose.1] at hle
    exact List.ne_nil_of_length_pos (Nat.lt_of_lt_of_le (by simp) hle)
  have hspliced := takes_enclosed_spliced hkeeps h ⟨[], rfl⟩ hstep
  have hmoved := hspliced.carry (carries_moved_grammar 0 n) (Nat.zero_le _)
  simpa [spliced, Cursor.moved, Nat.add_comm] using hmoved

theorem takes_callArguments_of_closed {e : Expr Rule} {n : Nat} {f : Flow}
    (hflow : flow .semicolon true .spaced e .start = some (.reaches f)) (hf : f.closers = [])
    (hclosed : Closed cs) (h : Takes grammar .spaced e ⟨n, cs⟩ ⟨n + Text.byteLength cs, []⟩ ns) :
    ∃ ns, Takes grammar .spaced (.rule .callArguments) ⟨0, '(' :: (cs ++ [')'])⟩
      ⟨Text.byteLength ('(' :: (cs ++ [')'])), []⟩ ns := by
  have hmoved := h.carry (carries_moved_grammar n 1) (Nat.le_refl n)
  have hstart : Cursor.moved n 1 ⟨n, cs⟩ = ⟨1, cs⟩ := by simp [Cursor.moved]
  have hstop : Cursor.moved n 1 ⟨n + Text.byteLength cs, []⟩ = ⟨1 + Text.byteLength cs, []⟩ := by
    simp [Cursor.moved, Nat.add_comm]
  rw [hstart, hstop] at hmoved
  have hholds : Flow.start.Holds true [' '] ⟨1, cs⟩ :=
    ⟨rfl, by simp [Flow.start], by simp [Flow.start], by simp [Flow.start]⟩
  obtain ⟨hscan, -⟩ := taskFlow_reached (t := .once e) hmoved hflow hholds
  rw [hf] at hscan
  have hscan' : Scans .semicolon ([' '], ⟨1, cs ++ [')']⟩) ([' '], ⟨1 + Text.byteLength cs, [')']⟩) :=
    Closed.scans_append hclosed hscan [')']
  refine takes_callArguments_of_scans (n := 0) hscan' ⟨rfl, ?_⟩
  have hparen : '('.utf8Size = 1 ∧ ')'.utf8Size = 1 := ⟨rfl, rfl⟩
  simp only [Text.byteLength_cons, Text.byteLength_append, Text.byteLength_nil, hparen]
  omega

end Elsewhere

end SolidityStubs.Source
