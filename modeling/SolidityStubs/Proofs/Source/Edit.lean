import SolidityStubs.Proofs.Source.Rebuild

/-! # Edits of a source

A part of a contract is taken out of a source, or the body of a function is emptied. Either way the
edited source is read as before, up to the edit.
-/
namespace SolidityStubs.Source

open Peg

section Seams

theorem blockEnd?_eq_none_of_eq_none {cs : List Char} (n n' : Nat) (h : blockEnd? n cs = none) :
    blockEnd? n' cs = none := by
  have hzero : ∀ n, blockEnd? n cs = (blockEnd? 0 cs).map (Cursor.moved 0 n) := by
    intro n
    rw [← blockEnd?_moved (Nat.le_refl 0), Nat.sub_zero, Nat.zero_add]
  rw [hzero, Option.map_eq_none_iff] at h ⊢
  exact h

theorem stringEnd?_eq_none_of_eq_none {quote : Char} {cs : List Char} (n n' : Nat)
    (h : stringEnd? quote n cs = none) : stringEnd? quote n' cs = none := by
  fun_induction stringEnd? quote n cs generalizing n' with
  | case1 => rfl
  | case2 => cases h
  | case3 n hq =>
    rw [stringEnd?.eq_def]
    simp [hq]
  | case4 n x xs hq ih =>
    rw [stringEnd?.eq_def]
    simp only [hq, ↓reduceIte]
    exact ih _ h
  | case5 n c cs hq hb ih =>
    rw [stringEnd?_other hq hb]
    exact ih _ h

/-- A prefix leaves open what is left open in the whole text. -/
theorem seamless_of_initial {as bs : List Char} (h : bs <+: as) : Seamless as bs where
  block n n' hopen := by
    obtain ⟨more, rfl⟩ := h
    cases hend : blockEnd? n' bs with
    | none => rfl
    | some d =>
      have hwhole := blockEnd?_append_of_some more hend
      rw [blockEnd?_eq_none_of_eq_none n n' hopen] at hwhole
      cases hwhole
  string quote n n' _ hopen := by
    obtain ⟨more, rfl⟩ := h
    cases hend : stringEnd? quote n' bs with
    | none => rfl
    | some d =>
      have hwhole := stringEnd?_append_of_some more hend
      rw [stringEnd?_eq_none_of_eq_none n n' hopen] at hwhole
      cases hwhole

theorem Settled.nil : Settled [] := ⟨by simp, by simp⟩

/-- Only the end of a text counts. -/
theorem Settled.append_left {b : List Char} (hb : Settled b) (hne : b ≠ []) (a : List Char) :
    Settled (a ++ b) := by
  rw [← List.dropLast_concat_getLast hne] at hb ⊢
  rw [← List.append_assoc]
  exact ⟨by simpa using hb.star, by simpa using hb.backslash⟩

theorem Settled.append {a b : List Char} (ha : Settled a) (hb : Settled b) : Settled (a ++ b) := by
  by_cases hne : b = []
  · simpa [hne] using ha
  · exact hb.append_left hne a

/-- A settled text can be taken out. -/
theorem seamless_append {a b : List Char} (ha : Settled a) : Seamless (a ++ b) b where
  block n n' h := by
    rw [blockEnd?_append _ _ ha.star] at h
    split at h
    · cases h
    · exact blockEnd?_eq_none_of_eq_none _ n' h
  string quote n n' hq h := by
    rw [stringEnd?_append _ _ ha.backslash] at h
    split at h
    · cases h
    · exact stringEnd?_eq_none_of_eq_none _ n' h

/-- A closing brace opens and closes neither comments nor strings. -/
theorem Seamless.cons_brace {old new : List Char} (h : Seamless old new) :
    Seamless old ('\x7d' :: new) where
  block n n' hold := by
    rw [blockEnd?]
    · exact h.block n _ hold
    · intro cs hbrace
      cases hbrace
  string quote n n' hq hold := by
    have hquote : '\x7d' ≠ quote := by
      rintro rfl
      cases hq
    rw [stringEnd?_other hquote (by decide)]
    exact h.string quote n _ hq hold

end Seams

def Settles (c d : Cursor) : Prop := ∃ cs, c.Passes cs d ∧ Settled cs

section Settling

variable {c d e : Cursor}

theorem Settles.trans (h : Settles c d) (h' : Settles d e) : Settles c e := by
  obtain ⟨as, has, ha⟩ := h
  obtain ⟨bs, hbs, hb⟩ := h'
  exact ⟨as ++ bs, has.trans hbs, ha.append hb⟩

theorem settles_of_last {x : Char} (hc : c.Before d) (hd : d.Passes [x] e) (hstar : x ≠ '*')
    (hb : x ≠ '\\') : Settles c e := by
  obtain ⟨cs, hcs⟩ := hc
  exact ⟨cs ++ [x], hcs.trans hd, settled_append_singleton cs hstar hb⟩

theorem settles_of_border {b : Border} {closers : List Char} {x : Char} (hc : c.Before d)
    (hd : d.Passes [x] e) (hstop : b.stops closers x = true) : Settles c e := by
  rcases Border.stops_head hstop with rfl | rfl | rfl <;>
    exact settles_of_last hc hd (by decide) (by decide)

theorem Facing.of_settles {old : List Char} (h : Settles c d) (hd : d.rest = old) : Facing old c := by
  obtain ⟨cs, hcs, hsettled⟩ := h
  exact ⟨cs, hd ▸ hcs.1, hsettled⟩

theorem blockEnd?_last {n : Nat} {cs : List Char} (h : blockEnd? n cs = some d) :
    ∃ as, Cursor.Passes ⟨n, cs⟩ (as ++ ['/']) d := by
  fun_induction blockEnd? n cs with
  | case1 => cases h
  | case2 n cs =>
    cases h
    exact ⟨['*'], rfl, by simp; rfl⟩
  | case3 n c cs _ ih =>
    obtain ⟨as, has⟩ := ih h
    have hone : Cursor.Passes ⟨n, c :: cs⟩ [c] ⟨n + c.utf8Size, cs⟩ := ⟨rfl, by simp⟩
    exact ⟨c :: as, hone.trans has⟩

theorem lineEnd_rest (n : Nat) (cs : List Char) :
    (lineEnd n cs).rest = [] ∨ ∃ x xs, (lineEnd n cs).rest = x :: xs ∧ isLineEnd x = true := by
  induction cs generalizing n with
  | nil => exact .inl rfl
  | cons x xs ih =>
    by_cases hx : isLineEnd x = true
    · exact .inr ⟨x, xs, by simp [lineEnd, hx], hx⟩
    · simpa [lineEnd, hx] using ih (n + x.utf8Size)

/-- The last piece of padding before some text is a space or a block comment. -/
theorem settles_of_trivium? (h : trivium? c = some d) (hd : trivium? d = none) (hne : d.rest ≠ []) :
    Settles c d := by
  obtain ⟨n, cs⟩ := c
  cases cs with
  | nil => cases h
  | cons x xs =>
    have hopen : ∀ (y : Char) (ys : List Char),
        Cursor.Passes ⟨n, '/' :: y :: ys⟩ ['/', y] ⟨n + '/'.utf8Size + y.utf8Size, ys⟩ :=
      fun y ys => ⟨rfl, by simp [Nat.add_assoc]⟩
    by_cases hslash : x = '/'
    · subst hslash
      cases xs with
      | nil => simp [trivium?, isSpace] at h
      | cons y ys =>
        rw [trivium?_slash] at h
        split at h
        · -- a line comment would stop in front of the end of its line, which is padding
          cases h
          exfalso
          rcases lineEnd_rest (n + 2) ys with hrest | ⟨z, zs, hrest, hz⟩
          · exact hne hrest
          · rw [trivium?_of_isSpace hrest (isSpace_of_isLineEnd hz)] at hd
            cases hd
        · split at h
          · rename_i hstar
            subst hstar
            obtain ⟨as, has⟩ := blockEnd?_last h
            refine ⟨['/', '*'] ++ (as ++ ['/']), (hopen '*' ys).trans has, ?_⟩
            rw [← List.append_assoc]
            exact settled_append_singleton _ (by decide) (by decide)
          · cases h
    · cases hspace : isSpace x with
      | false =>
        rw [trivium?_eq_none rfl hslash hspace] at h
        cases h
      | true =>
        rw [trivium?_of_isSpace rfl hspace] at h
        cases h
        refine ⟨[x], ⟨rfl, by simp⟩, ?_⟩
        simp only [isSpace, Bool.or_eq_true, beq_iff_eq] at hspace
        rcases hspace with ((rfl | rfl) | rfl) | rfl <;> exact ⟨by decide, by decide⟩

theorem settles_skip (c : Cursor) (hne : (skip c).rest ≠ []) : Settles c (skip c) := by
  induction c using skip_induction with
  | stop c h =>
    rw [skip_of_none h]
    exact ⟨[], .refl c, .nil⟩
  | step c d h ih =>
    rw [skip_of_some h] at hne ⊢
    cases hd : trivium? d with
    | none =>
      rw [skip_of_none hd] at hne ⊢
      exact settles_of_trivium? h hd hne
    | some e =>
      obtain ⟨cs, hcs, hsettled⟩ := ih hne
      obtain ⟨x, xs, hp⟩ := trivium?_passes h
      obtain ⟨y, ys, hy⟩ := trivium?_passes hd
      have hcs' : cs ≠ [] := by
        rintro rfl
        have hlt := trivium?_length_lt hd
        have hle := Cursor.Before.length_le (skip_passes e)
        have hlen := congrArg List.length hcs.1
        rw [skip_of_some hd] at hlen
        simp only [List.nil_append] at hlen
        omega
      exact ⟨x :: xs ++ cs, hp.trans hcs, hsettled.append_left hcs' _⟩

/-- A part of a contract ends with a semicolon or a brace. -/
theorem settles_of_contractPart {ns : List Tree} (h : Takes grammar .spaced contractPart c d ns) :
    Settles c d := by
  obtain ⟨r, hr, hrule⟩ := takes_rule_of_takes_contractPart h
  have hflow : ∀ r ∈ partRules, flow (borderOf r) false .spaced (.rule r) .start = some .border := by
    decide
  obtain ⟨closers, e, x, hscan, hstop, hpass⟩ :=
    taskFlow_reached (t := .once (.rule r)) hrule (hflow r hr) (Flow.start_holds c)
  exact settles_of_border hscan.before hpass hstop

theorem settles_of_steps {ns : List Tree} (h : Steps grammar contractPart c ns d) : Settles c d := by
  induction h with
  | nil c => exact ⟨[], .refl c, .nil⟩
  | @cons c d e ns ns' ht _ ih =>
    have hne : (skip c).rest ≠ [] := by
      intro hempty
      have hlt : d.rest.length < (skip c).rest.length :=
        Yields.length_lt grammar_bounded ht (by decide)
      simp [hempty] at hlt
    exact ((settles_skip c hne).trans (settles_of_contractPart ht)).trans ih

end Settling

namespace Site

variable {source : String} {root contract part : Tree} (s : Site source root contract part)

theorem settles_opened : Settles (.ofText source.toList) s.opened :=
  settles_of_last (s.origin_before_contract.trans s.header_scans.before) s.brace_passes (by decide)
    (by decide)

include s in
theorem part_clear : trivium? part.start = none := s.part_start ▸ trivium?_skip _

include s in
theorem part_rest_ne_nil : part.start.rest ≠ [] := by
  intro hempty
  have hlt := Yields.length_lt grammar_bounded s.part_takes (by decide)
  simp [hempty] at hlt

theorem partsStop_before_part : s.partsStop.Before part.start := s.part_start ▸ skip_passes _

include s in
/-- A source without one part of a contract. -/
theorem removed {source' : String}
    (hsource' : Cursor.ofText source'.toList =
      spliced part.start.rest part.stop.rest (.ofText source.toList)) :
    ∃ root', tree source' = .ok root' ∧
      root'.children = s.items.map (Node.carry (spliced part.start.rest part.stop.rest)) ++
        s.edited part.start.rest part.stop.rest part.start.offset [] ::
        (s.itemsAfter ++ [(⟨.endOfInput, skip s.itemsEnd, skip s.itemsEnd, []⟩ : Tree)]).map
          (Node.carry (Cursor.moved part.stop.offset part.start.offset)) := by
  obtain ⟨cs, hcs, hsettled⟩ := settles_of_contractPart s.part_takes
  have hseam : Seamless part.start.rest part.stop.rest := by
    rw [hcs.1]
    exact seamless_append hsettled
  have hne := s.part_rest_ne_nil
  have hpart : Ahead part.start.rest s.partsStop :=
    Ahead.of_before ⟨[], rfl⟩ s.partsStop_before_part
  have hsettles : Settles s.partsStop part.start := by
    rw [s.part_start] at hne ⊢
    exact settles_skip _ hne
  have hfacing : Facing part.start.rest s.partsStop := .of_settles hsettles rfl
  have horigin : Facing part.start.rest (.ofText source.toList) :=
    .of_settles ((s.settles_opened.trans (settles_of_steps s.parts_steps)).trans hsettles) rfl
  refine s.rebuild hseam horigin hpart hsource' (.nil _) ?_
  -- padding up to the part goes on with the padding behind it
  obtain ⟨a, ha, hsettled'⟩ := hfacing
  have hline : ∃ x xs, part.start.rest = x :: xs ∧ isLineEnd x = false := by
    cases hrest : part.start.rest with
    | nil => exact absurd hrest hne
    | cons x xs =>
      refine ⟨x, xs, rfl, ?_⟩
      cases hx : isLineEnd x with
      | false => rfl
      | true =>
        have hclear := s.part_clear
        rw [trivium?_of_isSpace hrest (isSpace_of_isLineEnd hx)] at hclear
        cases hclear
  have hskip : skip (spliced part.start.rest part.stop.rest s.partsStop) =
      skip (spliced part.start.rest part.stop.rest (skip s.partsStop)) :=
    skip_spliced ha hsettled' (s.part_start ▸ ⟨[], rfl⟩) (.inr hline)
  rw [hskip, ← s.part_start, spliced_of_eq (a := []) rfl]
  simp [Cursor.moved]

end Site

section Body

variable {c d : Cursor} {ns : List Tree}

theorem functionHeader_node (h : Row functionHeader c d ns) {n : Tree} (hn : n ∈ ns) :
    n.rule ≠ .functionBody := by
  obtain ⟨e, he, c', d', ns', ht, hn⟩ := row_node_rule h hn
  simp only [functionHeader, List.mem_cons, List.not_mem_nil, or_false] at he
  rcases he with rfl | rfl | rfl
  · rw [rule_of_takes_rule (by decide) ht hn]
    decide
  · rw [rule_of_takes_rule (by decide) ht hn]
    decide
  · obtain ⟨_, _, _, hitem, hn⟩ := exists_takes_of_mem_many ht hn
    cases hitem with
    | choiceLeft hitem =>
      rw [rule_of_takes_rule (by decide) hitem hn]
      decide
    | choiceRight _ hitem =>
      rw [rule_of_takes_rule (by decide) hitem hn]
      decide

theorem functionBody_passes (h : Takes grammar .spaced (.rule .functionBody) c d ns) :
    ∃ o e, c.Passes ['\x7b'] o ∧ o.Before e ∧ e.Passes ['\x7d'] d := by
  obtain ⟨children, hb, -⟩ := (takes_rule_iff (by decide)).1 h
  obtain ⟨o, os, rest, hopen, hrest, -⟩ := takes_seq_iff.1 hb
  obtain ⟨f, fs, cs, hmany, hclose, -⟩ := takes_seq_iff.1 hrest
  exact ⟨o, _, (takes_text_iff.1 hopen).1,
    Cursor.Before.trans (skip_passes o) (Cursor.Before.trans (hmany.passes grammar_bounded.skips)
      (skip_passes f)), (takes_text_iff.1 hclose).1⟩

theorem filler_fails_brace (n : Nat) (cs : List Char) :
    Fails grammar .spaced (.rule .filler) ⟨n, '\x7d' :: cs⟩ := by
  have hgroup : ∀ opening closing, opening ≠ '\x7d' →
      Fails grammar .spaced (group opening closing) ⟨n, '\x7d' :: cs⟩ := by
    intro opening closing h
    exact .seqFirst (.textFail (by simp [Cursor.text?, h]))
  have hstring : Fails grammar .spaced (.rule .stringLiteral) ⟨n, '\x7d' :: cs⟩ :=
    stringLiteral_yields ⟨n, '\x7d' :: cs⟩
  exact .ruleFail (.choiceRight (hgroup _ _ (by decide)) (.choiceRight (hgroup _ _ (by decide))
    (.choiceRight (hgroup _ _ (by decide)) (.choiceRight hstring (.charFail rfl)))))

theorem functionBody_empty (n : Nat) (cs : List Char) :
    Takes grammar .spaced bodyOrSemicolon ⟨n, '\x7b' :: '\x7d' :: cs⟩ ⟨n + 2, cs⟩
      [⟨.functionBody, ⟨n, '\x7b' :: '\x7d' :: cs⟩, ⟨n + 2, cs⟩, []⟩] := by
  have hclear : Mode.spaced.skip grammar ⟨n + 1, '\x7d' :: cs⟩ = ⟨n + 1, '\x7d' :: cs⟩ :=
    skip_of_none (trivium?_eq_none rfl (by decide) (by decide))
  have hmany : Takes grammar .spaced (.many (.rule .filler)) ⟨n + 1, '\x7d' :: cs⟩
      ⟨n + 1, '\x7d' :: cs⟩ [] := .manyNot (filler_fails_brace _ _)
  have hclose : Takes grammar .spaced (.text ['\x7d']) ⟨n + 1, '\x7d' :: cs⟩ ⟨n + 2, cs⟩ [] :=
    takes_text_iff.2 ⟨⟨rfl, by simp; rfl⟩, rfl⟩
  have hopen : Takes grammar .spaced (.text ['\x7b']) ⟨n, '\x7b' :: '\x7d' :: cs⟩
      ⟨n + 1, '\x7d' :: cs⟩ [] := takes_text_iff.2 ⟨⟨rfl, by simp; rfl⟩, rfl⟩
  refine .choiceLeft ((takes_rule_iff (by decide)).2 ⟨[], ?_, rfl⟩)
  exact Takes.seq_nil hopen (hclear.symm ▸ Takes.seq_nil hmany (hclear.symm ▸ hclose))

end Body

namespace Site

variable {source : String} {root contract part body : Tree} (s : Site source root contract part)

def emptied (part body : Tree) (header : List Tree) : Tree :=
  ⟨.functionDefinition, spliced body.start.rest.tail ('\x7d' :: body.stop.rest) part.start,
    part.stop.moved part.stop.offset (body.start.offset + 2),
    header.map (Node.carry (spliced body.start.rest.tail ('\x7d' :: body.stop.rest))) ++
      [⟨.functionBody, spliced body.start.rest.tail ('\x7d' :: body.stop.rest) body.start,
        part.stop.moved part.stop.offset (body.start.offset + 2), []⟩]⟩

include s in
theorem function_header (hpart : part.rule = .functionDefinition) (hbody : body ∈ part.children)
    (hrule : body.rule = .functionBody) :
    ∃ header, Row functionHeader part.start body.start header ∧ part.children = header ++ [body] ∧
      body.stop = part.stop ∧
      Takes grammar .spaced (.rule .functionBody) body.start body.stop [body] := by
  have htakes := s.part_takes.takes_of_mem (n := part) (by simp)
  rw [hpart] at htakes
  obtain ⟨j, header, bodies, hrow, hbodies, hnode⟩ := takes_functionDefinition_iff.1 htakes
  have hchildren : part.children = header ++ bodies := by rw [List.singleton_inj.1 hnode]
  have hmem : body ∈ bodies := by
    rw [hchildren] at hbody
    rcases List.mem_append.1 hbody with h | h
    · exact absurd hrule (functionHeader_node hrow h)
    · exact h
  cases hbodies with
  | choiceLeft hbodies =>
    obtain ⟨children, -, rfl⟩ := (takes_rule_iff (by decide)).1 hbodies
    obtain rfl := List.mem_singleton.1 hmem
    exact ⟨header, hrow, hchildren, rfl, hbodies⟩
  | choiceRight _ hbodies =>
    rw [(takes_text_iff.1 hbodies).2] at hmem
    simp at hmem

/-- A source in which the body of a function is emptied. -/
theorem emptied_body (hpart : part.rule = .functionDefinition) (hbody : body ∈ part.children)
    (hrule : body.rule = .functionBody) {source' : String}
    (hsource' : Cursor.ofText source'.toList =
      spliced body.start.rest.tail ('\x7d' :: body.stop.rest) (.ofText source.toList)) :
    ∃ header root', Row functionHeader part.start body.start header ∧
      part.children = header ++ [body] ∧ tree source' = .ok root' ∧
      root'.children =
        s.items.map (Node.carry (spliced body.start.rest.tail ('\x7d' :: body.stop.rest))) ++
        s.edited body.start.rest.tail ('\x7d' :: body.stop.rest) (body.start.offset + 2)
          [emptied part body header] ::
        (s.itemsAfter ++ [(⟨.endOfInput, skip s.itemsEnd, skip s.itemsEnd, []⟩ : Tree)]).map
          (Node.carry (Cursor.moved part.stop.offset (body.start.offset + 2))) := by
  obtain ⟨header, hrow, hchildren, hstop, htakes⟩ := s.function_header hpart hbody hrule
  obtain ⟨o, e, hopen, hinner, hclose⟩ := functionBody_passes htakes
  have ho : body.start.rest.tail = o.rest := by rw [hopen.1]; rfl
  have hscan : Scans .opening ([], part.start) ([], body.start) :=
    hrow.scans (by decide) s.part_clear
  refine ⟨header, ?_⟩
  unfold emptied
  rw [ho] at hsource' ⊢
  have hseam : Seamless o.rest ('\x7d' :: body.stop.rest) := by
    obtain ⟨cs, hcs⟩ := hinner
    rw [(hcs.trans hclose).1]
    exact (seamless_append (settled_append_singleton cs (by decide) (by decide))).cons_brace
  have hpartAhead : Ahead o.rest part.start :=
    Ahead.of_before ⟨[], rfl⟩ (hscan.before.trans ⟨_, hopen⟩)
  have hpartsAhead : Ahead o.rest s.partsStop := hpartAhead.of_before s.partsStop_before_part
  have hbefore : Cursor.Before (.ofText source.toList) part.start :=
    (s.origin_before_contract.trans s.contract_before_partsStop).trans s.partsStop_before_part
  have horigin : Facing o.rest (.ofText source.toList) :=
    .of_settles (settles_of_last (hbefore.trans hscan.before) hopen (by decide) (by decide)) rfl
  -- the header of the function is followed in step up to the brace
  have hstep : InStep (spliced o.rest ('\x7d' :: body.stop.rest)) .opening [] part.start := by
    obtain ⟨a, ha, hsettled⟩ := horigin.of_before hbefore hpartAhead
    exact inStep_spliced hscan (by decide) hopen.1 (Nat.le_refl _) ha hsettled hseam
  have hheader := hrow.guided (by decide) s.part_clear hstep
  have hskip : skip (spliced o.rest ('\x7d' :: body.stop.rest) s.partsStop) =
      spliced o.rest ('\x7d' :: body.stop.rest) part.start := by
    obtain ⟨a, ha, hsettled⟩ := horigin.of_before
      (s.origin_before_contract.trans s.contract_before_partsStop) hpartsAhead
    have hlt : o.rest.length < part.start.rest.length := by
      have hle : body.start.rest.length ≤ part.start.rest.length := hscan.before.length_le
      rw [hopen.1] at hle
      simp only [List.singleton_append, List.length_cons] at hle
      omega
    rw [s.part_start] at hpartAhead hstep hlt ⊢
    rw [skip_spliced ha hsettled hpartAhead (.inl hlt)]
    exact skip_of_none (hstep.clear (trivium?_skip _))
  have hnew : spliced o.rest ('\x7d' :: body.stop.rest) body.start =
      ⟨body.start.offset, '\x7b' :: '\x7d' :: body.stop.rest⟩ := spliced_of_eq hopen.1
  have hmoved : part.stop.moved part.stop.offset (body.start.offset + 2) =
      ⟨body.start.offset + 2, body.stop.rest⟩ := by
    simp [Cursor.moved, hstop]
  have hempty := functionBody_empty body.start.offset body.stop.rest
  rw [← hnew, ← hmoved] at hempty
  have hfunction := takes_functionDefinition_iff.2 ⟨_, _, _, hheader, hempty, rfl⟩
  have hpart' := takes_contractPart_of_takes_rule (by decide) (by decide) hfunction
  rw [← hskip] at hpart'
  obtain ⟨root', htree, hroot⟩ := s.rebuild hseam horigin hpartsAhead hsource'
    (Steps.single hpart') rfl
  exact ⟨root', hrow, hchildren, htree, by rw [hroot, hskip]⟩

end Site

end SolidityStubs.Source
