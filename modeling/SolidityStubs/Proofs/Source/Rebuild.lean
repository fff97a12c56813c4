import SolidityStubs.Proofs.Source.Layout
import SolidityStubs.Proofs.Source.Unaffected

/-! # Reading a source again after an edit

If one part of a contract is replaced, the items and parts before it are read as before, since they
lie in front of a splice, and those behind it, since their text is only moved.
-/
namespace SolidityStubs.Source

open Peg

def Flow.afterPadding : Flow := ⟨[], true, false, false⟩

theorem Flow.afterPadding_holds {base : List Char} {c : Cursor} (hc : trivium? c = none) :
    Flow.afterPadding.Holds (! base.isEmpty) base c :=
  ⟨rfl, fun _ => hc, by simp [Flow.afterPadding], by simp [Flow.afterPadding]⟩

/-- The piece closes the brackets that it opens and does not pass the border. -/
def keepsWithin (b : Border) (enclosed : Bool) (e : Expr Rule) : Bool :=
  (flow b enclosed .spaced e .afterPadding).any RuleEnd.balanced.allows

theorem keepsWithin_iff {b : Border} {enclosed : Bool} {e : Expr Rule} :
    keepsWithin b enclosed e = true ↔
      ∃ f, flow b enclosed .spaced e .afterPadding = some (.reaches f) ∧ f.closers = [] := by
  unfold keepsWithin
  rw [Option.any_eq_true]
  constructor
  · rintro ⟨x, hx, hallows⟩
    cases x with
    | reaches f => exact ⟨f, hx, by simpa [RuleEnd.allows] using hallows⟩
    | border | either => cases hallows
  · rintro ⟨f, hx, hclosers⟩
    exact ⟨_, hx, by simp [RuleEnd.allows, hclosers]⟩

section Rows

variable {b : Border} {base : List Char} {es : List (Expr Rule)} {c d : Cursor} {ns : List Tree}

theorem Row.scans (h : Row es c d ns) (hkeeps : ∀ e ∈ es, keepsWithin b (! base.isEmpty) e = true)
    (hc : trivium? c = none) : Scans b (base, c) (base, d) := by
  induction h with
  | nil c => exact .refl
  | @cons e es c d f ns ns' ht _ ih =>
    obtain ⟨f', hflow, hclosers⟩ := keepsWithin_iff.1 (hkeeps e (by simp))
    obtain ⟨hscan, -⟩ := taskFlow_reached (t := .once e) ht hflow (Flow.afterPadding_holds hc)
    rw [hclosers] at hscan
    exact hscan.trans ((scans_skip b base d).trans
      (ih (fun e' he' => hkeeps e' (List.mem_cons_of_mem _ he')) (trivium?_skip d)))

theorem Row.guided {φ : Cursor → Cursor} (h : Row es c d ns)
    (hkeeps : ∀ e ∈ es, keepsWithin b (! base.isEmpty) e = true) (hc : trivium? c = none)
    (hstep : InStep φ b base c) : Row es (φ c) (φ d) (ns.map (Node.carry φ)) := by
  induction h with
  | nil c => exact .nil _
  | @cons e es c d f ns ns' ht _ ih =>
    obtain ⟨f', hflow, hclosers⟩ := keepsWithin_iff.1 (hkeeps e (by simp))
    have hholds : Flow.afterPadding.Holds (! base.isEmpty) base c := Flow.afterPadding_holds hc
    obtain ⟨hscan, -⟩ := taskFlow_reached (t := .once e) ht hflow hholds
    rw [hclosers] at hscan
    have hstep' := hstep.scans hscan
    have hfirst := ht.carry (carries_guided φ b) ⟨_, base, .afterPadding, _, hflow, hholds, hstep⟩
    rw [List.map_append]
    refine .cons hfirst ?_
    rw [hstep'.skip]
    exact ih (fun e' he' => hkeeps e' (List.mem_cons_of_mem _ he')) (trivium?_skip d)
      (hstep'.scans (scans_skip b base d))

end Rows

section Moved

variable {start stop : Nat}

theorem lineEnd_moved {n : Nat} (hn : start ≤ n) (cs : List Char) :
    lineEnd (n - start + stop) cs = (lineEnd n cs).moved start stop := by
  induction cs generalizing n with
  | nil => rfl
  | cons x xs ih =>
    by_cases hx : isLineEnd x = true
    · simp [lineEnd, hx, Cursor.moved]
    · have hoff : n - start + stop + x.utf8Size = n + x.utf8Size - start + stop := by omega
      simp only [lineEnd, hx, Bool.false_eq_true, ↓reduceIte, hoff]
      exact ih (by omega)

theorem blockEnd?_moved {n : Nat} (hn : start ≤ n) (cs : List Char) :
    blockEnd? (n - start + stop) cs = (blockEnd? n cs).map (Cursor.moved start stop) := by
  fun_induction blockEnd? n cs with
  | case1 => rfl
  | case2 n cs =>
    have hoff : n - start + stop + 2 = n + 2 - start + stop := by omega
    simp [blockEnd?, Cursor.moved, hoff]
  | case3 n c cs hclose ih =>
    have hoff : n - start + stop + c.utf8Size = n + c.utf8Size - start + stop := by omega
    rw [blockEnd?]
    · rw [hoff]
      exact ih (by omega)
    · exact hclose

theorem trivium?_moved {c : Cursor} (hc : start ≤ c.offset) :
    trivium? (c.moved start stop) = (trivium? c).map (Cursor.moved start stop) := by
  obtain ⟨n, cs⟩ := c
  simp only at hc
  have hoff : n - start + stop + 2 = n + 2 - start + stop := by omega
  cases cs with
  | nil => rfl
  | cons x xs =>
    by_cases hx : x = '/'
    · subst hx
      cases xs with
      | nil => rfl
      | cons y ys =>
        simp only [Cursor.moved, trivium?_slash, hoff]
        split
        · rw [lineEnd_moved (by omega)]
          rfl
        · split
          · exact blockEnd?_moved (by omega) ys
          · rfl
    · cases hspace : isSpace x with
      | true =>
        rw [trivium?_of_isSpace rfl hspace, trivium?_of_isSpace (c := ⟨n, x :: xs⟩) rfl hspace]
        simp only [Cursor.moved, Option.map_some, Option.some.injEq, Cursor.mk.injEq, and_true]
        omega
      | false =>
        rw [trivium?_eq_none rfl hx hspace, trivium?_eq_none (c := ⟨n, x :: xs⟩) rfl hx hspace]
        rfl

theorem skip_moved {c : Cursor} (hc : start ≤ c.offset) :
    skip (c.moved start stop) = (skip c).moved start stop := by
  induction c using skip_induction with
  | stop c h =>
    have hnone : trivium? (c.moved start stop) = none := by rw [trivium?_moved hc, h]; rfl
    rw [skip_of_none h, skip_of_none hnone]
  | step c d h ih =>
    have hsome : trivium? (c.moved start stop) = some (d.moved start stop) := by
      rw [trivium?_moved hc, h]
      rfl
    obtain ⟨x, xs, hp⟩ := trivium?_passes h
    rw [skip_of_some h, skip_of_some hsome]
    exact ih (Cursor.Before.offset_ge ⟨_, hp⟩ hc)

theorem skip_rest_eq (n m : Nat) (cs : List Char) : (skip ⟨n, cs⟩).rest = (skip ⟨m, cs⟩).rest := by
  have h : skip (Cursor.moved n m ⟨n, cs⟩) = _ := skip_moved (Nat.le_refl n)
  have hmoved : Cursor.moved n m ⟨n, cs⟩ = ⟨m, cs⟩ := by simp [Cursor.moved]
  rw [hmoved] at h
  rw [h]
  rfl

theorem stringEnd?_moved {quote : Char} {n : Nat} (hn : start ≤ n) (cs : List Char) :
    stringEnd? quote (n - start + stop) cs =
      (stringEnd? quote n cs).map (Cursor.moved start stop) := by
  fun_induction stringEnd? quote n cs with
  | case1 => rfl
  | case2 n cs =>
    rw [stringEnd?.eq_def]
    simp only [↓reduceIte, Option.map_some, Cursor.moved, Option.some.injEq, Cursor.mk.injEq,
      and_true]
    omega
  | case3 n hc =>
    rw [stringEnd?.eq_def]
    simp [hc]
  | case4 n x xs hc ih =>
    have hoff : n - start + stop + '\\'.utf8Size + x.utf8Size =
        n + '\\'.utf8Size + x.utf8Size - start + stop := by omega
    rw [stringEnd?.eq_def]
    simp only [hc, ↓reduceIte, hoff]
    exact ih (by omega)
  | case5 n c cs hc hb ih =>
    have hoff : n - start + stop + c.utf8Size = n + c.utf8Size - start + stop := by omega
    rw [stringEnd?_other hc hb, hoff]
    exact ih (by omega)

theorem string?_moved {c : Cursor} (hc : start ≤ c.offset) :
    string? (c.moved start stop) = (string? c).map (Cursor.moved start stop) := by
  obtain ⟨n, cs⟩ := c
  simp only at hc
  cases cs with
  | nil => rfl
  | cons x xs =>
    have hoff : n - start + stop + x.utf8Size = n + x.utf8Size - start + stop := by omega
    cases hx : isQuote x with
    | false => simp [Cursor.moved, string?, hx]
    | true =>
      simp only [Cursor.moved, string?, hx, ↓reduceIte, hoff]
      exact stringEnd?_moved (by omega) xs

theorem carries_moved_grammar (start stop : Nat) :
    Carries grammar (Cursor.moved start stop) fun _ _ c => start ≤ c.offset :=
  carries_moved grammar_bounded.skips fun _ => skip_moved

theorem steps_moved {e : Expr Rule} {c d : Cursor} {ns : List Tree} (h : Steps grammar e c ns d)
    (hc : start ≤ c.offset) :
    Steps grammar e (c.moved start stop) (ns.map (Node.carry (Cursor.moved start stop)))
      (d.moved start stop) := by
  induction h with
  | nil c => exact .nil _
  | @cons c d f ns ns' ht _ ih =>
    have hskip : start ≤ (skip c).offset := Cursor.Before.offset_ge (skip_passes c) hc
    have htakes := Takes.carry (carries_moved_grammar start stop) ht hskip
    have hpadding : grammar.skip (c.moved start stop) = (skip c).moved start stop := skip_moved hc
    rw [List.map_append]
    exact .cons (hpadding ▸ htakes)
      (ih (Cursor.Before.offset_ge (ht.passes grammar_bounded.skips) hskip))

end Moved

/-- A part of a contract, with all that is read before and behind it. -/
structure Site (source : String) (root contract part : Tree) where
  items : List Tree
  itemsStop : Cursor
  items_steps : Steps grammar sourceItem (.ofText source.toList) items itemsStop
  contract_start : contract.start = skip itemsStop
  contract_rule : contract.rule = .contractDefinition
  header : List Tree
  brace : Cursor
  opened : Cursor
  header_row : Row contractHeader contract.start brace header
  brace_passes : brace.Passes ['\x7b'] opened
  parts : List Tree
  partsStop : Cursor
  parts_steps : Steps grammar contractPart opened parts partsStop
  part_start : part.start = skip partsStop
  part_takes : Takes grammar .spaced contractPart part.start part.stop [part]
  partsAfter : List Tree
  partsEnd : Cursor
  partsAfter_steps : Steps grammar contractPart part.stop partsAfter partsEnd
  partsEnd_fails : Fails grammar .spaced contractPart (skip partsEnd)
  contract_closes : (skip partsEnd).Passes ['\x7d'] contract.stop
  itemsAfter : List Tree
  itemsEnd : Cursor
  itemsAfter_steps : Steps grammar sourceItem contract.stop itemsAfter itemsEnd
  itemsEnd_fails : Fails grammar .spaced sourceItem (skip itemsEnd)
  itemsEnd_empty : (skip itemsEnd).rest = []
  contract_children : contract.children = header ++ (parts ++ part :: partsAfter)
  root_children : root.children = items ++ contract :: (itemsAfter ++
    [⟨.endOfInput, skip itemsEnd, skip itemsEnd, []⟩])

theorem row_node_rule {es : List (Expr Rule)} {c d : Cursor} {ns : List Tree} (h : Row es c d ns)
    {n : Tree} (hn : n ∈ ns) : ∃ e ∈ es, ∃ c' d' ns', Takes grammar .spaced e c' d' ns' ∧ n ∈ ns' := by
  induction h with
  | nil => simp at hn
  | @cons e es c d f ns ns' ht _ ih =>
    rcases List.mem_append.1 hn with hn | hn
    · exact ⟨e, by simp, c, d, ns, ht, hn⟩
    · obtain ⟨e', he', h⟩ := ih hn
      exact ⟨e', List.mem_cons_of_mem _ he', h⟩

theorem rule_of_takes_rule {r : Rule} (hr : (grammar.production r).shape ≠ .silent) {c d : Cursor}
    {ns : List Tree} (h : Takes grammar .spaced (.rule r) c d ns) {n : Tree} (hn : n ∈ ns) :
    n.rule = r := by
  obtain ⟨children, -, rfl⟩ := (takes_rule_iff hr).1 h
  rw [List.mem_singleton.1 hn]

theorem contractHeader_node {c d : Cursor} {ns : List Tree} (h : Row contractHeader c d ns) {n : Tree}
    (hn : n ∈ ns) : n.rule ∉ partRules := by
  obtain ⟨e, he, c', d', ns', ht, hn⟩ := row_node_rule h hn
  simp only [contractHeader, List.mem_cons, List.not_mem_nil, or_false] at he
  rcases he with rfl | rfl | rfl
  · rw [rule_of_takes_rule (by decide) ht hn]
    decide
  · rw [rule_of_takes_rule (by decide) ht hn]
    decide
  · cases ht with
    | maybe ht =>
      rw [rule_of_takes_rule (by decide) ht hn]
      decide
    | maybeNot => simp at hn

theorem exists_site {source : String} {root contract part : Tree} (hroot : tree source = .ok root)
    (hcontract : contract ∈ root.children) (hrule : contract.rule = .contractDefinition)
    (hpart : part ∈ contract.children) (hpartRule : part.rule ∈ partRules) :
    Nonempty (Site source root contract part) := by
  obtain ⟨items, e, hsteps, hfails, hempty, rfl⟩ := tree_eq_ok_iff_steps.1 hroot
  have hmem : contract ∈ items := by
    rcases List.mem_append.1 hcontract with h | h
    · exact h
    · rw [List.mem_singleton.1 h] at hrule
      cases hrule
  obtain ⟨before, q, after, rfl, hbefore, hstart, htake, hafter⟩ :=
    hsteps.split_of_mem (fun _ _ _ => sourceItem_node) hmem
  have hdef := htake.takes_of_mem (n := contract) (by simp)
  rw [hrule] at hdef
  obtain ⟨j, h, pe, header, parts, hrow, hbrace, hparts, hpfails, hcloses, hnode⟩ :=
    takes_contractDefinition_iff.1 hdef
  have hchildren : contract.children = header ++ parts := by rw [List.singleton_inj.1 hnode]
  have hmem' : part ∈ parts := by
    rw [hchildren] at hpart
    rcases List.mem_append.1 hpart with h | h
    · exact absurd hpartRule (contractHeader_node hrow h)
    · exact h
  obtain ⟨pbefore, pq, pafter, rfl, hpbefore, hpstart, hptake, hpafter⟩ :=
    hparts.split_of_mem (fun _ _ _ => contractPart_node) hmem'
  exact ⟨{
    items := before
    itemsStop := q
    items_steps := hbefore
    contract_start := hstart
    contract_rule := hrule
    header := header
    brace := j
    opened := h
    header_row := hrow
    brace_passes := hbrace
    parts := pbefore
    partsStop := pq
    parts_steps := hpbefore
    part_start := hpstart
    part_takes := hpstart ▸ hptake
    partsAfter := pafter
    partsEnd := pe
    partsAfter_steps := hpafter
    partsEnd_fails := hpfails
    contract_closes := hcloses
    itemsAfter := after
    itemsEnd := e
    itemsAfter_steps := hafter
    itemsEnd_fails := hfails
    itemsEnd_empty := hempty
    contract_children := hchildren
    root_children := by simp }⟩

namespace Site

variable {source : String} {root contract part : Tree} (s : Site source root contract part)

include s in
theorem contract_clear : trivium? contract.start = none := s.contract_start ▸ trivium?_skip _

theorem header_scans : Scans .opening ([], contract.start) ([], s.brace) :=
  s.header_row.scans (by decide) s.contract_clear

theorem opened_before_partsStop : s.opened.Before s.partsStop :=
  s.parts_steps.before grammar_bounded.skips

theorem brace_before_partsStop : s.brace.Before s.partsStop :=
  Cursor.Before.trans ⟨_, s.brace_passes⟩ s.opened_before_partsStop

theorem contract_before_partsStop : contract.start.Before s.partsStop :=
  s.header_scans.before.trans s.brace_before_partsStop

include s in
theorem origin_before_contract : Cursor.Before (.ofText source.toList) contract.start := by
  rw [s.contract_start]
  exact (s.items_steps.before grammar_bounded.skips).trans (skip_passes _)

/-- The header of the contract is followed in step in front of a splice behind its brace. -/
theorem header_inStep {old new : List Char} (hseam : Seamless old new)
    (horigin : Facing old (.ofText source.toList)) (hopened : Ahead old s.opened) :
    InStep (spliced old new) .opening [] contract.start := by
  have hahead : Ahead old contract.start :=
    hopened.of_before (s.header_scans.before.trans ⟨_, s.brace_passes⟩)
  obtain ⟨a, ha, hsettled⟩ := horigin.of_before s.origin_before_contract hahead
  exact inStep_spliced s.header_scans (by decide) s.brace_passes.1 hopened.length_le ha hsettled hseam

/-- The contract after an edit. Up to where the part was, positions are spliced, and from where it
ended on they are moved; `middle` is read in its place. -/
def edited (old new : List Char) (stop : Nat) (middle : List Tree) : Tree :=
  ⟨.contractDefinition, spliced old new contract.start, contract.stop.moved part.stop.offset stop,
    s.header.map (Node.carry (spliced old new)) ++
      (s.parts.map (Node.carry (spliced old new)) ++ middle ++
        s.partsAfter.map (Node.carry (Cursor.moved part.stop.offset stop)))⟩

theorem partsEnd_offset_le : part.stop.offset ≤ (skip s.partsEnd).offset :=
  ((s.partsAfter_steps.before grammar_bounded.skips).trans (skip_passes _)).offset_le

include s in
theorem contract_stop_offset_le : part.stop.offset ≤ contract.stop.offset :=
  Cursor.Before.offset_ge ⟨_, s.contract_closes⟩ s.partsEnd_offset_le

theorem itemsEnd_offset_le : part.stop.offset ≤ s.itemsEnd.offset :=
  Cursor.Before.offset_ge (s.itemsAfter_steps.before grammar_bounded.skips) s.contract_stop_offset_le

variable {old new : List Char} {stop : Nat} {middle : List Tree} {g : Cursor}
  (hseam : Seamless old new) (horigin : Facing old (.ofText source.toList))
  (hpart : Ahead old s.partsStop)

include hseam horigin hpart

/-- The contract is read again if `middle` is read in the place of the part. -/
theorem edited_takes (hmiddle : Steps grammar contractPart (spliced old new s.partsStop) middle g)
    (hg : skip g = skip (part.stop.moved part.stop.offset stop)) :
    Takes grammar .spaced (.rule .contractDefinition) (spliced old new contract.start)
      (contract.stop.moved part.stop.offset stop) [s.edited old new stop middle] := by
  have hopened : Ahead old s.opened := hpart.of_before s.opened_before_partsStop
  have hheader := s.header_row.guided (by decide) s.contract_clear
    (s.header_inStep hseam horigin hopened)
  have hopenedFacing : Facing old s.opened := horigin.of_before
    (s.origin_before_contract.trans (s.header_scans.before.trans ⟨_, s.brace_passes⟩)) hopened
  have hparts := (contractPart_unaffected hseam).steps (by decide) s.parts_steps hopenedFacing hpart
  obtain ⟨e, hafter, hskip⟩ :=
    (steps_moved s.partsAfter_steps (Nat.le_refl part.stop.offset)).of_skip_eq hg
  have hskip' : skip e = (skip s.partsEnd).moved part.stop.offset stop := by
    rw [← skip_moved (s.partsAfter_steps.before grammar_bounded.skips).offset_le]
    exact hskip
  refine takes_contractDefinition_iff.2 ⟨_, _, e, _, _, hheader, passes_spliced s.brace_passes hopened,
    (hparts.append hmiddle).append hafter, ?_, ?_, rfl⟩
  · rw [hskip']
    exact Yields.carry (carries_moved_grammar part.stop.offset stop) s.partsEnd_fails
      s.partsEnd_offset_le
  · rw [hskip']
    exact s.contract_closes.moved s.partsEnd_offset_le

/-- The items before the contract are read again, up to the contract. -/
theorem items_spliced :
    Steps grammar sourceItem (spliced old new (.ofText source.toList))
        (s.items.map (Node.carry (spliced old new))) (spliced old new s.itemsStop) ∧
      skip (spliced old new s.itemsStop) = spliced old new contract.start := by
  have hopened : Ahead old s.opened := hpart.of_before s.opened_before_partsStop
  have hcontract : Ahead old contract.start := hpart.of_before s.contract_before_partsStop
  have hitems : Ahead old s.itemsStop :=
    hcontract.of_before (s.contract_start ▸ skip_passes s.itemsStop)
  refine ⟨(sourceItem_unaffected hseam).steps (by decide) s.items_steps horigin hitems, ?_⟩
  obtain ⟨a, ha, hsettled⟩ := horigin.of_before (s.items_steps.before grammar_bounded.skips) hitems
  have hstep := s.header_inStep hseam horigin hopened
  have hlt : old.length < contract.start.rest.length := by
    have hbrace : s.brace.rest.length ≤ contract.start.rest.length :=
      s.header_scans.before.length_le
    have hopenedLt := congrArg List.length s.brace_passes.1
    have hle := hopened.length_le
    simp only [List.length_append, List.length_singleton] at hopenedLt
    omega
  rw [s.contract_start] at hcontract hstep hlt ⊢
  rw [skip_spliced ha hsettled hcontract (.inl hlt)]
  exact skip_of_none (hstep.clear (trivium?_skip _))

/-- The tree of the edited source. -/
theorem rebuild {source' : String}
    (hsource' : Cursor.ofText source'.toList = spliced old new (.ofText source.toList))
    (hmiddle : Steps grammar contractPart (spliced old new s.partsStop) middle g)
    (hg : skip g = skip (part.stop.moved part.stop.offset stop)) :
    ∃ root', tree source' = .ok root' ∧
      root'.children = s.items.map (Node.carry (spliced old new)) ++ s.edited old new stop middle ::
        (s.itemsAfter ++ [(⟨.endOfInput, skip s.itemsEnd, skip s.itemsEnd, []⟩ : Tree)]).map
          (Node.carry (Cursor.moved part.stop.offset stop)) := by
  obtain ⟨hitems, hpadding⟩ := s.items_spliced hseam horigin hpart
  have hitem := takes_sourceItem_of_takes_rule (by decide)
    (s.edited_takes hseam horigin hpart hmiddle hg)
  rw [← hpadding] at hitem
  have hall := (hitems.append (Steps.single hitem)).append
    (steps_moved s.itemsAfter_steps s.contract_stop_offset_le)
  rw [← hsource'] at hall
  have hskip : skip (s.itemsEnd.moved part.stop.offset stop) =
      (skip s.itemsEnd).moved part.stop.offset stop := skip_moved s.itemsEnd_offset_le
  have hfails : Fails grammar .spaced sourceItem (skip (s.itemsEnd.moved part.stop.offset stop)) := by
    rw [hskip]
    exact Yields.carry (carries_moved_grammar part.stop.offset stop) s.itemsEnd_fails
      (Cursor.Before.offset_ge (skip_passes _) s.itemsEnd_offset_le)
  have hempty : (skip (s.itemsEnd.moved part.stop.offset stop)).rest = [] := by
    rw [hskip]
    exact s.itemsEnd_empty
  refine ⟨_, tree_eq_ok_iff_steps.2 ⟨_, _, hall, hfails, hempty, rfl⟩, ?_⟩
  simp [hskip, Node.carry, Node.carryAll]

end Site

end SolidityStubs.Source
