import SolidityStubs.Proofs.Source.Edit
import SolidityStubs.Proofs.Stub.Transport

/-! # The views of an edited source

What a contract shows is told by its header and its parts, and what a function shows by its header
alone. So the views of an edited source are those of the source, but for the part that was edited.
-/
namespace SolidityStubs

open Peg Source

section Views

variable (source : String) {t header : Tree} {rest : List Tree}

theorem child?_of_children_append (ht : t.children = header.children ++ rest) {r : Rule}
    (hr : ∀ n ∈ rest, n.rule ≠ r) : t.child? r = header.child? r := by
  have hnone : rest.find? (fun n => decide (n.rule = r)) = none := by
    simpa [List.find?_eq_none] using hr
  simp only [Node.child?, ht, List.find?_append, hnone, Option.or_none]

/-- It does not show where a function ends. -/
theorem function_view_stop (f : FunctionDecl) {span : Span} (h : span.start = f.span.start) :
    Member.view source (.function { f with span }) = Member.view source (.function f) := by
  obtain ⟨start, stop⟩ := span
  obtain rfl : start = f.span.start := h
  rfl

/-- The body of a function does not show. -/
theorem function_view_of_header (hstart : t.start = header.start)
    (ht : t.children = header.children ++ rest) (hrest : ∀ n ∈ rest, n.rule = .functionBody) :
    Member.view source (.function (.ofTree t)) = Member.view source (.function (.ofTree header)) := by
  have hchild : ∀ r, r ≠ .functionBody → t.child? r = header.child? r := by
    intro r hr
    exact child?_of_children_append ht fun n hn => hrest n hn ▸ hr.symm
  have hnone : rest.filterMap Modifier.ofTree? = [] := by
    rw [List.filterMap_eq_nil_iff]
    intro n hn
    simp [Modifier.ofTree?, hrest n hn]
  have hdecl : FunctionDecl.ofTree t = { FunctionDecl.ofTree header with span := t.span } := by
    simp only [FunctionDecl.ofTree, hchild .functionHead (by decide),
      hchild .parameterList (by decide), ht, hstart, List.filterMap_append, hnone, List.append_nil]
  rw [hdecl]
  exact function_view_stop source _ (congrArg (·.offset) hstart)

/-- A contract shows its header and the views of its parts. -/
theorem contract_view_of_header (ht : t.children = header.children ++ rest)
    (hheader : ∀ n ∈ header.children, n.rule ∉ partRules)
    (hrest : ∀ n ∈ rest, n.rule ∈ partRules) :
    (Contract.ofTree t).view source =
      { (Contract.ofTree header).view source with
        members := rest.filterMap (memberView? source) } := by
  have hchild : ∀ r, r ∉ partRules → t.child? r = header.child? r := by
    intro r hr
    refine child?_of_children_append ht fun n hn heq => hr ?_
    exact heq ▸ hrest n hn
  have hnone : header.children.filterMap Member.ofTree? = [] := by
    rw [List.filterMap_eq_nil_iff]
    intro n hn
    have hnot := hheader n hn
    unfold Member.ofTree?
    split <;> simp_all [partRules]
  simp only [Contract.view, Contract.ofTree, hchild .contractKind (by decide),
    hchild .identifier (by decide), hchild .inheritanceList (by decide), ht, List.filterMap_append,
    hnone, List.nil_append, List.map_filterMap]
  rfl

theorem itemView?_of_contractDefinition (h : t.rule = .contractDefinition) :
    itemView? source t = some (.contract ((Contract.ofTree t).view source)) := by
  simp [itemView?, SourceItem.ofTree?, h, SourceItem.view]

theorem itemView?_of_endOfInput (h : t.rule = .endOfInput) : itemView? source t = none := by
  simp [itemView?, SourceItem.ofTree?, h]

end Views

namespace Source.Site

variable {source target : String} {root contract part : Tree} (s : Site source root contract part)
  {old new : List Char} {stop : Nat} {middle : List Tree}

def headerNode : Tree := ⟨.contractDefinition, contract.start, s.brace, s.header⟩

theorem origin_before_opened : (origin source).Before s.opened :=
  s.origin_before_contract.trans (s.header_scans.before.trans ⟨_, s.brace_passes⟩)

include s in
theorem origin_before_stop : (origin source).Before part.stop :=
  ((s.origin_before_contract.trans s.contract_before_partsStop).trans s.partsStop_before_part).trans
    (s.part_takes.passes grammar_bounded.skips)

include s in
theorem part_rule : part.rule ∈ partRules :=
  rule_mem_partRules (Steps.single (c := s.partsStop) (s.part_start ▸ s.part_takes)) (by simp)

theorem contract_view :
    (Contract.ofTree contract).view source =
      { (Contract.ofTree s.headerNode).view source with
        members := s.parts.filterMap (memberView? source) ++ [part].filterMap (memberView? source) ++
          s.partsAfter.filterMap (memberView? source) } := by
  have hrest : ∀ n ∈ s.parts ++ [part] ++ s.partsAfter, n.rule ∈ partRules := by
    simp only [List.mem_append, List.mem_singleton]
    rintro n ((hn | rfl) | hn)
    · exact rule_mem_partRules s.parts_steps hn
    · exact s.part_rule
    · exact rule_mem_partRules s.partsAfter_steps hn
  have hchildren : contract.children = s.headerNode.children ++ (s.parts ++ [part] ++ s.partsAfter) := by
    simp [s.contract_children, headerNode]
  rw [contract_view_of_header source hchildren (fun n => contractHeader_node s.header_row) hrest,
    List.filterMap_append, List.filterMap_append]

section Edited

variable (htarget : origin target = spliced old new (origin source)) (hpart : Ahead old s.partsStop)
  (hstop : (origin target).Before (part.stop.moved part.stop.offset stop))

include htarget hpart hstop

/-- The edited contract shows the same as before, with `middle` in the place of the part. -/
theorem edited_view (hmiddle : ∀ n ∈ middle, n.rule ∈ partRules) :
    (Contract.ofTree (s.edited old new stop middle)).view target =
      { (Contract.ofTree s.headerNode).view source with
        members := s.parts.filterMap (memberView? source) ++ middle.filterMap (memberView? target) ++
          s.partsAfter.filterMap (memberView? source) } := by
  have hspliced := transports_spliced htarget
  have hmoved := transports_moved source hstop
  have hbrace : Ahead old s.brace := hpart.of_before s.brace_before_partsStop
  have hlies : Lies (Ahead old) source s.headerNode :=
    ⟨hbrace.of_before s.header_scans.before, hbrace, s.header_row.chained, s.origin_before_contract⟩
  have hparts := memberViews_carry hspliced (s.parts_steps.chained grammar_bounded.skips)
    (hpart.of_before s.opened_before_partsStop) hpart s.origin_before_opened
  have hafter := memberViews_carry hmoved (s.partsAfter_steps.chained grammar_bounded.skips)
    (.refl _) (s.partsAfter_steps.before grammar_bounded.skips) s.origin_before_stop
  have hrest : ∀ n ∈ s.parts.map (Node.carry (spliced old new)) ++ middle ++
      s.partsAfter.map (Node.carry (Cursor.moved part.stop.offset stop)), n.rule ∈ partRules := by
    simp only [List.mem_append, List.mem_map]
    rintro n ((⟨n, hn, rfl⟩ | hn) | ⟨n, hn, rfl⟩)
    · rw [Node.carry_rule]
      exact rule_mem_partRules s.parts_steps hn
    · exact hmiddle n hn
    · rw [Node.carry_rule]
      exact rule_mem_partRules s.partsAfter_steps hn
  have hheader : ∀ n ∈ (s.headerNode.carry (spliced old new)).children, n.rule ∉ partRules := by
    simp only [Node.carry_children, List.mem_map]
    rintro _ ⟨n, hn, rfl⟩
    rw [Node.carry_rule]
    exact contractHeader_node s.header_row hn
  have hchildren : (s.edited old new stop middle).children =
      (s.headerNode.carry (spliced old new)).children ++
        (s.parts.map (Node.carry (spliced old new)) ++ middle ++
          s.partsAfter.map (Node.carry (Cursor.moved part.stop.offset stop))) := by
    rw [Node.carry_children]
    rfl
  rw [contract_view_of_header target hchildren hheader hrest, contract_view_carry hspliced hlies,
    List.filterMap_append, List.filterMap_append, hparts, hafter]

/-- The items of the edited source show the same as before but for the contract. -/
theorem items_view :
    (s.items.map (Node.carry (spliced old new)) ++ s.edited old new stop middle ::
        (s.itemsAfter ++ [(⟨.endOfInput, skip s.itemsEnd, skip s.itemsEnd, []⟩ : Tree)]).map
          (Node.carry (Cursor.moved part.stop.offset stop))).filterMap (itemView? target) =
      s.items.filterMap (itemView? source) ++
        .contract ((Contract.ofTree (s.edited old new stop middle)).view target) ::
          s.itemsAfter.filterMap (itemView? source) := by
  have hspliced := transports_spliced htarget
  have hmoved := transports_moved source hstop
  have hitemsStop : Ahead old s.itemsStop :=
    hpart.of_before (Cursor.Before.trans (s.contract_start ▸ skip_passes s.itemsStop)
      s.contract_before_partsStop)
  have hcontractStop : part.stop.Before contract.stop :=
    (s.partsAfter_steps.before grammar_bounded.skips).trans
      (Cursor.Before.trans (skip_passes _) ⟨_, s.contract_closes⟩)
  have hitems := itemViews_carry hspliced (s.items_steps.chained grammar_bounded.skips)
    (hitemsStop.of_before (s.items_steps.before grammar_bounded.skips)) hitemsStop (.refl _)
  have hafter := itemViews_carry hmoved (s.itemsAfter_steps.chained grammar_bounded.skips)
    hcontractStop (hcontractStop.trans (s.itemsAfter_steps.before grammar_bounded.skips))
    (s.origin_before_stop.trans hcontractStop)
  rw [List.map_append, List.filterMap_append,
    List.filterMap_cons_some (itemView?_of_contractDefinition target rfl), List.filterMap_append,
    hitems, hafter, List.map_singleton,
    List.filterMap_cons_none (itemView?_of_endOfInput target (Node.carry_rule _)),
    List.filterMap_nil, List.append_nil]

end Edited

theorem root_view :
    root.children.filterMap (itemView? source) =
      s.items.filterMap (itemView? source) ++
        .contract ((Contract.ofTree contract).view source) ::
          s.itemsAfter.filterMap (itemView? source) := by
  rw [s.root_children, List.filterMap_append,
    List.filterMap_cons_some (itemView?_of_contractDefinition source s.contract_rule),
    List.filterMap_append, List.filterMap_cons_none (itemView?_of_endOfInput source rfl),
    List.filterMap_nil, List.append_nil]

end Source.Site

end SolidityStubs
