import Mathlib.Data.List.Basic
import SolidityStubs.Proofs.Peg.Carry
import SolidityStubs.Proofs.Peg.Repetition
import SolidityStubs.Proofs.Source.Spans
import SolidityStubs.Proofs.Source.Splice
import SolidityStubs.Proofs.Stub.View

/-! # Views of nodes at other positions

A map of positions that keeps the text between them keeps the views of what is read there.
-/
namespace SolidityStubs

open Peg Source

/-- The map leads from positions of the one source to positions of the other and keeps the text
between them. -/
structure Transports (φ : Cursor → Cursor) (source target : String) (inside : Cursor → Prop) :
    Prop where
  between : ∀ {c d e}, inside c → c.Before d → d.Before e → inside e → inside d
  passes : ∀ {c d cs}, inside c → inside d → c.Passes cs d → (φ c).Passes cs (φ d)
  origin : ∀ {c}, inside c → (origin source).Before c → (origin target).Before (φ c)

/-- The node and all that it holds are among the given positions of the source. -/
structure Lies (inside : Cursor → Prop) (source : String) (t : Tree) : Prop where
  start : inside t.start
  stop : inside t.stop
  chained : Chained t.start t.children t.stop
  origin : (origin source).Before t.start

theorem slice_of_passes {source : String} {c d : Cursor} {cs : List Char}
    (hc : (origin source).Before c) (h : c.Passes cs d) :
    Span.slice ⟨c.offset, d.offset⟩ source = String.ofList cs := by
  obtain ⟨before, hbefore, hoff⟩ := hc
  have hslice : Span.slice? ⟨c.offset, d.offset⟩ source = some (String.ofList cs) := by
    refine Span.slice?_eq_some_iff.2 ⟨before, d.rest, ?_, ?_, ?_⟩
    · rw [String.toList_ofList, ← h.1]
      exact hbefore
    · simpa [Cursor.ofText] using hoff
    · simp only [Cursor.ofText, Nat.zero_add] at hoff
      rw [h.2, hoff, String.toList_ofList]
  rw [Span.slice, hslice, Option.getD_some]

theorem FunctionDecl.isPublic_eq (f : FunctionDecl) (source : String) :
    f.isPublic = !(f.modifiers.map (fun m => (m.name, m.span.slice source))).any
      fun m => m.1 == "private" || m.1 == "internal" := by
  rw [FunctionDecl.isPublic, List.any_map]
  rfl

theorem FunctionDecl.keptModifiers_eq (f : FunctionDecl) (source : String)
    (keep enums : List String) :
    f.keptModifiers source keep enums =
      ((f.modifiers.map (fun m => (m.name, m.span.slice source))).filter (keep.contains ·.1)).map
        fun m => substituteEnums enums (Text.trim m.2) := by
  rw [FunctionDecl.keptModifiers, List.filter_map, List.map_map]
  rfl

section Carried

variable {φ : Cursor → Cursor} {source target : String} {inside : Cursor → Prop}
  (T : Transports φ source target inside) {t : Tree}

theorem child?_carry (t : Tree) (r : Rule) :
    (t.carry φ).child? r = (t.child? r).map (Node.carry φ) := by
  simp only [Node.child?, Node.carry_children, List.find?_map]
  congr 2
  funext n
  simp

theorem childrenOf_carry (t : Tree) (r : Rule) :
    (t.carry φ).childrenOf r = (t.childrenOf r).map (Node.carry φ) := by
  simp only [Node.childrenOf, Node.carry_children, List.filter_map]
  congr 2
  funext n
  simp

theorem ofHead_carry (t : Tree) : FunctionKind.ofHead (t.carry φ) = FunctionKind.ofHead t := by
  simp [FunctionKind.ofHead, child?_carry]

theorem params_isEmpty_carry (t : Tree) :
    (Parameter.listOfTree (t.carry φ)).isEmpty = (Parameter.listOfTree t).isEmpty := by
  unfold Parameter.listOfTree
  rw [childrenOf_carry, List.filterMap_map]
  rw [Bool.eq_iff_iff, List.isEmpty_iff, List.isEmpty_iff, List.filterMap_eq_nil_iff,
    List.filterMap_eq_nil_iff]
  refine forall_congr' fun n => imp_congr_right fun _ => ?_
  simp [Parameter.ofTree?, child?_carry]

theorem params_isEmpty_of_children {u : Tree} (h : u.children = t.children.map (Node.carry φ)) :
    (Parameter.listOfTree u).isEmpty = (Parameter.listOfTree t).isEmpty := by
  rw [← params_isEmpty_carry (φ := φ) t]
  simp only [Parameter.listOfTree, Node.childrenOf, h, Node.carry_children]

include T

theorem lies_of_chained {c d : Cursor} {ns : List Tree} (h : Chained c ns d) (hc : inside c)
    (hd : inside d) (horigin : (origin source).Before c) {n : Tree} (hn : n ∈ ns) :
    Lies inside source n := by
  obtain ⟨hstart, hchained, hstop⟩ := h.of_mem hn
  exact
    { start := T.between hc hstart (hchained.before.trans hstop) hd
      stop := T.between hc (hstart.trans hchained.before) hstop hd
      chained := hchained
      origin := horigin.trans hstart }

theorem Lies.child (h : Lies inside source t) {n : Tree} (hn : n ∈ t.children) :
    Lies inside source n :=
  lies_of_chained T h.chained h.start h.stop h.origin hn

theorem Lies.text_carry (h : Lies inside source t) : (t.carry φ).text = t.text := by
  obtain ⟨cs, hcs⟩ := h.chained.before
  have hφ := T.passes h.start h.stop hcs
  simp only [Node.text, Node.carry_start, Node.carry_stop]
  rw [hcs.upTo, hφ.upTo]

theorem Lies.string_carry (h : Lies inside source t) : (t.carry φ).string = t.string := by
  simp only [Node.string, h.text_carry T]

theorem slice_carry {c d : Cursor} (hc : inside c) (hd : inside d) (horigin : (origin source).Before c)
    (hcd : c.Before d) :
    Span.slice ⟨(φ c).offset, (φ d).offset⟩ target = Span.slice ⟨c.offset, d.offset⟩ source := by
  obtain ⟨cs, hcs⟩ := hcd
  rw [slice_of_passes horigin hcs, slice_of_passes (T.origin hc horigin) (T.passes hc hd hcs)]

theorem Lies.slice_carry (h : Lies inside source t) :
    (t.carry φ).span.slice target = t.span.slice source := by
  simp only [Node.span, Node.carry_start, Node.carry_stop]
  exact SolidityStubs.slice_carry T h.start h.stop h.origin h.chained.before

theorem Lies.child?_string (h : Lies inside source t) (r : Rule) :
    ((t.carry φ).child? r).map (·.string) = (t.child? r).map (·.string) := by
  rw [child?_carry, Option.map_map]
  cases hr : t.child? r with
  | none => rfl
  | some n =>
    have hn : n ∈ t.children := List.mem_of_find?_eq_some hr
    simp [(h.child T hn).string_carry T]

theorem typeNames_carry {c d : Cursor} {ns : List Tree} (h : Chained c ns d) (hc : inside c)
    (hd : inside d) (horigin : (origin source).Before c) :
    TypeName.ofTrees (ns.map (Node.carry φ)) = TypeName.ofTrees ns ∧
      TypeName.keyAndValue? (ns.map (Node.carry φ)) = TypeName.keyAndValue? ns := by
  induction h with
  | nil => exact ⟨rfl, rfl⟩
  | @cons c n ns d hstart hn hns ihn ihns =>
    have hnstart := T.between hc hstart (hn.before.trans hns.before) hd
    have hnstop := T.between hc (hstart.trans hn.before) hns.before hd
    obtain ⟨hchildren, hkey⟩ := ihn hnstart hnstop (horigin.trans hstart)
    have hlies : Lies inside source n := ⟨hnstart, hnstop, hn, horigin.trans hstart⟩
    obtain ⟨hrest, -⟩ := ihns hnstop hd ((horigin.trans hstart).trans hn.before)
    have htext := hlies.text_carry T
    obtain ⟨r, s, e, children⟩ := n
    simp only [Node.text, Node.carry] at htext
    rw [List.map_cons, Node.carry, Node.carryAll_eq_map]
    constructor
    · rw [TypeName.ofTrees, TypeName.ofTrees, hrest, TypeName.ofTree, TypeName.ofTree, htext, hkey]
    · rw [TypeName.keyAndValue?, TypeName.keyAndValue?, hchildren]

theorem typeName_carry (h : Lies inside source t) :
    TypeName.ofTree (t.carry φ) = TypeName.ofTree t := by
  have htext := h.text_carry T
  obtain ⟨-, hkey⟩ := typeNames_carry T h.chained h.start h.stop h.origin
  obtain ⟨r, s, e, children⟩ := t
  simp only [Node.text, Node.carry] at htext hkey
  rw [Node.carry, Node.carryAll_eq_map, TypeName.ofTree, TypeName.ofTree, htext, hkey]

theorem variable_view_carry (h : Lies inside source t) :
    Member.view target (.stateVariable (.ofTree (t.carry φ))) =
      Member.view source (.stateVariable (.ofTree t)) := by
  have htype : ((t.carry φ).child? .typeName).map TypeName.ofTree =
      (t.child? .typeName).map TypeName.ofTree := by
    rw [child?_carry, Option.map_map]
    cases hr : t.child? .typeName with
    | none => rfl
    | some n =>
      have hn : n ∈ t.children := List.mem_of_find?_eq_some hr
      simp [typeName_carry T (h.child T hn)]
  have hattribute : ∀ word : String,
      ((t.carry φ).childrenOf .stateVariableAttribute).any (·.string == word) =
        (t.childrenOf .stateVariableAttribute).any (·.string == word) := by
    intro word
    rw [childrenOf_carry, List.any_map, Bool.eq_iff_iff, List.any_eq_true, List.any_eq_true]
    refine exists_congr fun n => and_congr_right fun hn => ?_
    have hn' : n ∈ t.children := (List.mem_filter.1 hn).1
    rw [Function.comp, (h.child T hn').string_carry T]
  have hstub : (VariableDecl.ofTree (t.carry φ)).stub = (VariableDecl.ofTree t).stub := by
    funext enums
    simp only [VariableDecl.stub, VariableDecl.ofTree, htype, h.child?_string T]
  rw [Member.view, Member.view, hstub]
  simp only [VariableDecl.ofTree, hattribute]

theorem Lies.dottedName_carry (h : Lies inside source t) : dottedName (t.carry φ) = dottedName t := by
  simp only [dottedName, h.child?_string T]

theorem modifier_carry (h : Lies inside source t) :
    (Modifier.ofTree? (t.carry φ)).map (fun m => (m.name, m.span.slice target)) =
      (Modifier.ofTree? t).map (fun m => (m.name, m.span.slice source)) := by
  have hslice := h.slice_carry T
  have hname := h.dottedName_carry T
  unfold Modifier.ofTree?
  rw [Node.carry_rule]
  split <;> simp [hslice, hname]

theorem modifiers_carry (h : Lies inside source t) :
    (FunctionDecl.ofTree (t.carry φ)).modifiers.map (fun m => (m.name, m.span.slice target)) =
      (FunctionDecl.ofTree t).modifiers.map (fun m => (m.name, m.span.slice source)) := by
  simp only [FunctionDecl.ofTree, Node.carry_children, List.map_filterMap, List.filterMap_map]
  refine List.filterMap_congr fun n hn => ?_
  exact modifier_carry T (h.child T hn)

theorem name_carry (h : Lies inside source t) :
    (FunctionDecl.ofTree (t.carry φ)).name = (FunctionDecl.ofTree t).name := by
  simp only [FunctionDecl.ofTree, child?_carry]
  cases hr : t.child? .functionHead with
  | none => rfl
  | some n =>
    have hn : n ∈ t.children := List.mem_of_find?_eq_some hr
    exact (h.child T hn).child?_string T .identifier

theorem head_carry (h : Lies inside source t) (enums : List String) :
    (FunctionDecl.ofTree (t.carry φ)).head target enums = (FunctionDecl.ofTree t).head source enums := by
  unfold FunctionDecl.head
  rw [name_carry T h]
  cases hr : t.child? .parameterList with
  | none => simp [FunctionDecl.ofTree, child?_carry, hr]
  | some n =>
    have hn : n ∈ t.children := List.mem_of_find?_eq_some hr
    have hlies := h.child T hn
    have hslice := slice_carry T h.start hlies.stop h.origin
      ((h.chained.of_mem hn).1.trans hlies.chained.before)
    simp only [FunctionDecl.ofTree, child?_carry, hr, Option.map_some, Option.getD_some, Node.span,
      Node.carry_start, Node.carry_stop, hslice, params_isEmpty_carry n]

theorem function_view_carry (h : Lies inside source t) :
    Member.view target (.function (.ofTree (t.carry φ))) =
      Member.view source (.function (.ofTree t)) := by
  have hkind : (FunctionDecl.ofTree (t.carry φ)).kind = (FunctionDecl.ofTree t).kind := by
    simp only [FunctionDecl.ofTree, child?_carry, Option.map_map]
    congr 2
    funext n
    exact ofHead_carry n
  have hpublic : (FunctionDecl.ofTree (t.carry φ)).isPublic = (FunctionDecl.ofTree t).isPublic := by
    rw [FunctionDecl.isPublic_eq _ target, FunctionDecl.isPublic_eq _ source, modifiers_carry T h]
  have hstub : (FunctionDecl.ofTree (t.carry φ)).stub target plainModifiers =
      (FunctionDecl.ofTree t).stub source plainModifiers := by
    funext enums
    rw [FunctionDecl.stub, FunctionDecl.stub, FunctionDecl.keptModifiers_eq,
      FunctionDecl.keptModifiers_eq, modifiers_carry T h, head_carry T h]
  rw [Member.view, Member.view, hkind, name_carry T h, hpublic, hstub]

theorem enum_view_carry (h : Lies inside source t) :
    Member.view target (.enum (.ofTree (t.carry φ))) = Member.view source (.enum (.ofTree t)) := by
  simp only [Member.view, EnumDecl.ofTree, h.child?_string T]

theorem memberView?_carry (h : Lies inside source t) :
    memberView? target (t.carry φ) = memberView? source t := by
  unfold memberView? Member.ofTree?
  rw [Node.carry_rule]
  split
  · exact congrArg some (function_view_carry T h)
  · exact congrArg some (variable_view_carry T h)
  · exact congrArg some (enum_view_carry T h)
  all_goals rfl

theorem memberViews_carry {c d : Cursor} {ns : List Tree} (h : Chained c ns d) (hc : inside c)
    (hd : inside d) (horigin : (origin source).Before c) :
    (ns.map (Node.carry φ)).filterMap (memberView? target) = ns.filterMap (memberView? source) := by
  rw [List.filterMap_map]
  exact List.filterMap_congr fun n hn => memberView?_carry T (lies_of_chained T h hc hd horigin hn)

theorem basesOfTree_carry (h : Lies inside source t) :
    Contract.basesOfTree (t.carry φ) = Contract.basesOfTree t := by
  simp only [Contract.basesOfTree, childrenOf_carry, List.map_map]
  refine List.map_congr_left fun n hn => ?_
  have hn' : n ∈ t.children := (List.mem_filter.1 hn).1
  exact (h.child T hn').dottedName_carry T

theorem contract_view_carry (h : Lies inside source t) :
    (Contract.ofTree (t.carry φ)).view target = (Contract.ofTree t).view source := by
  have hkind : ((t.carry φ).child? .contractKind).map (ContractKind.ofText ·.string) =
      (t.child? .contractKind).map (ContractKind.ofText ·.string) := by
    have hstring := congrArg (Option.map ContractKind.ofText) (h.child?_string T .contractKind)
    rw [Option.map_map, Option.map_map] at hstring
    exact hstring
  have hbases : ((t.carry φ).child? .inheritanceList).map Contract.basesOfTree =
      (t.child? .inheritanceList).map Contract.basesOfTree := by
    rw [child?_carry, Option.map_map]
    refine Option.map_congr fun n hr => ?_
    have hn : n ∈ t.children := List.mem_of_find?_eq_some hr
    exact basesOfTree_carry T (h.child T hn)
  have hmembers := memberViews_carry T h.chained h.start h.stop h.origin
  simp only [Contract.view, Contract.ofTree, List.map_filterMap, Node.carry_children, hkind, hbases,
    h.child?_string T]
  congr 1

theorem itemView?_carry (h : Lies inside source t) :
    itemView? target (t.carry φ) = itemView? source t := by
  have hpath : (Import.ofTree (t.carry φ)).path = (Import.ofTree t).path := by
    simp only [Import.ofTree, child?_carry, Option.map_map]
    congr 1
    refine Option.map_congr fun n hr => ?_
    have hn : n ∈ t.children := List.mem_of_find?_eq_some hr
    rw [Function.comp, (h.child T hn).text_carry T]
  unfold itemView? SourceItem.ofTree?
  rw [Node.carry_rule]
  split
  · simp only [Option.map_some, SourceItem.view, h.slice_carry T]
  · simp only [Option.map_some, SourceItem.view, hpath]
  · simp only [Option.map_some, SourceItem.view, contract_view_carry T h]
  all_goals rfl

theorem itemViews_carry {c d : Cursor} {ns : List Tree} (h : Chained c ns d) (hc : inside c)
    (hd : inside d) (horigin : (origin source).Before c) :
    (ns.map (Node.carry φ)).filterMap (itemView? target) = ns.filterMap (itemView? source) := by
  rw [List.filterMap_map]
  exact List.filterMap_congr fun n hn => itemView?_carry T (lies_of_chained T h hc hd horigin hn)

end Carried

/-- In front of a splice, positions lead to the spliced source. -/
theorem transports_spliced {source target : String} {old new : List Char}
    (htarget : origin target = spliced old new (origin source)) :
    Transports (spliced old new) source target (Ahead old) where
  between _ _ hde he := he.of_before hde
  passes _ hd h := passes_spliced h hd
  origin hc h := by
    obtain ⟨cs, hcs⟩ := h
    exact ⟨cs, htarget ▸ passes_spliced hcs hc⟩

/-- Positions behind `c` lead to another source if `c` does. -/
theorem transports_moved (source : String) {target : String} {c : Cursor} {stop : Nat}
    (htarget : (origin target).Before (c.moved c.offset stop)) :
    Transports (Cursor.moved c.offset stop) source target c.Before where
  between hc hcd _ _ := hc.trans hcd
  passes hc _ h := h.moved hc.offset_le
  origin hc _ := by
    obtain ⟨cs, hcs⟩ := hc
    exact htarget.trans ⟨cs, hcs.moved (Nat.le_refl _)⟩

end SolidityStubs
