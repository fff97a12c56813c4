import SolidityStubs.Proofs.Peg.Nesting
import SolidityStubs.Proofs.Source.Termination
import SolidityStubs.Stub.Render

/-! # Spans of a source

Every span that reading a source records is a piece of that source. Siblings lie one behind the other
inside the span they belong to, and the parameters of a function come before its modifiers. So all
the text that an interface is cut from is there to be cut.
-/
namespace SolidityStubs

open Peg Source

/-- A character of the text starts or ends at the byte offset. -/
def Text.IsBoundary (offset : Nat) (cs : List Char) : Prop :=
  ∃ before after, cs = before ++ after ∧ offset = Text.byteLength before

namespace Span

/-- The span is a piece of the source: its ends are in order, not past the end of the source, and
inside no character. -/
structure Fits (span : Span) (source : String) : Prop where
  start_le_stop : span.start ≤ span.stop
  stop_le_length : span.stop ≤ Text.byteLength source.toList
  start_boundary : Text.IsBoundary span.start source.toList
  stop_boundary : Text.IsBoundary span.stop source.toList

def Inside (inner outer : Span) : Prop :=
  outer.start ≤ inner.start ∧ inner.stop ≤ outer.stop

structure Siblings (source : String) (outer : Span) (spans : List Span) : Prop where
  fits : ∀ s ∈ spans, s.Fits source
  inside : ∀ s ∈ spans, s.Inside outer
  inOrder : spans.Pairwise fun s t => s.stop ≤ t.start

theorem Fits.slice?_eq_some {span : Span} {source : String} (h : span.Fits source) :
    span.slice? source = some (span.slice source) := by
  obtain ⟨before, after, hsource, hstart⟩ := h.start_boundary
  obtain ⟨before', after', hsource', hstop⟩ := h.stop_boundary
  have hlen : Text.byteLength before ≤ Text.byteLength before' := by
    rw [← hstart, ← hstop]
    exact h.start_le_stop
  obtain ⟨middle, rfl⟩ : ∃ middle, before' = before ++ middle := by
    rcases List.append_eq_append_iff.1 (hsource.symm.trans hsource') with ⟨as, hb, -⟩ | ⟨as, hb, -⟩
    · exact ⟨as, hb⟩
    · -- then `before` is no shorter than `before'`, so the two are the same
      cases as with
      | nil => exact ⟨[], by simpa using hb.symm⟩
      | cons a as =>
        have hpos := a.utf8Size_pos
        simp only [hb, Text.byteLength_append, Text.byteLength_cons] at hlen
        omega
  have hslice : span.slice? source = some (String.ofList middle) := by
    refine slice?_eq_some_iff.2 ⟨before, after', ?_, hstart, ?_⟩
    · rw [hsource', String.toList_ofList, List.append_assoc]
    · rw [hstop, String.toList_ofList, Text.byteLength_append]
  rw [slice, hslice, Option.getD_some]

end Span

theorem mapM_eq_some_map {α β : Type} {f : α → Option β} {g : α → β} {xs : List α}
    (h : ∀ x ∈ xs, f x = some (g x)) : xs.mapM f = some (xs.map g) := by
  induction xs with
  | nil => rfl
  | cons x xs ih =>
    have hx := h x (by simp)
    have hxs := ih fun y hy => h y (List.mem_cons_of_mem _ hy)
    simp [List.mapM_cons, hx, hxs]

namespace FunctionDecl

/-- The stub, if every span that it is cut from has a text. -/
def stub? (f : FunctionDecl) (source : String) (keep enums : List String) : Option String := do
  let head ←
    if f.params.isEmpty then some ("function " ++ f.name.getD "" ++ "()")
    else (Span.slice? ⟨f.span.start, f.paramsSpan.stop⟩ source).map (substituteEnums enums)
  let kept ← (f.modifiers.filter (keep.contains ·.name)).mapM fun m =>
    (m.span.slice? source).map fun text => substituteEnums enums (Text.trim text)
  return "  " ++ " ".intercalate (head :: kept) ++ ";"

/-- The parameter list and then the modifiers lie inside the function, the parameters inside the
parameter list. -/
structure Placed (f : FunctionDecl) (source : String) : Prop where
  fits : f.span.Fits source
  parts : Span.Siblings source f.span (f.paramsSpan :: f.modifiers.map (·.span))
  params : Span.Siblings source f.paramsSpan (f.params.map (·.span))

/-- Head and modifiers of a placed function can be cut, whichever modifiers are kept. -/
theorem Placed.stub?_eq_some {f : FunctionDecl} {source : String} (h : f.Placed source)
    (keep enums : List String) : f.stub? source keep enums = some (f.stub source keep enums) := by
  have hparams : f.paramsSpan.Fits source := h.parts.fits _ (by simp)
  have hinside : f.paramsSpan.Inside f.span := h.parts.inside _ (by simp)
  have hhead : Span.Fits ⟨f.span.start, f.paramsSpan.stop⟩ source :=
    { start_le_stop := Nat.le_trans hinside.1 hparams.start_le_stop
      stop_le_length := hparams.stop_le_length
      start_boundary := h.fits.start_boundary
      stop_boundary := hparams.stop_boundary }
  have hkept : (f.modifiers.filter (keep.contains ·.name)).mapM (fun m =>
      (m.span.slice? source).map fun text => substituteEnums enums (Text.trim text)) =
      some (f.keptModifiers source keep enums) := by
    refine mapM_eq_some_map fun m hm => ?_
    have hmem : m.span ∈ f.modifiers.map (·.span) :=
      List.mem_map_of_mem (List.mem_filter.1 hm).1
    rw [(h.parts.fits _ (List.mem_cons_of_mem _ hmem)).slice?_eq_some, Option.map_some]
  unfold stub? stub head
  rw [hkept, hhead.slice?_eq_some]
  cases f.params.isEmpty <;> simp

end FunctionDecl

structure Contract.Placed (c : Contract) (source : String) : Prop where
  members : Span.Siblings source c.span (c.body.map (·.span))
  functions : ∀ f, .function f ∈ c.body → f.Placed source

structure SourceUnit.Placed (u : SourceUnit) (source : String) : Prop where
  items : Span.Siblings source ⟨0, Text.byteLength source.toList⟩ (u.items.map (·.span))
  contracts : ∀ c ∈ u.contracts, c.Placed source

section Placing

variable {source : String} {c d : Cursor}

abbrev origin (source : String) : Cursor := .ofText source.toList

theorem isBoundary_of_before (h : (origin source).Before c) :
    Text.IsBoundary c.offset source.toList := by
  obtain ⟨cs, hrest, hoff⟩ := h
  exact ⟨cs, c.rest, hrest, by simpa [Cursor.ofText] using hoff⟩

theorem fits_of_before (hc : (origin source).Before c) (hd : c.Before d) :
    Span.Fits ⟨c.offset, d.offset⟩ source where
  start_le_stop := hd.offset_le
  stop_le_length := by
    obtain ⟨before, after, hsource, hoff⟩ := isBoundary_of_before (hc.trans hd)
    rw [hsource, Text.byteLength_append, hoff]
    exact Nat.le_add_right _ _
  start_boundary := isBoundary_of_before hc
  stop_boundary := isBoundary_of_before (hc.trans hd)

theorem Span.Siblings.sublist {outer : Span} {spans spans' : List Span}
    (h : Span.Siblings source outer spans) (hs : spans'.Sublist spans) :
    Span.Siblings source outer spans' where
  fits s hmem := h.fits s (hs.subset hmem)
  inside s hmem := h.inside s (hs.subset hmem)
  inOrder := h.inOrder.sublist hs

theorem siblings_of_chained {ns : List Tree} (hc : (origin source).Before c)
    (h : Chained c ns d) : Span.Siblings source ⟨c.offset, d.offset⟩ (ns.map (·.span)) where
  fits s hs := by
    obtain ⟨n, hn, rfl⟩ := List.mem_map.1 hs
    obtain ⟨hstart, hchildren, -⟩ := h.of_mem hn
    exact fits_of_before (hc.trans hstart) hchildren.before
  inside s hs := by
    obtain ⟨n, hn, rfl⟩ := List.mem_map.1 hs
    obtain ⟨hstart, -, hstop⟩ := h.of_mem hn
    exact ⟨hstart.offset_le, hstop.offset_le⟩
  inOrder := List.pairwise_map.2 (h.pairwise.imp fun hab => hab.offset_le)

/-- What is read off some of the nodes, each with the span of its node, has some of the spans. -/
theorem map_filterMap_sublist {α : Type} {read : Tree → Option α} {span : α → Span}
    (h : ∀ t a, read t = some a → span a = t.span) (ts : List Tree) :
    ((ts.filterMap read).map span).Sublist (ts.map (·.span)) := by
  induction ts with
  | nil => exact .slnil
  | cons t ts ih =>
    cases ht : read t with
    | none => simpa [List.filterMap_cons, ht] using ih.cons _
    | some a => simpa [List.filterMap_cons, ht, h t a ht] using ih.cons_cons t.span

end Placing

theorem Parameter.span_of_ofTree? {t : Tree} {p : Parameter} (h : Parameter.ofTree? t = some p) :
    p.span = t.span := by
  obtain ⟨typeName, -, rfl⟩ := Option.map_eq_some_iff.1 h
  rfl

theorem Modifier.span_of_ofTree? {t : Tree} {m : Modifier} (h : Modifier.ofTree? t = some m) :
    m.span = t.span := by
  unfold Modifier.ofTree? at h
  split at h <;> cases h <;> rfl

theorem Member.span_of_ofTree? {t : Tree} {m : Member} (h : Member.ofTree? t = some m) :
    m.span = t.span := by
  unfold Member.ofTree? at h
  split at h <;> cases h <;> rfl

theorem Member.of_ofTree? {t : Tree} {m : Member} (h : Member.ofTree? t = some m) :
    match m with
    | .function f => t.rule = .functionDefinition ∧ f = .ofTree t
    | .stateVariable v => t.rule = .stateVariableDeclaration ∧ v = .ofTree t
    | .enum e => t.rule = .enumDefinition ∧ e = .ofTree t
    | .other span => span = t.span := by
  unfold Member.ofTree? at h
  split at h <;> cases h
  · exact ⟨by assumption, rfl⟩
  · exact ⟨by assumption, rfl⟩
  · exact ⟨by assumption, rfl⟩
  all_goals rfl

theorem SourceItem.span_of_ofTree? {t : Tree} {i : SourceItem}
    (h : SourceItem.ofTree? t = some i) : i.span = t.span := by
  unfold SourceItem.ofTree? at h
  split at h <;> cases h <;> rfl

/-- A function has a head and a parameter list, in this order, before everything else. -/
theorem function_children {t : Tree} (hr : t.rule = .functionDefinition)
    (h : Takes grammar .spaced (.rule t.rule) t.start t.stop [t]) :
    ∃ head params rest, t.children = head :: params :: rest ∧ head.rule = .functionHead ∧
      params.rule = .parameterList := by
  have hb := h.children (by rw [hr]; decide)
  rw [hr] at hb
  obtain ⟨d, hs, ms, hhead, hb, hchildren⟩ := takes_seq_iff.1 hb
  obtain ⟨e, ps, rest, hparams, -, rfl⟩ := takes_seq_iff.1 hb
  obtain ⟨hc, -, rfl⟩ := (takes_rule_iff (by decide)).1 hhead
  obtain ⟨pc, -, rfl⟩ := (takes_rule_iff (by decide)).1 hparams
  exact ⟨_, _, rest, hchildren, rfl, rfl⟩

theorem FunctionDecl.placed_ofTree {source : String} {t : Tree} (hr : t.rule = .functionDefinition)
    (h : Takes grammar .spaced (.rule t.rule) t.start t.stop [t])
    (ht : (origin source).Before t.start) : (FunctionDecl.ofTree t).Placed source := by
  have hchained := (h.children (by rw [hr]; decide)).chained grammar_bounded.skips
  obtain ⟨head, params, rest, hchildren, hhead, hparams⟩ := function_children hr h
  have hchild : t.child? .parameterList = some params := by
    simp [Node.child?, hchildren, hhead, hparams]
  have hmem : params ∈ t.children := by simp [hchildren]
  obtain ⟨hstart, hinner, -⟩ := hchained.of_mem hmem
  have hsiblings := siblings_of_chained ht hchained
  refine ⟨fits_of_before ht hchained.before, ?_, ?_⟩
  · -- the head takes no part, and neither head nor parameter list is a modifier
    have hmods : t.children.filterMap Modifier.ofTree? = rest.filterMap Modifier.ofTree? := by
      simp [hchildren, Modifier.ofTree?, hhead, hparams]
    simp only [FunctionDecl.ofTree, hchild, hmods, Option.map_some, Option.getD_some]
    refine hsiblings.sublist ?_
    rw [hchildren]
    exact ((map_filterMap_sublist (fun _ _ => Modifier.span_of_ofTree?) rest).cons_cons _).cons _
  · simp only [FunctionDecl.ofTree, hchild, Option.map_some, Option.getD_some]
    refine (siblings_of_chained (ht.trans hstart) hinner).sublist ?_
    refine (map_filterMap_sublist (fun _ _ => Parameter.span_of_ofTree?) _).trans ?_
    exact List.filter_sublist.map _

theorem Contract.placed_ofTree {source : String} {t : Tree} (hr : t.rule = .contractDefinition)
    (h : Takes grammar .spaced (.rule t.rule) t.start t.stop [t])
    (ht : (origin source).Before t.start) : (Contract.ofTree t).Placed source := by
  have hbody := h.children (by rw [hr]; decide)
  have hchained := hbody.chained grammar_bounded.skips
  refine ⟨(siblings_of_chained ht hchained).sublist
    (map_filterMap_sublist (fun _ _ => Member.span_of_ofTree?) _), fun f hf => ?_⟩
  obtain ⟨n, hn, hread⟩ := List.mem_filterMap.1 hf
  obtain ⟨hfun, rfl⟩ := Member.of_ofTree? hread
  exact FunctionDecl.placed_ofTree hfun (hbody.takes_of_mem hn) (ht.trans (hchained.of_mem hn).1)

theorem exists_node_of_mem_contracts {root : Tree} {c : Contract}
    (h : c ∈ (SourceUnit.ofTree root).contracts) :
    ∃ t ∈ root.children, t.rule = .contractDefinition ∧ c = Contract.ofTree t := by
  obtain ⟨i, hi, hcontract⟩ := List.mem_filterMap.1 h
  obtain ⟨t, ht, hread⟩ := List.mem_filterMap.1 hi
  unfold SourceItem.ofTree? at hread
  split at hread <;> cases hread <;> cases hcontract
  exact ⟨t, ht, by assumption, rfl⟩

/-- Every span of a source that can be read is in its place. -/
theorem placed_of_parse {source : String} {u : SourceUnit} (h : parse source = .ok u) :
    u.Placed source := by
  obtain ⟨root, htree, rfl⟩ := parse_eq_ok_iff.1 h
  obtain ⟨d, htakes⟩ := tree_eq_ok_iff.1 htree
  obtain ⟨children, hbody, hroot⟩ := (takes_rule_iff (by decide)).1 htakes
  obtain rfl := List.singleton_inj.1 hroot
  have hchained := hbody.chained grammar_bounded.skips
  have horigin := Cursor.Before.refl (origin source)
  have hsiblings := (siblings_of_chained horigin hchained).sublist
    (map_filterMap_sublist (fun _ _ => SourceItem.span_of_ofTree?) _)
  constructor
  · exact ⟨hsiblings.fits, fun s hs => ⟨Nat.zero_le _, (hsiblings.fits s hs).stop_le_length⟩,
      hsiblings.inOrder⟩
  · intro c hc
    obtain ⟨n, hn, hcon, rfl⟩ := exists_node_of_mem_contracts hc
    exact Contract.placed_ofTree hcon (hbody.takes_of_mem hn) (hchained.of_mem hn).1

/-- In a source that can be read every span is a piece of the source in its place, so the pragma can
be cut out of it, and so can every stub, whichever modifiers are kept and enums replaced. -/
theorem spans_placed_and_cut {source : String} {u : SourceUnit} (h : parse source = .ok u) :
    u.Placed source ∧
      (∀ span ∈ u.items.filterMap (·.pragma?), span.slice? source = some (span.slice source)) ∧
      ∀ c ∈ u.contracts, ∀ f, .function f ∈ c.body → ∀ keep enums,
        f.stub? source keep enums = some (f.stub source keep enums) := by
  have hplaced := placed_of_parse h
  refine ⟨hplaced, fun span hspan => ?_, fun c hc f hf keep enums => ?_⟩
  · obtain ⟨i, hi, hpragma⟩ := List.mem_filterMap.1 hspan
    have hfits := hplaced.items.fits i.span (List.mem_map_of_mem hi)
    cases i with
    | pragma span' =>
      cases hpragma
      exact hfits.slice?_eq_some
    | importing | contract | other => cases hpragma
  · exact ((hplaced.contracts c hc).functions f hf).stub?_eq_some keep enums

/-- A source with characters of two bytes, a comment inside the span of a modifier and a pragma. -/
theorem spans_placed_and_cut_two_bytes :
    ∃ u, parse "// ü\npragma é;contract C{function f(uint a)public/*é*/{}}" = .ok u ∧
      u.Placed "// ü\npragma é;contract C{function f(uint a)public/*é*/{}}" ∧
      u.contracts.map (·.body.length) = [1] := by
  have h := parse_eq_ok_of_parseWithin 12
    "// ü\npragma é;contract C{function f(uint a)public/*é*/{}}" ⟨[
      .pragma ⟨6, 16⟩,
      .contract ⟨.contract, "C", [], [
        .function ⟨.function, some "f", [⟨.named "uint", some "a", ⟨38, 44⟩⟩], ⟨37, 45⟩,
          [⟨"public", ⟨45, 57⟩⟩], ⟨27, 59⟩⟩], ⟨16, 60⟩⟩]⟩ (by decide +kernel)
  exact ⟨_, h, (spans_placed_and_cut h).1, rfl⟩

end SolidityStubs
