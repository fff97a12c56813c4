import SolidityStubs.Proofs.Stub.Edited

/-! # Hidden text

Neither what stands in the body of a function nor a member that the interface does not show has any
influence on the interface, and without it the source can still be read.
-/
namespace SolidityStubs

open Peg Source

def Span.replace (span : Span) (text source : String) : String :=
  String.ofList (Text.takeBytes span.start source.toList ++ text.toList ++
    (Text.dropBytes? span.stop source.toList).getD [])

/-- The interface does not show the member, and needs no name from it. -/
def Contract.hides (c : Contract) : Member → Bool
  | .function f => ! c.shows f
  | .stateVariable v => ! v.isPublic
  | .enum _ => false
  | .other _ => true

def Source.bodySpans (root : Tree) : List Span :=
  (root.childrenOf .contractDefinition).flatMap fun contract =>
    (contract.childrenOf .functionDefinition).flatMap fun f =>
      (f.childrenOf .functionBody).map (·.span)

def functionBodies (source : String) : List Span :=
  match tree source with
  | .ok root => Source.bodySpans root
  | .error _ => []

theorem functionBodies_of_tree {source : String} {root : Tree} (h : tree source = .ok root) :
    functionBodies source = Source.bodySpans root := by
  unfold functionBodies
  rw [h]

/-- The second source can be read as well, and for both the same files are asked for and the same
interface or failure comes out. -/
def SameInterface (source target : String) : Prop :=
  (∃ u, parse target = .ok u) ∧
    ∀ lib options, generate lib options target = generate lib options source

theorem sameInterface_of_face {source target : String} {root root' : Tree}
    (h : tree source = .ok root) (h' : tree target = .ok root')
    (hface : ItemView.face? (root.children.filterMap (itemView? source)) =
      ItemView.face? (root'.children.filterMap (itemView? target))) :
    SameInterface source target := by
  have hparse : parse source = .ok (.ofTree root) := parse_eq_ok_iff.2 ⟨root, h, rfl⟩
  have hparse' : parse target = .ok (.ofTree root') := parse_eq_ok_iff.2 ⟨root', h', rfl⟩
  refine ⟨⟨_, hparse'⟩, fun lib options => (generate_congr hparse hparse' ?_ options).symm⟩
  simp only [SourceUnit.ofTree, List.map_filterMap]
  exact hface

section Replacing

variable {source : String} {c d : Cursor}

theorem origin_replace (hc : (origin source).Before c) (hd : c.Before d) (text : String) :
    origin (Span.replace ⟨c.offset, d.offset⟩ text source) =
      spliced c.rest (text.toList ++ d.rest) (origin source) := by
  obtain ⟨before, hbefore, hoff⟩ := hc
  obtain ⟨cs, hcs, hoff'⟩ := hd
  simp only [Cursor.ofText, Nat.zero_add] at hbefore hoff
  have htake : Text.takeBytes c.offset source.toList = before := by
    rw [hbefore, hoff, Text.takeBytes_append]
  have hdrop : Text.dropBytes? d.offset source.toList = some d.rest := by
    rw [Text.dropBytes?_eq_some_iff]
    exact ⟨before ++ cs, by rw [hbefore, hcs, List.append_assoc], by simp [hoff', hoff]⟩
  have hspliced : spliced c.rest (text.toList ++ d.rest) (origin source) =
      ⟨0, before ++ (text.toList ++ d.rest)⟩ := spliced_of_eq hbefore
  rw [hspliced, Span.replace, htake, hdrop]
  simp [Cursor.ofText]

theorem spliced_cons {x : Char} {old new : List Char} (hc : Ahead (x :: old) c) :
    spliced (x :: old) (x :: new) c = spliced old new c := by
  obtain ⟨a, ha⟩ := hc
  have ha' : c.rest = (a ++ [x]) ++ old := by simp [ha]
  rw [spliced_of_eq ha, spliced_of_eq ha']
  simp

end Replacing

section Emptied

variable {source target : String} {root contract part body : Tree} {header : List Tree}

def Source.Site.front (part body : Tree) (header : List Tree) : Tree :=
  ⟨.functionDefinition, part.start, body.start, header⟩

theorem emptied_view (hpart : part.rule = .functionDefinition) (hrule : body.rule = .functionBody)
    (hrow : Row functionHeader part.start body.start header) (hchildren : part.children = header ++ [body])
    (horigin : (origin source).Before part.start) (hbody : Ahead body.start.rest.tail body.start)
    (htarget : origin target =
      spliced body.start.rest.tail ('\x7d' :: body.stop.rest) (origin source)) :
    memberView? target (Site.emptied part body header) = memberView? source part := by
  have hlies : Lies (Ahead body.start.rest.tail) source (Site.front part body header) :=
    ⟨hbody.of_before hrow.chained.before, hbody, hrow.chained, horigin⟩
  have hbefore : Member.view source (.function (.ofTree part)) =
      Member.view source (.function (.ofTree (Site.front part body header))) := by
    refine function_view_of_header source rfl hchildren ?_
    simpa using hrule
  have hafter : Member.view target (.function (.ofTree (Site.emptied part body header))) =
      Member.view target (.function (.ofTree ((Site.front part body header).carry
        (spliced body.start.rest.tail ('\x7d' :: body.stop.rest))))) := by
    refine function_view_of_header target rfl (by rw [Node.carry_children]; rfl) ?_
    simp
  have hview := function_view_carry (transports_spliced htarget) hlies
  have hread : Member.ofTree? part = some (.function (.ofTree part)) := by
    simp [Member.ofTree?, hpart]
  rw [memberView?, memberView?, hread, Option.map_some, hbefore, ← hview, ← hafter]
  rfl

/-- A source in which a function has an empty body. -/
theorem sameInterface_of_emptied (hroot : tree source = .ok root)
    (s : Site source root contract part) (hpart : part.rule = .functionDefinition)
    (hbody : body ∈ part.children) (hrule : body.rule = .functionBody) :
    SameInterface source (body.span.replace "\x7b\x7d" source) := by
  obtain ⟨_, hrow, -, hstop, htakes⟩ := s.function_header hpart hbody hrule
  obtain ⟨o, e, hopen, hinner, hclose⟩ := functionBody_passes htakes
  have hbrace : body.start.rest = ['\x7b'] ++ body.start.rest.tail := by rw [hopen.1]; rfl
  have horigin : (origin source).Before part.start :=
    (s.origin_before_contract.trans s.contract_before_partsStop).trans s.partsStop_before_part
  have horiginBody : (origin source).Before body.start := horigin.trans hrow.chained.before
  have hahead : Ahead body.start.rest.tail body.start := ⟨['\x7b'], hbrace⟩
  have htarget : origin (body.span.replace "\x7b\x7d" source) =
      spliced body.start.rest.tail ('\x7d' :: body.stop.rest) (origin source) := by
    have hreplace := origin_replace horiginBody (htakes.passes grammar_bounded.skips) "\x7b\x7d"
    rw [hbrace] at hreplace
    exact hreplace.trans (spliced_cons (Ahead.of_before ⟨[], hbrace⟩ horiginBody))
  obtain ⟨header, root', hrow, hchildren, htree, hroot'⟩ := s.emptied_body hpart hbody hrule htarget
  have hmoved : (origin (body.span.replace "\x7b\x7d" source)).Before
      (part.stop.moved part.stop.offset (body.start.offset + 2)) := by
    refine ((transports_spliced htarget).origin hahead horiginBody).trans ⟨['\x7b', '\x7d'], ?_, ?_⟩
    · rw [spliced_of_eq hbrace, hstop]
      rfl
    · simp [Cursor.moved, spliced]
      rfl
  have hpartAhead : Ahead body.start.rest.tail s.partsStop :=
    hahead.of_before (s.partsStop_before_part.trans hrow.chained.before)
  have hmiddle : ∀ n ∈ [Site.emptied part body header], n.rule ∈ partRules := by
    simp [Site.emptied, partRules]
  have hview := emptied_view hpart hrule hrow hchildren horigin hahead htarget
  refine sameInterface_of_face hroot htree ?_
  rw [hroot', s.items_view htarget hpartAhead hmoved, s.edited_view htarget hpartAhead hmoved hmiddle,
    s.root_view, s.contract_view]
  simp only [List.filterMap_cons, List.filterMap_nil, hview]

end Emptied

section Removed

namespace ContractView

def conceals (v : ContractView) : MemberView → Bool
  | .function kind name isPublic _ =>
    ! (kind == .function && name.isSome && name != some v.name && isPublic)
  | .stateVariable isPublic _ => ! isPublic
  | .enum _ => false
  | .other => true

variable {v : ContractView} {before after : List MemberView} {x : MemberView}

theorem enumNames_without (hv : v.members = before ++ [x] ++ after) (hx : v.conceals x = true) :
    { v with members := before ++ [] ++ after }.enumNames = v.enumNames := by
  simp only [enumNames, hv, List.filterMap_append]
  cases x with
  | enum => cases hx
  | function | stateVariable | other => rfl

theorem getters_without (hv : v.members = before ++ [x] ++ after) (hx : v.conceals x = true) :
    { v with members := before ++ [] ++ after }.getters = v.getters := by
  have hnames := enumNames_without hv hx
  simp only [getters, hnames, hv, List.filterMap_append]
  cases x with
  | stateVariable isPublic stub =>
    cases isPublic with
    | true => cases hx
    | false => rfl
  | function | enum | other => rfl

theorem functions_without (hv : v.members = before ++ [x] ++ after) (hx : v.conceals x = true) :
    { v with members := before ++ [] ++ after }.functions = v.functions := by
  have hnames := enumNames_without hv hx
  have hstub : ∀ y, functionStub? { v with members := before ++ [] ++ after } y =
      v.functionStub? y := by
    intro y
    cases y with
    | function => simp only [functionStub?, hnames]
    | stateVariable | enum | other => rfl
  have hnone : v.functionStub? x = none := by
    cases x with
    | function kind name isPublic stub =>
      have hshows : (kind == .function && name.isSome && name != some v.name && isPublic) = false := by
        rw [← Bool.not_eq_true']
        exact hx
      exact if_neg (ne_true_of_eq_false hshows)
    | stateVariable | enum | other => rfl
  simp only [functions, hv, List.filterMap_append, hstub]
  simp [hnone]

end ContractView

theorem Contract.conceals_view (source : String) (c : Contract) (m : Member) :
    (c.view source).conceals (m.view source) = c.hides m := by
  cases m <;> rfl

/-- For the face of a source, only name, bases and stubs of a contract count. -/
theorem face?_congr {before after : List ItemView} {v v' : ContractView} (hkind : v.kind = v'.kind)
    (hname : v.name = v'.name) (hbases : v.bases = v'.bases) (hgetters : v.getters = v'.getters)
    (hfunctions : v.functions = v'.functions) :
    ItemView.face? (before ++ .contract v :: after) =
      ItemView.face? (before ++ .contract v' :: after) := by
  have hcontract : ∀ w, ItemView.contract? (.contract w) = some w := fun _ => rfl
  have himport : ∀ w, ItemView.import? (.contract w) = none := fun _ => rfl
  have hpragma : ∀ w, ItemView.pragma? (.contract w) = none := fun _ => rfl
  simp only [ItemView.face?, List.filterMap_append, List.filterMap_cons, List.find?_append,
    List.find?_cons, List.findSome?_append, List.findSome?_cons, hcontract, himport, hpragma, hkind]
  cases (before.filterMap ItemView.contract?).find? (·.kind == .contract) with
  | some w => rfl
  | none =>
    cases v'.kind == .contract with
    | true => simp [hname, hbases, hgetters, hfunctions]
    | false => rfl

/-- A source without a member that does not show. -/
theorem sameInterface_of_removed {source : String} {root contract part : Tree} {m : Member}
    (hroot : tree source = .ok root) (s : Site source root contract part)
    (hm : Member.ofTree? part = some m) (hhides : (Contract.ofTree contract).hides m = true) :
    SameInterface source (part.span.replace "" source) := by
  have horigin : (origin source).Before part.start :=
    (s.origin_before_contract.trans s.contract_before_partsStop).trans s.partsStop_before_part
  have htarget : origin (part.span.replace "" source) =
      spliced part.start.rest part.stop.rest (origin source) :=
    origin_replace horigin (s.part_takes.passes grammar_bounded.skips) ""
  obtain ⟨root', htree, hroot'⟩ := s.removed htarget
  have hahead : Ahead part.start.rest part.start := ⟨[], rfl⟩
  have hpartAhead : Ahead part.start.rest s.partsStop := hahead.of_before s.partsStop_before_part
  have hmoved : (origin (part.span.replace "" source)).Before
      (part.stop.moved part.stop.offset part.start.offset) := by
    have hstart := (transports_spliced htarget).origin hahead horigin
    rw [spliced_of_eq (a := []) rfl] at hstart
    simpa [Cursor.moved] using hstart
  have hview : memberView? source part = some (m.view source) := by rw [memberView?, hm]; rfl
  have hmembers : ((Contract.ofTree contract).view source).members =
      s.parts.filterMap (memberView? source) ++ [m.view source] ++
        s.partsAfter.filterMap (memberView? source) := by
    rw [s.contract_view]
    simp only [List.filterMap_cons, List.filterMap_nil, hview]
  have hconceals := (Contract.conceals_view source (Contract.ofTree contract) m).trans hhides
  refine sameInterface_of_face hroot htree ?_
  rw [hroot', s.items_view htarget hpartAhead hmoved,
    s.edited_view htarget hpartAhead hmoved (by simp), s.root_view]
  have hheader : ∀ members, { (Contract.ofTree s.headerNode).view source with members } =
      { (Contract.ofTree contract).view source with members } := by
    intro members
    rw [s.contract_view]
  rw [hheader, List.filterMap_nil]
  exact face?_congr rfl rfl rfl (ContractView.getters_without hmembers hconceals).symm
    (ContractView.functions_without hmembers hconceals).symm

end Removed

/-- In a source that can be read, the body of a function may be emptied and a member that the
interface hides may be deleted, and the interface stays the same. -/
theorem interface_ignores_hidden {source : String} {u : SourceUnit} (h : parse source = .ok u) :
    (∀ span ∈ functionBodies source, SameInterface source (span.replace "\x7b\x7d" source)) ∧
      ∀ c ∈ u.contracts, ∀ m ∈ c.body, c.hides m = true →
        SameInterface source (m.span.replace "" source) := by
  obtain ⟨root, hroot, rfl⟩ := parse_eq_ok_iff.1 h
  constructor
  · intro span hspan
    rw [functionBodies_of_tree hroot] at hspan
    simp only [Source.bodySpans, List.mem_flatMap, List.mem_map, Node.childrenOf,
      List.mem_filter, decide_eq_true_eq] at hspan
    obtain ⟨contract, ⟨hcontract, hrule⟩, part, ⟨hpart, hpartRule⟩, body, ⟨hbody, hbodyRule⟩, rfl⟩ :=
      hspan
    obtain ⟨s⟩ := exists_site hroot hcontract hrule hpart (by simp [hpartRule, partRules])
    exact sameInterface_of_emptied hroot s hpartRule hbody hbodyRule
  · intro c hc m hm hhides
    obtain ⟨contract, hcontract, hrule, rfl⟩ := exists_node_of_mem_contracts hc
    obtain ⟨part, hpart, hread⟩ := List.mem_filterMap.1 hm
    have hpartRule : part.rule ∈ partRules := by
      unfold Member.ofTree? at hread
      split at hread <;> simp_all [partRules]
    obtain ⟨s⟩ := exists_site hroot hcontract hrule hpart hpartRule
    rw [Member.span_of_ofTree? hread]
    exact sameInterface_of_removed hroot s hread hhides

/-- A body with braces in a string and in a comment, and a variable that is not public. -/
theorem interface_ignores_hidden_braces :
    SameInterface "contract C\x7bfunction f()public\x7b\"\x7d\";/*\x7d*/\x7duint x=\"\x7d\";\x7d"
        "contract C\x7bfunction f()public\x7b\x7duint x=\"\x7d\";\x7d" ∧
      SameInterface "contract C\x7bfunction f()public\x7b\"\x7d\";/*\x7d*/\x7duint x=\"\x7d\";\x7d"
        "contract C\x7bfunction f()public\x7b\"\x7d\";/*\x7d*/\x7d\x7d" := by
  have h := parse_eq_ok_of_parseWithin 12
    "contract C\x7bfunction f()public\x7b\"\x7d\";/*\x7d*/\x7duint x=\"\x7d\";\x7d" ⟨[
      .contract ⟨.contract, "C", [], [
        .function ⟨.function, some "f", [], ⟨21, 23⟩, [⟨"public", ⟨23, 29⟩⟩], ⟨11, 40⟩⟩,
        .stateVariable ⟨"x", .named "uint", false, false, ⟨40, 51⟩⟩], ⟨0, 52⟩⟩]⟩ (by decide +kernel)
  have hbodies : functionBodies
      "contract C\x7bfunction f()public\x7b\"\x7d\";/*\x7d*/\x7duint x=\"\x7d\";\x7d" = [⟨29, 40⟩] := by
    have hwithin : (treeWithin 12
        "contract C\x7bfunction f()public\x7b\"\x7d\";/*\x7d*/\x7duint x=\"\x7d\";\x7d").map
        Source.bodySpans = some [⟨29, 40⟩] := by decide +kernel
    obtain ⟨root, hroot, hspans⟩ := Option.map_eq_some_iff.1 hwithin
    rw [functionBodies_of_tree (tree_eq_ok_of_treeWithin hroot), hspans]
  obtain ⟨hbody, hmember⟩ := interface_ignores_hidden h
  exact ⟨hbody ⟨29, 40⟩ (by rw [hbodies]; simp),
    hmember _ (List.mem_singleton.2 rfl) (.stateVariable ⟨"x", .named "uint", false, false, ⟨40, 51⟩⟩)
      (by decide) rfl⟩

end SolidityStubs
