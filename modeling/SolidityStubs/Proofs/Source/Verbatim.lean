import SolidityStubs.Proofs.Peg.Tally
import SolidityStubs.Proofs.Stub.Shape
import SolidityStubs.Proofs.Stub.TypeText

/-! # Names are taken from the source

The parts that declarations are read off are always there, so no default ever stands in for one, and
none of them is there too often. So every name is the text of a node in the span of its declaration,
every type has a text, and an import has its path between the quotes of a string.
-/
namespace SolidityStubs

open Source Peg

abbrev Peg.Node.Contains {ρ : Type} : Node ρ → Node ρ → Prop :=
  Relation.ReflTransGen fun n k => k ∈ n.children

/-- The parts that are looked up in the nodes of a rule, and how often such a node has them. Only in
place of a part that is not there would a default be read. -/
def Source.lookups : Rule → List (Rule × Tally)
  | .importDirective => [(.importPath, .exactly 1)]
  | .contractDefinition =>
    [(.contractKind, .exactly 1), (.identifier, .exactly 1), (.inheritanceList, .atMost 1)]
  | .inheritanceSpecifier | .modifierInvocation => [(.userTypeName, .exactly 1)]
  | .functionDefinition => [(.functionHead, .exactly 1), (.parameterList, .exactly 1)]
  | .functionHead => [(.identifier, .atMost 1)]
  | .parameter => [(.typeName, .exactly 1), (.identifier, .atMost 1)]
  | .mappingType => [(.typeName, .exactly 2)]
  | .stateVariableDeclaration => [(.typeName, .exactly 1), (.identifier, .exactly 1)]
  | .enumDefinition => [(.identifier, .atLeast 1)]
  | _ => []

def HasParts (t : Tree) : Prop :=
  ∀ p ∈ lookups t.rule, p.2.Admits (t.childrenOf p.1).length

def Source.lexicalRules : List Rule := [.identifier, .userTypeName, .stringLiteral]

def Spells (r : Rule) (text : String) : Prop :=
  ∃ stop nodes, (runRule r text.toList).outcome = .matched stop nodes ∧ stop.rest = []

/-- The text stands in the span as it is, as a node of the rule. -/
structure Verbatim (source : String) (root : Tree) (span : Span) (r : Rule) (text : String) :
    Prop where
  ne_empty : text ≠ ""
  spells : Spells r text
  node : ∃ n, root.Contains n ∧ n.rule = r ∧ n.span.Inside span ∧ n.span.slice? source = some text
  occurs : ∃ whole, span.slice? source = some whole ∧ text.toList <:+: whole.toList

/-- A modifier starts with its name, which is `returns` for a clause of return values and a dotted
name otherwise. -/
structure Modifier.ReadFrom (m : Modifier) (source : String) (root : Tree) : Prop where
  name : Verbatim source root m.span .userTypeName m.name ∨
    m.name = "returns" ∧ ∃ n, root.Contains n ∧ n.rule = .returnsClause ∧ n.span = m.span
  starts : ∃ text, m.span.slice? source = some text ∧ m.name.toList <+: text.toList

/-- Only what is declared with the word `function` has a name. There is one parameter for each node
of the parameter list, which stands between parentheses. -/
structure FunctionDecl.ReadFrom (f : FunctionDecl) (source : String) (root : Tree) : Prop where
  name : ∀ name ∈ f.name, Verbatim source root f.span .identifier name
  unnamed : f.kind ≠ .function → f.name = none
  params : ∃ t list, root.Contains t ∧ t.rule = .functionDefinition ∧ f = .ofTree t ∧
    t.childrenOf .parameterList = [list] ∧ list.span = f.paramsSpan ∧
    f.params.map (·.span) = (list.childrenOf .parameter).map (·.span)
  paramNames : ∀ p ∈ f.params, ∀ name ∈ p.name, Verbatim source root p.span .identifier name
  parentheses : ∃ cs, f.paramsSpan.slice? source = some (String.ofList ('(' :: (cs ++ [')'])))
  modifiers : ∀ m ∈ f.modifiers, m.ReadFrom source root

structure Contract.ReadFrom (c : Contract) (source : String) (root : Tree) : Prop where
  name : Verbatim source root c.span .identifier c.name
  bases : ∀ base ∈ c.bases, Verbatim source root c.span .userTypeName base
  functions : ∀ f, .function f ∈ c.body → f.ReadFrom source root
  stateVariables : ∀ v, .stateVariable v ∈ c.body → Verbatim source root v.span .identifier v.name
  enums : ∀ e, .enum e ∈ c.body → ∀ name ∈ e.name :: e.values,
    Verbatim source root e.span .identifier name

structure SourceUnit.ReadFrom (u : SourceUnit) (source : String) (root : Tree) : Prop where
  imports : ∀ i ∈ u.imports, ∃ quote, isQuote quote = true ∧
    Verbatim source root i.span .stringLiteral (String.ofList (quote :: (i.path.toList ++ [quote])))
  contracts : ∀ c ∈ u.contracts, c.ReadFrom source root
  types : ∀ type ∈ u.types, Trimmed type.literal.toList

section Parts

variable {t : Tree} {r : Rule}

theorem grammar_shows (hfiller : r ≠ .filler) (hstring : r ≠ .stringLiteral) : grammar.Shows r := by
  intro r' hsilent
  obtain rfl : r' = .filler := by
    cases r' <;> first | rfl | cases hsilent
  refine ⟨hfiller.symm, ?_⟩
  simp [grammar, production, Expr.any, parenGroup, bracketGroup, braceGroup, group, Expr.all,
    Expr.tally, hfiller.symm, hstring.symm, Tally.repeated, Tally.add, Tally.join, Tally.exactly]

theorem lookups_tally {p : Rule × Tally} (hp : p ∈ lookups r) :
    (production r).shape = .structured ∧ p.1 ≠ .filler ∧ p.1 ≠ .stringLiteral ∧
      (production r).body.tally p.1 = p.2 :=
  (by decide : ∀ r ∈ Rule.all, ∀ p ∈ lookups r, (production r).shape = .structured ∧
    p.1 ≠ .filler ∧ p.1 ≠ .stringLiteral ∧ (production r).body.tally p.1 = p.2) r r.mem_all p hp

/-- Every node that was read has its parts. -/
theorem NodeOf.hasParts {source : String} (h : NodeOf source t) : HasParts t := by
  intro p hp
  obtain ⟨hshape, hfiller, hstring, htally⟩ := lookups_tally hp
  rw [← htally]
  exact h.takes.admits_childrenOf (grammar_shows hfiller hstring) hshape

theorem child?_eq_head? (t : Tree) (r : Rule) : t.child? r = (t.childrenOf r).head? :=
  (List.head?_filter ..).symm

theorem HasParts.exists_child (h : HasParts t) (hr : (r, .exactly 1) ∈ lookups t.rule) :
    ∃ n, t.childrenOf r = [n] ∧ t.child? r = some n := by
  have hlength := Tally.admits_exactly.1 (h _ hr)
  obtain ⟨n, hn⟩ := List.length_eq_one_iff.1 hlength
  exact ⟨n, hn, by rw [child?_eq_head?, hn, List.head?_cons]⟩

theorem mem_of_child? {n : Tree} (h : t.child? r = some n) : n ∈ t.children ∧ n.rule = r :=
  ⟨List.mem_of_find?_eq_some h, by simpa using List.find?_some h⟩

theorem mem_childrenOf {n : Tree} : n ∈ t.childrenOf r ↔ n ∈ t.children ∧ n.rule = r := by
  simp [Node.childrenOf]

end Parts

section Spelling

theorem spells_of_takes {r : Rule} {cs : List Char} {ns : List Tree}
    (h : Takes grammar .spaced (.rule r) (.ofText cs) ⟨Text.byteLength cs, []⟩ ns) :
    Spells r (String.ofList cs) := by
  have hrun := Outcome.reading?_eq_matched.1 (runRule_eq_iff.2 h)
  exact ⟨_, ns, by rwa [String.toList_ofList], rfl⟩

theorem stringEnd?_cut {quote : Char} {n : Nat} {cs : List Char} {d : Cursor}
    (h : stringEnd? quote n cs = some d) :
    ∃ as, Cursor.Passes ⟨n, cs⟩ (as ++ [quote]) d ∧
      ∀ m, stringEnd? quote m (as ++ [quote]) =
        some ⟨m + Text.byteLength (as ++ [quote]), []⟩ := by
  have hone : ∀ (n : Nat) (x : Char) (xs : List Char),
      Cursor.Passes ⟨n, x :: xs⟩ [x] ⟨n + x.utf8Size, xs⟩ := fun _ _ _ => ⟨rfl, by simp⟩
  fun_induction stringEnd? quote n cs with
  | case1 | case3 => cases h
  | case2 n cs =>
    cases h
    exact ⟨[], hone n quote cs, fun m => by simp [stringEnd?]⟩
  | case4 n x xs hq ih =>
    obtain ⟨as, has, hcut⟩ := ih h
    refine ⟨'\\' :: x :: as, ((hone n '\\' (x :: xs)).trans (hone _ x xs)).trans has, fun m => ?_⟩
    rw [List.cons_append, List.cons_append, stringEnd?.eq_def]
    simp [hq, hcut, Nat.add_assoc]
  | case5 n x xs hq hb ih =>
    obtain ⟨as, has, hcut⟩ := ih h
    refine ⟨x :: as, (hone n x xs).trans has, fun m => ?_⟩
    rw [List.cons_append, stringEnd?_other hq hb, hcut, Text.byteLength_cons, Nat.add_assoc]

/-- A string stands between two quotes, and is a string also without the text behind it. -/
theorem string?_cut {c d : Cursor} (h : string? c = some d) :
    ∃ quote as, isQuote quote = true ∧ c.Passes (quote :: (as ++ [quote])) d ∧
      string? (.ofText (quote :: (as ++ [quote]))) =
        some ⟨Text.byteLength (quote :: (as ++ [quote])), []⟩ := by
  obtain ⟨n, cs⟩ := c
  cases cs with
  | nil => cases h
  | cons quote cs =>
    simp only [string?, Option.ite_none_right_eq_some] at h
    obtain ⟨hquote, hend⟩ := h
    obtain ⟨as, has, hcut⟩ := stringEnd?_cut hend
    have hopen : Cursor.Passes ⟨n, quote :: cs⟩ [quote] ⟨n + quote.utf8Size, cs⟩ := ⟨rfl, by simp⟩
    refine ⟨quote, as, hquote, hopen.trans has, ?_⟩
    simp [Cursor.ofText, string?, hquote, hcut]

variable {c d : Cursor} {ns : List Tree}

theorem string?_of_takes (h : Takes grammar .spaced (.rule .stringLiteral) c d ns) :
    string? c = some d ∧ ns = [⟨.stringLiteral, c, d, []⟩] := by
  have hy := h.unique (stringLiteral_yields c)
  cases hd : string? c with
  | none => simp [hd] at hy
  | some e =>
    rw [hd] at hy
    cases hy
    exact ⟨rfl, rfl⟩

/-- The text of a name or a string is read in the same way alone. -/
theorem spells_of_lexical {r : Rule} (hr : r ∈ lexicalRules)
    (h : Takes grammar .spaced (.rule r) c d ns) :
    ∃ cs, c.Passes cs d ∧ cs ≠ [] ∧ Spells r (String.ofList cs) := by
  have halone : ∀ cs : List Char, Cursor.Passes (.ofText cs) cs ⟨Text.byteLength cs, []⟩ :=
    fun cs => ⟨by simp [Cursor.ofText], by simp [Cursor.ofText]⟩
  simp only [lexicalRules, List.mem_cons, List.not_mem_nil, or_false] at hr
  rcases hr with rfl | rfl | rfl
  · obtain ⟨-, ⟨cs, hcs, hpass⟩, -⟩ := takes_identifier_iff.1 h
    have htakes := takes_identifier_iff.2 ⟨rfl, ⟨cs, hcs, halone cs⟩, rfl⟩
    refine ⟨cs, hpass, ?_, spells_of_takes htakes⟩
    rintro rfl
    cases hcs
  · obtain ⟨-, ps, hne, hps, hpass⟩ := dotted_of_takes h
    have hdotted : IsDotted (dotted ps) := ⟨ps, hne, hps, rfl⟩
    obtain ⟨x, xs, hx, -⟩ := hdotted.head
    refine ⟨_, hpass, by simp [hx], ?_⟩
    have htakes := takes_userTypeName hne hps (halone (dotted ps)) rfl rfl
    exact spells_of_takes ((takes_rule_iff (by decide)).2 ⟨[], htakes, rfl⟩)
  · obtain ⟨hstring, -⟩ := string?_of_takes h
    obtain ⟨quote, as, -, hpass, hcut⟩ := string?_cut hstring
    have htakes := stringLiteral_yields (.ofText (quote :: (as ++ [quote])))
    rw [hcut] at htakes
    exact ⟨_, hpass, by simp, spells_of_takes htakes⟩

end Spelling

section Nodes

variable {source : String} {root t n : Tree} {r : Rule}

theorem NodeOf.shape (h : NodeOf source t) : (grammar.production t.rule).shape ≠ .silent :=
  h.takes.shape_of_mem (List.mem_singleton_self t)

/-- What is inside of a node that was read was read as well, in its span. -/
theorem NodeOf.of_contains (h : NodeOf source t) (hn : t.Contains n) :
    NodeOf source n ∧ t.start.Before n.start ∧ n.stop.Before t.stop := by
  induction hn with
  | refl => exact ⟨h, .refl _, .refl _⟩
  | tail _ hmem ih =>
    obtain ⟨hnode, hstart, hstop⟩ := ih
    have hchained := (hnode.takes.children hnode.shape).chained grammar_bounded.skips
    obtain ⟨hfirst, -, hlast⟩ := hchained.of_mem hmem
    exact ⟨hnode.child hnode.shape hmem, hstart.trans hfirst, hlast.trans hstop⟩

theorem NodeOf.passes (h : NodeOf source t) : t.start.Passes t.text t.stop := by
  obtain ⟨cs, hcs⟩ := h.takes.passes grammar_bounded.skips
  rwa [Node.text, hcs.upTo]

theorem NodeOf.slice?_eq (h : NodeOf source t) : t.span.slice? source = some t.string := by
  have hfits : t.span.Fits source := fits_of_before h.origin ⟨_, h.passes⟩
  rw [hfits.slice?_eq_some, Node.string, Node.span, slice_of_passes h.origin h.passes]

theorem NodeOf.verbatim (h : NodeOf source root) (ht : root.Contains t) (hn : t.Contains n)
    (hr : n.rule = r) (hlexical : r ∈ lexicalRules) :
    Verbatim source root t.span r n.string := by
  have htNode := (h.of_contains ht).1
  obtain ⟨hnNode, ⟨before, hbefore⟩, ⟨after, hafter⟩⟩ := htNode.of_contains hn
  have hpass := hnNode.passes
  obtain ⟨cs, hcs, hne, hspells⟩ := spells_of_lexical hlexical (hr ▸ hnNode.takes)
  have htext : n.text = cs := hcs.upTo
  have hwhole : t.text = before ++ (n.text ++ after) :=
    (hbefore.trans (hpass.trans hafter)).upTo
  refine ⟨?_, ?_, ⟨n, ht.trans hn, hr, ?_, hnNode.slice?_eq⟩, t.string, htNode.slice?_eq, ?_⟩
  · rw [Node.string, htext]
    simpa using hne
  · rwa [Node.string, htext]
  · exact ⟨Cursor.Before.offset_le ⟨_, hbefore⟩, Cursor.Before.offset_le ⟨_, hafter⟩⟩
  · refine ⟨before, after, ?_⟩
    simp [Node.string, hwhole]

/-- A name that is looked up in a node stands in the span of a node around it. -/
theorem NodeOf.verbatim_child? (h : NodeOf source root) (ht : root.Contains t) {k : Tree}
    (hk : t.Contains k) (hn : k.child? r = some n)
    (hlexical : r ∈ lexicalRules) :
    Verbatim source root t.span r n.string := by
  obtain ⟨hmem, hr⟩ := mem_of_child? hn
  exact h.verbatim ht (hk.tail hmem) hr hlexical

theorem NodeOf.verbatim_dottedName (h : NodeOf source root) (ht : root.Contains t) {k : Tree}
    (hk : t.Contains k) (hlookup : (.userTypeName, .exactly 1) ∈ lookups k.rule) :
    Verbatim source root t.span .userTypeName (dottedName k) := by
  have hparts := (h.of_contains (ht.trans hk)).1.hasParts
  obtain ⟨n, -, hn⟩ := hparts.exists_child hlookup
  have hverbatim := h.verbatim_child? ht hk hn (by decide)
  simpa [dottedName, hn] using hverbatim

theorem Import.verbatim_ofTree (h : NodeOf source root) (ht : root.Contains t)
    (hrule : t.rule = .importDirective) :
    ∃ quote, isQuote quote = true ∧ Verbatim source root t.span .stringLiteral
      (String.ofList (quote :: ((Import.ofTree t).path.toList ++ [quote]))) := by
  have htNode := (h.of_contains ht).1
  obtain ⟨p, -, hp⟩ := htNode.hasParts.exists_child (r := .importPath) (by rw [hrule]; decide)
  obtain ⟨hmem, hpRule⟩ := mem_of_child? hp
  have hpNode := htNode.child htNode.shape hmem
  -- the path takes a string and nothing else
  have hbody := hpNode.takes.children hpNode.shape
  rw [hpRule] at hbody
  obtain ⟨hstring, hchildren⟩ := string?_of_takes hbody
  obtain ⟨quote, as, hquote, hpass, -⟩ := string?_cut hstring
  have htext : p.text = quote :: (as ++ [quote]) := hpass.upTo
  have hpath : (Import.ofTree t).path = String.ofList as := by
    simp [Import.ofTree, hp, Import.unquote, htext, (trimmed_quoted hquote as).trimChars]
  have hin : t.Contains ⟨.stringLiteral, p.start, p.stop, []⟩ :=
    .tail (.single hmem) (by simp [hchildren])
  have hverbatim := h.verbatim (r := .stringLiteral) ht hin rfl (by decide)
  refine ⟨quote, hquote, ?_⟩
  rw [hpath, String.toList_ofList, ← htext]
  exact hverbatim

theorem NodeOf.starts (h : NodeOf source t) {c : Cursor} {b : Expr Rule} {cs : List Char}
    {ns : List Tree} (hpass : t.start.Passes cs c)
    (hrest : Takes grammar .spaced b (skip c) t.stop ns) :
    ∃ text, t.span.slice? source = some text ∧ cs <+: text.toList := by
  obtain ⟨more, hmore⟩ :=
    Cursor.Before.trans (skip_passes c) (hrest.passes grammar_bounded.skips)
  have htext : t.text = cs ++ more := (hpass.trans hmore).upTo
  refine ⟨t.string, h.slice?_eq, more, ?_⟩
  rw [Node.string, String.toList_ofList, htext]

theorem Modifier.readFrom_ofTree? (h : NodeOf source root) (ht : root.Contains t) {m : Modifier}
    (hm : Modifier.ofTree? t = some m) : m.ReadFrom source root := by
  have htNode := (h.of_contains ht).1
  have hbody := htNode.takes.children htNode.shape
  unfold Modifier.ofTree? at hm
  split at hm
  · rename_i hrule
    cases hm
    rw [hrule] at hbody
    obtain ⟨e, _, _, hword, hlist, -⟩ := takes_seq_iff.1 hbody
    obtain ⟨-, hpass, -⟩ := keyword_of_takes hword
    exact ⟨.inr ⟨rfl, t, ht, hrule, rfl⟩, htNode.starts hpass hlist⟩
  · rename_i hrule
    cases hm
    refine ⟨.inl (h.verbatim_dottedName ht .refl (by rw [hrule]; decide)), ?_⟩
    rw [hrule] at hbody
    obtain ⟨e, _, _, hname, harguments, hchildren⟩ := takes_seq_iff.1 hbody
    obtain ⟨rfl, ps, -, -, hpass⟩ := dotted_of_takes hname
    have hdotted : dottedName t = String.ofList (dotted ps) := by
      simp [dottedName, Node.child?, hchildren, Node.string, Node.text, hpass.upTo]
    rw [hdotted, String.toList_ofList]
    exact htNode.starts hpass harguments
  · cases hm

theorem FunctionKind.ofHead_eq_function {c d : Cursor}
    (h : Takes grammar .spaced (.rule .functionHead) c d [t])
    (hname : t.child? .identifier ≠ none) : FunctionKind.ofHead t = .function := by
  obtain ⟨children, hbody, hnode⟩ := (takes_rule_iff (by decide)).1 h
  obtain rfl := List.singleton_inj.1 hnode
  have hword : ∀ k, Takes grammar .spaced (word k) c d children →
      Node.child? (⟨.functionHead, c, d, children⟩ : Tree) .identifier = none := by
    intro k hk
    obtain ⟨rfl, -⟩ := keyword_of_takes hk
    simp [Node.child?]
  cases hbody with
  | choiceLeft hfunction =>
    obtain ⟨e, _, _, hkeyword, hmaybe, rfl⟩ := takes_seq_iff.1 hfunction
    obtain ⟨rfl, -⟩ := keyword_of_takes hkeyword
    cases hmaybe with
    | maybe hident =>
      obtain ⟨-, -, rfl⟩ := takes_identifier_iff.1 hident
      simp [FunctionKind.ofHead, Node.child?]
    | maybeNot => simp [FunctionKind.ofHead, Node.child?]
  | choiceRight _ hrest =>
    -- every other head is one word, so there is no name in it
    cases hrest with
    | choiceLeft hk => exact absurd (hword _ hk) hname
    | choiceRight _ hrest =>
      cases hrest with
      | choiceLeft hk => exact absurd (hword _ hk) hname
      | choiceRight _ hk => exact absurd (hword _ hk) hname

theorem parameterList_text {c d : Cursor} {ns : List Tree}
    (h : Takes grammar .spaced (.rule .parameterList) c d ns) :
    ∃ cs, c.Passes ('(' :: (cs ++ [')'])) d := by
  obtain ⟨children, hlist, -⟩ := takes_parameterList_iff.1 h
  exact enclosed_text keepsWithin_listBody hlist

/-- Every node of a parameter list is read as a parameter, because it has a type. -/
theorem Parameter.map_span_listOfTree (h : NodeOf source t) :
    (Parameter.listOfTree t).map (·.span) = (t.childrenOf .parameter).map (·.span) := by
  refine map_span_filterMap (fun _ _ => Parameter.span_of_ofTree?) fun p hp => ?_
  obtain ⟨hmem, hrule⟩ := mem_childrenOf.1 hp
  have hparts := (h.child h.shape hmem).hasParts
  obtain ⟨n, -, hn⟩ := hparts.exists_child (r := .typeName) (by rw [hrule]; decide)
  simp [Parameter.ofTree?, hn]

theorem Parameter.verbatim_listOfTree (h : NodeOf source root) (ht : root.Contains t)
    {p : Parameter} (hp : p ∈ Parameter.listOfTree t) {name : String} (hname : name ∈ p.name) :
    Verbatim source root p.span .identifier name := by
  obtain ⟨k, hk, hread⟩ := List.mem_filterMap.1 hp
  obtain ⟨type, -, rfl⟩ := Option.map_eq_some_iff.1 hread
  obtain ⟨n, hn, rfl⟩ := Option.map_eq_some_iff.1 hname
  exact h.verbatim_child? (ht.tail (mem_childrenOf.1 hk).1) .refl hn (by decide)

theorem FunctionDecl.readFrom_ofTree (h : NodeOf source root) (ht : root.Contains t)
    (hrule : t.rule = .functionDefinition) : (FunctionDecl.ofTree t).ReadFrom source root := by
  have htNode := (h.of_contains ht).1
  obtain ⟨head, -, hhead⟩ :=
    htNode.hasParts.exists_child (r := .functionHead) (by rw [hrule]; decide)
  obtain ⟨list, honly, hlist⟩ :=
    htNode.hasParts.exists_child (r := .parameterList) (by rw [hrule]; decide)
  obtain ⟨hheadMem, hheadRule⟩ := mem_of_child? hhead
  obtain ⟨hlistMem, hlistRule⟩ := mem_of_child? hlist
  have hheadNode := htNode.child htNode.shape hheadMem
  have hlistNode := htNode.child htNode.shape hlistMem
  have hname : (FunctionDecl.ofTree t).name = (head.child? .identifier).map (·.string) := by
    simp [FunctionDecl.ofTree, hhead]
  have hkind : (FunctionDecl.ofTree t).kind = FunctionKind.ofHead head := by
    simp [FunctionDecl.ofTree, hhead]
  have hparams : (FunctionDecl.ofTree t).params = Parameter.listOfTree list := by
    simp [FunctionDecl.ofTree, hlist]
  have hspan : (FunctionDecl.ofTree t).paramsSpan = list.span := by
    simp [FunctionDecl.ofTree, hlist]
  refine ⟨fun name hmem => ?_, fun hne => ?_, ⟨t, list, ht, hrule, rfl, honly, hspan.symm, ?_⟩,
    fun p hp name hmem => ?_, ?_, fun m hm => ?_⟩
  · rw [hname] at hmem
    obtain ⟨n, hn, rfl⟩ := Option.map_eq_some_iff.1 hmem
    exact h.verbatim_child? ht (.single hheadMem) hn (by decide)
  · rw [hkind] at hne
    rw [hname, Option.map_eq_none_iff]
    by_contra hsome
    exact hne (FunctionKind.ofHead_eq_function (hheadRule ▸ hheadNode.takes) hsome)
  · rw [hparams]
    exact Parameter.map_span_listOfTree hlistNode
  · rw [hparams] at hp
    exact Parameter.verbatim_listOfTree h (ht.tail hlistMem) hp hmem
  · obtain ⟨cs, hcs⟩ := parameterList_text (hlistRule ▸ hlistNode.takes)
    refine ⟨cs, ?_⟩
    rw [hspan, hlistNode.slice?_eq, Node.string, Node.text, hcs.upTo]
  · obtain ⟨k, hk, hread⟩ := List.mem_filterMap.1 hm
    exact Modifier.readFrom_ofTree? h (ht.tail hk) hread

theorem VariableDecl.verbatim_ofTree (h : NodeOf source root) (ht : root.Contains t)
    (hrule : t.rule = .stateVariableDeclaration) :
    Verbatim source root t.span .identifier (VariableDecl.ofTree t).name := by
  have hparts := (h.of_contains ht).1.hasParts
  obtain ⟨n, -, hn⟩ := hparts.exists_child (r := .identifier) (by rw [hrule]; decide)
  have hverbatim := h.verbatim_child? ht .refl hn (by decide)
  simpa [VariableDecl.ofTree, hn] using hverbatim

/-- The names of an enum are its identifiers, of which it has at least one. -/
theorem EnumDecl.verbatim_ofTree (h : NodeOf source root) (ht : root.Contains t)
    (hrule : t.rule = .enumDefinition) {name : String}
    (hname : name ∈ (EnumDecl.ofTree t).name :: (EnumDecl.ofTree t).values) :
    Verbatim source root t.span .identifier name := by
  have hparts := (h.of_contains ht).1.hasParts
  have hlength := Tally.admits_atLeast.1
    (hparts (.identifier, .atLeast 1) (by rw [hrule]; decide))
  obtain ⟨first, rest, hnames⟩ := List.exists_cons_of_length_pos hlength
  have hall : (EnumDecl.ofTree t).name :: (EnumDecl.ofTree t).values =
      (t.childrenOf .identifier).map (·.string) := by
    simp [EnumDecl.ofTree, child?_eq_head?, hnames]
  rw [hall] at hname
  obtain ⟨n, hn, rfl⟩ := List.mem_map.1 hname
  obtain ⟨hmem, hr⟩ := mem_childrenOf.1 hn
  exact h.verbatim ht (.single hmem) hr (by decide)

theorem Contract.readFrom_ofTree (h : NodeOf source root) (ht : root.Contains t)
    (hrule : t.rule = .contractDefinition) : (Contract.ofTree t).ReadFrom source root := by
  have hparts := (h.of_contains ht).1.hasParts
  refine ⟨?_, fun base hbase => ?_, fun f hf => ?_, fun v hv => ?_, fun e he name hname => ?_⟩
  · obtain ⟨n, -, hn⟩ := hparts.exists_child (r := .identifier) (by rw [hrule]; decide)
    have hverbatim := h.verbatim_child? ht .refl hn (by decide)
    simpa [Contract.ofTree, hn] using hverbatim
  · cases hlist : t.child? .inheritanceList with
    | none => simp [Contract.ofTree, hlist] at hbase
    | some list =>
      simp only [Contract.ofTree, hlist, Option.map_some, Option.getD_some] at hbase
      obtain ⟨k, hk, rfl⟩ := List.mem_map.1 hbase
      obtain ⟨hmem, hkRule⟩ := mem_childrenOf.1 hk
      have hin : t.Contains k := .tail (.single (mem_of_child? hlist).1) hmem
      exact h.verbatim_dottedName ht hin (by rw [hkRule]; decide)
  · obtain ⟨k, hk, hread⟩ := List.mem_filterMap.1 hf
    obtain ⟨hkRule, rfl⟩ := Member.of_ofTree? hread
    exact FunctionDecl.readFrom_ofTree h (ht.tail hk) hkRule
  · obtain ⟨k, hk, hread⟩ := List.mem_filterMap.1 hv
    obtain ⟨hkRule, rfl⟩ := Member.of_ofTree? hread
    exact VariableDecl.verbatim_ofTree h (ht.tail hk) hkRule
  · obtain ⟨k, hk, hread⟩ := List.mem_filterMap.1 he
    obtain ⟨hkRule, rfl⟩ := Member.of_ofTree? hread
    exact EnumDecl.verbatim_ofTree h (ht.tail hk) hkRule hname

end Nodes

section Types

theorem trimRight_last {cs : List Char} (h : Text.trimRight cs ≠ []) :
    ∃ ys y, Text.trimRight cs = ys ++ [y] ∧ Text.isBlank y = false := by
  cases hlast : Text.trimLeft cs.reverse with
  | nil => simp [Text.trimRight, hlast] at h
  | cons y ys =>
    have hy := List.head?_dropWhile_not Text.isBlank cs.reverse
    rw [← Text.trimLeft, hlast] at hy
    exact ⟨ys.reverse, y, by simp [Text.trimRight, hlast], by simpa using hy⟩

theorem TypeNode.trimmed {source : String} {t : Tree} (h : TypeNode source t) :
    Trimmed (TypeName.ofTree t).literal.toList := by
  obtain ⟨e, bases, suffixes, hbase, hsuffixes, -⟩ := takes_typeName_iff.1 (h.rule ▸ h.takes)
  obtain ⟨cs, hcs, htrimmed, -⟩ := baseType_text hbase
  obtain ⟨more, hmore⟩ :=
    Cursor.Before.trans (skip_passes e) (hsuffixes.passes grammar_bounded.skips)
  have htext : t.text = cs ++ more := (hcs.trans hmore).upTo
  rw [TypeName.literal_ofTree, String.toList_ofList, htext, trimChars_append_of_trimmed htrimmed]
  by_cases hnil : Text.trimRight more = []
  · rwa [hnil, List.append_nil]
  · obtain ⟨x, xs, rfl, hx⟩ := htrimmed.head
    obtain ⟨ys, y, hy, hblank⟩ := trimRight_last hnil
    exact ⟨⟨x, xs ++ Text.trimRight more, rfl, hx⟩, x :: xs ++ ys, y, by simp [hy], hblank⟩

end Types

theorem exists_node_of_mem_imports {root : Tree} {i : Import}
    (h : i ∈ (SourceUnit.ofTree root).imports) :
    ∃ t ∈ root.children, t.rule = .importDirective ∧ i = Import.ofTree t := by
  obtain ⟨item, hitem, himport⟩ := List.mem_filterMap.1 h
  obtain ⟨t, ht, hread⟩ := List.mem_filterMap.1 hitem
  unfold SourceItem.ofTree? at hread
  split at hread <;> cases hread <;> cases himport
  exact ⟨t, ht, by assumption, rfl⟩

/-- In a source that can be read every node has the parts that are looked up in it, and every name
is taken from the source as it is. -/
theorem names_verbatim {source : String} {u : SourceUnit} (h : parse source = .ok u) :
    ∃ root, tree source = .ok root ∧ u = .ofTree root ∧ (∀ t, root.Contains t → HasParts t) ∧
      u.ReadFrom source root := by
  obtain ⟨root, htree, rfl⟩ := parse_eq_ok_iff.1 h
  obtain ⟨d, htakes⟩ := tree_eq_ok_iff.1 htree
  obtain ⟨children, -, hroot⟩ := (takes_rule_iff (by decide)).1 htakes
  have hrootNode : NodeOf source root := by
    obtain rfl := List.singleton_inj.1 hroot
    exact ⟨htakes, .refl _⟩
  refine ⟨root, htree, rfl, fun t ht => (hrootNode.of_contains ht).1.hasParts,
    fun i hi => ?_, fun c hc => ?_, fun type htype => ?_⟩
  · obtain ⟨t, ht, hrule, rfl⟩ := exists_node_of_mem_imports hi
    exact Import.verbatim_ofTree hrootNode (.single ht) hrule
  · obtain ⟨t, ht, hrule, rfl⟩ := exists_node_of_mem_contracts hc
    exact Contract.readFrom_ofTree hrootNode (.single ht) hrule
  · obtain ⟨c, hc, hbody⟩ := List.mem_flatMap.1 htype
    obtain ⟨m, hm, htypes⟩ := List.mem_flatMap.1 hbody
    obtain ⟨whole, hwhole, hpart⟩ := List.mem_flatMap.1 htypes
    obtain ⟨t, ht, hread⟩ := exists_nodeOf_member h hc hm
    obtain ⟨n, hn, rfl⟩ := ht.exists_typeNode hread hwhole
    obtain ⟨n', hn', rfl⟩ := hn.exists_of_mem_parts hpart
    exact hn'.trimmed

/-- Names and strings also where nothing is read off them: in a symbol list, in arguments, in an
initial value and inside of a mapping. -/
theorem names_verbatim_among_others :
    let source := "import \x7bx as y\x7d from 'a\\'\"é';" ++
      "contract C is A.B(\"n\"),D\x7benum E\x7bp,q,\x7d" ++
      "mapping(uint k=>B[])public m=\"s\";function f(uint,E e)only.O(1)/*é*/returns(B r)\x7b\x7d" ++
      "receive()external;\x7d"
    let c : Contract := ⟨.contract, "C", ["A.B", "D"], [
      .enum ⟨"E", ["p", "q"], ⟨55, 67⟩⟩,
      .stateVariable ⟨"m", .mapping (.named "uint") (.named "B[]") "mapping(uint k=>B[])", true,
        false, ⟨67, 100⟩⟩,
      .function ⟨.function, some "f", [⟨.named "uint", none, ⟨111, 115⟩⟩,
        ⟨.named "E", some "e", ⟨116, 119⟩⟩], ⟨110, 120⟩, [⟨"only.O", ⟨120, 129⟩⟩,
        ⟨"returns", ⟨135, 147⟩⟩], ⟨100, 149⟩⟩,
      .function ⟨.receive, none, [], ⟨156, 158⟩, [⟨"external", ⟨158, 166⟩⟩], ⟨149, 167⟩⟩],
      ⟨30, 168⟩⟩
    let u : SourceUnit := ⟨[.importing ⟨"a\\'\"é", ⟨0, 30⟩⟩, .contract c]⟩
    parse source = .ok u ∧ ∃ root, tree source = .ok root ∧ u = .ofTree root ∧
      (∀ t, root.Contains t → HasParts t) ∧ u.ReadFrom source root := by
  intro source c u
  have h := parse_eq_ok_of_parseWithin 16 source u (by decide +kernel)
  exact ⟨h, names_verbatim h⟩

end SolidityStubs
