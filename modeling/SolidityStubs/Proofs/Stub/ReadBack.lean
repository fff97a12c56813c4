import SolidityStubs.Proofs.Source.Recovered
import SolidityStubs.Proofs.Stub.Lines
import SolidityStubs.Proofs.Stub.Shape

/-! # Reading interfaces back

An interface whose stubs have shapes is read as one contract. It has a function for each stub, in
the order of the stubs, and the markers between them are padding.
-/
namespace SolidityStubs

open Source Peg

/-- A text that is read as a pragma where it starts a source and the rest follows it. -/
def PragmaShape (rest cs : List Char) : Prop :=
  ∃ children, Takes grammar .spaced (.rule .pragmaDirective) ⟨0, cs ++ rest⟩
    ⟨Text.byteLength cs, rest⟩
    [⟨.pragmaDirective, ⟨0, cs ++ rest⟩, ⟨Text.byteLength cs, rest⟩, children⟩]

def Line.stub? : Line → Option String
  | .marker => none
  | .stub text => some text

def Draws (s : StubShape) (stub : String) : Prop := stub.toList = ' ' :: ' ' :: s.text

section Lines

theorem skip_marker (n : Nat) (rest : List Char) :
    skip ⟨n, Line.marker.chars ++ rest⟩ = skip ⟨n + Text.byteLength Line.marker.chars, rest⟩ := by
  have hchars : Line.marker.chars ++ rest =
      ' ' :: ' ' :: '/' :: '/' :: (" inherited".toList ++ '\n' :: rest) := rfl
  have hline : ∀ m, lineEnd m (" inherited".toList ++ '\n' :: rest) = ⟨m + 10, '\n' :: rest⟩ :=
    fun _ => rfl
  rw [hchars, skip_space n rfl, skip_space _ rfl]
  have hcomment : trivium? ⟨n + ' '.utf8Size + ' '.utf8Size,
      '/' :: '/' :: (" inherited".toList ++ '\n' :: rest)⟩ = some ⟨n + 14, '\n' :: rest⟩ := by
    rw [trivium?, hline]
    rfl
  rw [skip_of_some hcomment, skip_space _ rfl]
  rfl

/-- A line with a stub is a part of a contract, with padding around it. -/
theorem takes_stubLine {s : StubShape} {stub : String} (h : Draws s stub) (n : Nat) (rest : List Char) :
    ∃ (t : Tree) (d : Cursor),
      Takes grammar .spaced contractPart (skip ⟨n, (Line.stub stub).chars ++ rest⟩) d [t] ∧
      skip d = skip ⟨n + Text.byteLength (Line.stub stub).chars, rest⟩ ∧
      t.rule = .functionDefinition ∧
      ∀ source, (origin source).Before ⟨n, (Line.stub stub).chars ++ rest⟩ →
        s.Describes (.ofTree t) source := by
  have hchars : (Line.stub stub).chars ++ rest = ' ' :: ' ' :: (s.text ++ '\n' :: rest) := by
    simp [Line.chars, show stub.toList = _ from h]
  have hsize : Text.byteLength (Line.stub stub).chars = Text.byteLength s.text + 3 := by
    have hspace : ' '.utf8Size = 1 := rfl
    have hline : '\n'.utf8Size = 1 := rfl
    simp [Line.chars, show stub.toList = _ from h, hspace, hline]
    omega
  obtain ⟨xs, hxs⟩ : ∃ xs, s.text = 'f' :: xs := ⟨_, rfl⟩
  have hskip : skip ⟨n, ' ' :: ' ' :: (s.text ++ '\n' :: rest)⟩ = ⟨n + 2, s.text ++ '\n' :: rest⟩ := by
    rw [skip_space n rfl, skip_space _ rfl, hxs]
    exact skip_solid _ (by decide) rfl
  obtain ⟨t, ht, hdescribes⟩ := s.reads (n + 2) ('\n' :: rest)
  obtain ⟨children, -, hnode⟩ := (takes_rule_iff (by decide)).1 ht
  refine ⟨t, ⟨n + 2 + Text.byteLength s.text, '\n' :: rest⟩, ?_, ?_, ?_,
    fun source hsource => hdescribes source ?_⟩
  · rw [hchars, hskip]
    exact takes_contractPart_of_takes_rule (by decide) (by decide) ht
  · rw [skip_space _ rfl, hsize]
    congr 2
    have hline : '\n'.utf8Size = 1 := rfl
    omega
  · rw [List.singleton_inj.1 hnode]
  · rw [hchars] at hsource
    exact hsource.trans ⟨[' ', ' '], rfl, rfl⟩

variable {P : StubShape → Prop}

def FromStubs (P : StubShape → Prop) (source : String) : List Member → List String → Prop :=
  List.Forall₂ fun m stub => ∃ s f, P s ∧ Draws s stub ∧ m = .function f ∧ s.Describes f source

theorem steps_lines {lines : List Line}
    (h : ∀ stub, .stub stub ∈ lines → ∃ s, P s ∧ Draws s stub) (n : Nat) (rest : List Char) :
    ∃ parts e, Steps grammar contractPart ⟨n, lines.flatMap Line.chars ++ '\x7d' :: rest⟩ parts e ∧
      skip e = ⟨n + Text.byteLength (lines.flatMap Line.chars), '\x7d' :: rest⟩ ∧
      (∀ t ∈ parts, t.rule = .functionDefinition) ∧
      ∀ source, (origin source).Before ⟨n, lines.flatMap Line.chars ++ '\x7d' :: rest⟩ →
        FromStubs P source (parts.filterMap Member.ofTree?) (lines.filterMap Line.stub?) := by
  induction lines generalizing n with
  | nil => exact ⟨[], _, .nil _, skip_solid _ (by decide) rfl, by simp, fun _ _ => .nil⟩
  | cons l lines ih =>
    have hlines : ∀ stub, .stub stub ∈ lines → ∃ s, P s ∧ Draws s stub := fun stub hmem =>
      h stub (List.mem_cons_of_mem _ hmem)
    obtain ⟨parts, e, hsteps, he, hrules, hparts⟩ := ih hlines (n + Text.byteLength l.chars)
    have hchars : (l :: lines).flatMap Line.chars ++ '\x7d' :: rest =
        l.chars ++ (lines.flatMap Line.chars ++ '\x7d' :: rest) := by simp
    have hsize : n + Text.byteLength ((l :: lines).flatMap Line.chars) =
        n + Text.byteLength l.chars + Text.byteLength (lines.flatMap Line.chars) := by
      simp [Nat.add_assoc]
    have hnext : ∀ source, (origin source).Before
        ⟨n, l.chars ++ (lines.flatMap Line.chars ++ '\x7d' :: rest)⟩ →
        (origin source).Before
          ⟨n + Text.byteLength l.chars, lines.flatMap Line.chars ++ '\x7d' :: rest⟩ :=
      fun source hsource => hsource.trans ⟨l.chars, rfl, rfl⟩
    rw [hchars, hsize]
    cases l with
    | marker =>
      let tail : List Char := lines.flatMap Line.chars ++ '\x7d' :: rest
      have hmarker : grammar.skip ⟨n, Line.marker.chars ++ tail⟩ =
        grammar.skip ⟨n + Text.byteLength Line.marker.chars, tail⟩ := skip_marker n tail
      obtain ⟨e', hsteps', hskip⟩ := hsteps.of_skip_eq hmarker
      exact ⟨parts, e', hsteps', Eq.trans hskip he, hrules, fun source hsource =>
        hparts source (hnext source hsource)⟩
    | stub stub =>
      obtain ⟨s, hP, hdraws⟩ := h stub (by simp)
      obtain ⟨t, d, ht, hd, hrule, hdescribes⟩ := takes_stubLine hdraws n
        (lines.flatMap Line.chars ++ '\x7d' :: rest)
      obtain ⟨e', hsteps', hskip⟩ := hsteps.of_skip_eq hd
      refine ⟨t :: parts, e', .cons ht hsteps', Eq.trans hskip he, ?_, fun source hsource => ?_⟩
      · intro t' ht'
        rcases List.mem_cons.1 ht' with rfl | ht'
        · exact hrule
        · exact hrules t' ht'
      · have hmember : Member.ofTree? t = some (.function (.ofTree t)) := by
          simp [Member.ofTree?, hrule]
        rw [List.filterMap_cons_some hmember]
        exact .cons ⟨s, _, hP, hdraws, rfl, hdescribes source hsource⟩
          (hparts source (hnext source hsource))

end Lines

section Frames

def contractChars : List Char := "contract".toList

theorem row_contractHeader {name : List Char} (hname : isIdentifier name = true) (n : Nat)
    (rest : List Char) :
    ∃ kind ident : Tree,
      Row contractHeader ⟨n, contractChars ++ ' ' :: (name ++ ' ' :: '\x7b' :: rest)⟩
        ⟨n + 10 + Text.byteLength name, '\x7b' :: rest⟩ [kind, ident] ∧
      kind.rule = .contractKind ∧ kind.string = "contract" ∧
      ident.rule = .identifier ∧ ident.string = String.ofList name := by
  let c : Cursor := ⟨n, contractChars ++ ' ' :: (name ++ ' ' :: '\x7b' :: rest)⟩
  let d : Cursor := ⟨n + 8, ' ' :: (name ++ ' ' :: '\x7b' :: rest)⟩
  let e : Cursor := ⟨n + 9, name ++ ' ' :: '\x7b' :: rest⟩
  let f : Cursor := ⟨n + 9 + Text.byteLength name, ' ' :: '\x7b' :: rest⟩
  let g : Cursor := ⟨n + 10 + Text.byteLength name, '\x7b' :: rest⟩
  have hcd : c.Passes contractChars d := ⟨rfl, rfl⟩
  have hef : e.Passes name f := ⟨rfl, rfl⟩
  have hskip : skip d = e := by
    obtain ⟨x, xs, rfl⟩ : ∃ x xs, name = x :: xs := by
      cases name with
      | nil => cases hname
      | cons x xs => exact ⟨x, xs, rfl⟩
    simp only [isIdentifier, Bool.and_eq_true] at hname
    obtain ⟨hslash, hspace⟩ := solid_of_isIdentifierStart hname.1
    rw [skip_space _ rfl]
    exact skip_solid _ hslash hspace
  have hskip' : skip f = g := by
    rw [skip_space _ rfl, skip_solid _ (by decide) rfl]
    simp only [g, Cursor.mk.injEq, and_true]
    have hsize : ' '.utf8Size = 1 := rfl
    omega
  have hkind : Takes grammar .spaced (.rule .contractKind) c d [⟨.contractKind, c, d, []⟩] := by
    have habstract :
        Fails grammar .tight (.all [.literal "abstract", spaces, .literal "contract"]) c :=
      .seqFirst (.textFail rfl)
    have hliteral : Takes grammar .tight (.literal "contract") c d [] :=
      takes_text_iff.2 ⟨hcd, rfl⟩
    exact (takes_rule_iff (by decide)).2 ⟨[], Takes.seq_nil
      (.choiceRight habstract (.choiceLeft hliteral)) (takes_wordEnd rfl), rfl⟩
  have hident : Takes grammar .spaced (.rule .identifier) e f [⟨.identifier, e, f, []⟩] :=
    (takes_rule_iff (by decide)).2 ⟨[], takes_identifier hname hef rfl, rfl⟩
  have hbases : Takes grammar .spaced (.maybe (.rule .inheritanceList)) g g [] :=
    .maybeNot (.ruleFail (.seqFirst (.ruleFail (.seqFirst (fails_text (by decide))))))
  have hlast : skip g = g := skip_solid _ (by decide) rfl
  have hrow : Row [.maybe (.rule .inheritanceList)] g g [] := by
    have h := Row.cons hbases (.nil _)
    rwa [hlast] at h
  refine ⟨⟨.contractKind, c, d, []⟩, ⟨.identifier, e, f, []⟩, ?_, rfl, ?_, rfl, ?_⟩
  · exact .cons hkind (hskip.symm ▸ .cons hident (hskip'.symm ▸ hrow))
  · simp only [Node.string, Node.text, hcd.upTo]
    rfl
  · simp only [Node.string, Node.text, hef.upTo]

def contractText (name : List Char) (lines : List Line) : List Char :=
  contractChars ++ ' ' :: (name ++ ' ' :: '\x7b' :: '\n' :: (lines.flatMap Line.chars ++ ['\x7d']))

variable {P : StubShape → Prop} {lines : List Line}

theorem takes_interfaceContract {name : List Char} (hname : isIdentifier name = true)
    (h : ∀ stub, .stub stub ∈ lines → ∃ s, P s ∧ Draws s stub) (n : Nat) :
    let text := contractText name lines
    ∃ (t : Tree) (d : Cursor), Takes grammar .spaced (.rule .contractDefinition) ⟨n, text⟩ d [t] ∧
      d.rest = [] ∧ t.rule = .contractDefinition ∧
      ∀ source, (origin source).Before ⟨n, text⟩ →
        (Contract.ofTree t).kind = .contract ∧ (Contract.ofTree t).name = String.ofList name ∧
        (Contract.ofTree t).bases = [] ∧
        FromStubs P source (Contract.ofTree t).body (lines.filterMap Line.stub?) := by
  intro text
  let inner : List Char := lines.flatMap Line.chars ++ ['\x7d']
  let k : Nat := n + 10 + Text.byteLength name
  obtain ⟨kind, ident, hrow, hkind, hkind', hident, hident'⟩ :=
    row_contractHeader hname n ('\n' :: inner)
  obtain ⟨parts, e, hsteps, he, hrules, hparts⟩ := steps_lines h (k + 2) []
  have hopen : Cursor.Passes ⟨k, '\x7b' :: '\n' :: inner⟩ ['\x7b'] ⟨k + 1, '\n' :: inner⟩ := ⟨rfl, rfl⟩
  have hline : skip ⟨k + 1, '\n' :: inner⟩ = skip ⟨k + 2, inner⟩ := skip_space (k + 1) rfl
  have hline' : grammar.skip ⟨k + 1, '\n' :: inner⟩ = grammar.skip ⟨k + 2, inner⟩ := hline
  obtain ⟨e', hsteps', hskip⟩ := hsteps.of_skip_eq hline'
  have hend : skip e' = ⟨k + 2 + Text.byteLength (lines.flatMap Line.chars), ['\x7d']⟩ :=
    Eq.trans hskip he
  have hat : At ["\x7d"] (skip e') := by
    rw [hend]
    exact ⟨rfl, by decide⟩
  have hclose : (skip e').Passes ['\x7d']
      ⟨k + 2 + Text.byteLength (lines.flatMap Line.chars) + 1, []⟩ := by
    rw [hend]
    exact ⟨rfl, rfl⟩
  refine ⟨_, _, takes_contractDefinition_iff.2 ⟨_, _, e', [kind, ident], parts, hrow, hopen, hsteps',
    refuses_contractPart _ hat, hclose, rfl⟩, rfl, rfl, fun source hsource => ?_⟩
  have hnone : ∀ r ≠ Rule.functionDefinition, parts.find? (·.rule = r) = none := by
    intro r hr
    refine List.find?_eq_none.2 fun t ht => ?_
    simp [hrules t ht, Ne.symm hr]
  have hmembers : ∀ t : Tree, t.rule = .contractKind ∨ t.rule = .identifier →
      Member.ofTree? t = none := by
    rintro t (ht | ht) <;> simp [Member.ofTree?, ht]
  refine ⟨?_, ?_, ?_, ?_⟩
  · simp [Contract.ofTree, Node.child?, hkind, hkind', ContractKind.ofText]
  · simp [Contract.ofTree, Node.child?, hkind, hident, hident']
  · simp [Contract.ofTree, Node.child?, hkind, hident, hnone .inheritanceList (by decide)]
  · have hbody : (Contract.ofTree ⟨.contractDefinition, ⟨n, text⟩,
        ⟨k + 2 + Text.byteLength (lines.flatMap Line.chars) + 1, []⟩, [kind, ident] ++ parts⟩).body =
        parts.filterMap Member.ofTree? := by
      change ([kind, ident] ++ parts).filterMap Member.ofTree? = _
      rw [List.filterMap_append, List.filterMap_cons_none (hmembers kind (.inl hkind)),
        List.filterMap_cons_none (hmembers ident (.inr hident))]
      rfl
    rw [hbody]
    refine hparts source (hsource.trans ?_)
    refine ⟨contractChars ++ ' ' :: (name ++ [' ', '\x7b', '\n']), ?_, ?_⟩
    · simp [text, contractText]
    · have hword : Text.byteLength contractChars = 8 := rfl
      have hmarks : Text.byteLength [' ', '\x7b', '\n'] = 3 := rfl
      have hspace : ' '.utf8Size = 1 := rfl
      simp only [k, Text.byteLength_append, Text.byteLength_cons, hword, hmarks, hspace]
      omega

def pragmaChars (pragma : String) : List Char :=
  if pragma.isEmpty then [] else pragma.toList ++ ['\n', '\n']

theorem steps_pragma {pragma : String} {rest : List Char}
    (h : pragma = "" ∨ PragmaShape ('\n' :: '\n' :: rest) pragma.toList) :
    ∃ items e, ∃ spans : List Span, Steps grammar sourceItem ⟨0, pragmaChars pragma ++ rest⟩ items e ∧
      skip e = skip ⟨Text.byteLength (pragmaChars pragma), rest⟩ ∧
      items.filterMap SourceItem.ofTree? = spans.map .pragma ∧
      ∀ source, (origin source).Before ⟨0, pragmaChars pragma ++ rest⟩ →
        (spans.head?.map (·.slice source)).getD "" = pragma := by
  by_cases hempty : pragma = ""
  · subst hempty
    exact ⟨[], _, [], .nil _, rfl, rfl, fun _ _ => rfl⟩
  · have hchars : pragmaChars pragma = pragma.toList ++ ['\n', '\n'] := by
      simp [pragmaChars, hempty]
    let c : Cursor := ⟨0, pragma.toList ++ (['\n', '\n'] ++ rest)⟩
    let e : Cursor := ⟨Text.byteLength pragma.toList, ['\n', '\n'] ++ rest⟩
    rw [hchars, List.append_assoc]
    obtain ⟨children, ht⟩ := h.resolve_left hempty
    have hskip : skip c = c := by
      obtain ⟨f, -, -, -, hword, -⟩ := takes_pragmaDirective_iff.1 ht
      have hstart : c = ⟨0, 'p' :: ("ragma".toList ++ f.rest)⟩ := congrArg (Cursor.mk 0) hword.1
      rw [hstart]
      exact skip_solid 0 (by decide) rfl
    have hitem : Takes grammar .spaced sourceItem (skip c) e [⟨.pragmaDirective, c, e, children⟩] := by
      rw [hskip]
      exact takes_sourceItem_of_takes_rule (by decide) ht
    refine ⟨_, e, [⟨0, e.offset⟩], .single hitem, ?_, rfl, fun source hsource => ?_⟩
    · change skip ⟨_, '\n' :: '\n' :: rest⟩ = _
      rw [skip_space _ rfl, skip_space _ rfl, Text.byteLength_append]
      rfl
    · have hpass : c.Passes pragma.toList e := ⟨rfl, (Nat.zero_add _).symm⟩
      have hslice := slice_of_passes hsource hpass
      rw [String.ofList_toList] at hslice
      exact hslice

/-- An interface is read as one contract that has the functions of its stubs. -/
theorem interface_readBack {d : Draft} {o : Outline} (hblock : d.block = o.block)
    (hname : isIdentifier d.name.toList = true)
    (hpragma : d.pragma = "" ∨
      PragmaShape ('\n' :: '\n' :: contractText ('I' :: d.name.toList) o.lines) d.pragma.toList)
    (h : ∀ stub, .stub stub ∈ o.lines → ∃ s, P s ∧ Draws s stub) :
    ∃ u c, Source.parse d.interface = .ok u ∧ u.contracts = [c] ∧
      Surface.locate? u d.interface = some ⟨d.pragma, c, []⟩ ∧ c.kind = .contract ∧
      c.name = "I" ++ d.name ∧ c.bases = [] ∧
      FromStubs P d.interface c.body (o.lines.filterMap Line.stub?) := by
  have hisStub : ∀ stub, .stub stub ∈ o.lines → IsStub stub := by
    intro stub hmem
    obtain ⟨s, -, hs⟩ := h stub hmem
    exact ⟨s.head ++ modifierChars s.modifiers, by rw [hs, StubShape.text, List.append_assoc]⟩
  let text : List Char := contractText ('I' :: d.name.toList) o.lines
  have htext : d.interface.toList = pragmaChars d.pragma ++ text := interface_toList hblock hisStub
  have hname' : isIdentifier ('I' :: d.name.toList) = true := by
    simp only [isIdentifier, Bool.and_eq_true]
    exact ⟨rfl, all_of_isIdentifier hname⟩
  let k : Nat := Text.byteLength (pragmaChars d.pragma)
  have hpass : Cursor.Passes ⟨0, pragmaChars d.pragma ++ text⟩ (pragmaChars d.pragma) ⟨k, text⟩ :=
    ⟨rfl, (Nat.zero_add _).symm⟩
  have horigin : origin d.interface = ⟨0, pragmaChars d.pragma ++ text⟩ := congrArg (Cursor.mk 0) htext
  have hstart : (origin d.interface).Before ⟨0, pragmaChars d.pragma ++ text⟩ := horigin ▸ .refl _
  obtain ⟨items, e, spans, hsteps, he, hitems, hspans⟩ := steps_pragma hpragma
  obtain ⟨t, f, ht, hf, hrule, hcontract⟩ := takes_interfaceContract hname' h k
  obtain ⟨hkind, hcname, hbases, hbody⟩ := hcontract d.interface (hstart.trans ⟨_, hpass⟩)
  have hskip : skip e = ⟨k, text⟩ := he.trans (skip_solid k (by decide) rfl)
  have hitem : Takes grammar .spaced sourceItem (skip e) f [t] := by
    rw [hskip]
    exact takes_sourceItem_of_takes_rule (by decide) ht
  have hall : Steps grammar sourceItem (origin d.interface) (items ++ [t]) f := by
    rw [horigin]
    exact hsteps.append (.single hitem)
  have hf' : skip f = f := by
    obtain ⟨m, cs⟩ := f
    simp only at hf
    subst hf
    rfl
  have hat : At [] (skip f) := hf'.symm ▸ ⟨hf, by simp⟩
  have hroot := tree_eq_ok_iff_steps.2 ⟨_, f, hall, refuses_sourceItem _ hat, hat.rest, rfl⟩
  let c : Contract := .ofTree t
  let last : Tree := ⟨.endOfInput, skip f, skip f, []⟩
  have hunit : ((items ++ [t]) ++ [last]).filterMap SourceItem.ofTree? =
      spans.map .pragma ++ [.contract c] := by
    have hone : SourceItem.ofTree? t = some (.contract c) := by simp [SourceItem.ofTree?, hrule, c]
    have hlast : SourceItem.ofTree? last = none := rfl
    rw [List.filterMap_append, List.filterMap_append, hitems, List.filterMap_cons_some hone,
      List.filterMap_cons_none hlast]
    simp
  have hcontracts : SourceUnit.contracts ⟨spans.map .pragma ++ [.contract c]⟩ = [c] := by
    simp [SourceUnit.contracts, SourceItem.contract?, List.filterMap_map]
  refine ⟨⟨spans.map .pragma ++ [.contract c]⟩, c, parse_eq_ok_iff.2 ⟨_, hroot, ?_⟩, hcontracts, ?_,
    hkind, ?_, hbases, hbody⟩
  · rw [SourceUnit.ofTree, hunit]
  · have hpragma' : (spans.map SourceItem.pragma ++ [SourceItem.contract c]).findSome?
        SourceItem.pragma? = spans.head? := by
      cases spans <;> rfl
    have himports : SourceUnit.imports ⟨spans.map .pragma ++ [.contract c]⟩ = [] := by
      simp [SourceUnit.imports, SourceItem.import?, List.filterMap_map]
    simp [Surface.locate?, hcontracts, himports, hpragma', hspans _ hstart, c, hkind]
  · rw [hcname]
    apply String.toList_inj.1
    simp

end Frames

end SolidityStubs
