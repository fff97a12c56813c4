import SolidityStubs.Proofs.Stub.Retained

/-! # Interfaces of interfaces

An interface can be made for an interface. Where the retained texts are bare, that is without slashes
and quotes, the functions that are read back have the stubs that they were read from, so the stubs do
not change.
-/
namespace SolidityStubs

open Source Peg

/-- The text has neither slashes nor quotes. -/
def IsBareText (text : String) : Prop := text.toList.all isBare = true

instance (text : String) : Decidable (IsBareText text) := inferInstanceAs (Decidable (_ = true))

theorem IsBareText.closed {text : String} (h : IsBareText text) : IsClosedText text := closed_of_isBare h

theorem IsBareText.not_opensComment {pragma : String} (h : IsBareText pragma) :
    ¬ OpensComment pragma := by
  rintro ⟨rest, hrest⟩
  obtain ⟨ws, hws⟩ := skip_passes ⟨0, pragma.toList.drop "pragma".length⟩
  have hmem : '/' ∈ pragma.toList := by
    refine List.mem_of_mem_drop (i := "pragma".length) ?_
    rw [show pragma.toList.drop "pragma".length = _ from hws.1, ← hrest]
    simp
  have hslash := List.all_eq_true.1 h '/' hmem
  cases hslash

/-- The stub is written again if it is read: without parameters it has the plain head, and all its
modifiers mean something outside. -/
structure StubShape.Stable (s : StubShape) : Prop where
  head : s.noParams = true → s.head = functionChars ++ ' ' :: (s.name.toList ++ ['(', ')'])
  plain : ∀ m ∈ s.modifiers, m.1 ∈ plainModifiers
  isPublic : ∀ m ∈ s.modifiers, m.1 ≠ "private" ∧ m.1 ≠ "internal"

section Rewriting

variable {s : StubShape} {f : FunctionDecl} {source stub : String}

theorem Draws.unique {stub' : String} (h : Draws s stub) (h' : Draws s stub') : stub = stub' :=
  String.toList_inj.1 (h.trans h'.symm)

theorem StubShape.Describes.mem_names {m : Modifier} (h : s.Describes f source)
    (hm : m ∈ f.modifiers) : ∃ m' ∈ s.modifiers, m'.1 = m.name := by
  have hmem : (m.name, Text.trim (m.span.slice source)) ∈
      s.modifiers.map fun m => (m.1, String.ofList m.2) := by
    rw [← h.modifiers]
    exact List.mem_map.2 ⟨m, hm, rfl⟩
  obtain ⟨m', hm', heq⟩ := List.mem_map.1 hmem
  exact ⟨m', hm', (Prod.mk.inj heq).1⟩

/-- The function that is read from a stable stub has this stub. -/
theorem StubShape.Stable.stub_eq (h : s.Stable) (hf : s.Describes f source) (hstub : Draws s stub) :
    f.stub source plainModifiers [] = stub := by
  have hhead : s.head = (f.head source []).toList := by
    rw [FunctionDecl.head, hf.params]
    cases hempty : s.noParams with
    | true =>
      rw [if_pos rfl, hf.name, Option.getD_some, toList_plainHead]
      exact h.head hempty
    | false =>
      rw [if_neg (by simp), hf.head, substituteEnums, Text.replaceWords_nil, String.toList_ofList]
  have hall : f.modifiers.filter (plainModifiers.contains ·.name) = f.modifiers := by
    refine List.filter_eq_self.2 fun m hm => ?_
    obtain ⟨m', hm', hname⟩ := hf.mem_names hm
    rw [← hname]
    exact List.contains_iff_mem.2 (h.plain m' hm')
  have hkept : s.modifiers.map (fun m => String.ofList m.2) =
      f.keptModifiers source plainModifiers [] := by
    have hsnd := congrArg (List.map Prod.snd) hf.modifiers
    rw [List.map_map, List.map_map] at hsnd
    rw [FunctionDecl.keptModifiers, hall]
    simp only [substituteEnums, Text.replaceWords_nil]
    exact hsnd.symm
  exact Draws.unique (draws_of_pieces hhead hkept) hstub

theorem StubShape.Stable.isPublic_eq (h : s.Stable) (hf : s.Describes f source) :
    f.isPublic = true := by
  rw [FunctionDecl.isPublic, Bool.not_eq_true', List.any_eq_false]
  intro m hm
  obtain ⟨m', hm', hname⟩ := hf.mem_names hm
  obtain ⟨hprivate, hinternal⟩ := h.isPublic m' hm'
  rw [hname] at hprivate hinternal
  simp [hprivate, hinternal]

/-- A contract that was read from stable stubs shows these stubs and nothing else. -/
theorem shows_fromStubs {c : Contract} {body : List Member} {stubs : List String}
    (h : FromStubs (fun s => s.Stable ∧ s.name ≠ c.name) source body stubs) :
    ((body.filterMap Member.function?).filter c.shows).map (·.stub source plainModifiers []) = stubs ∧
      body.filterMap Member.stateVariable? = [] ∧ body.filterMap Member.enum? = [] := by
  induction h with
  | nil => exact ⟨rfl, rfl, rfl⟩
  | cons hm _ ih =>
    obtain ⟨s, f, ⟨hstable, hname⟩, hdraws, rfl, hf⟩ := hm
    obtain ⟨hstubs, hvariables, henums⟩ := ih
    have hshows : c.shows f = true := by
      simp [Contract.shows, hf.kind, hf.name, hname, hstable.isPublic_eq hf]
    refine ⟨?_, hvariables, henums⟩
    have hfunction : Member.function? (.function f) = some f := rfl
    rw [List.filterMap_cons_some hfunction, List.filter_cons_of_pos hshows, List.map_cons, hstubs,
      hstable.stub_eq hf hdraws]

end Rewriting

section Stability

variable {source : String} {s : Surface}

def IsStableBut (name : String) (shape : StubShape) : Prop := shape.Stable ∧ shape.name ≠ name

theorem exists_stable_of_mem_functions (hs : Surface.ofSource source = .ok s)
    (hclosed : ∀ text ∈ s.contract.retained source, IsClosedText text) {f : FunctionDecl}
    (hf : f ∈ s.contract.functions) {name : String} (hname : f.name ≠ some name) :
    ∃ shape, IsStableBut name shape ∧ Draws shape (f.stub source plainModifiers []) := by
  obtain ⟨shape, hshape, hparams, hhead, hmodifiers⟩ := exists_shape_of_mem_functions hs hclosed hf
  have hpublic : f.isPublic = true := by
    have hshows := (Contract.mem_functions hf).2
    simp only [Contract.shows, Bool.and_eq_true] at hshows
    exact hshows.2
  have hpiece : ∀ m ∈ shape.modifiers, ∃ m' ∈ f.plain, m'.name = m.1 := by
    intro m hm
    rw [hmodifiers] at hm
    obtain ⟨m', hm', rfl⟩ := List.mem_map.1 hm
    exact ⟨m', hm', rfl⟩
  refine ⟨shape, ⟨⟨fun hempty => ?_, fun m hm => ?_, fun m hm => ?_⟩, ?_⟩, ?_⟩
  · rw [hhead, FunctionDecl.head, if_pos (hparams ▸ hempty), hshape, Option.getD_some,
      toList_plainHead]
  · obtain ⟨m', hm', hname'⟩ := hpiece m hm
    rw [← hname']
    exact (FunctionDecl.mem_plain.1 hm').2
  · obtain ⟨m', hm', hname'⟩ := hpiece m hm
    rw [FunctionDecl.isPublic, Bool.not_eq_true', List.any_eq_false] at hpublic
    have hnot := hpublic m' (FunctionDecl.mem_plain.1 hm').1
    rw [← hname']
    simpa using hnot
  · rintro rfl
    exact hname hshape
  · refine draws_of_pieces hhead ?_
    rw [hmodifiers, FunctionDecl.pieces, List.map_map, FunctionDecl.keptModifiers]
    simp only [substituteEnums, Text.replaceWords_nil]
    refine List.map_congr_left fun m _ => ?_
    rw [Function.comp, String.ofList_toList]

theorem exists_stable_of_mem_variables (hs : Surface.ofSource source = .ok s)
    (hclosed : ∀ text ∈ s.contract.retained source, IsClosedText text) {v : VariableDecl}
    (hv : v ∈ s.contract.publicVariables) {name : String} (hname : v.name ≠ name) :
    ∃ shape, IsStableBut name shape ∧ Draws shape (v.stub []) := by
  obtain ⟨hisName, hgroup⟩ := pieces_of_mem_variables hs hclosed hv
  have hliteral : substituteEnums [] v.typeName.getterLiteral = v.typeName.getterLiteral :=
    Text.replaceWords_nil _ _
  rw [← hliteral] at hgroup
  refine ⟨getterShape v.name _ hisName hgroup, ⟨⟨fun _ => rfl, ?_, ?_⟩, hname⟩,
    draws_getterShape v [] hisName hgroup⟩
  · intro m hm
    simp only [getterShape, List.mem_cons, List.not_mem_nil, or_false] at hm
    rcases hm with rfl | rfl | rfl <;> simp [plainModifiers]
  · intro m hm
    simp only [getterShape, List.mem_cons, List.not_mem_nil, or_false] at hm
    rcases hm with rfl | rfl | rfl <;> simp

end Stability

section Drafts

variable (lib : Library) (root : Path) (stack : List String)

theorem inheritedBlocks_of_no_base {bases : List String} {is : List Import}
    (h : ∀ i ∈ is, i.isBase bases = false) :
    (inheritedBlocks lib root stack bases is).result = .ok [] := by
  induction is with
  | nil => exact inheritedBlocks_nil
  | cons i is ih =>
    rw [inheritedBlocks_cons_of_not_isBase (h i (by simp))]
    exact ih fun i' hi' => h i' (List.mem_cons_of_mem i hi')

theorem draft_of_no_base {source : String} {s : Surface} (hs : Surface.ofSource source = .ok s)
    (h : ∀ i ∈ s.imports, i.isBase s.contract.bases = false) :
    (draft lib root stack source).result = .ok (s.draft source []) :=
  draft_ok_iff.2 ⟨s, [], hs, inheritedBlocks_of_no_base lib root stack h, rfl⟩

end Drafts

def Surface.ownStubs (s : Surface) (source : String) : List String :=
  s.contract.publicVariables.map (·.stub []) ++
    s.contract.functions.map (·.stub source plainModifiers [])

theorem interface_eq {d : Draft} {stubs : List String} (h : d.block.lines = stubs)
    (hinherited : d.block.inherited = []) :
    d.interface = (if d.pragma.isEmpty then "" else d.pragma ++ "\n\n") ++ "contract I" ++ d.name ++
      " \x7b\n" ++ (if stubs.isEmpty then "" else "\n".intercalate stubs ++ "\n") ++ "\x7d" := by
  have hempty : d.block.isEmpty = stubs.isEmpty := by
    rw [← h, StubBlock.isEmpty, StubBlock.lines, hinherited]
    cases d.block.getters <;> cases d.block.functions <;> rfl
  rw [Draft.interface, hempty, Draft.stubs, StubBlock.render, h]

/-- The draft that the interface of a source is read back as. -/
theorem draft_interface (lib : Library) (root : Path) {source : String} {s : Surface}
    (hs : Surface.ofSource source = .ok s) (henums : s.contract.enums = [])
    (hfunctions : ∀ f ∈ s.contract.functions, f.name ≠ some ("I" ++ s.contract.name))
    (hvariables : ∀ v ∈ s.contract.publicVariables, v.name ≠ "I" ++ s.contract.name)
    (hbare : ∀ text ∈ s.retained source, IsBareText text) :
    (draft lib root [] (s.draft source []).interface).result =
      .ok ⟨s.pragma, "I" ++ s.contract.name, ⟨[], [], s.ownStubs source⟩⟩ := by
  have hnames : s.contract.enumNames = [] := by rw [Contract.enumNames, henums, List.map_nil]
  let getters := s.contract.publicVariables.map (·.stub [])
  let functions := s.contract.functions.map (·.stub source plainModifiers [])
  have hblock : (s.draft source []).block = (Outline.mk [] getters functions).block := by
    simp [Surface.draft, Contract.stubBlock, Outline.block, Outline.texts, hnames, getters, functions]
  have hlines : (Outline.mk [] getters functions).lines = (s.ownStubs source).map .stub := by
    simp [Outline.lines, Outline.linesAll, Surface.ownStubs, getters, functions]
  have hclosed : ∀ text ∈ s.contract.retained source, IsClosedText text := fun text htext =>
    (hbare text (List.mem_cons_of_mem s.pragma htext)).closed
  have hopen : ¬ OpensComment s.pragma :=
    (hbare s.pragma (by simp [Surface.retained])).not_opensComment
  have hstubs : ∀ stub, .stub stub ∈ (Outline.mk [] getters functions).lines →
      ∃ shape, IsStableBut ("I" ++ s.contract.name) shape ∧ Draws shape stub := by
    intro stub hmem
    rw [hlines] at hmem
    simp only [Surface.ownStubs, List.mem_map, List.mem_append, Line.stub.injEq,
      exists_eq_right] at hmem
    rcases hmem with ⟨v, hv, rfl⟩ | ⟨f, hf, rfl⟩
    · exact exists_stable_of_mem_variables hs hclosed hv (hvariables v hv)
    · exact exists_stable_of_mem_functions hs hclosed hf (hfunctions f hf)
  obtain ⟨u, c, hparse, -, hlocate, -, hname, hbases, hbody⟩ :=
    interface_readBack hblock (isIdentifier_contract_name hs)
      (pragmaShape_of_ofSource hs fun h => absurd h hopen) hstubs
  have hs' : Surface.ofSource (s.draft source []).interface = .ok ⟨s.pragma, c, []⟩ :=
    Surface.ofSource_eq_ok_iff.2 ⟨u, hparse, hlocate⟩
  have hcname : c.name = "I" ++ s.contract.name := hname
  have hfilter : (Outline.mk [] getters functions).lines.filterMap Line.stub? = s.ownStubs source := by
    rw [hlines, List.filterMap_map]
    exact List.filterMap_some
  rw [hfilter] at hbody
  have hbody' : FromStubs (fun s => s.Stable ∧ s.name ≠ c.name) (s.draft source []).interface c.body
      (s.ownStubs source) := by
    rw [hcname]
    exact hbody
  obtain ⟨hfuns, hvars, henums'⟩ := shows_fromStubs hbody'
  rw [draft_of_no_base lib root [] hs' (by simp)]
  have hnames' : c.enumNames = [] := by rw [Contract.enumNames, Contract.enums, henums', List.map_nil]
  have hvars' : c.publicVariables = [] := by rw [Contract.publicVariables, hvars, List.filter_nil]
  have hfuns' : c.functions.map (·.stub (s.draft source []).interface plainModifiers []) =
      s.ownStubs source := hfuns
  generalize (s.draft source []).interface = target at hfuns'
  rw [Surface.draft, Contract.stubBlock, hnames', hvars', hcname, hfuns', List.map_nil]

/-- The interface of an interface has the same stubs, and nothing else changes but the name. -/
theorem generate_interface_again {lib : Library} {root : Path} {source t : String} {s : Surface}
    (hs : Surface.ofSource source = .ok s) (henums : s.contract.enums = [])
    (himports : ∀ i ∈ s.imports, i.isBase s.contract.bases = false)
    (hfunctions : ∀ f ∈ s.contract.functions, f.name ≠ some ("I" ++ s.contract.name))
    (hvariables : ∀ v ∈ s.contract.publicVariables, v.name ≠ "I" ++ s.contract.name)
    (hbare : ∀ text ∈ s.retained source, IsBareText text)
    (ht : (generate lib ⟨root, false⟩ source).result = .ok t) :
    (∃ stubs, (generate lib ⟨root, true⟩ source).result = .ok stubs ∧
      (generate lib ⟨root, true⟩ t).result = .ok stubs) ∧
    ∃ pragma body, pragma = (if s.pragma.isEmpty then "" else s.pragma ++ "\n\n") ∧
      t = pragma ++ "contract I" ++ s.contract.name ++ " \x7b\n" ++ body ++ "\x7d" ∧
      (generate lib ⟨root, false⟩ t).result =
        .ok (pragma ++ "contract II" ++ s.contract.name ++ " \x7b\n" ++ body ++ "\x7d") := by
  obtain ⟨d, hd, ht'⟩ := generate_ok_iff.1 ht
  have hfirst := draft_of_no_base lib root [] hs himports
  cases hd.symm.trans hfirst
  obtain rfl : t = (s.draft source []).interface := by simpa using ht'
  have hagain := draft_interface lib root hs henums hfunctions hvariables hbare
  let d : Draft := ⟨s.pragma, "I" ++ s.contract.name, ⟨[], [], s.ownStubs source⟩⟩
  have hnames : s.contract.enumNames = [] := by rw [Contract.enumNames, henums, List.map_nil]
  have hlines : (s.draft source []).block.lines = s.ownStubs source := by
    rw [Surface.draft, Contract.stubBlock, hnames]
    rfl
  have hlines' : d.block.lines = s.ownStubs source := rfl
  constructor
  · refine ⟨"\n".intercalate (s.ownStubs source), generate_ok_iff.2 ⟨_, hfirst, ?_⟩,
      generate_ok_iff.2 ⟨d, hagain, ?_⟩⟩
    · rw [if_pos rfl, Draft.stubs, StubBlock.render, hlines]
    · rw [if_pos rfl, Draft.stubs, StubBlock.render, hlines']
  · refine ⟨_, _, rfl, interface_eq hlines rfl, generate_ok_iff.2 ⟨d, hagain, ?_⟩⟩
    have hname : "contract I" ++ "I" = "contract II" := by decide
    change _ = d.interface
    rw [interface_eq hlines' rfl, ← hname]
    simp only [d, String.append_assoc]

/-- A contract with a getter and a function with a modifier of its own. -/
theorem generate_interface_again_getter :
    ∃ stubs, (generate (.ofFiles []) ⟨.ofString ".", true⟩ ("pragma v1;" ++
        "contract A\x7buint[]public n;function f( uint a )only(a)returns (uint)\x7b\x7d\x7d")).result =
          .ok stubs ∧
      (generate (.ofFiles []) ⟨.ofString ".", true⟩
        ("pragma v1;\n\ncontract IA \x7b\n  function n() public constant returns(uint[]);\n" ++
          "  function f( uint a ) returns (uint);\n\x7d")).result = .ok stubs := by
  let source :=
    "pragma v1;contract A\x7buint[]public n;function f( uint a )only(a)returns (uint)\x7b\x7d\x7d"
  let c : Contract := ⟨.contract, "A", [], [
    .stateVariable ⟨"n", .named "uint[]", true, false, ⟨21, 36⟩⟩,
    .function ⟨.function, some "f", [⟨.named "uint", some "a", ⟨48, 54⟩⟩], ⟨46, 56⟩,
      [⟨"only", ⟨56, 63⟩⟩, ⟨"returns", ⟨63, 77⟩⟩], ⟨36, 79⟩⟩], ⟨10, 80⟩⟩
  have hparse := parse_eq_ok_of_parseWithin 12 source ⟨[.pragma ⟨0, 10⟩, .contract c]⟩
    (by decide +kernel)
  have hlocate : Surface.locate? ⟨[.pragma ⟨0, 10⟩, .contract c]⟩ source =
      some ⟨"pragma v1;", c, []⟩ := by decide +kernel
  have hs := Surface.ofSource_eq_ok_iff.2 ⟨_, hparse, hlocate⟩
  have hbare : ∀ text ∈ Surface.retained ⟨"pragma v1;", c, []⟩ source, IsBareText text := by
    decide +kernel
  have hdraft := draft_of_no_base (.ofFiles []) (.ofString ".") [] hs (by simp)
  have hfull : (generate (.ofFiles []) ⟨.ofString ".", false⟩ source).result = .ok _ :=
    generate_ok_iff.2 ⟨_, hdraft, rfl⟩
  have htext : (Surface.draft ⟨"pragma v1;", c, []⟩ source []).interface =
      "pragma v1;\n\ncontract IA \x7b\n  function n() public constant returns(uint[]);\n" ++
        "  function f( uint a ) returns (uint);\n\x7d" := by decide +kernel
  have h := (generate_interface_again hs rfl (by simp) (by decide +kernel) (by decide +kernel) hbare
    hfull).1
  rw [if_neg (by simp), htext] at h
  exact h

end SolidityStubs
