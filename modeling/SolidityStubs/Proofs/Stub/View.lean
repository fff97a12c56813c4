import SolidityStubs.Proofs.Import.Resolution

/-! # What an interface depends on

The view of a declaration is what an interface can tell of it: texts and stubs, but no places. The
face of a source is what its views come to. Sources with the same face have the same interface.
-/
namespace SolidityStubs

/-- What an interface can tell of a member. A stub waits for the names of the enums. -/
inductive MemberView
  | function (kind : FunctionKind) (name : Option String) (isPublic : Bool)
      (stub : List String → String)
  | stateVariable (isPublic : Bool) (stub : List String → String)
  | enum (name : String)
  | other

structure ContractView where
  kind : ContractKind
  name : String
  bases : List String
  members : List MemberView

inductive ItemView
  | pragma (text : String)
  | importing (path : String)
  | contract (view : ContractView)
  | other

def Member.view (source : String) : Member → MemberView
  | .function f => .function f.kind f.name f.isPublic (f.stub source plainModifiers)
  | .stateVariable v => .stateVariable v.isPublic v.stub
  | .enum e => .enum e.name
  | .other _ => .other

def Contract.view (source : String) (c : Contract) : ContractView :=
  ⟨c.kind, c.name, c.bases, c.body.map (·.view source)⟩

def SourceItem.view (source : String) : SourceItem → ItemView
  | .pragma span => .pragma (span.slice source)
  | .importing decl => .importing decl.path
  | .contract decl => .contract (decl.view source)
  | .other _ => .other

def memberView? (source : String) (t : Tree) : Option MemberView :=
  (Member.ofTree? t).map (·.view source)

def itemView? (source : String) (t : Tree) : Option ItemView :=
  (SourceItem.ofTree? t).map (·.view source)

/-- What an interface is written from. -/
structure Face where
  pragma : String
  name : String
  bases : List String
  imports : List String
  getters : List String
  functions : List String

namespace ContractView

def enumNames (v : ContractView) : List String :=
  v.members.filterMap fun
    | .enum name => some name
    | _ => none

def getters (v : ContractView) : List String :=
  v.members.filterMap fun
    | .stateVariable true stub => some (stub v.enumNames)
    | _ => none

def functionStub? (v : ContractView) : MemberView → Option String
  | .function kind name isPublic stub =>
    if kind == .function && name.isSome && name != some v.name && isPublic then
      some (stub v.enumNames)
    else none
  | _ => none

def functions (v : ContractView) : List String :=
  v.members.filterMap v.functionStub?

end ContractView

namespace ItemView

def contract? : ItemView → Option ContractView
  | .contract view => some view
  | _ => none

def import? : ItemView → Option String
  | .importing path => some path
  | _ => none

def pragma? : ItemView → Option String
  | .pragma text => some text
  | _ => none

def face? (items : List ItemView) : Option Face :=
  ((items.filterMap contract?).find? (·.kind == .contract)).map fun v =>
    { pragma := (items.findSome? pragma?).getD ""
      name := v.name
      bases := v.bases
      imports := items.filterMap import?
      getters := v.getters
      functions := v.functions }

end ItemView

namespace Contract

variable (source : String) (c : Contract)

theorem enumNames_view : (c.view source).enumNames = c.enumNames := by
  unfold ContractView.enumNames Contract.enumNames Contract.enums
  simp only [Contract.view, List.filterMap_map, List.map_filterMap]
  congr 1
  funext m
  cases m <;> rfl

theorem getters_view :
    (c.view source).getters = c.publicVariables.map (·.stub c.enumNames) := by
  unfold ContractView.getters Contract.publicVariables
  rw [enumNames_view]
  simp only [Contract.view, List.filterMap_map, List.filter_filterMap, List.map_filterMap]
  congr 1
  funext m
  cases m with
  | stateVariable v =>
    cases hv : v.isPublic <;> simp [Member.view, Member.stateVariable?, Option.filter, hv]
  | function | enum | other => rfl

theorem functions_view :
    (c.view source).functions = c.functions.map (·.stub source plainModifiers c.enumNames) := by
  have hstub : ∀ m : Member, (c.view source).functionStub? (m.view source) =
      (m.function?.filter c.shows).map (·.stub source plainModifiers c.enumNames) := by
    intro m
    cases m with
    | function f =>
      rw [Member.view, ContractView.functionStub?, enumNames_view]
      change (if c.shows f then _ else _) = (Option.filter c.shows (some f)).map _
      cases hshows : c.shows f <;> simp [Option.filter, hshows]
    | stateVariable | enum | other => rfl
  unfold ContractView.functions Contract.functions
  rw [List.filter_filterMap, List.map_filterMap]
  change (c.body.map (·.view source)).filterMap _ = _
  rw [List.filterMap_map]
  congr 1
  funext m
  exact hstub m

end Contract

def Surface.face (source : String) (s : Surface) : Face where
  pragma := s.pragma
  name := s.contract.name
  bases := s.contract.bases
  imports := s.imports.map (·.path)
  getters := s.contract.publicVariables.map (·.stub s.contract.enumNames)
  functions := s.contract.functions.map (·.stub source plainModifiers s.contract.enumNames)

/-- The face of a source can be told from the views of its items. -/
theorem face_locate? (u : SourceUnit) (source : String) :
    (Surface.locate? u source).map (·.face source) =
      ItemView.face? (u.items.map (·.view source)) := by
  have hcontracts : (u.items.map (·.view source)).filterMap ItemView.contract? =
      u.contracts.map (·.view source) := by
    simp only [SourceUnit.contracts, List.filterMap_map, List.map_filterMap]
    congr 1
    funext i
    cases i <;> rfl
  have himports : (u.items.map (·.view source)).filterMap ItemView.import? =
      u.imports.map (·.path) := by
    simp only [SourceUnit.imports, List.filterMap_map, List.map_filterMap]
    congr 1
    funext i
    cases i <;> rfl
  have hpragma : (u.items.map (·.view source)).findSome? ItemView.pragma? =
      (u.items.findSome? (·.pragma?)).map (·.slice source) := by
    rw [List.findSome?_map, List.map_findSome?]
    congr 1
    funext i
    cases i <;> rfl
  have hfind : (u.contracts.map (·.view source)).find? (·.kind == .contract) =
      (u.contracts.find? (·.kind == .contract)).map (·.view source) := by
    rw [List.find?_map]
    rfl
  unfold Surface.locate? ItemView.face?
  rw [hcontracts, himports, hpragma, hfind, Option.map_map, Option.map_map]
  refine Option.map_congr fun c _ => ?_
  simp only [Function.comp, Surface.face, Contract.getters_view, Contract.functions_view]
  rfl

section Drafting

variable {lib : Library} {root : Path} {stack : List String}

/-- Only the paths of imports count. -/
theorem inheritedBlocks_congr {bases : List String} {is is' : List Import}
    (h : is.map (·.path) = is'.map (·.path)) :
    inheritedBlocks lib root stack bases is = inheritedBlocks lib root stack bases is' := by
  induction is generalizing is' with
  | nil =>
    cases is' with
    | nil => rfl
    | cons i' is' => simp at h
  | cons i is ih =>
    cases is' with
    | nil => simp at h
    | cons i' is' =>
      simp only [List.map_cons, List.cons.injEq] at h
      have hbase : i.isBase bases = i'.isBase bases := by simp [Import.isBase, Import.stem?, h.1]
      have htarget : i.target root = i'.target root := by simp [Import.target, h.1]
      cases hi : i'.isBase bases with
      | true =>
        rw [inheritedBlocks_cons_of_isBase (hbase.trans hi), inheritedBlocks_cons_of_isBase hi,
          htarget, ih h.2]
      | false =>
        rw [inheritedBlocks_cons_of_not_isBase (hbase.trans hi),
          inheritedBlocks_cons_of_not_isBase hi, ih h.2]

/-- Sources with the same face have the same draft and ask for the same files. -/
theorem draft_congr {source target : String} {s s' : Surface}
    (hs : Surface.ofSource source = .ok s) (hs' : Surface.ofSource target = .ok s')
    (h : s.face source = s'.face target) :
    draft lib root stack source = draft lib root stack target := by
  simp only [Surface.face, Face.mk.injEq] at h
  obtain ⟨hpragma, hname, hbases, himports, hgetters, hfunctions⟩ := h
  rw [draft, draft, hs, hs']
  dsimp only
  rw [inheritedBlocks_congr himports, hbases]
  congr 1
  funext blocks
  simp only [Surface.draft, Contract.stubBlock, hpragma, hname, hgetters, hfunctions]

theorem generate_congr {source target : String} {u u' : SourceUnit}
    (hu : Source.parse source = .ok u) (hu' : Source.parse target = .ok u')
    (h : ItemView.face? (u.items.map (·.view source)) =
      ItemView.face? (u'.items.map (·.view target))) (options : Options) :
    generate lib options source = generate lib options target := by
  have hdraft : draft lib options.importRoot [] source = draft lib options.importRoot [] target := by
    rw [← face_locate?, ← face_locate?] at h
    cases hs : Surface.locate? u source with
    | none =>
      have hs' : Surface.locate? u' target = none := by
        rw [hs, Option.map_none, eq_comm, Option.map_eq_none_iff] at h
        exact h
      have hfail : ∀ text v, Source.parse text = .ok v → Surface.locate? v text = none →
          Surface.ofSource text = .error .missingContract := by
        intro text v hv hnone
        unfold Surface.ofSource
        simp [hv, hnone]
      rw [draft, draft, hfail source u hu hs, hfail target u' hu' hs']
    | some s =>
      rw [hs, Option.map_some, eq_comm, Option.map_eq_some_iff] at h
      obtain ⟨s', hs', hface⟩ := h
      exact draft_congr (Surface.ofSource_eq_ok_iff.2 ⟨u, hu, hs⟩)
        (Surface.ofSource_eq_ok_iff.2 ⟨u', hu', hs'⟩) hface.symm
  rw [generate, generate, generateAmid, generateAmid, hdraft]

end Drafting

end SolidityStubs
