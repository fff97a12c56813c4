import SolidityStubs.Generate

/-! # Unfolding the inheritance of a source

An `Outline` is the inheritance of a source written out as a tree: its own stubs, and below it the
outlines of the files that it takes stubs from. It knows nothing of the files in work. A draft that
succeeds shows the outline of its source.
-/
namespace SolidityStubs

/-- The stubs of a source and the outlines of what it inherits, in order. -/
inductive Outline
  | mk (inherited : List Outline) (getters functions : List String)

namespace Outline

mutual

def text : Outline → String
  | ⟨inherited, getters, functions⟩ =>
    let blocks := (texts inherited).filter (· ≠ "")
    "\n".intercalate
      ((if blocks = [] then [] else "  // inherited" :: blocks) ++ getters ++ functions)

def texts : List Outline → List String
  | [] => []
  | o :: os => o.text :: texts os

end

variable (lib : Library) (root : Path)

mutual

/-- The outline belongs to a source: the source has a contract, the stubs are those of its public
variables and shown functions, and each import that is a base leads to a file to which the outline
in its place belongs. -/
def Unfolds : Outline → String → Prop
  | ⟨inherited, getters, functions⟩, source =>
    ∃ s, Surface.ofSource source = .ok s ∧
      getters = s.contract.publicVariables.map (·.stub s.contract.enumNames) ∧
      functions = s.contract.functions.map (·.stub source plainModifiers s.contract.enumNames) ∧
      UnfoldAll inherited (s.imports.filter (·.isBase s.contract.bases))

def UnfoldAll : List Outline → List Import → Prop
  | [], [] => True
  | o :: os, i :: is => (∃ t, lib.read (i.target root) = .ok t ∧ o.Unfolds t) ∧ UnfoldAll os is
  | _, _ => False

end

end Outline

variable {lib : Library} {root : Path}

mutual

theorem Outline.Unfolds.unique : ∀ {o o' : Outline} {source : String},
    o.Unfolds lib root source → o'.Unfolds lib root source → o = o'
  | ⟨os, gs, fs⟩, ⟨os', gs', fs'⟩, source, h, h' => by
    unfold Outline.Unfolds at h h'
    obtain ⟨s, hs, rfl, rfl, hos⟩ := h
    obtain ⟨s', hs', rfl, rfl, hos'⟩ := h'
    cases hs.symm.trans hs'
    rw [Outline.UnfoldAll.unique hos hos']

theorem Outline.UnfoldAll.unique : ∀ {os os' : List Outline} {is : List Import},
    Outline.UnfoldAll lib root os is → Outline.UnfoldAll lib root os' is → os = os'
  | [], [], _, _, _ => rfl
  | [], _ :: _, [], _, h' => by simp [Outline.UnfoldAll] at h'
  | _ :: _, _, [], h, _ => by simp [Outline.UnfoldAll] at h
  | [], _ :: _, _ :: _, h, _ => by simp [Outline.UnfoldAll] at h
  | _ :: _, [], _ :: _, _, h' => by simp [Outline.UnfoldAll] at h'
  | o :: os, o' :: os', i :: is, h, h' => by
    unfold Outline.UnfoldAll at h h'
    obtain ⟨⟨t, ht, ho⟩, hos⟩ := h
    obtain ⟨⟨t', ht', ho'⟩, hos'⟩ := h'
    cases ht.symm.trans ht'
    rw [Outline.Unfolds.unique ho ho', Outline.UnfoldAll.unique hos hos']

end

section Inversion

variable {stack bases : List String} {source : String}

theorem draft_ok_iff {d : Draft} :
    (draft lib root stack source).result = .ok d ↔
      ∃ s blocks, Surface.ofSource source = .ok s ∧
        (inheritedBlocks lib root stack s.contract.bases s.imports).result = .ok blocks ∧
        d = s.draft source blocks := by
  rw [draft]
  cases hs : Surface.ofSource source with
  | error f => simp [Loading.fail]
  | ok s =>
    dsimp only
    rw [Loading.result_bind_eq_ok_iff]
    simp [eq_comm]

theorem inheritedBlocks_nil : (inheritedBlocks lib root stack bases []).result = .ok [] := by
  rw [inheritedBlocks]
  rfl

theorem inheritedBlocks_cons_of_not_isBase {i : Import} {is : List Import}
    (h : i.isBase bases = false) :
    inheritedBlocks lib root stack bases (i :: is) = inheritedBlocks lib root stack bases is := by
  rw [inheritedBlocks]
  simp [h]

theorem inheritedBlocks_cons_of_isBase {i : Import} {is : List Import} (h : i.isBase bases = true) :
    inheritedBlocks lib root stack bases (i :: is) =
      if i.target root ∈ stack then .fail (.cyclicImport (i.target root))
      else
        Loading.load (i.target root) >>= fun _ =>
          match lib.read (i.target root) with
          | .error cause => .fail (.importRead (i.target root) cause)
          | .ok text => do
            let base ← draft lib root (i.target root :: stack) text
            let blocks ← inheritedBlocks lib root stack bases is
            return if base.stubs.isEmpty then blocks else base.stubs :: blocks := by
  rw [inheritedBlocks, if_pos h]
  dsimp only
  by_cases hp : i.target root ∈ stack
  · rw [dif_pos hp, if_pos hp]
  · rw [dif_neg hp, if_neg hp]
    split <;> rename_i hr <;> rw [hr]

theorem inheritedBlocks_cons_ok_iff {i : Import} {is : List Import} (h : i.isBase bases = true)
    {blocks : List String} :
    (inheritedBlocks lib root stack bases (i :: is)).result = .ok blocks ↔
      i.target root ∉ stack ∧
      ∃ text, lib.read (i.target root) = .ok text ∧
      ∃ d, (draft lib root (i.target root :: stack) text).result = .ok d ∧
      ∃ rest, (inheritedBlocks lib root stack bases is).result = .ok rest ∧
        blocks = if d.stubs.isEmpty then rest else d.stubs :: rest := by
  rw [inheritedBlocks_cons_of_isBase h]
  by_cases hp : i.target root ∈ stack
  · simp [hp, Loading.fail]
  · rw [if_neg hp, Loading.load_bind]
    dsimp only
    cases hr : lib.read (i.target root) with
    | error cause => simp [Loading.fail]
    | ok text =>
      dsimp only
      rw [Loading.result_bind_eq_ok_iff]
      simp only [hp, not_false_eq_true, true_and, Except.ok.injEq, exists_eq_left']
      refine exists_congr fun d => and_congr_right fun _ => ?_
      rw [Loading.result_bind_eq_ok_iff]
      refine exists_congr fun rest => and_congr_right fun _ => ?_
      rw [Loading.result_pure, Except.ok.injEq, eq_comm]

end Inversion

namespace Outline

def block : Outline → StubBlock
  | ⟨inherited, getters, functions⟩ => ⟨(texts inherited).filter (· ≠ ""), getters, functions⟩

theorem render_block (o : Outline) : o.block.render = o.text := by
  obtain ⟨os, gs, fs⟩ := o
  simp only [block, StubBlock.render, StubBlock.lines, StubBlock.inheritedMarker, text,
    List.isEmpty_iff]

end Outline

/-- A successful draft shows the outline of its source, whatever files are in work. -/
theorem outline_of_draft (stack : List String) (source : String) {d : Draft}
    (h : (draft lib root stack source).result = .ok d) :
    ∃ o : Outline, o.Unfolds lib root source ∧ d.block = o.block := by
  refine draft.induct lib root
    (fun stack source => ∀ d, (draft lib root stack source).result = .ok d →
      ∃ o : Outline, o.Unfolds lib root source ∧ d.block = o.block)
    (fun stack bases is => ∀ blocks, (inheritedBlocks lib root stack bases is).result = .ok blocks →
      ∃ os, Outline.UnfoldAll lib root os (is.filter (·.isBase bases)) ∧
        blocks = (Outline.texts os).filter (· ≠ ""))
    ?_ ?_ ?_ ?_ ?_ ?_ ?_ stack source d h
  · intro stack source f hs d h
    obtain ⟨s, _, hs', -⟩ := draft_ok_iff.1 h
    cases hs.symm.trans hs'
  · intro stack source s hs ih d h
    obtain ⟨s', blocks, hs', hblocks, rfl⟩ := draft_ok_iff.1 h
    cases hs.symm.trans hs'
    obtain ⟨os, hos, rfl⟩ := ih blocks hblocks
    refine ⟨⟨os, _, _⟩, ?_, rfl⟩
    unfold Outline.Unfolds
    exact ⟨s, hs, rfl, rfl, hos⟩
  · intro stack bases blocks h
    rw [inheritedBlocks_nil] at h
    cases h
    exact ⟨[], by simp [Outline.UnfoldAll], by simp [Outline.texts]⟩
  · intro stack bases i is hi path hp blocks h
    exact absurd hp ((inheritedBlocks_cons_ok_iff hi).1 h).1
  · intro stack bases i is hi path hp cause hr blocks h
    obtain ⟨-, text, hr', -⟩ := (inheritedBlocks_cons_ok_iff hi).1 h
    cases hr.symm.trans hr'
  · intro stack bases i is hi path hp text hr _ ihd ihs blocks h
    obtain ⟨-, text', hr', d, hd, rest, hrest, rfl⟩ := (inheritedBlocks_cons_ok_iff hi).1 h
    cases hr.symm.trans hr'
    obtain ⟨o, ho, hblock⟩ := ihd d hd
    obtain ⟨os, hos, rfl⟩ := ihs rest hrest
    refine ⟨o :: os, ?_, ?_⟩
    · simp only [hi, List.filter_cons_of_pos, Outline.UnfoldAll]
      exact ⟨⟨text, hr, ho⟩, hos⟩
    · have htext : d.stubs = o.text := by rw [Draft.stubs, hblock, o.render_block]
      by_cases he : o.text = "" <;> simp [htext, he, Outline.texts]
  · intro stack bases i is hi ih blocks h
    have hi' : i.isBase bases = false := by simpa using hi
    rw [inheritedBlocks_cons_of_not_isBase hi'] at h
    simpa [hi'] using ih blocks h

end SolidityStubs
