import SolidityStubs.Proofs.Import.Blame
import SolidityStubs.Proofs.Import.Stack
import SolidityStubs.Proofs.Stub.Lines

/-! # Stubs alone and stubs in a contract

A run can give its stubs alone or in a contract. The two tell the same: the contract is written
around exactly the stubs that the other mode gives. It depends on the lines of a block whether they
are written at all, and in the blocks that runs build no line is empty, so there are lines exactly if
there is text.
-/
namespace SolidityStubs

def wrapStubs (pragma name stubs : String) : String :=
  (if pragma = "" then "" else pragma ++ "\n\n") ++ "contract I" ++ name ++ " \x7b\n" ++
    (if stubs = "" then "" else stubs ++ "\n") ++ "\x7d"

/-- Lines that are not empty come to an empty text only if there are none. -/
theorem intercalate_lines_eq_empty_iff {lines : List String} (h : ∀ line ∈ lines, line ≠ "") :
    "\n".intercalate lines = "" ↔ lines = [] := by
  constructor
  · intro hempty
    cases lines with
    | nil => rfl
    | cons line rest =>
      have hchars := toList_intercalate_lines (List.cons_ne_nil line rest)
      rw [hempty] at hchars
      have hlen := congrArg List.length hchars
      have hpos : 0 < line.toList.length := by
        rw [List.length_pos_iff]
        intro hnil
        exact h line (by simp) (String.toList_inj.1 hnil)
      simp only [String.toList_empty, List.nil_append, List.length_singleton, List.flatMap_cons,
        List.length_append] at hlen
      omega
  · rintro rfl
    rfl

namespace StubBlock

def Filled (b : StubBlock) : Prop := ∀ line ∈ b.lines, line ≠ ""

theorem isEmpty_iff_lines (b : StubBlock) : b.isEmpty = true ↔ b.lines = [] := by
  obtain ⟨inherited, getters, functions⟩ := b
  cases inherited <;> simp [isEmpty, lines]

theorem Filled.isEmpty_iff {b : StubBlock} (h : b.Filled) : b.isEmpty = true ↔ b.render = "" := by
  rw [isEmpty_iff_lines, render, intercalate_lines_eq_empty_iff h]

/-- A block with an empty line is no empty block, but its text is empty. -/
example : isEmpty ⟨[], [""], []⟩ = false ∧ render ⟨[], [""], []⟩ = "" := by decide

end StubBlock

theorem IsStub.ne_empty {text : String} (h : IsStub text) : text ≠ "" := by
  rintro rfl
  obtain ⟨inner, hinner⟩ := h
  simp at hinner

/-- Stubs of members are never empty, so a block is filled if what it inherits is. -/
theorem Contract.filled_stubBlock (c : Contract) (source : String) {inherited : List String}
    (h : ∀ block ∈ inherited, block ≠ "") : (c.stubBlock source inherited).Filled := by
  intro line hline
  simp only [StubBlock.lines, Contract.stubBlock, List.mem_append, List.mem_map] at hline
  rcases hline with (hline | ⟨v, -, rfl⟩) | ⟨f, -, rfl⟩
  · cases inherited with
    | nil => simp at hline
    | cons block blocks =>
      rcases List.mem_cons.1 hline with rfl | hmem
      · decide
      · exact h line hmem
  · exact (v.isStub _).ne_empty
  · exact (f.isStub _ _ _).ne_empty

section Drafting

variable {lib : Library} {root : Path} {stack : List String} {source : String} {d : Draft}

/-- Every block that a run builds, at whatever depth, is filled. -/
theorem filled_of_draft (h : (draft lib root stack source).result = .ok d) : d.block.Filled := by
  obtain ⟨s, blocks, -, hblocks, rfl⟩ := draft_ok_iff.1 h
  obtain ⟨all, -, rfl⟩ := inheritedBlocks_alone hblocks
  apply Contract.filled_stubBlock
  intro block hmem
  simpa using (List.mem_filter.1 hmem).2

theorem interface_eq_wrapStubs (h : d.block.Filled) :
    d.interface = wrapStubs d.pragma d.name d.stubs := by
  have hpragma : d.pragma.isEmpty = true ↔ d.pragma = "" := String.isEmpty_iff
  have hblock : d.block.isEmpty = true ↔ d.stubs = "" := h.isEmpty_iff
  rw [Draft.interface, wrapStubs, if_congr hpragma rfl rfl, if_congr hblock rfl rfl]

end Drafting

/-- The two modes ask for the same files and fail alike. If they succeed, the full text is the pragma
and a contract around the text of the stubs. A block that is built on the way is empty exactly if its
text is. -/
theorem generate_modes_agree (lib : Library) (root : Path) (source : String) :
    (generate lib ⟨root, true⟩ source).loads = (generate lib ⟨root, false⟩ source).loads ∧
    ((∃ f, (generate lib ⟨root, true⟩ source).result = .error f ∧
        (generate lib ⟨root, false⟩ source).result = .error f) ∨
      ∃ u s stubs, Source.parse source = .ok u ∧ Surface.locate? u source = some s ∧
        (generate lib ⟨root, true⟩ source).result = .ok stubs ∧
        (generate lib ⟨root, false⟩ source).result =
          .ok (wrapStubs s.pragma s.contract.name stubs)) ∧
    ∀ stack text d, (draft lib root stack text).result = .ok d →
      (d.block.isEmpty = true ↔ d.block.render = "") := by
  obtain ⟨hloads, herror⟩ := generate_eq_of_draft lib ⟨root, true⟩ source
  obtain ⟨hloads', herror'⟩ := generate_eq_of_draft lib ⟨root, false⟩ source
  refine ⟨hloads.trans hloads'.symm, ?_, fun stack text d hd => (filled_of_draft hd).isEmpty_iff⟩
  cases hd : (draft lib root [] source).result with
  | error f => exact .inl ⟨f, (herror f).2 hd, (herror' f).2 hd⟩
  | ok d =>
    have hwrap := interface_eq_wrapStubs (filled_of_draft hd)
    obtain ⟨s, blocks, hs, -, rfl⟩ := draft_ok_iff.1 hd
    obtain ⟨u, hparse, hlocate⟩ := Surface.ofSource_eq_ok_iff.1 hs
    exact .inr ⟨u, s, _, hparse, hlocate, generate_ok_iff.2 ⟨_, hd, rfl⟩,
      generate_ok_iff.2 ⟨_, hd, hwrap.symm⟩⟩

end SolidityStubs
