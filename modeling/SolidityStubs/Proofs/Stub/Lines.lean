import SolidityStubs.Proofs.Import.Resolution

/-! # The lines of an interface

Between its braces an interface is a row of lines. Each is a stub or the marker above inherited
stubs.
-/
namespace SolidityStubs

inductive Line
  | marker
  | stub (text : String)

def Line.chars : Line → List Char
  | .marker => StubBlock.inheritedMarker.toList ++ ['\n']
  | .stub text => text.toList ++ ['\n']

namespace Outline

mutual

def lines : Outline → List Line
  | ⟨inherited, getters, functions⟩ =>
    (if (linesAll inherited).isEmpty then [] else .marker :: linesAll inherited) ++
      (getters ++ functions).map .stub

def linesAll : List Outline → List Line
  | [] => []
  | o :: os => o.lines ++ linesAll os

end

end Outline

def IsStub (text : String) : Prop :=
  ∃ inner, text.toList = ' ' :: ' ' :: (inner ++ [';'])

theorem FunctionDecl.isStub (f : FunctionDecl) (source : String) (keep enums : List String) :
    IsStub (f.stub source keep enums) :=
  ⟨(" ".intercalate (f.head source enums :: f.keptModifiers source keep enums)).toList,
    by simp [FunctionDecl.stub]⟩

theorem VariableDecl.isStub (v : VariableDecl) (enums : List String) : IsStub (v.stub enums) :=
  ⟨("function " ++ v.name ++ "() public constant returns(" ++
    substituteEnums enums v.typeName.getterLiteral ++ ")").toList, by simp [VariableDecl.stub]⟩

theorem toList_intercalate_lines {ss : List String} (h : ss ≠ []) :
    ("\n".intercalate ss).toList ++ ['\n'] = ss.flatMap fun s => s.toList ++ ['\n'] := by
  induction ss with
  | nil => exact absurd rfl h
  | cons s ss ih =>
    by_cases hss : ss = []
    · simp [hss]
    · rw [String.intercalate_cons_of_ne_nil hss, List.flatMap_cons, ← ih hss]
      simp

theorem two_le_length_chars {lines : List Line} (h : ∀ text, .stub text ∈ lines → IsStub text)
    {l : Line} (hl : l ∈ lines) : 2 ≤ l.chars.length := by
  cases l with
  | marker => decide
  | stub text =>
    obtain ⟨inner, htext⟩ := h text hl
    simp [Line.chars, htext]

theorem flatMap_chars_eq_nil_iff {lines : List Line} : lines.flatMap Line.chars = [] ↔ lines = [] := by
  cases lines with
  | nil => simp
  | cons l ls => cases l <;> simp [Line.chars]

namespace Outline

mutual

/-- The pieces that an outline writes are its lines. -/
theorem flatMap_lines : ∀ (o : Outline), (∀ text, .stub text ∈ o.lines → IsStub text) →
    o.block.lines.flatMap (fun s => s.toList ++ ['\n']) = o.lines.flatMap Line.chars
  | ⟨os, gs, fs⟩, h => by
    have hos : ∀ text, .stub text ∈ linesAll os → IsStub text := by
      intro text hmem
      refine h text ?_
      have hne : (linesAll os).isEmpty = false := by
        cases hl : linesAll os with
        | nil => simp [hl] at hmem
        | cons => rfl
      simp [lines, hne, hmem]
    have hblocks := flatMap_linesAll os hos
    have hstubs : (gs ++ fs).flatMap (fun s => s.toList ++ ['\n']) =
        ((gs ++ fs).map Line.stub).flatMap Line.chars := by
      rw [List.flatMap_map]
      rfl
    have hempty : ((texts os).filter (· ≠ "")).isEmpty = (linesAll os).isEmpty := by
      rw [Bool.eq_iff_iff, List.isEmpty_iff, List.isEmpty_iff, ← flatMap_chars_eq_nil_iff, ← hblocks]
      cases (texts os).filter (· ≠ "") <;> simp
    simp only [block, StubBlock.lines, lines, hempty, List.append_assoc, List.flatMap_append] at hstubs ⊢
    rw [hstubs]
    congr 1
    cases (linesAll os).isEmpty with
    | true => rfl
    | false =>
      simp only [Bool.false_eq_true, ↓reduceIte, List.flatMap_cons, hblocks]
      rfl

theorem flatMap_linesAll : ∀ (os : List Outline), (∀ text, .stub text ∈ linesAll os → IsStub text) →
    ((texts os).filter (· ≠ "")).flatMap (fun s => s.toList ++ ['\n']) =
      (linesAll os).flatMap Line.chars
  | [], _ => rfl
  | o :: os, h => by
    have ho : ∀ text, .stub text ∈ o.lines → IsStub text := fun text hmem =>
      h text (by simp [linesAll, hmem])
    have hlines := flatMap_lines o ho
    have hrest := flatMap_linesAll os fun text hmem => h text (by simp [linesAll, hmem])
    have htext : o.text = "\n".intercalate o.block.lines := (o.render_block).symm
    rw [texts, linesAll, List.flatMap_append, ← hrest]
    by_cases hnil : o.block.lines = []
    · have hempty : o.text = "" := by rw [htext, hnil]; rfl
      rw [hnil, List.flatMap_nil] at hlines
      simp [hempty, ← hlines]
    · have hchars := (toList_intercalate_lines hnil).trans hlines
      rw [← htext] at hchars
      have hne : o.text ≠ "" := by
        intro hempty
        rw [hempty] at hchars
        cases hl : o.lines with
        | nil => simp [hl] at hchars
        | cons l ls =>
          have hlen := two_le_length_chars ho (l := l) (by simp [hl])
          have := congrArg List.length hchars
          simp [hl] at this
          omega
      simp [hne, hchars]

end

end Outline

theorem Outline.isEmpty_block {o : Outline} (h : ∀ text, .stub text ∈ o.lines → IsStub text) :
    o.block.isEmpty = true ↔ o.lines = [] := by
  rw [← flatMap_chars_eq_nil_iff, ← flatMap_lines o h, StubBlock.isEmpty, StubBlock.lines]
  cases o.block.inherited <;> cases o.block.getters <;> cases o.block.functions <;> simp

/-- An interface is its pragma, the first line of the contract, its lines and a brace. -/
theorem interface_toList {d : Draft} {o : Outline} (hd : d.block = o.block)
    (h : ∀ text, .stub text ∈ o.lines → IsStub text) :
    d.interface.toList = (if d.pragma.isEmpty then [] else d.pragma.toList ++ ['\n', '\n']) ++
      ("contract I".toList ++ (d.name.toList ++ (" \x7b\n".toList ++
        (o.lines.flatMap Line.chars ++ ['\x7d'])))) := by
  have hlines : (if d.block.isEmpty then "" else d.stubs ++ "\n").toList =
      o.lines.flatMap Line.chars := by
    rw [Draft.stubs, hd]
    by_cases hnil : o.lines = []
    · rw [if_pos ((Outline.isEmpty_block h).2 hnil), hnil]
      rfl
    · have hblock : o.block.lines ≠ [] := by
        intro hempty
        have hchars := Outline.flatMap_lines o h
        rw [hempty, List.flatMap_nil, eq_comm, flatMap_chars_eq_nil_iff] at hchars
        exact hnil hchars
      rw [if_neg (mt (Outline.isEmpty_block h).1 hnil), String.toList_append, StubBlock.render,
        ← Outline.flatMap_lines o h]
      exact toList_intercalate_lines hblock
  have hpragma : (if d.pragma.isEmpty then "" else d.pragma ++ "\n\n").toList =
      if d.pragma.isEmpty then [] else d.pragma.toList ++ ['\n', '\n'] := by
    split
    · rfl
    · simp
  simp only [Draft.interface, String.toList_append, hlines, hpragma, List.append_assoc]
  rfl

end SolidityStubs
