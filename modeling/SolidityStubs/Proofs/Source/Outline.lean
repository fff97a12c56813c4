import SolidityStubs.Proofs.Source.Commented
import SolidityStubs.Proofs.Stub.Transport

/-! # Outlines of declarations

The outline of a source is what it declares, without the places where it does and without the texts
of types. A comment behind a space does not change it, if the space is outside of strings, comments
and the values of pragmas and the comment neither parts two words that only spaces may part nor
closes a comment that was left open.
-/
namespace SolidityStubs

open Peg Source

def Span.blank : Span := ⟨0, 0⟩

def TypeName.outline : TypeName → TypeName
  | .named _ => .named ""
  | .mapping key value _ => .mapping key.outline value.outline ""

def Parameter.outline (p : Parameter) : Parameter :=
  { p with typeName := p.typeName.outline, span := .blank }

def Modifier.outline (m : Modifier) : Modifier := { m with span := .blank }

def FunctionDecl.outline (f : FunctionDecl) : FunctionDecl :=
  { f with
    params := f.params.map (·.outline)
    paramsSpan := .blank
    modifiers := f.modifiers.map (·.outline)
    span := .blank }

def VariableDecl.outline (v : VariableDecl) : VariableDecl :=
  { v with typeName := v.typeName.outline, span := .blank }

def EnumDecl.outline (e : EnumDecl) : EnumDecl := { e with span := .blank }

def Member.outline : Member → Member
  | .function decl => .function decl.outline
  | .stateVariable decl => .stateVariable decl.outline
  | .enum decl => .enum decl.outline
  | .other _ => .other .blank

def Contract.outline (c : Contract) : Contract :=
  { c with body := c.body.map (·.outline), span := .blank }

def Import.outline (i : Import) : Import := { i with span := .blank }

def SourceItem.outline : SourceItem → SourceItem
  | .pragma _ => .pragma .blank
  | .importing decl => .importing decl.outline
  | .contract decl => .contract decl.outline
  | .other _ => .other .blank

/-- What a source declares, up to spans and the texts of types. -/
def SourceUnit.outline (u : SourceUnit) : SourceUnit := ⟨u.items.map (·.outline)⟩

section Types

variable {φ : Cursor → Cursor}

mutual

theorem TypeName.outline_carry : ∀ t : Tree,
    (TypeName.ofTree (t.carry φ)).outline = (TypeName.ofTree t).outline
  | ⟨r, start, stop, children⟩ => by
    have hkey := TypeName.keyAndValue?_carry children
    rw [Node.carry, TypeName.ofTree, TypeName.ofTree]
    cases h : TypeName.keyAndValue? children with
    | none =>
      rw [h, Option.map_none, Option.map_eq_none_iff] at hkey
      simp only [hkey, TypeName.outline]
    | some p =>
      rw [h, Option.map_some, Option.map_eq_some_iff] at hkey
      obtain ⟨q, hq, hpq⟩ := hkey
      simp only [Prod.mk.injEq] at hpq
      simp only [hq, TypeName.outline, hpq.1, hpq.2]

theorem TypeName.keyAndValue?_carry : ∀ ts : List Tree,
    (TypeName.keyAndValue? (Node.carryAll φ ts)).map (fun p => (p.1.outline, p.2.outline)) =
      (TypeName.keyAndValue? ts).map fun p => (p.1.outline, p.2.outline)
  | [] => rfl
  | ⟨r, start, stop, children⟩ :: ts => by
    have htypes := TypeName.ofTrees_carry children
    rw [Node.carryAll, Node.carry, TypeName.keyAndValue?, TypeName.keyAndValue?]
    split
    · generalize TypeName.ofTrees (Node.carryAll φ children) = new at htypes
      generalize TypeName.ofTrees children = old at htypes
      -- a key and a value are there in both lists or in none
      rcases new with _ | ⟨key, _ | ⟨value, new⟩⟩ <;>
        rcases old with _ | ⟨key', _ | ⟨value', old⟩⟩ <;> simp_all
    · rfl

theorem TypeName.ofTrees_carry : ∀ ts : List Tree,
    (TypeName.ofTrees (Node.carryAll φ ts)).map TypeName.outline =
      (TypeName.ofTrees ts).map TypeName.outline
  | [] => rfl
  | t :: ts => by
    rw [Node.carryAll, TypeName.ofTrees, TypeName.ofTrees, Node.carry_rule]
    split
    · rw [List.map_cons, List.map_cons, TypeName.outline_carry t, TypeName.ofTrees_carry ts]
    · exact TypeName.ofTrees_carry ts

end

end Types

section Declarations

variable {φ : Cursor → Cursor} {t : Tree}

theorem child?_string_carry (h : t.Every (KeepsText φ)) {r : Rule} (hr : r ∈ namingRules) :
    ((t.carry φ).child? r).map (·.string) = (t.child? r).map (·.string) := by
  rw [child?_carry, Option.map_map]
  refine Option.map_congr fun n hn => ?_
  have hrule : n.rule = r := by simpa using List.find?_some hn
  have htext := (h.child (List.mem_of_find?_eq_some hn)).self (hrule ▸ hr)
  simp only [Function.comp, Node.string, htext]

theorem childrenOf_string_carry (h : t.Every (KeepsText φ)) {r : Rule} (hr : r ∈ namingRules) :
    ((t.carry φ).childrenOf r).map (·.string) = (t.childrenOf r).map (·.string) := by
  rw [childrenOf_carry, List.map_map]
  refine List.map_congr_left fun n hn => ?_
  obtain ⟨hmem, hrule⟩ := List.mem_filter.1 hn
  have htext := (h.child hmem).self (by rw [of_decide_eq_true hrule]; exact hr)
  simp only [Function.comp, Node.string, htext]

theorem dottedName_carry (h : t.Every (KeepsText φ)) : dottedName (t.carry φ) = dottedName t := by
  rw [dottedName, dottedName, child?_string_carry h (by decide)]

theorem filterMap_outline_carry {α : Type} {read : Tree → Option α} {outline : α → α}
    (h : ∀ n ∈ t.children, (read (n.carry φ)).map outline = (read n).map outline) :
    ((t.carry φ).children.filterMap read).map outline =
      (t.children.filterMap read).map outline := by
  rw [Node.carry_children, List.filterMap_map, List.map_filterMap, List.map_filterMap]
  exact List.filterMap_congr h

theorem Parameter.outline_carry (h : t.Every (KeepsText φ)) :
    (Parameter.ofTree? (t.carry φ)).map Parameter.outline =
      (Parameter.ofTree? t).map Parameter.outline := by
  simp only [Parameter.ofTree?, child?_carry t .typeName, Option.map_map]
  refine Option.map_congr fun n _ => ?_
  simp only [Function.comp, Parameter.outline, TypeName.outline_carry,
    child?_string_carry h (r := .identifier) (by decide)]

theorem Parameter.list_outline_carry (h : t.Every (KeepsText φ)) :
    (Parameter.listOfTree (t.carry φ)).map Parameter.outline =
      (Parameter.listOfTree t).map Parameter.outline := by
  simp only [Parameter.listOfTree, childrenOf_carry, List.filterMap_map, List.map_filterMap]
  exact List.filterMap_congr fun n hn =>
    Parameter.outline_carry (h.child (List.mem_filter.1 hn).1)

theorem Modifier.outline_carry (h : t.Every (KeepsText φ)) :
    (Modifier.ofTree? (t.carry φ)).map Modifier.outline =
      (Modifier.ofTree? t).map Modifier.outline := by
  unfold Modifier.ofTree?
  rw [Node.carry_rule, dottedName_carry h]
  split <;> rfl

theorem FunctionDecl.outline_carry (h : t.Every (KeepsText φ)) :
    (FunctionDecl.ofTree (t.carry φ)).outline = (FunctionDecl.ofTree t).outline := by
  have hkind : ((t.carry φ).child? .functionHead).map FunctionKind.ofHead =
      (t.child? .functionHead).map FunctionKind.ofHead := by
    rw [child?_carry, Option.map_map]
    exact Option.map_congr fun n _ => ofHead_carry n
  have hname : (((t.carry φ).child? .functionHead).bind fun head =>
      (head.child? .identifier).map (·.string)) =
        (t.child? .functionHead).bind fun head => (head.child? .identifier).map (·.string) := by
    rw [child?_carry]
    cases hn : t.child? .functionHead with
    | none => rfl
    | some n => exact child?_string_carry (h.child (List.mem_of_find?_eq_some hn)) (by decide)
  have hparams : (((t.carry φ).child? .parameterList).map Parameter.listOfTree |>.getD []).map
      Parameter.outline = ((t.child? .parameterList).map Parameter.listOfTree |>.getD []).map
        Parameter.outline := by
    rw [child?_carry]
    cases hn : t.child? .parameterList with
    | none => rfl
    | some n => exact Parameter.list_outline_carry (h.child (List.mem_of_find?_eq_some hn))
  have hmodifiers := filterMap_outline_carry fun n hn => Modifier.outline_carry (h.child hn)
  simp only [FunctionDecl.outline, FunctionDecl.ofTree, hkind, hname, hparams, hmodifiers]

theorem VariableDecl.outline_carry (h : t.Every (KeepsText φ)) :
    (VariableDecl.ofTree (t.carry φ)).outline = (VariableDecl.ofTree t).outline := by
  have htype : (((t.carry φ).child? .typeName).map TypeName.ofTree |>.getD (.named "")).outline =
      ((t.child? .typeName).map TypeName.ofTree |>.getD (.named "")).outline := by
    rw [child?_carry]
    cases t.child? .typeName with
    | none => rfl
    | some n => exact TypeName.outline_carry n
  have hattribute : ∀ word : String,
      ((t.carry φ).childrenOf .stateVariableAttribute).any (·.string == word) =
        (t.childrenOf .stateVariableAttribute).any (·.string == word) := by
    intro word
    have hstrings := congrArg (List.any · (· == word))
      (childrenOf_string_carry h (r := .stateVariableAttribute) (by decide))
    rw [List.any_map, List.any_map] at hstrings
    exact hstrings
  simp only [VariableDecl.outline, VariableDecl.ofTree, htype, hattribute,
    child?_string_carry h (r := .identifier) (by decide)]

theorem EnumDecl.outline_carry (h : t.Every (KeepsText φ)) :
    (EnumDecl.ofTree (t.carry φ)).outline = (EnumDecl.ofTree t).outline := by
  have hvalues := childrenOf_string_carry h (r := .identifier) (by decide)
  simp only [EnumDecl.outline, EnumDecl.ofTree, List.map_tail, hvalues,
    child?_string_carry h (r := .identifier) (by decide)]

theorem Member.outline_carry (h : t.Every (KeepsText φ)) :
    (Member.ofTree? (t.carry φ)).map Member.outline = (Member.ofTree? t).map Member.outline := by
  unfold Member.ofTree?
  rw [Node.carry_rule]
  split
  · simp only [Option.map_some, Member.outline, FunctionDecl.outline_carry h]
  · simp only [Option.map_some, Member.outline, VariableDecl.outline_carry h]
  · simp only [Option.map_some, Member.outline, EnumDecl.outline_carry h]
  all_goals rfl

theorem Contract.outline_carry (h : t.Every (KeepsText φ)) :
    (Contract.ofTree (t.carry φ)).outline = (Contract.ofTree t).outline := by
  have hkind := congrArg (Option.map ContractKind.ofText)
    (child?_string_carry h (r := .contractKind) (by decide))
  simp only [Option.map_map, Function.comp_def] at hkind
  have hbases : ((t.carry φ).child? .inheritanceList).map Contract.basesOfTree =
      (t.child? .inheritanceList).map Contract.basesOfTree := by
    rw [child?_carry, Option.map_map]
    refine Option.map_congr fun n hn => ?_
    have hlist := h.child (List.mem_of_find?_eq_some hn)
    simp only [Function.comp, Contract.basesOfTree, childrenOf_carry, List.map_map]
    exact List.map_congr_left fun k hk => dottedName_carry (hlist.child (List.mem_filter.1 hk).1)
  have hbody := filterMap_outline_carry fun n hn => Member.outline_carry (h.child hn)
  simp only [Contract.outline, Contract.ofTree, hkind, hbases, hbody,
    child?_string_carry h (r := .identifier) (by decide)]

theorem Import.outline_carry (h : t.Every (KeepsText φ)) :
    (Import.ofTree (t.carry φ)).outline = (Import.ofTree t).outline := by
  have hpath : ((t.carry φ).child? .importPath).map (Import.unquote <| Text.trimChars ·.text) =
      (t.child? .importPath).map (Import.unquote <| Text.trimChars ·.text) := by
    rw [child?_carry, Option.map_map]
    refine Option.map_congr fun n hn => ?_
    have hrule : n.rule = .importPath := by simpa using List.find?_some hn
    have htext := (h.child (List.mem_of_find?_eq_some hn)).self (by rw [hrule]; decide)
    simp only [Function.comp, htext]
  simp only [Import.outline, Import.ofTree, hpath]

theorem SourceItem.outline_carry (h : t.Every (KeepsText φ)) :
    (SourceItem.ofTree? (t.carry φ)).map SourceItem.outline =
      (SourceItem.ofTree? t).map SourceItem.outline := by
  unfold SourceItem.ofTree?
  rw [Node.carry_rule]
  split
  · rfl
  · simp only [Option.map_some, SourceItem.outline, Import.outline_carry h]
  · simp only [Option.map_some, SourceItem.outline, Contract.outline_carry h]
  all_goals rfl

/-- Positions do not count for the outline of a source whose names keep their texts. -/
theorem SourceUnit.outline_carry (h : t.Every (KeepsText φ)) :
    (SourceUnit.ofTree (t.carry φ)).outline = (SourceUnit.ofTree t).outline := by
  have hitems := filterMap_outline_carry fun n hn => SourceItem.outline_carry (h.child hn)
  simp only [SourceUnit.outline, SourceUnit.ofTree, hitems]

end Declarations

namespace Source

variable {source : String} {root : Tree} {before after : List Char} {w : Char}

/-- A comment behind a space outside of strings, comments and the values of pragmas changes nothing
but spans and the texts of types, if the space is harmless. -/
theorem parse_commented (hroot : tree source = .ok root) (s : Spot source root before w after)
    (harmless : Spot.Harmless source root before) :
    ∃ u u', parse source = .ok u ∧ parse (commented before w after) = .ok u' ∧
      u'.outline = u.outline := by
  obtain ⟨htree, hkeeps⟩ := s.tree_commented hroot harmless
  exact ⟨_, _, parse_eq_ok_iff.2 ⟨root, hroot, rfl⟩, parse_eq_ok_iff.2 ⟨_, htree, rfl⟩,
    SourceUnit.outline_carry hkeeps⟩

/-- A comment in the header of a function. The value of the pragma, the string, the type and the
comment of the source have spaces as well. -/
theorem parse_commented_header :
    ∃ u u',
      parse "pragma a b;import \"x y\";contract A{function f(address payable a) public{/* */}}" =
        .ok u ∧
      parse (commented
        "pragma a b;import \"x y\";contract A\x7bfunction f(address payable a)".toList ' '
        "public\x7b/* */\x7d\x7d".toList) = .ok u' ∧
      u'.outline = u.outline := by
  obtain ⟨root, hroot, s⟩ : ∃ root,
      tree "pragma a b;import \"x y\";contract A{function f(address payable a) public{/* */}}" =
        .ok root ∧
      Spot "pragma a b;import \"x y\";contract A{function f(address payable a) public{/* */}}" root
        "pragma a b;import \"x y\";contract A\x7bfunction f(address payable a)".toList ' '
        "public\x7b/* */\x7d\x7d".toList :=
    exists_spot 9 58 (by decide +kernel) (by decide) (by decide +kernel)
  exact parse_commented hroot s (s.harmless_of_text (by decide +kernel) (by decide +kernel) hroot)

/-- Each condition is needed. Behind `abstract` a comment makes the source unreadable, behind
`address` it makes a name of the word `payable`, and behind a comment that was left open it closes
that comment. -/
theorem parse_commented_harmful :
    (∃ root, tree "abstract contract A{}" = .ok root ∧
      Spot "abstract contract A{}" root "abstract".toList ' ' "contract A{}".toList ∧
      ∀ u, parse (commented "abstract".toList ' ' "contract A{}".toList) ≠ .ok u) ∧
    (∃ root u u', tree "contract A{function f(address payable);}" = .ok root ∧
      Spot "contract A{function f(address payable);}" root
        "contract A\x7bfunction f(address".toList ' ' "payable);\x7d".toList ∧
      parse "contract A{function f(address payable);}" = .ok u ∧
      parse (commented "contract A\x7bfunction f(address".toList ' ' "payable);\x7d".toList) =
        .ok u' ∧
      u'.outline ≠ u.outline) ∧
    ∃ root, tree "contract A{function f(){/*} function g();}" = .ok root ∧
      Spot "contract A{function f(){/*} function g();}" root
        "contract A\x7bfunction f()\x7b/*\x7d".toList ' ' "function g();\x7d".toList ∧
      ∀ u, parse (commented "contract A\x7bfunction f()\x7b/*\x7d".toList ' '
        "function g();\x7d".toList) ≠ .ok u := by
  refine ⟨?_, ?_, ?_⟩
  · obtain ⟨root, hroot, s⟩ : ∃ root, tree "abstract contract A{}" = .ok root ∧
        Spot "abstract contract A{}" root "abstract".toList ' ' "contract A{}".toList :=
      exists_spot 6 8 (by decide +kernel) (by decide) (by decide +kernel)
    exact ⟨root, hroot, s, parse_ne_ok_of_failsWithin 6 (by decide +kernel)⟩
  · obtain ⟨root, hroot, s⟩ : ∃ root, tree "contract A{function f(address payable);}" = .ok root ∧
        Spot "contract A{function f(address payable);}" root
          "contract A\x7bfunction f(address".toList ' ' "payable);\x7d".toList :=
      exists_spot 9 29 (by decide +kernel) (by decide) (by decide +kernel)
    have hold := parse_eq_ok_of_parseWithin 9 "contract A{function f(address payable);}"
      ⟨[.contract ⟨.contract, "A", [], [.function ⟨.function, some "f",
        [⟨.named "address payable", none, ⟨22, 37⟩⟩], ⟨21, 38⟩, [], ⟨11, 39⟩⟩], ⟨0, 40⟩⟩]⟩
      (by decide +kernel)
    have hnew := parse_eq_ok_of_parseWithin 9
      (commented "contract A\x7bfunction f(address".toList ' ' "payable);\x7d".toList)
      ⟨[.contract ⟨.contract, "A", [], [.function ⟨.function, some "f",
        [⟨.named "address /**/", some "payable", ⟨22, 42⟩⟩], ⟨21, 43⟩, [], ⟨11, 44⟩⟩], ⟨0, 45⟩⟩]⟩
      (by decide +kernel)
    exact ⟨root, _, _, hroot, s, hold, hnew, by decide⟩
  · obtain ⟨root, hroot, s⟩ : ∃ root,
        tree "contract A{function f(){/*} function g();}" = .ok root ∧
        Spot "contract A{function f(){/*} function g();}" root
          "contract A\x7bfunction f()\x7b/*\x7d".toList ' ' "function g();\x7d".toList :=
      exists_spot 9 27 (by decide +kernel) (by decide) (by decide +kernel)
    exact ⟨root, hroot, s, parse_ne_ok_of_failsWithin 9 (by decide +kernel)⟩

end Source

end SolidityStubs
