import SolidityStubs.Proofs.Source.Types
import SolidityStubs.Proofs.Stub.Retained
import SolidityStubs.Proofs.Stub.Transport

/-! # The text of a type

The text that a type was read from, trimmed and taken out of its source, is read as the same type
again, down to the texts of the types inside it. So the text that a getter returns is a type of its
own.
-/
namespace SolidityStubs

open Source Peg

namespace TypeName

def parts : TypeName → List TypeName
  | .named literal => [.named literal]
  | .mapping key value literal => .mapping key value literal :: (key.parts ++ value.parts)

def getterType : TypeName → TypeName
  | .named literal => .named literal
  | .mapping _ value _ => value

@[simp]
theorem literal_getterType (type : TypeName) : type.getterType.literal = type.getterLiteral := by
  cases type <;> rfl

theorem mem_parts_self (type : TypeName) : type ∈ type.parts := by
  cases type <;> simp [parts]

theorem getterType_mem_parts (type : TypeName) : type.getterType ∈ type.parts := by
  cases type with
  | named literal => exact mem_parts_self _
  | mapping key value literal => simp [getterType, parts, mem_parts_self value]

/-- The text of the type is read to its end, as the type itself. -/
def ReadsBack (type : TypeName) : Prop :=
  ∃ stop node, (runRule .typeName type.literal.toList).outcome = .matched stop [node] ∧
    stop.rest = [] ∧ TypeName.ofTree node = type

end TypeName

def Member.types : Member → List TypeName
  | .function f => f.params.map (·.typeName)
  | .stateVariable v => [v.typeName]
  | .enum _ | .other _ => []

/-- All types of a source, those inside of others included. -/
def SourceUnit.types (u : SourceUnit) : List TypeName :=
  u.contracts.flatMap fun c => c.body.flatMap fun m => m.types.flatMap TypeName.parts

/-- A node that was read in a source. -/
structure NodeOf (source : String) (t : Tree) : Prop where
  takes : Takes grammar .spaced (.rule t.rule) t.start t.stop [t]
  origin : (origin source).Before t.start

structure TypeNode (source : String) (t : Tree) : Prop extends NodeOf source t where
  rule : t.rule = .typeName

section Nodes

variable {source : String} {t n : Tree}

theorem NodeOf.child (h : NodeOf source t) (hshape : (grammar.production t.rule).shape ≠ .silent)
    (hn : n ∈ t.children) : NodeOf source n where
  takes := (h.takes.children hshape).takes_of_mem hn
  origin := h.origin.trans ((h.takes.children hshape).chained grammar_bounded.skips |>.of_mem hn).1

theorem NodeOf.child? (h : NodeOf source t) (hshape : (grammar.production t.rule).shape ≠ .silent)
    {r : Rule} (hn : t.child? r = some n) : NodeOf source n ∧ n.rule = r :=
  ⟨h.child hshape (List.mem_of_find?_eq_some hn), by simpa using List.find?_some hn⟩

theorem transports_cut (source : String) {old new cs : List Char} {c : Cursor}
    (hc : spliced old new c = ⟨c.offset, cs⟩) :
    Transports (Cursor.moved c.offset 0 ∘ spliced old new) source (String.ofList cs)
      fun d => c.Before d ∧ Ahead old d where
  between hd hde hef hf := ⟨hd.1.trans hde, hf.2.of_before hef⟩
  passes {d e ds} hd he h := (passes_spliced h he.2).moved hd.1.offset_le
  origin {d} hd _ := by
    obtain ⟨ds, hds⟩ := hd.1
    have hpass : (spliced old new c).Passes ds (spliced old new d) := passes_spliced hds hd.2
    have hmoved : (Cursor.moved c.offset 0 (spliced old new c)).Passes ds
        (Cursor.moved c.offset 0 (spliced old new d)) := hpass.moved (Nat.le_refl _)
    have hstart : Cursor.moved c.offset 0 (spliced old new c) = origin (String.ofList cs) := by
      simp [hc, Cursor.moved, Cursor.ofText]
    rw [hstart] at hmoved
    exact ⟨ds, hmoved⟩

/-- The text of a type that was read is read as the same type again. -/
theorem TypeNode.readsBack (h : TypeNode source t) : (TypeName.ofTree t).ReadsBack := by
  obtain ⟨r, c, d, children⟩ := t
  obtain ⟨⟨htakes, horigin⟩, rfl⟩ := h
  obtain ⟨old, new, e, he, hchained, hstart, halone⟩ := takes_typeName_alone htakes
  have hliteral := TypeName.literal_ofTree ⟨.typeName, c, d, children⟩
  have hkey : TypeName.keyAndValue? (Node.carryAll (Cursor.moved c.offset 0)
      (children.map (Node.carry (spliced old new)))) = TypeName.keyAndValue? children := by
    rw [← Node.carryAll_eq_map, Node.carryAll_carryAll, Node.carryAll_eq_map]
    exact (typeNames_carry (transports_cut source hstart) hchained
      ⟨.refl c, he.of_before hchained.before⟩ ⟨hchained.before, he⟩ horigin).2
  generalize hcs : Text.trimChars (Node.text (⟨.typeName, c, d, children⟩ : Tree)) = cs at *
  have hmoved := halone.carry (carries_moved_grammar c.offset 0) (Nat.le_refl _)
  have hfrom : Cursor.moved c.offset 0 ⟨c.offset, cs⟩ = .ofText cs := by
    simp [Cursor.moved, Cursor.ofText]
  have hto : Cursor.moved c.offset 0 ⟨c.offset + Text.byteLength cs, []⟩ =
      ⟨Text.byteLength cs, []⟩ := by
    simp [Cursor.moved]
  rw [List.map_singleton, Node.carry, hfrom, hto] at hmoved
  have htext : Cursor.upTo (.ofText cs) ⟨Text.byteLength cs, []⟩ = cs :=
    Cursor.Passes.upTo ⟨by simp [Cursor.ofText], by simp [Cursor.ofText]⟩
  have htrim : Text.trimChars cs = Text.trimChars (c.upTo d) := by
    rw [← hcs, trimChars_trimChars]
    rfl
  have hrun : (runRule .typeName cs).outcome = _ :=
    Outcome.reading?_eq_matched.1 (runRule_eq_iff.2 hmoved)
  rw [TypeName.ReadsBack, hliteral, String.toList_ofList]
  refine ⟨_, _, hrun, rfl, ?_⟩
  rw [TypeName.ofTree, TypeName.ofTree, hkey, htext, htrim]

theorem TypeNode.exists_of_mem_parts (h : TypeNode source t) {type : TypeName}
    (htype : type ∈ (TypeName.ofTree t).parts) :
    ∃ n, TypeNode source n ∧ type = TypeName.ofTree n := by
  generalize hwhole : TypeName.ofTree t = whole at htype
  induction whole generalizing t with
  | named literal =>
    cases List.mem_singleton.1 htype
    exact ⟨t, h, hwhole.symm⟩
  | mapping key value literal ihkey ihvalue =>
    have hinner := exists_keyAndValue h.rule h.takes hwhole
    rcases List.mem_cons.1 htype with rfl | hmem
    · exact ⟨t, h, hwhole.symm⟩
    · rcases List.mem_append.1 hmem with hmem | hmem
      · obtain ⟨n, hrule, hbefore, htakes, rfl⟩ := hinner key (by simp)
        exact ihkey ⟨⟨htakes, h.origin.trans hbefore⟩, hrule⟩ rfl hmem
      · obtain ⟨n, hrule, hbefore, htakes, rfl⟩ := hinner value (by simp)
        exact ihvalue ⟨⟨htakes, h.origin.trans hbefore⟩, hrule⟩ rfl hmem

theorem NodeOf.exists_typeNode (h : NodeOf source t) {m : Member} (hm : Member.ofTree? t = some m)
    {type : TypeName} (htype : type ∈ m.types) :
    ∃ n, TypeNode source n ∧ type = TypeName.ofTree n := by
  have hread := Member.of_ofTree? hm
  cases m with
  | function f =>
    obtain ⟨hrule, rfl⟩ := hread
    obtain ⟨p, hp, rfl⟩ := List.mem_map.1 htype
    have hshape : (grammar.production t.rule).shape ≠ .silent := by rw [hrule]; decide
    cases hlist : t.child? .parameterList with
    | none => simp [FunctionDecl.ofTree, hlist] at hp
    | some list =>
      obtain ⟨hlistNode, hlistRule⟩ := h.child? hshape hlist
      simp only [FunctionDecl.ofTree, hlist, Option.map_some, Option.getD_some] at hp
      obtain ⟨q, hq, hparam⟩ := List.mem_filterMap.1 hp
      obtain ⟨hmem, hqRule⟩ := List.mem_filter.1 hq
      have hqNode := hlistNode.child (by rw [hlistRule]; decide) hmem
      obtain ⟨n, hn, rfl⟩ := Option.map_eq_some_iff.1 hparam
      have hqRule' : q.rule = .parameter := by simpa using hqRule
      obtain ⟨hnNode, hnRule⟩ := hqNode.child? (by rw [hqRule']; decide) hn
      exact ⟨n, ⟨hnNode, hnRule⟩, rfl⟩
  | stateVariable v =>
    obtain ⟨hrule, rfl⟩ := hread
    cases List.mem_singleton.1 htype
    have hshape : (grammar.production t.rule).shape ≠ .silent := by rw [hrule]; decide
    cases hn : t.child? .typeName with
    | none =>
      -- a variable starts with its type
      have hbody := h.takes.children hshape
      rw [hrule] at hbody
      obtain ⟨_, types, _, htypeName, -, hchildren⟩ := takes_seq_iff.1 hbody
      obtain ⟨_, -, rfl⟩ := (takes_rule_iff (by decide)).1 htypeName
      simp [Node.child?, hchildren] at hn
    | some n =>
      obtain ⟨hnNode, hnRule⟩ := h.child? hshape hn
      exact ⟨n, ⟨hnNode, hnRule⟩, by simp [VariableDecl.ofTree, hn]⟩
  | enum | other => cases htype

end Nodes

theorem exists_nodeOf_member {source : String} {u : SourceUnit} (h : parse source = .ok u)
    {c : Contract} (hc : c ∈ u.contracts) {m : Member} (hm : m ∈ c.body) :
    ∃ t, NodeOf source t ∧ Member.ofTree? t = some m := by
  obtain ⟨root, htree, rfl⟩ := parse_eq_ok_iff.1 h
  obtain ⟨d, htakes⟩ := tree_eq_ok_iff.1 htree
  obtain ⟨children, -, hroot⟩ := (takes_rule_iff (by decide)).1 htakes
  obtain rfl := List.singleton_inj.1 hroot
  have hrootNode : NodeOf source ⟨.sourceUnit, .ofText source.toList, d, children⟩ :=
    ⟨htakes, .refl _⟩
  obtain ⟨n, hn, hrule, rfl⟩ := exists_node_of_mem_contracts hc
  obtain ⟨t, ht, hread⟩ := List.mem_filterMap.1 hm
  exact ⟨t, (hrootNode.child (by dsimp only; decide) hn).child (by rw [hrule]; decide) ht, hread⟩

/-- Every type of a source that can be read, also one inside of another, is read as the same type
again from its own text, and so is the type that the getter of a variable returns. -/
theorem type_texts_read_back {source : String} {u : SourceUnit} (h : parse source = .ok u) :
    (∀ type ∈ u.types, type.ReadsBack) ∧
      ∀ c ∈ u.contracts, ∀ v, .stateVariable v ∈ c.body →
        v.typeName.getterType.literal = v.typeName.getterLiteral ∧
          v.typeName.getterType.ReadsBack := by
  have hparts : ∀ c ∈ u.contracts, ∀ m ∈ c.body, ∀ whole ∈ m.types, ∀ type ∈ whole.parts,
      type.ReadsBack := by
    intro c hc m hm whole hwhole type htype
    obtain ⟨t, ht, hread⟩ := exists_nodeOf_member h hc hm
    obtain ⟨n, hn, rfl⟩ := ht.exists_typeNode hread hwhole
    obtain ⟨n', hn', rfl⟩ := hn.exists_of_mem_parts htype
    exact hn'.readsBack
  refine ⟨fun type htype => ?_, fun c hc v hv => ⟨TypeName.literal_getterType _, ?_⟩⟩
  · obtain ⟨c, hc, hbody⟩ := List.mem_flatMap.1 htype
    obtain ⟨m, hm, htypes⟩ := List.mem_flatMap.1 hbody
    obtain ⟨whole, hwhole, hpart⟩ := List.mem_flatMap.1 htypes
    exact hparts c hc m hm whole hwhole type hpart
  · exact hparts c hc _ hv v.typeName (by simp [Member.types]) _ (TypeName.getterType_mem_parts _)

/-- A quote that is never closed, comments behind types and a type by the name `mapping`. -/
theorem type_texts_read_back_nested :
    ∃ u, parse "contract C\x7bmapping(uint/*a*/['] => B //b \n)[2] m;function f(mapping q);\x7d" =
        .ok u ∧
      u.types.map (·.literal) =
        ["mapping(uint/*a*/['] => B //b \n)[2]", "uint/*a*/[']", "B //b", "mapping"] ∧
      ∀ type ∈ u.types, type.ReadsBack := by
  have h := parse_eq_ok_of_parseWithin 16
    "contract C\x7bmapping(uint/*a*/['] => B //b \n)[2] m;function f(mapping q);\x7d" ⟨[
      .contract ⟨.contract, "C", [], [
        .stateVariable ⟨"m", .mapping (.named "uint/*a*/[']") (.named "B //b")
          "mapping(uint/*a*/['] => B //b \n)[2]", false, false, ⟨11, 49⟩⟩,
        .function ⟨.function, some "f", [⟨.named "mapping", some "q", ⟨60, 69⟩⟩], ⟨59, 70⟩, [],
          ⟨49, 71⟩⟩], ⟨0, 72⟩⟩]⟩ (by decide +kernel)
  exact ⟨_, h, by decide +kernel, (type_texts_read_back h).1⟩

end SolidityStubs
