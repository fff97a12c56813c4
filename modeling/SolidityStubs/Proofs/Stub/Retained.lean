import SolidityStubs.Proofs.Source.Taken
import SolidityStubs.Proofs.Source.Types
import SolidityStubs.Proofs.Stub.ReadBack

/-! # Retained texts

A stub retains some texts of its source. Where no comment and no string is left open in these, the
stub has a shape, so it is read wherever it stands.
-/
namespace SolidityStubs

open Source Peg

def FunctionDecl.plain (f : FunctionDecl) : List Modifier :=
  f.modifiers.filter (plainModifiers.contains ·.name)

theorem FunctionDecl.mem_plain {f : FunctionDecl} {m : Modifier} :
    m ∈ f.plain ↔ m ∈ f.modifiers ∧ m.name ∈ plainModifiers := by
  simp [plain]

/-- The texts that the stub of a function takes over: the head of a function with parameters and the
modifiers that mean something outside. -/
def FunctionDecl.retained (f : FunctionDecl) (source : String) : List String :=
  (if f.params.isEmpty then [] else [Span.slice ⟨f.span.start, f.paramsSpan.stop⟩ source]) ++
    f.plain.map fun m => Text.trim (m.span.slice source)

theorem FunctionDecl.mem_retained_of_mem_plain {f : FunctionDecl} {m : Modifier} (h : m ∈ f.plain)
    (source : String) : Text.trim (m.span.slice source) ∈ f.retained source := by
  rw [retained, List.mem_append]
  exact .inr (List.mem_map.2 ⟨m, h, rfl⟩)

theorem FunctionDecl.mem_retained_head {f : FunctionDecl} (h : ¬ f.params.isEmpty = true)
    (source : String) :
    Span.slice ⟨f.span.start, f.paramsSpan.stop⟩ source ∈ f.retained source := by
  rw [retained, if_neg h, List.mem_append]
  exact .inl (List.mem_singleton.2 rfl)

/-- The texts that the stubs of a contract take over: those of the functions that it shows and the
types of the getters. -/
def Contract.retained (c : Contract) (source : String) : List String :=
  c.functions.flatMap (·.retained source) ++ c.publicVariables.map (·.typeName.getterLiteral)

def Surface.retained (s : Surface) (source : String) : List String :=
  s.pragma :: s.contract.retained source

/-- No comment and no string is left open in the text. -/
def IsClosedText (text : String) : Prop := Closed text.toList

instance (text : String) : Decidable (IsClosedText text) := inferInstanceAs (Decidable (Closed _))

/-- Behind the word `pragma` a comment opens that the pragma does not close. -/
def OpensComment (pragma : String) : Prop :=
  ['/', '*'] <+: (skip ⟨0, pragma.toList.drop "pragma".length⟩).rest

instance (pragma : String) : Decidable (OpensComment pragma) := inferInstanceAs (Decidable (_ <+: _))

section Pieces

variable {c d : Cursor} {cs : List Char} {t : Tree}

theorem IsDotted.closed (h : IsDotted cs) : Closed cs := by
  have hpart : ∀ p : List Char, isIdentifier p = true → Closed p := fun p hp =>
    closed_of_isBare (List.all_eq_true.2 fun x hx =>
      isBare_of_isIdentifierChar (List.all_eq_true.1 (all_of_isIdentifier hp) x hx))
  obtain ⟨ps, -, hps, rfl⟩ := h
  cases ps with
  | nil => rfl
  | cons p ps =>
    refine (hpart p (hps p (by simp))).append ?_
    induction ps with
    | nil => rfl
    | cons q qs ih =>
      rw [List.flatMap_cons, List.cons_append, closed_cons_iff rfl]
      refine (hpart q (hps q (by simp))).append (ih fun r hr => hps r ?_)
      rcases List.mem_cons.1 hr with rfl | hr <;> simp_all

theorem modifierShape_of_enclosed {name : String} {es : List (Expr Rule)} {e : Cursor}
    {ns : List Tree} (hname : IsDotted name.toList) (he : c.Passes name.toList e)
    (hkeeps : ∀ a ∈ es, keepsWithin .semicolon true a = true)
    (hgroup : Takes grammar .spaced (enclosed .round es) (skip e) d ns) (hpass : c.Passes cs d)
    (hclosed : Closed (Text.trimChars cs)) : ModifierShape name (Text.trimChars cs) := by
  obtain ⟨ws, hws, hpadding⟩ := skip_padding e
  obtain ⟨mid, hmid⟩ := enclosed_text hkeeps hgroup
  have hsplit : cs = name.toList ++ (ws ++ '(' :: (mid ++ [')'])) := by
    refine (List.append_left_inj d.rest).1 ?_
    rw [← hpass.1, (he.trans (hws.trans hmid)).1]
    rfl
  have htrimmed : Trimmed cs := by
    obtain ⟨ps, hne, hps, hdotted⟩ := hname
    have hclose : Trimmed [')'] := ⟨⟨')', [], rfl, rfl⟩, ⟨[], ')', rfl, rfl⟩⟩
    have h := (hdotted ▸ trimmed_dotted hne hps : Trimmed name.toList).append hclose (ws ++ '(' :: mid)
    rw [hsplit]
    simpa using h
  rw [htrimmed.trimChars] at hclosed ⊢
  have hpadded : Padded ws := padded_of_padding (hmid.1 ▸ hpadding) rfl
  subst hsplit
  rw [hname.closed.append_iff, hpadded.closed.append_iff] at hclosed
  exact ⟨hname, _, rfl, .inr ⟨ws, _, rfl, hpadded, groupShape_of_enclosed hkeeps hgroup hmid hclosed⟩⟩

theorem modifierShape_of_invocation
    (h : Takes grammar .spaced (.rule .modifierInvocation) c d [t]) (hpass : c.Passes cs d)
    (hclosed : Closed (Text.trimChars cs)) : ModifierShape (dottedName t) (Text.trimChars cs) := by
  obtain ⟨children, hbody, hnode⟩ := (takes_rule_iff (by decide)).1 h
  obtain rfl := List.singleton_inj.1 hnode
  obtain ⟨e, _, _, hname, hmaybe, rfl⟩ := takes_seq_iff.1 hbody
  obtain ⟨rfl, ps, hne, hps, he⟩ := dotted_of_takes hname
  have hdotted : ∀ args, dottedName ⟨.modifierInvocation, c, d, ⟨.userTypeName, c, e, []⟩ :: args⟩ =
      String.ofList (dotted ps) := by
    intro args
    simp [dottedName, Node.child?, Node.string, Node.text, he.upTo]
  have hIsDotted : IsDotted (String.ofList (dotted ps)).toList :=
    ⟨ps, hne, hps, String.toList_ofList⟩
  have he' : c.Passes (String.ofList (dotted ps)).toList e := by rwa [String.toList_ofList]
  rw [List.singleton_append, hdotted]
  cases hmaybe with
  | maybe hargs =>
    obtain ⟨children, hgroup, -⟩ := takes_callArguments_iff.1 hargs
    exact modifierShape_of_enclosed hIsDotted he' keepsWithin_fillers hgroup hpass hclosed
  | maybeNot =>
    -- only padding is left, and cut off at its end it ends with a comment
    obtain ⟨ws, hws, hpadding⟩ := skip_padding e
    obtain rfl : cs = dotted ps ++ ws := by
      refine (List.append_left_inj (skip e).rest).1 ?_
      rw [← (he.trans hws).1]
      exact hpass.1.symm
    have htrimmed := trimmed_dotted hne hps
    rw [trimChars_append_of_trimmed htrimmed] at hclosed ⊢
    have hname : Closed (dotted ps) := IsDotted.closed ⟨ps, hne, hps, rfl⟩
    have hpadded := (hname.append_iff.1 hclosed).padded (padding_trimRight hpadding)
    refine ⟨hIsDotted, _, by rw [String.toList_ofList], .inl ⟨hpadded, fun x hx => ?_⟩⟩
    refine (hpadded.last x hx).resolve_left fun hspace => ?_
    have hblank := getLast?_trimRight ws x hx
    rw [isBlank_of_isSpace hspace] at hblank
    cases hblank

theorem modifierShape_of_returns {ns : List Tree}
    (h : Takes grammar .spaced (.rule .returnsClause) c d ns) (hpass : c.Passes cs d)
    (hclosed : Closed (Text.trimChars cs)) : ModifierShape "returns" (Text.trimChars cs) := by
  obtain ⟨children, hbody, -⟩ := (takes_rule_iff (by decide)).1 h
  obtain ⟨e, _, _, hword, hlist, -⟩ := takes_seq_iff.1 hbody
  obtain ⟨-, he, -⟩ := keyword_of_takes hword
  obtain ⟨params, hgroup, -⟩ := takes_parameterList_iff.1 hlist
  have hdotted : IsDotted "returns".toList := isDotted_of_isIdentifier (by decide)
  exact modifierShape_of_enclosed hdotted he keepsWithin_listBody hgroup hpass hclosed

/-- A modifier has a shape if its text is closed. -/
theorem modifierShape_of_ofTree? {source : String} {m : Modifier} (h : Modifier.ofTree? t = some m)
    (ht : Takes grammar .spaced (.rule t.rule) t.start t.stop [t])
    (horigin : (origin source).Before t.start)
    (hclosed : IsClosedText (Text.trim (m.span.slice source))) :
    ModifierShape m.name (Text.trim (m.span.slice source)).toList := by
  obtain ⟨cs, hcs⟩ : t.start.Before t.stop := ht.passes grammar_bounded.skips
  have hslice : m.span.slice source = String.ofList cs := by
    rw [Modifier.span_of_ofTree? h]
    exact slice_of_passes horigin hcs
  rw [hslice, IsClosedText, Text.trim, String.toList_ofList, String.toList_ofList] at hclosed
  rw [hslice, Text.trim, String.toList_ofList, String.toList_ofList]
  unfold Modifier.ofTree? at h
  split at h
  · rename_i hrule
    cases h
    rw [hrule] at ht
    exact modifierShape_of_returns ht hcs hclosed
  · rename_i hrule
    cases h
    rw [hrule] at ht
    exact modifierShape_of_invocation ht hcs hclosed
  · cases h

theorem fails_typeName {x : Char} (n : Nat) (xs : List Char) (hx : isIdentifierStart x = false) :
    Fails grammar .spaced (.rule .typeName) ⟨n, x :: xs⟩ := by
  have hne : ∀ y : Char, isIdentifierStart y = true → y ≠ x := by
    rintro y hy rfl
    simp [hx] at hy
  refine .ruleFail (.seqFirst (.choiceRight ?_ (.choiceRight ?_ (fails_userTypeName rfl hx))))
  · exact .ruleFail (.seqFirst (.ruleFail (.seqFirst (fails_text (hne 'm' rfl)))))
  · exact .ruleFail (.seqFirst (fails_text (hne 'a' rfl)))

theorem listShape_nil : ListShape true ['(', ')'] where
  closed := rfl
  takes := by
    let e : Cursor := ⟨1, [')']⟩
    have hskip : skip e = e := skip_solid _ (by decide) rfl
    have hbody : Takes grammar .spaced listBody (skip e) e [] := by
      rw [hskip]
      exact .maybeNot (.seqFirst (.ruleFail (.seqFirst (fails_typeName _ _ rfl))))
    have hrow : Row [listBody] (skip e) (skip e) ([] ++ []) := .cons hbody (.nil _)
    refine ⟨_, rfl, takes_parameterList_iff.2
      ⟨_, takes_enclosed_iff.2 ⟨e, skip e, ⟨rfl, rfl⟩, hrow, ?_⟩, rfl⟩⟩
    rw [hskip]
    exact ⟨rfl, rfl⟩

/-- A pragma is read again in front of another text. Only if a comment opens in it, the text has to
leave it open. -/
theorem pragmaShape_of_takes {ns : List Tree} {rest : List Char}
    (h : Takes grammar .spaced (.rule .pragmaDirective) c d ns) (hpass : c.Passes cs d)
    (hopen : ['/', '*'] <+: (skip ⟨0, cs.drop "pragma".length⟩).rest → ¬ ['*', '/'] <:+: rest) :
    PragmaShape rest cs := by
  obtain ⟨e, f, x, xs, hword, hend, hvalue, hall, hsemi, -⟩ := takes_pragmaDirective_iff.1 h
  obtain ⟨ws, hws⟩ := skip_passes e
  have hsplit : cs = "pragma".toList ++ (ws ++ (x :: xs)) ++ [';'] := by
    refine (List.append_left_inj d.rest).1 ?_
    rw [← hpass.1, (hword.trans (hws.trans (hvalue.trans hsemi))).1]
    simp
  have hdrop : e.rest = cs.drop "pragma".length ++ d.rest := by
    have hlength : "pragma".length = "pragma".toList.length := rfl
    rw [hsplit, hlength, List.append_assoc, List.drop_left, hws.1, hvalue.1, hsemi.1]
    simp
  have hc : Facing d.rest c :=
    ⟨cs, hpass.1, hsplit ▸ settled_append_singleton _ (by decide) (by decide)⟩
  have hd : Ahead d.rest d := ⟨[], rfl⟩
  obtain ⟨a, hne, ha, hsettled⟩ := pragmaValue_facing hc hd hword hvalue hsemi
  -- the padding of the pragma alone ends where it ended
  have halone : (skip ⟨0, cs.drop "pragma".length⟩).rest = x :: a := by
    have hpadding : skip (spliced d.rest [] e) = skip (spliced d.rest [] (skip e)) :=
      (takes_pragmaDirective_spliced hc hd hword hend hvalue hall hsemi).1
    have hnone := trivium?_spliced_none (trivium?_skip e) ha hsettled
      (seamless_of_initial (List.nil_prefix (l := d.rest))) fun _ => hne
    rw [skip_of_none hnone, spliced_of_eq ha, spliced_of_eq hdrop, List.append_nil,
      List.append_nil] at hpadding
    rw [skip_rest_eq 0 e.offset, hpadding]
  have hclear : trivium? (spliced d.rest rest (skip e)) = none := by
    obtain hnone | ⟨hstar, -, hnew⟩ : trivium? (spliced d.rest rest (skip e)) = none ∨ _ :=
      trivium?_spliced_of_none (trivium?_skip e) ha hsettled fun _ => hne
    · exact hnone
    · have hleave := leave?_block_eq_none_iff.2 (hopen (halone ▸ hstar))
      rw [← blockEnd?_rest, Option.map_eq_none_iff] at hleave
      rw [hnew]
      exact hleave
  have htakes := (takes_pragmaDirective_spliced hc hd hword hend hvalue hall hsemi).2 hclear
  have hmoved := htakes.carry (carries_moved_grammar c.offset 0) (Nat.le_refl _)
  have hstart : (spliced d.rest rest c).moved c.offset 0 = ⟨0, cs ++ rest⟩ := by
    simp [spliced_of_eq hpass.1, Cursor.moved]
  have hstop : (spliced d.rest rest d).moved c.offset 0 = ⟨Text.byteLength cs, rest⟩ := by
    simp [spliced, Cursor.moved, hpass.2]
  rw [List.map_singleton, Node.carry, Node.carry, hstart, hstop] at hmoved
  exact ⟨_, hmoved⟩

end Pieces

section Nodes

variable {source : String} {s : Surface}

theorem exists_contract_node (hs : Surface.ofSource source = .ok s) :
    ∃ t : Tree, s.contract = Contract.ofTree t ∧ t.rule = .contractDefinition ∧
      Takes grammar .spaced (.rule t.rule) t.start t.stop [t] ∧ (origin source).Before t.start := by
  obtain ⟨u, hu, hlocate⟩ := Surface.ofSource_eq_ok_iff.1 hs
  obtain ⟨root, htree, rfl⟩ := parse_eq_ok_iff.1 hu
  obtain ⟨d, htakes⟩ := tree_eq_ok_iff.1 htree
  obtain ⟨children, hbody, hroot⟩ := (takes_rule_iff (by decide)).1 htakes
  obtain rfl := List.singleton_inj.1 hroot
  obtain ⟨c, hc, rfl⟩ := Option.map_eq_some_iff.1 hlocate
  obtain ⟨t, ht, hrule, rfl⟩ := exists_node_of_mem_contracts (List.mem_of_find?_eq_some hc)
  have hchained := hbody.chained grammar_bounded.skips
  exact ⟨t, rfl, hrule, hbody.takes_of_mem ht, (hchained.of_mem ht).1⟩

theorem exists_member_node (hs : Surface.ofSource source = .ok s) {m : Member}
    (hm : m ∈ s.contract.body) :
    ∃ t : Tree, Member.ofTree? t = some m ∧
      Takes grammar .spaced (.rule t.rule) t.start t.stop [t] ∧ (origin source).Before t.start := by
  obtain ⟨contract, hcontract, hrule, ht, horigin⟩ := exists_contract_node hs
  rw [hcontract] at hm
  obtain ⟨t, htmem, hread⟩ := List.mem_filterMap.1 hm
  have hbody := ht.children (by rw [hrule]; decide)
  have hchained := hbody.chained grammar_bounded.skips
  exact ⟨t, hread, hbody.takes_of_mem htmem, horigin.trans (hchained.of_mem htmem).1⟩

theorem isIdentifier_contract_name (hs : Surface.ofSource source = .ok s) :
    isIdentifier s.contract.name.toList = true := by
  obtain ⟨t, hcontract, hrule, ht, -⟩ := exists_contract_node hs
  rw [hrule] at ht
  obtain ⟨j, h, e, header, parts, hrow, -, -, -, -, hnode⟩ := takes_contractDefinition_iff.1 ht
  cases hrow with
  | cons hkind hrow =>
    obtain ⟨kindChildren, -, rfl⟩ := (takes_rule_iff (by decide)).1 hkind
    cases hrow with
    | cons hident hrow =>
      obtain ⟨-, ⟨p, hp, hpass⟩, rfl⟩ := takes_identifier_iff.1 hident
      rw [hcontract, List.singleton_inj.1 hnode]
      simpa [Contract.ofTree, Node.child?, Node.string, Node.text, hpass.upTo] using hp

theorem pragmaShape_of_ofSource (hs : Surface.ofSource source = .ok s) {rest : List Char}
    (hopen : OpensComment s.pragma → ¬ ['*', '/'] <:+: rest) :
    s.pragma = "" ∨ PragmaShape rest s.pragma.toList := by
  obtain ⟨u, hu, hlocate⟩ := Surface.ofSource_eq_ok_iff.1 hs
  obtain ⟨root, htree, rfl⟩ := parse_eq_ok_iff.1 hu
  obtain ⟨d, htakes⟩ := tree_eq_ok_iff.1 htree
  obtain ⟨children, hbody, hroot⟩ := (takes_rule_iff (by decide)).1 htakes
  obtain rfl := List.singleton_inj.1 hroot
  obtain ⟨c, -, rfl⟩ := Option.map_eq_some_iff.1 hlocate
  dsimp only at hopen ⊢
  cases hfind : (SourceUnit.ofTree _).items.findSome? (·.pragma?) with
  | none => exact .inl rfl
  | some span =>
    rw [hfind, Option.map_some, Option.getD_some] at hopen
    rw [Option.map_some, Option.getD_some]
    obtain ⟨i, hi, hpragma⟩ := List.exists_of_findSome?_eq_some hfind
    obtain ⟨t, ht, hread⟩ := List.mem_filterMap.1 hi
    have hrule : t.rule = .pragmaDirective ∧ t.span = span := by
      unfold SourceItem.ofTree? at hread
      split at hread <;> cases hread <;> cases hpragma
      exact ⟨by assumption, rfl⟩
    obtain ⟨hrule, rfl⟩ := hrule
    have htake := hbody.takes_of_mem ht
    obtain ⟨cs, hcs⟩ : t.start.Before t.stop := htake.passes grammar_bounded.skips
    have hslice : t.span.slice source = String.ofList cs :=
      slice_of_passes ((hbody.chained grammar_bounded.skips).of_mem ht).1 hcs
    rw [hslice, OpensComment, String.toList_ofList] at hopen
    rw [hslice, String.toList_ofList]
    exact .inr (pragmaShape_of_takes (hrule ▸ htake) hcs hopen)

end Nodes

section Functions

theorem draws_of_pieces {s : StubShape} {head : String} {kept : List String}
    (hhead : s.head = head.toList) (hkept : s.modifiers.map (fun m => String.ofList m.2) = kept) :
    Draws s ("  " ++ " ".intercalate (head :: kept) ++ ";") := by
  have hmodifiers : behind kept = modifierChars s.modifiers := by
    rw [← hkept, behind, modifierChars, List.flatMap_map]
    simp
  have hspread : spread (head :: kept) = s.head ++ modifierChars s.modifiers := by
    rw [hhead, ← hmodifiers]
    rfl
  rw [Draws, String.toList_append, String.toList_append, toList_intercalate_space, hspread,
    StubShape.text]
  simp

theorem toList_plainHead (name : String) : ("function " ++ name ++ "()").toList =
    functionChars ++ ' ' :: (name.toList ++ ['(', ')']) := by
  rw [String.toList_append, String.toList_append, List.append_assoc]
  rfl

variable {source : String} {t : Tree} {name : String}

def FunctionDecl.pieces (f : FunctionDecl) (source : String) : List (String × List Char) :=
  f.plain.map fun m => (m.name, (Text.trim (m.span.slice source)).toList)

theorem modifierShape_of_mem_pieces (hrule : t.rule = .functionDefinition)
    (ht : Takes grammar .spaced (.rule t.rule) t.start t.stop [t])
    (horigin : (origin source).Before t.start)
    (hclosed : ∀ text ∈ (FunctionDecl.ofTree t).retained source, IsClosedText text) :
    ∀ p ∈ (FunctionDecl.ofTree t).pieces source, ModifierShape p.1 p.2 := by
  intro p hp
  have hbody := ht.children (by rw [hrule]; decide)
  have hchained := hbody.chained grammar_bounded.skips
  obtain ⟨m, hm, rfl⟩ := List.mem_map.1 hp
  have hmem := FunctionDecl.mem_retained_of_mem_plain hm source
  obtain ⟨n, hn, hread⟩ := List.mem_filterMap.1 (FunctionDecl.mem_plain.1 hm).1
  dsimp only
  exact modifierShape_of_ofTree? hread (hbody.takes_of_mem hn) (horigin.trans (hchained.of_mem hn).1)
    (hclosed _ hmem)

theorem exists_functionPieces (hrule : t.rule = .functionDefinition)
    (ht : Takes grammar .spaced (.rule t.rule) t.start t.stop [t])
    (hname : (FunctionDecl.ofTree t).name = some name) :
    isIdentifier name.toList = true ∧ ∃ e d g list, t.start.Passes functionChars e ∧
      e.char? isIdentifierChar = none ∧ (skip e).Passes name.toList d ∧
      Takes grammar .spaced (.rule .parameterList) (skip d) g [list] ∧
      (FunctionDecl.ofTree t).params = Parameter.listOfTree list ∧
      (FunctionDecl.ofTree t).paramsSpan.stop = g.offset := by
  rw [hrule] at ht
  obtain ⟨j, header, body, hrow, -, hnode⟩ := takes_functionDefinition_iff.1 ht
  cases hrow with
  | @cons _ _ _ d _ fronts _ hfront hrow =>
    obtain ⟨frontChildren, -, rfl⟩ := (takes_rule_iff (by decide)).1 hfront
    cases hrow with
    | @cons _ _ _ g _ lists nodes hlist hrow =>
      obtain ⟨listChildren, -, rfl⟩ := (takes_rule_iff (by decide)).1 hlist
      let front : Tree := ⟨.functionHead, t.start, d, frontChildren⟩
      let list : Tree := ⟨.parameterList, skip d, g, listChildren⟩
      have hchildren : t.children = front :: list :: (nodes ++ body) :=
        congrArg Node.children (List.singleton_inj.1 hnode)
      have hfront? : t.child? .functionHead = some front := by simp [Node.child?, hchildren, front]
      have hlist? : t.child? .parameterList = some list := by
        simp [Node.child?, hchildren, front, list]
      have hident : (front.child? .identifier).map (·.string) = some name := by
        simpa [FunctionDecl.ofTree, hfront?] using hname
      obtain ⟨hisName, e, hword, hend, hnamePass, -⟩ := functionHead_of_takes hfront hident
      refine ⟨hisName, e, d, g, list, hword, hend, hnamePass, hlist, ?_, ?_⟩
      · simp [FunctionDecl.ofTree, hlist?]
      · simp [FunctionDecl.ofTree, hlist?, list, Node.span]

/-- A function with a name has a shape if its retained texts are closed. -/
theorem exists_functionShape (hrule : t.rule = .functionDefinition)
    (ht : Takes grammar .spaced (.rule t.rule) t.start t.stop [t])
    (horigin : (origin source).Before t.start) (hname : (FunctionDecl.ofTree t).name = some name)
    (hclosed : ∀ text ∈ (FunctionDecl.ofTree t).retained source, IsClosedText text) :
    ∃ s : StubShape, s.name = name ∧ s.noParams = (FunctionDecl.ofTree t).params.isEmpty ∧
      s.head = ((FunctionDecl.ofTree t).head source []).toList ∧
      s.modifiers = (FunctionDecl.ofTree t).pieces source := by
  have hmodifiers := modifierShape_of_mem_pieces hrule ht horigin hclosed
  obtain ⟨hisName, e, d, g, list, hword, hend, hnamePass, hlist, hparams, hstop⟩ :=
    exists_functionPieces hrule ht hname
  by_cases hempty : (FunctionDecl.ofTree t).params.isEmpty = true
  · refine ⟨⟨name, [' '], [], ['(', ')'], true, _, hisName, by simp, .space rfl .nil, .nil,
      listShape_nil, hmodifiers⟩, rfl, hempty.symm, ?_, rfl⟩
    rw [FunctionDecl.head, if_pos hempty, hname, Option.getD_some, toList_plainHead]
    rfl
  · obtain ⟨ws, hws, hpadding⟩ := skip_padding e
    obtain ⟨ws', hws', hpadding'⟩ := skip_padding d
    obtain ⟨ls, hls⟩ : (skip d).Before g := hlist.passes grammar_bounded.skips
    have hpass := hword.trans (hws.trans (hnamePass.trans (hws'.trans hls)))
    have hslice : Span.slice ⟨(FunctionDecl.ofTree t).span.start,
        (FunctionDecl.ofTree t).paramsSpan.stop⟩ source =
        String.ofList (functionChars ++ (ws ++ (name.toList ++ (ws' ++ ls)))) := by
      rw [hstop]
      exact slice_of_passes horigin hpass
    have hhead := hclosed _ (FunctionDecl.mem_retained_head hempty source)
    rw [hslice, IsClosedText, String.toList_ofList] at hhead
    have hpadded : Padded ws := by
      obtain ⟨x, xs, hx, hstart⟩ := (isDotted_of_isIdentifier hisName).head
      have hrest := hnamePass.1
      rw [hx, List.cons_append] at hrest
      exact padded_of_padding (hrest ▸ hpadding)
        (isLineEnd_of_isIdentifierChar (isIdentifierChar_of_start hstart))
    have hpadded' : Padded ws' := by
      obtain ⟨params, hgroup, -⟩ := takes_parameterList_iff.1 hlist
      obtain ⟨mid, hmid⟩ := enclosed_text keepsWithin_listBody hgroup
      exact padded_of_padding (hmid.1 ▸ hpadding') rfl
    have hnameClosed := (isDotted_of_isIdentifier hisName).closed
    have hlistClosed : Closed ls := by
      have hfunction : Closed functionChars := rfl
      rwa [hfunction.append_iff, hpadded.closed.append_iff, hnameClosed.append_iff,
        hpadded'.closed.append_iff] at hhead
    have hgap : ws ≠ [] := by
      rintro rfl
      have hrest : e.rest = name.toList ++ d.rest := hws.1.trans hnamePass.1
      have hhead := endsRun_of_char? hend
      rw [hrest] at hhead
      cases hchars : name.toList with
      | nil => simp [hchars, isIdentifier] at hisName
      | cons x xs =>
        simp only [hchars, isIdentifier, Bool.and_eq_true] at hisName
        simp [EndsRun, hchars, isIdentifierChar_of_start hisName.1] at hhead
    refine ⟨⟨name, ws, ws', ls, (Parameter.listOfTree list).isEmpty, _, hisName, hgap, hpadded,
      hpadded', listShape_of_takes hlist hls hlistClosed, hmodifiers⟩, rfl, by rw [hparams], ?_, rfl⟩
    rw [FunctionDecl.head, if_neg hempty, hslice, substituteEnums, Text.replaceWords_nil,
      String.toList_ofList]
    rfl

end Functions

section Getters

def getterShape (name : String) (literal : List Char) (hname : isIdentifier name.toList = true)
    (hgroup : GroupShape ('(' :: (literal ++ [')']))) : StubShape where
  name
  nameGap := [' ']
  listGap := []
  list := ['(', ')']
  noParams := true
  modifiers := [("public", "public".toList), ("constant", "constant".toList),
    ("returns", "returns".toList ++ '(' :: (literal ++ [')']))]
  isIdentifier := hname
  nameGap_ne_nil := by simp
  nameGap_padded := .space rfl .nil
  listGap_padded := .nil
  listShape := listShape_nil
  modifierShapes := by
    have hword : ∀ w : String, isIdentifier w.toList = true → IsDotted w.toList := fun _ =>
      isDotted_of_isIdentifier
    have hnone : ArgumentShape [] := .inl ⟨.nil, by simp⟩
    intro m hm
    simp only [List.mem_cons, List.not_mem_nil, or_false] at hm
    rcases hm with rfl | rfl | rfl
    · exact ⟨hword "public" rfl, [], by simp, hnone⟩
    · exact ⟨hword "constant" rfl, [], by simp, hnone⟩
    · exact ⟨hword "returns" rfl, _, rfl, .inr ⟨[], _, rfl, .nil, hgroup⟩⟩

theorem text_getterShape {name : String} {literal : List Char}
    (hname : isIdentifier name.toList = true) (hgroup : GroupShape ('(' :: (literal ++ [')']))) :
    (getterShape name literal hname hgroup).text = "function ".toList ++ (name.toList ++
      ("() public constant returns(".toList ++ (literal ++ ");".toList))) := by
  have hmodifiers : modifierChars (getterShape name literal hname hgroup).modifiers ++ [';'] =
      " public constant returns(".toList ++ (literal ++ [')', ';']) := by
    have hwords : ∀ as bs cs : List Char,
        ' ' :: as ++ (' ' :: bs ++ (' ' :: (cs ++ '(' :: (literal ++ [')'])) ++ [])) ++ [';'] =
          ' ' :: (as ++ ' ' :: (bs ++ ' ' :: (cs ++ ['(']))) ++ (literal ++ [')', ';']) := by
      intro as bs cs
      simp
    exact hwords "public".toList "constant".toList "returns".toList
  rw [StubShape.text, hmodifiers]
  change functionChars ++ ([' '] ++ (name.toList ++ ([] ++ ['(', ')']))) ++ _ = _
  rw [List.append_assoc, List.append_assoc, List.append_assoc]
  rfl

theorem draws_getterShape (v : VariableDecl) (enums : List String)
    (hname : isIdentifier v.name.toList = true)
    (hgroup : GroupShape
      ('(' :: ((substituteEnums enums v.typeName.getterLiteral).toList ++ [')']))) :
    Draws (getterShape v.name _ hname hgroup) (v.stub enums) := by
  rw [Draws, VariableDecl.stub, text_getterShape]
  simp only [String.toList_append, List.append_assoc]
  rfl

variable {source : String} {t : Tree}

theorem TypeName.literal_ofTree (t : Tree) :
    (TypeName.ofTree t).literal = String.ofList (Text.trimChars t.text) := by
  obtain ⟨r, start, stop, children⟩ := t
  rw [TypeName.ofTree]
  split <;> rfl

theorem TypeName.mem_ofTrees {ns : List Tree} {type : TypeName} (h : type ∈ TypeName.ofTrees ns) :
    ∃ n ∈ ns, n.rule = .typeName ∧ type = TypeName.ofTree n := by
  induction ns with
  | nil => simp [TypeName.ofTrees] at h
  | cons n ns ih =>
    rw [TypeName.ofTrees] at h
    split at h
    · rename_i hrule
      rcases List.mem_cons.1 h with rfl | h
      · exact ⟨n, by simp, hrule, rfl⟩
      · obtain ⟨n', hn', hrule', htype⟩ := ih h
        exact ⟨n', List.mem_cons_of_mem n hn', hrule', htype⟩
    · obtain ⟨n', hn', hrule', htype⟩ := ih h
      exact ⟨n', List.mem_cons_of_mem n hn', hrule', htype⟩

theorem exists_keyAndValue {key value : TypeName} {literal : String} (hrule : t.rule = .typeName)
    (ht : Takes grammar .spaced (.rule t.rule) t.start t.stop [t])
    (h : TypeName.ofTree t = .mapping key value literal) :
    ∀ type ∈ [key, value], ∃ n : Tree, n.rule = .typeName ∧ t.start.Before n.start ∧
      Takes grammar .spaced (.rule n.rule) n.start n.stop [n] ∧ type = TypeName.ofTree n := by
  have hbody := ht.children (by rw [hrule]; decide)
  have hchained := hbody.chained grammar_bounded.skips
  obtain ⟨r, start, stop, children⟩ := t
  rw [TypeName.ofTree] at h
  split at h
  · rename_i key' value' hkey
    cases h
    cases children with
    | nil => cases hkey
    | cons n ns =>
      obtain ⟨hbefore, hinner, -⟩ := hchained.of_mem (List.mem_cons_self ..)
      obtain ⟨r', start', stop', children'⟩ := n
      rw [TypeName.keyAndValue?] at hkey
      split at hkey
      · rename_i hmapping
        subst hmapping
        split at hkey
        · rename_i _ _ _ htypes
          cases hkey
          have hmapping := hbody.takes_of_mem (List.mem_cons_self ..)
          have hmappingBody := hmapping.children (by dsimp only; decide)
          intro type htype
          have hmem : type ∈ TypeName.ofTrees children' := by
            rw [htypes]
            exact List.mem_append_left _ htype
          obtain ⟨n, hn, hnrule, rfl⟩ := TypeName.mem_ofTrees hmem
          exact ⟨n, hnrule, hbefore.trans (hinner.of_mem hn).1, hmappingBody.takes_of_mem hn, rfl⟩
        · cases hkey
      · cases hkey
  · cases h

/-- A getter returns a type that was read somewhere in the type of its variable. -/
theorem exists_getterType (hrule : t.rule = .typeName)
    (ht : Takes grammar .spaced (.rule t.rule) t.start t.stop [t]) :
    ∃ n : Tree, Takes grammar .spaced (.rule .typeName) n.start n.stop [n] ∧
      (TypeName.ofTree t).getterLiteral = String.ofList (Text.trimChars n.text) := by
  cases htype : TypeName.ofTree t with
  | named literal =>
    have hliteral := TypeName.literal_ofTree t
    rw [htype] at hliteral
    exact ⟨t, hrule ▸ ht, hliteral⟩
  | mapping key value literal =>
    obtain ⟨n, hnrule, -, hntake, rfl⟩ := exists_keyAndValue hrule ht htype value (by simp)
    exact ⟨n, hnrule ▸ hntake, TypeName.literal_ofTree n⟩

theorem isIdentifier_string (hrule : t.rule = .identifier)
    (ht : Takes grammar .spaced (.rule t.rule) t.start t.stop [t]) :
    isIdentifier t.string.toList = true := by
  rw [hrule] at ht
  obtain ⟨-, ⟨p, hp, hpass⟩, -⟩ := takes_identifier_iff.1 ht
  rwa [Node.string, Node.text, hpass.upTo, String.toList_ofList]

theorem exists_variablePieces (hrule : t.rule = .stateVariableDeclaration)
    (ht : Takes grammar .spaced (.rule t.rule) t.start t.stop [t]) :
    isIdentifier (VariableDecl.ofTree t).name.toList = true ∧
      ∃ n : Tree, Takes grammar .spaced (.rule .typeName) n.start n.stop [n] ∧
        (VariableDecl.ofTree t).typeName.getterLiteral = String.ofList (Text.trimChars n.text) := by
  have hbody := ht.children (by rw [hrule]; decide)
  have hparts := hbody
  rw [hrule] at hparts
  obtain ⟨_, types, _, htype, hparts', hchildren⟩ := takes_seq_iff.1 hparts
  obtain ⟨_, attributes, _, -, hparts'', rfl⟩ := takes_seq_iff.1 hparts'
  obtain ⟨_, names, values, hname, -, rfl⟩ := takes_seq_iff.1 hparts''
  obtain ⟨typeChildren, -, rfl⟩ := (takes_rule_iff (by decide)).1 htype
  obtain ⟨-, -, rfl⟩ := takes_identifier_iff.1 hname
  have hchild : ∀ r n, t.child? r = some n →
      n.rule = r ∧ Takes grammar .spaced (.rule n.rule) n.start n.stop [n] := by
    intro r n hn
    have hr := List.find?_some hn
    exact ⟨by simpa using hr, hbody.takes_of_mem (List.mem_of_find?_eq_some hn)⟩
  constructor
  · cases hn : t.child? .identifier with
    | none => simp [Node.child?, hchildren] at hn
    | some n =>
      obtain ⟨hnrule, hntake⟩ := hchild _ n hn
      simpa [VariableDecl.ofTree, hn] using isIdentifier_string hnrule hntake
  · cases hn : t.child? .typeName with
    | none => simp [Node.child?, hchildren] at hn
    | some n =>
      obtain ⟨hnrule, hntake⟩ := hchild _ n hn
      obtain ⟨n', hn', hliteral⟩ := exists_getterType hnrule hntake
      exact ⟨n', hn', by simpa [VariableDecl.ofTree, hn] using hliteral⟩

theorem groupShape_getterLiteral {n : Tree} {literal : String}
    (hn : Takes grammar .spaced (.rule .typeName) n.start n.stop [n])
    (hliteral : literal = String.ofList (Text.trimChars n.text)) (hclosed : IsClosedText literal) :
    GroupShape ('(' :: (literal.toList ++ [')'])) := by
  obtain ⟨_, _, _, -, -, -, halone⟩ := takes_typeName_alone hn
  rw [hliteral, IsClosedText, String.toList_ofList] at hclosed
  rw [hliteral, String.toList_ofList]
  have hflow : flow .semicolon true .spaced (.rule .typeName) .start = some (.reaches .start) := by
    decide
  refine ⟨?_, takes_callArguments_of_closed hflow rfl hclosed halone⟩
  have hparen : Closed [')'] := rfl
  exact (closed_cons_iff rfl).2 (hclosed.append hparen)

end Getters

section Sources

variable {source : String} {s : Surface}

theorem Contract.mem_functions {c : Contract} {f : FunctionDecl} (h : f ∈ c.functions) :
    .function f ∈ c.body ∧ c.shows f = true := by
  obtain ⟨hf, hshows⟩ := List.mem_filter.1 h
  obtain ⟨m, hm, hfunction⟩ := List.mem_filterMap.1 hf
  cases m with
  | function f' =>
    cases hfunction
    exact ⟨hm, hshows⟩
  | stateVariable | enum | other => cases hfunction

theorem Contract.mem_publicVariables {c : Contract} {v : VariableDecl} (h : v ∈ c.publicVariables) :
    .stateVariable v ∈ c.body := by
  obtain ⟨m, hm, hvariable⟩ := List.mem_filterMap.1 (List.mem_filter.1 h).1
  cases m with
  | stateVariable v' =>
    cases hvariable
    exact hm
  | function | enum | other => cases hvariable

theorem Contract.mem_retained_of_mem_functions {c : Contract} {f : FunctionDecl}
    (hf : f ∈ c.functions) {text : String} (htext : text ∈ f.retained source) :
    text ∈ c.retained source := by
  simp only [Contract.retained, List.mem_append, List.mem_flatMap]
  exact .inl ⟨f, hf, htext⟩

theorem Contract.mem_retained_of_mem_publicVariables {c : Contract} {v : VariableDecl}
    (hv : v ∈ c.publicVariables) (source : String) :
    v.typeName.getterLiteral ∈ c.retained source := by
  simp only [Contract.retained, List.mem_append, List.mem_map]
  exact .inr ⟨v, hv, rfl⟩

theorem exists_function_node (hs : Surface.ofSource source = .ok s) {f : FunctionDecl}
    (hf : f ∈ s.contract.functions) :
    ∃ (t : Tree) (name : String), t.rule = .functionDefinition ∧ f = .ofTree t ∧ f.name = some name ∧
      Takes grammar .spaced (.rule t.rule) t.start t.stop [t] ∧ (origin source).Before t.start := by
  obtain ⟨hmem, hshows⟩ := Contract.mem_functions hf
  obtain ⟨t, hread, ht, horigin⟩ := exists_member_node hs hmem
  obtain ⟨hrule, rfl⟩ := Member.of_ofTree? hread
  simp only [Contract.shows, Bool.and_eq_true] at hshows
  obtain ⟨name, hname⟩ := Option.isSome_iff_exists.1 hshows.1.1.2
  exact ⟨t, name, hrule, rfl, hname, ht, horigin⟩

theorem exists_variable_node (hs : Surface.ofSource source = .ok s) {v : VariableDecl}
    (hv : v ∈ s.contract.publicVariables) :
    isIdentifier v.name.toList = true ∧
      ∃ n : Tree, Takes grammar .spaced (.rule .typeName) n.start n.stop [n] ∧
        v.typeName.getterLiteral = String.ofList (Text.trimChars n.text) := by
  obtain ⟨t, hread, ht, -⟩ := exists_member_node hs (Contract.mem_publicVariables hv)
  obtain ⟨hrule, rfl⟩ := Member.of_ofTree? hread
  exact exists_variablePieces hrule ht

theorem isIdentifier_of_mem_functions (hs : Surface.ofSource source = .ok s) {f : FunctionDecl}
    (hf : f ∈ s.contract.functions) :
    ∃ name, f.name = some name ∧ isIdentifier name.toList = true := by
  obtain ⟨t, name, hrule, rfl, hname, ht, -⟩ := exists_function_node hs hf
  exact ⟨name, hname, (exists_functionPieces hrule ht hname).1⟩

/-- A function that the interface shows has the shape of its stub, before enums are replaced. -/
theorem exists_shape_of_mem_functions (hs : Surface.ofSource source = .ok s)
    (hclosed : ∀ text ∈ s.contract.retained source, IsClosedText text) {f : FunctionDecl}
    (hf : f ∈ s.contract.functions) :
    ∃ shape : StubShape, f.name = some shape.name ∧ shape.noParams = f.params.isEmpty ∧
      shape.head = (f.head source []).toList ∧ shape.modifiers = f.pieces source := by
  obtain ⟨t, name, hrule, rfl, hname, ht, horigin⟩ := exists_function_node hs hf
  obtain ⟨shape, rfl, hparams, hhead, hmodifiers⟩ := exists_functionShape hrule ht horigin hname
    fun text htext => hclosed text (Contract.mem_retained_of_mem_functions hf htext)
  exact ⟨shape, hname, hparams, hhead, hmodifiers⟩

theorem pieces_of_mem_variables (hs : Surface.ofSource source = .ok s)
    (hclosed : ∀ text ∈ s.contract.retained source, IsClosedText text) {v : VariableDecl}
    (hv : v ∈ s.contract.publicVariables) :
    isIdentifier v.name.toList = true ∧
      GroupShape ('(' :: (v.typeName.getterLiteral.toList ++ [')'])) := by
  obtain ⟨hname, n, hn, hliteral⟩ := exists_variable_node hs hv
  exact ⟨hname, groupShape_getterLiteral hn hliteral
    (hclosed _ (Contract.mem_retained_of_mem_publicVariables hv source))⟩

end Sources

end SolidityStubs
