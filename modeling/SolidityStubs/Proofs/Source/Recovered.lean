import SolidityStubs.Proofs.Source.Printed
import SolidityStubs.Proofs.Source.Unaffected

/-! # Written declarations are read back

Functions, variables, enums, contracts, pragmas and imports that are written with single spaces
between their tokens are read as what they declare, and so is a whole source made of them.
-/
namespace SolidityStubs

open Source Peg

variable {t : String} {ts : List String}

theorem exists_append_of_forall₂ {ns : List Tree} {kinds kinds' : List (Tree → Prop)}
    (h : List.Forall₂ (fun n kind => kind n) ns (kinds ++ kinds')) :
    ∃ as bs, ns = as ++ bs ∧ List.Forall₂ (fun n kind => kind n) as kinds ∧
      List.Forall₂ (fun n kind => kind n) bs kinds' :=
  ⟨_, _, (List.take_append_drop kinds.length ns).symm, List.forall₂_take_append _ _ _ h,
    List.forall₂_drop_append _ _ _ h⟩

section Nodes

variable {α : Type} {r r' : Rule} {ns : List Tree} {xs : List α} {text : α → String}

theorem forall₂_of_map {kind : α → Tree → Prop}
    (h : List.Forall₂ (fun n kind => kind n) ns (xs.map kind)) :
    List.Forall₂ (fun n x => kind x n) ns xs :=
  List.forall₂_map_right_iff.1 h

theorem map_string_eq (h : List.Forall₂ (fun n x => IsLeaf r (text x) n) ns xs) :
    ns.map (·.string) = xs.map text := by
  induction h with
  | nil => rfl
  | cons hn _ ih => simp [hn.2, ih]

theorem find?_rule_eq_none (hne : r ≠ r') (h : List.Forall₂ (fun n _ => n.rule = r) ns xs) :
    ns.find? (·.rule = r') = none := by
  induction h with
  | nil => rfl
  | cons hn _ ih => simp [hn, hne, ih]

end Nodes

section Functions

def IsHead (h : HeadForm) (n : Tree) : Prop :=
  n.rule = .functionHead ∧ FunctionKind.ofHead n = h.kind ∧
    (n.child? .identifier).map (·.string) = h.name?

theorem reads_functionHead (h : HeadForm) :
    Reads (.rule .functionHead) (h.tokens ++ "(" :: ts) ("(" :: ts) [IsHead h] := by
  cases h with
  | function name =>
    cases name with
    | none =>
      have hname : Refuses (.rule .identifier) ("(" :: ts) := refuses_identifier rfl rfl
      refine .rule rfl ((reads_keyword .functionWord).seq hname.maybe).choiceLeft
        fun c d ns _ _ _ hns => ⟨rfl, ?_⟩
      obtain _ | ⟨hn, _ | _⟩ := hns
      simp [FunctionKind.ofHead, Node.child?, hn.1, HeadForm.kind, HeadForm.name?]
    | some i =>
      refine .rule rfl ((reads_keyword .functionWord).seq
        (reads_identifier i.toIdentifier).maybe).choiceLeft fun c d ns _ _ _ hns => ⟨rfl, ?_⟩
      obtain _ | ⟨hn, _ | ⟨hm, _ | _⟩⟩ := hns
      simp [FunctionKind.ofHead, Node.child?, hn.1, hm.1, hm.2, HeadForm.kind, HeadForm.name?]
  | constructor =>
    refine .rule rfl (.choiceRight (refuses_keyword (by decide)).seq
      (reads_keyword .constructorWord).choiceLeft) fun c d ns _ _ _ hns => ⟨rfl, ?_⟩
    obtain _ | ⟨hn, _ | _⟩ := hns
    simp [FunctionKind.ofHead, Node.child?, hn.1, HeadForm.kind, HeadForm.name?]
  | fallback =>
    refine .rule rfl (.choiceRight (refuses_keyword (by decide)).seq (.choiceRight
      (refuses_keyword (by decide)) (reads_keyword .fallbackWord).choiceLeft))
      fun c d ns _ _ _ hns => ⟨rfl, ?_⟩
    obtain _ | ⟨hn, _ | _⟩ := hns
    simp [FunctionKind.ofHead, Node.child?, hn.1, HeadForm.kind, HeadForm.name?]
  | receive =>
    refine .rule rfl (.choiceRight (refuses_keyword (by decide)).seq (.choiceRight
      (refuses_keyword (by decide)) (.choiceRight (refuses_keyword (by decide))
        (reads_keyword .receiveWord)))) fun c d ns _ _ _ hns => ⟨rfl, ?_⟩
    obtain _ | ⟨hn, _ | _⟩ := hns
    simp [FunctionKind.ofHead, Node.child?, hn.1, HeadForm.kind, HeadForm.name?]

def IsModifier (name : String) (n : Tree) : Prop :=
  (Modifier.ofTree? n).map Modifier.unplaced = some ⟨name, ⟨0, 0⟩⟩

def NoArguments (ts : List String) : Prop := ∃ u us, ts = u :: us ∧ u.toList.head? ≠ some '('

theorem NoArguments.refuses (h : NoArguments ts) : Refuses (.rule .callArguments) ts := by
  obtain ⟨u, us, rfl, hu⟩ := h
  refine .rule rfl (.seq fun c hc => ?_)
  obtain ⟨x, xs, hx, -⟩ := solid_iff.1 (hc.solid u (by simp))
  refine fails_text_of_head (hc.head hx) ?_
  rintro rfl
  simp [hx] at hu

theorem ModifierForm.refuses_returnsClause (m : ModifierForm) :
    Refuses (.rule .returnsClause) (m.path.text :: ts) := by
  intro c hc
  obtain ⟨x, hx⟩ := exists_yields .returnsClause c
  cases x with
  | none => exact hx
  | some q =>
    have hrest : c.rest = dotted (m.path.parts.map (·.text.toList)) ++ behind ts := by
      rw [hc.rest, spread, toList_dotted_text]
    have hps : ∀ p ∈ m.path.parts.map (·.text.toList), isIdentifier p = true := by
      intro p hp
      obtain ⟨i, -, rfl⟩ := List.mem_map.1 hp
      exact i.isIdentifier
    have hend : EndsRun (behind ts) := by cases ts <;> rfl
    obtain ⟨hname, -⟩ := takes_returnsClause_dotted (by simp [Dotted.parts]) hps hrest hend hx
    rw [← toList_dotted_text] at hname
    exact absurd (String.toList_inj.1 hname) m.notReturns

abbrev ModifierItemForm := ModifierForm ⊕ List ParameterForm

def ModifierItemForm.tokens : ModifierItemForm → List String
  | .inl m => [m.path.text]
  | .inr ps => "returns" :: ParameterForm.listTokens ps

def ModifierItemForm.name : ModifierItemForm → String
  | .inl m => m.path.text
  | .inr _ => "returns"

theorem ModifierItemForm.noArguments (m : ModifierItemForm) (us : List String) :
    NoArguments (m.tokens ++ us) := by
  cases m with
  | inl m =>
    refine ⟨_, _, rfl, ?_⟩
    obtain ⟨x, xs, hx, hstart⟩ := m.path.first.head
    rw [toList_dotted_text, Dotted.parts, List.map_cons, hx]
    rintro ⟨rfl⟩
    cases hstart
  | inr ps => exact ⟨_, _, rfl, by decide⟩

theorem reads_modifierItem (m : ModifierItemForm) (hts : NoArguments ts) :
    Reads modifierItem (m.tokens ++ ts) ts [IsModifier m.name] := by
  cases m with
  | inl m =>
    refine .choiceRight m.refuses_returnsClause (.rule rfl
      ((reads_userTypeName m.path).seq hts.refuses.maybe) fun c d ns _ _ _ hns => ?_)
    obtain _ | ⟨hn, _ | _⟩ := hns
    simp [IsModifier, Modifier.ofTree?, dottedName, Node.child?, hn.1, hn.2, Modifier.unplaced,
      ModifierItemForm.name]
  | inr ps =>
    exact .choiceLeft (.rule rfl ((reads_keyword .returnsWord).seq (reads_parameterList ps))
      fun c d ns _ _ _ _ => rfl)

def EndsModifiers (ts : List String) : Prop := ∃ u us, ts = u :: us ∧ (u = "\x7b" ∨ u = ";")

theorem EndsModifiers.refuses (h : EndsModifiers ts) : Refuses modifierItem ts := by
  have hitem : ∀ {u : String} {us : List String} {x : Char} {xs : List Char}, u.toList = x :: xs →
      isIdentifierStart x = false → wordOf u ≠ "returns".toList → Refuses modifierItem (u :: us) :=
    fun hu hx hword => .choice (.rule rfl (refuses_keyword hword).seq)
      (.rule rfl (refuses_userTypeName hu hx).seq)
  obtain ⟨u, us, rfl, rfl | rfl⟩ := h
  · exact hitem rfl rfl (by decide)
  · exact hitem rfl rfl (by decide)

def FunctionForm.items (f : FunctionForm) : List ModifierItemForm :=
  f.modifiers.map .inl ++ f.returns.toList.map .inr

theorem FunctionForm.tokens_eq (f : FunctionForm) :
    f.tokens = f.head.tokens ++ (ParameterForm.listTokens f.params ++
      (f.items.flatMap (·.tokens) ++ f.endTokens)) := by
  have hmodifiers : f.modifiers.flatMap (fun m => ModifierItemForm.tokens (.inl m)) =
      f.modifiers.map (·.path.text) := List.map_eq_flatMap.symm
  have hreturns : f.returns.toList.flatMap (fun ps => ModifierItemForm.tokens (.inr ps)) =
      f.returnsTokens := by
    cases hf : f.returns <;> simp [ModifierItemForm.tokens, FunctionForm.returnsTokens, hf]
  simp only [FunctionForm.tokens, FunctionForm.items, List.flatMap_append, List.flatMap_map,
    hmodifiers, hreturns, List.append_assoc]

theorem FunctionForm.modifiers_decl (f : FunctionForm) :
    f.decl.modifiers = f.items.map fun m => ⟨m.name, ⟨0, 0⟩⟩ := by
  cases hf : f.returns <;>
    simp [FunctionForm.decl, FunctionForm.items, ModifierItemForm.name, Function.comp_def, hf]

theorem reads_bodyOrSemicolon (f : FunctionForm) :
    Reads bodyOrSemicolon (f.endTokens ++ ts) ts
      (if f.hasBody then [HasRule .functionBody] else []) := by
  cases hf : f.hasBody with
  | true =>
    simp only [FunctionForm.endTokens, hf, ↓reduceIte]
    exact .choiceLeft (.rule rfl (reads_text.seq ((refuses_filler rfl (.inr rfl)).many.seq reads_text))
      fun _ _ _ _ _ _ _ => rfl)
  | false =>
    simp only [FunctionForm.endTokens, hf, Bool.false_eq_true, ↓reduceIte]
    exact .choiceRight (.rule rfl (refuses_text rfl (by decide)).seq) reads_text

def IsMember (m : MemberForm) (n : Tree) : Prop :=
  (Member.ofTree? n).map Member.unplaced = some m.decl

theorem function_ofTree {f : FunctionForm} {head params : Tree} {rest : List Tree} (c d : Cursor)
    (hhead : IsHead f.head head) (hparams : IsParameterList f.params params)
    (hrest : (rest.filterMap Modifier.ofTree?).map Modifier.unplaced = f.decl.modifiers) :
    (FunctionDecl.ofTree ⟨.functionDefinition, c, d, head :: params :: rest⟩).unplaced = f.decl := by
  obtain ⟨hrule, hkind, hname⟩ := hhead
  obtain ⟨hrule', hdecls⟩ := hparams
  let n : Tree := ⟨.functionDefinition, c, d, head :: params :: rest⟩
  have hhead? : n.child? .functionHead = some head := by simp [n, Node.child?, hrule]
  have hparams? : n.child? .parameterList = some params := by simp [n, Node.child?, hrule, hrule']
  have hmodifiers : n.children.filterMap Modifier.ofTree? = rest.filterMap Modifier.ofTree? := by
    simp [n, Modifier.ofTree?, hrule, hrule']
  change (FunctionDecl.ofTree n).unplaced = f.decl
  simp only [FunctionDecl.unplaced, FunctionDecl.ofTree, hhead?, hparams?, hmodifiers,
    Option.map_some, Option.getD_some, Option.bind_some, hkind, hname, hdecls, hrest]
  rfl

theorem reads_function (f : FunctionForm) :
    Reads (.rule .functionDefinition) (f.tokens ++ ts) ts [IsMember (.function f)] := by
  have hends : EndsModifiers (f.endTokens ++ ts) := by
    cases hf : f.hasBody with
    | true => exact ⟨"\x7b", "\x7d" :: ts, by simp [FunctionForm.endTokens, hf], .inl rfl⟩
    | false => exact ⟨";", ts, by simp [FunctionForm.endTokens, hf], .inr rfl⟩
  have hnoArguments : NoArguments (f.endTokens ++ ts) := by
    obtain ⟨u, us, heq, rfl | rfl⟩ := hends <;> exact ⟨_, _, heq, by decide⟩
  have hitems : Reads (.many modifierItem) (f.items.flatMap (·.tokens) ++ (f.endTokens ++ ts))
      (f.endTokens ++ ts) (f.items.map fun m => IsModifier m.name) :=
    .many NoArguments (fun m _ us hus => reads_modifierItem m hus)
      (fun m _ us => m.noArguments us) hnoArguments hends.refuses
  have hbody := (reads_functionHead f.head).seq ((reads_parameterList f.params).seq
    (hitems.seq (reads_bodyOrSemicolon f)))
  rw [f.tokens_eq]
  simp only [List.append_assoc]
  refine .rule rfl hbody fun c d ns _ _ _ hns => ?_
  obtain _ | ⟨hhead, _ | ⟨hparams, hns⟩⟩ := hns
  have hns : List.Forall₂ _ _ ((f.items.map fun m => IsModifier m.name) ++ _) := hns
  obtain ⟨mods, body, rfl, hmods, hbody⟩ := exists_append_of_forall₂ hns
  have hnone : body.filterMap Modifier.ofTree? = [] := by
    cases hf : f.hasBody with
    | true =>
      rw [hf] at hbody
      obtain _ | ⟨hn, _ | _⟩ := hbody
      have hrule : _ = Rule.functionBody := hn
      simp [Modifier.ofTree?, hrule]
    | false =>
      rw [hf] at hbody
      cases hbody
      rfl
  have hmodifiers : (mods.filterMap Modifier.ofTree?).map Modifier.unplaced = f.decl.modifiers := by
    rw [f.modifiers_decl]
    exact map_filterMap_eq (forall₂_of_map hmods)
  exact congrArg (fun f => some (Member.function f))
    (function_ofTree c d hhead hparams (by simp [hmodifiers, hnone]))

end Functions

section Members

theorem variable_ofTree {v : VariableForm} {type name : Tree} {attributes : List Tree} (c d : Cursor)
    (htype : IsType v.type type)
    (hall : List.Forall₂ (fun n (a : AttributeForm) => IsLeaf .stateVariableAttribute a.text n)
      attributes v.attributes)
    (hname : IsLeaf .identifier v.name.text name) :
    { VariableDecl.ofTree ⟨.stateVariableDeclaration, c, d, type :: (attributes ++ [name])⟩ with
      span := ⟨0, 0⟩ } = v.decl := by
  have hrules := hall.imp fun _ _ h => h.1
  let n : Tree := ⟨.stateVariableDeclaration, c, d, type :: (attributes ++ [name])⟩
  have htype? : n.child? .typeName = some type := by simp [n, Node.child?, htype.1]
  have hname? : n.child? .identifier = some name := by
    have hnone : attributes.find? (·.rule = .identifier) = none :=
      find?_rule_eq_none (by decide) hrules
    simp [n, Node.child?, htype.1, hname.1, hnone]
  have hattributes : n.childrenOf .stateVariableAttribute = attributes := by
    simp [n, Node.childrenOf, htype.1, hname.1, filter_rule_eq hrules]
  have hany : ∀ w : String, attributes.any (·.string == w) = v.attributes.any (·.text == w) := by
    intro w
    have h := congrArg (List.any · (· == w)) (map_string_eq hall)
    simpa [List.any_map, Function.comp_def] using h
  change { VariableDecl.ofTree n with span := ⟨0, 0⟩ } = v.decl
  simp only [VariableDecl.ofTree, htype?, hname?, hattributes, hany, Option.map_some,
    Option.getD_some, htype.2, hname.2]
  rfl

theorem reads_variable (v : VariableForm) :
    Reads (.rule .stateVariableDeclaration) (v.tokens ++ ts) ts [IsMember (.stateVariable v)] := by
  have hattribute : ∀ w ∈ attributeWords, wordOf w ≠ "payable".toList ∧ w.toList.head? ≠ some '[' := by
    decide
  have hends : EndsType (v.attributes.flatMap (fun a => [a.text]) ++ v.name.text :: ";" :: ts) := by
    cases v.attributes with
    | nil => exact endsType_name v.name
    | cons a as =>
      obtain ⟨hpayable, hbracket⟩ := hattribute a.text a.isAttribute
      exact ⟨_, _, rfl, hpayable, hbracket⟩
  have hattributes : Reads (.many (.rule .stateVariableAttribute))
      (v.attributes.flatMap (fun a => [a.text]) ++ v.name.text :: ";" :: ts)
      (v.name.text :: ";" :: ts)
      (v.attributes.map fun a => IsLeaf .stateVariableAttribute a.text) :=
    .many (fun _ => True) (fun a _ _ _ => reads_attribute a) (fun _ _ _ => trivial) trivial
      (refuses_oneOfWords rfl (by decide) (v.name.wordOf_not_mem (by decide)))
  have hvalue : Reads (.maybe (.seq (.text ['=']) untilSemicolon)) (";" :: ts) (";" :: ts) [] :=
    (refuses_text rfl (by decide)).seq.maybe
  have hbody := (reads_typeName v.type hends).seq (hattributes.seq
    ((reads_identifier v.name.toIdentifier).seq (hvalue.seq (reads_text (t := ";")))))
  have htokens : v.tokens ++ ts = v.type.tokens ++
      (v.attributes.flatMap (fun a => [a.text]) ++ v.name.text :: ";" :: ts) := by
    rw [VariableForm.tokens, ← List.map_eq_flatMap]
    simp
  rw [htokens]
  refine .rule rfl hbody fun c d ns _ _ _ hns => ?_
  obtain _ | @⟨type, _, ns, _, htype, hns⟩ := hns
  have hns : List.Forall₂ _ ns ((v.attributes.map fun a => IsLeaf .stateVariableAttribute a.text) ++
    [IsLeaf .identifier v.name.text]) := hns
  obtain ⟨attributes, names, rfl, hattrs, hname⟩ := exists_append_of_forall₂ hns
  obtain _ | @⟨name, _, _, _, hname, _ | _⟩ := hname
  have hall := forall₂_of_map hattrs
  exact congrArg (fun v => some (Member.stateVariable v)) (variable_ofTree c d htype hall hname)

theorem reads_enum (e : EnumForm) :
    Reads (.rule .enumDefinition) (e.tokens ++ ts) ts [IsMember (.enum e)] := by
  have hvalues : Reads
      (.maybe (.seq (.separated (.rule .identifier) (.text [','])) (.maybe (.text [',']))))
      (separateTokens (e.values.map fun v => [v.text]) ++ "\x7d" :: ts) ("\x7d" :: ts)
      (e.values.map fun v => IsLeaf .identifier v.text) := by
    cases e.values with
    | nil => exact (refuses_identifier rfl rfl).seq.seq.maybe
    | cons v vs =>
      have hcomma : Refuses (.text [',']) ("\x7d" :: ts) := refuses_text rfl (by decide)
      have hrow : Reads (.separated (.rule .identifier) (.text [',']))
          (separateTokens ((v :: vs).map fun v => [v.text]) ++ "\x7d" :: ts) ("\x7d" :: ts)
          ((v :: vs).map fun v => IsLeaf .identifier v.text) :=
        reads_separated (fun _ => True) (fun v _ _ _ => reads_identifier v.toIdentifier)
          (fun _ => trivial) trivial hcomma
      simpa using (hrow.seq hcomma.maybe).maybe
  have htokens : e.tokens ++ ts = "enum" :: e.name.text :: "\x7b" ::
      (separateTokens (e.values.map fun v => [v.text]) ++ "\x7d" :: ts) := by
    simp [EnumForm.tokens]
  rw [htokens]
  refine .rule rfl ((reads_keyword .enumWord).seq ((reads_identifier e.name.toIdentifier).seq
    (reads_text.seq (hvalues.seq reads_text)))) fun c d ns _ _ _ hns => ?_
  obtain _ | ⟨hword, _ | ⟨hname, hns⟩⟩ := hns
  have hns : List.Forall₂ _ _ ((e.values.map fun v => IsLeaf .identifier v.text) ++ []) := hns
  rw [List.append_nil] at hns
  have hall := forall₂_of_map hns
  have hfilter := filter_rule_eq (hall.imp fun _ _ h => h.1)
  simp [IsMember, Member.ofTree?, Member.unplaced, MemberForm.decl, EnumDecl.ofTree, EnumForm.decl,
    Node.child?, Node.childrenOf, hword.1, hname.1, hname.2, hfilter, map_string_eq hall]

theorem reads_contractPart {r : Rule} {kind : Tree → Prop} {ts' : List String} (hr : r ∈ partRules)
    (hled : leadingWords r ≠ []) (h : Reads (.rule r) ts ts' [kind]) :
    Reads contractPart ts ts' [kind] := by
  intro c hc
  obtain ⟨d, ns, ht, hd, hns⟩ := h c hc
  exact ⟨d, ns, takes_contractPart_of_takes_rule hr hled ht, hd, hns⟩

theorem TypeForm.head (t : TypeForm) : ∃ u us, t.tokens = u :: us ∧
    ∀ w ∈ reservedWords, wordOf u = w.toList → w = "mapping" := by
  induction t with
  | named path => exact ⟨_, _, rfl, fun w hw h => absurd h (path.wordOf_ne hw)⟩
  | mapping key value =>
    refine ⟨"mapping", _, rfl, fun w _ h => ?_⟩
    have hword : wordOf "mapping" = "mapping".toList := by decide
    exact (String.toList_inj.1 (hword.symm.trans h)).symm
  | array element ih =>
    obtain ⟨u, us, htokens, hu⟩ := ih
    exact ⟨u, us ++ ["[", "]"], by simp [tokens, htokens], hu⟩

/-- Before a variable is read all other parts have to fail. Each of them starts with a word that no
type starts with. -/
theorem VariableForm.reads_contractPart (v : VariableForm) :
    Reads contractPart (v.tokens ++ ts) ts [IsMember (.stateVariable v)] := by
  intro c hc
  obtain ⟨d, ns, ht, hd, hns⟩ := reads_variable v c hc
  have hwords : ∀ r ∈ partRules.takeWhile (· ≠ .stateVariableDeclaration), leadingWords r ≠ [] ∧
      ∀ w ∈ leadingWords r, w ∈ reservedWords ∧ w ≠ "mapping" := by decide
  obtain ⟨u, us, htokens, hu⟩ := v.type.head
  refine ⟨d, ns, ?_, hd, hns⟩
  rw [contractPart_eq]
  refine takes_any_of_takes_rule (by decide) ht fun r hr => ?_
  obtain ⟨hled, hother⟩ := hwords r hr
  rw [VariableForm.tokens, htokens, List.cons_append, List.cons_append] at hc
  refine refuses_of_wordOf hled (fun hmem => ?_) c hc
  obtain ⟨w, hw, heq⟩ := List.mem_map.1 hmem
  exact (hother w hw).2 (hu w (hother w hw).1 heq.symm)

theorem reads_member (m : MemberForm) : Reads contractPart (m.tokens ++ ts) ts [IsMember m] := by
  cases m with
  | function f => exact reads_contractPart (by decide) (by decide) (reads_function f)
  | stateVariable v => exact v.reads_contractPart
  | enum e => exact reads_contractPart (by decide) (by decide) (reads_enum e)

theorem refuses_any {rs : List Rule} (hne : rs ≠ []) (h : ∀ r ∈ rs, Refuses (.rule r) ts) :
    Refuses (.any (rs.map .rule)) ts := by
  induction rs with
  | nil => exact absurd rfl hne
  | cons r rs ih =>
    cases rs with
    | nil => exact h r (by simp)
    | cons r' rs =>
      exact .choice (h r (by simp)) (ih (by simp) fun r'' hr => h r'' (List.mem_cons_of_mem r hr))

theorem refuses_contractPart : Refuses contractPart ("\x7d" :: ts) := by
  have hwords : ∀ r ∈ partRules, r = .stateVariableDeclaration ∨
      leadingWords r ≠ [] ∧ wordOf "\x7d" ∉ (leadingWords r).map String.toList := by decide
  rw [contractPart_eq]
  refine refuses_any (by decide) fun r hr => ?_
  rcases hwords r hr with rfl | ⟨hled, hword⟩
  · exact .rule rfl (refuses_typeName rfl rfl).seq
  · exact refuses_of_wordOf hled hword

end Members

section Contracts

def IsBases (bases : List DottedName) (n : Tree) : Prop :=
  n.rule = .inheritanceList ∧ Contract.basesOfTree n = bases.map (·.text)

def IsSpecifier (base : DottedName) (n : Tree) : Prop :=
  n.rule = .inheritanceSpecifier ∧ dottedName n = base.text

theorem reads_inheritanceSpecifier (base : DottedName) (hts : NoArguments ts) :
    Reads (.rule .inheritanceSpecifier) (base.text :: ts) ts [IsSpecifier base] := by
  refine .rule rfl ((reads_userTypeName (base.map Name.toIdentifier)).seq hts.refuses.maybe)
    fun c d ns _ _ _ hns => ⟨rfl, ?_⟩
  obtain _ | ⟨hn, _ | _⟩ := hns
  simp [dottedName, Node.child?, hn.1, hn.2, DottedName.text]

theorem basesOfTree_eq {ns : List Tree} {bases : List DottedName}
    (h : List.Forall₂ (fun n b => IsSpecifier b n) ns bases) :
    ns.map dottedName = bases.map (·.text) := by
  induction h with
  | nil => rfl
  | cons hn _ ih => simp [hn.2, ih]

theorem reads_bases (c : ContractForm) :
    Reads (.maybe (.rule .inheritanceList)) (c.basesTokens ++ "\x7b" :: ts) ("\x7b" :: ts)
      (if c.bases.isEmpty then [] else [IsBases c.bases]) := by
  unfold ContractForm.basesTokens
  cases hbases : c.bases with
  | nil =>
    have hnone : Refuses (.rule .inheritanceList) ("\x7b" :: ts) :=
      .rule rfl (refuses_keyword (by decide)).seq
    exact hnone.maybe
  | cons b bs =>
    have hrow : Reads (.separated (.rule .inheritanceSpecifier) (.text [',']))
        (separateTokens ((b :: bs).map fun b => [b.text]) ++ "\x7b" :: ts) ("\x7b" :: ts)
        ((b :: bs).map IsSpecifier) :=
      reads_separated NoArguments (fun b _ _ hus => reads_inheritanceSpecifier b hus)
        (fun us => ⟨_, _, rfl, by decide⟩) ⟨_, _, rfl, by decide⟩ (refuses_text rfl (by decide))
    refine .maybe (.rule rfl ((reads_keyword .isWord).seq hrow) fun c d ns _ _ _ hns => ⟨rfl, ?_⟩)
    obtain _ | ⟨hword, hns⟩ := hns
    have hns : List.Forall₂ _ _ ((b :: bs).map IsSpecifier) := hns
    have hall := forall₂_of_map hns
    have hfilter := filter_rule_eq (hall.imp fun _ _ h => h.1)
    have hrule := hword.1
    simp only [Contract.basesOfTree, Node.childrenOf, List.filter_cons, hrule]
    simp only [reduceCtorEq, decide_false, Bool.false_eq_true, ↓reduceIte, hfilter]
    exact basesOfTree_eq hall

theorem rule_ne_of_isMember {m : MemberForm} {n : Tree} (h : IsMember m n) :
    n.rule ≠ .inheritanceList := by
  intro hrule
  simp [IsMember, Member.ofTree?, hrule] at h

theorem find?_inheritanceList_eq_none {ns : List Tree} {ms : List MemberForm}
    (h : List.Forall₂ (fun n m => IsMember m n) ns ms) :
    ns.find? (·.rule = .inheritanceList) = none := by
  induction h with
  | nil => rfl
  | cons hn _ ih => simp [rule_ne_of_isMember hn, ih]

def IsContract (c : ContractForm) (n : Tree) : Prop :=
  n.rule = .contractDefinition ∧ (Contract.ofTree n).unplaced = c.decl

theorem contract_ofTree {form : ContractForm} {kind name : Tree} {bases parts : List Tree}
    (c d : Cursor) (hkind : IsLeaf .contractKind form.kind.spelling kind)
    (hname : IsLeaf .identifier form.name.text name)
    (hbases : List.Forall₂ (fun n kind => kind n) bases
      (if form.bases.isEmpty then [] else [IsBases form.bases]))
    (hparts : List.Forall₂ (fun n m => IsMember m n) parts form.members) :
    (Contract.ofTree ⟨.contractDefinition, c, d, kind :: name :: (bases ++ parts)⟩).unplaced =
      form.decl := by
  let n : Tree := ⟨.contractDefinition, c, d, kind :: name :: (bases ++ parts)⟩
  have hkind? : n.child? .contractKind = some kind := by simp [n, Node.child?, hkind.1]
  have hname? : n.child? .identifier = some name := by simp [n, Node.child?, hkind.1, hname.1]
  have hnone := find?_inheritanceList_eq_none hparts
  have hbases? : ((n.child? .inheritanceList).map Contract.basesOfTree).getD [] =
      form.bases.map (·.text) ∧ bases.filterMap Member.ofTree? = [] := by
    cases hform : form.bases with
    | nil =>
      rw [hform] at hbases
      cases hbases
      simp [n, Node.child?, hkind.1, hname.1, hnone]
    | cons b bs =>
      rw [hform] at hbases
      obtain _ | ⟨hb, _ | _⟩ := hbases
      simp [n, Node.child?, hkind.1, hname.1, hb.1, hb.2, Member.ofTree?]
  have hbody : n.children.filterMap Member.ofTree? = parts.filterMap Member.ofTree? := by
    simp [n, Member.ofTree?, hkind.1, hname.1, hbases?.2]
  have hmembers := map_filterMap_eq hparts
  have hspelling : ContractKind.ofText form.kind.spelling = form.kind := by
    cases form.kind <;> rfl
  change (Contract.ofTree n).unplaced = form.decl
  simp only [Contract.unplaced, Contract.ofTree, hkind?, hname?, hbases?.1, hbody, Option.map_some,
    Option.getD_some, hkind.2, hname.2, hspelling, hmembers]
  rfl

theorem reads_contract (form : ContractForm) :
    Reads (.rule .contractDefinition) (form.tokens ++ ts) ts [IsContract form] := by
  have hparts : Reads (.many contractPart) (form.members.flatMap (·.tokens) ++ "\x7d" :: ts)
      ("\x7d" :: ts) (form.members.map IsMember) :=
    .many (fun _ => True) (fun m _ _ _ => reads_member m) (fun _ _ _ => trivial) trivial
      refuses_contractPart
  have htokens : form.tokens ++ ts = form.kind.spelling :: form.name.text ::
      (form.basesTokens ++ "\x7b" :: (form.members.flatMap (·.tokens) ++ "\x7d" :: ts)) := by
    simp [ContractForm.tokens]
  rw [htokens]
  refine .rule rfl ((reads_contractKind form.kind).seq ((reads_identifier form.name.toIdentifier).seq
    ((reads_bases form).seq (reads_text.seq (hparts.seq reads_text)))))
    fun c d ns _ _ _ hns => ⟨rfl, ?_⟩
  obtain _ | ⟨hkind, _ | ⟨hname, hns⟩⟩ := hns
  have hns : List.Forall₂ _ _ ((if form.bases.isEmpty then [] else [IsBases form.bases]) ++ _) := hns
  obtain ⟨bases, parts, rfl, hbases, hparts⟩ := exists_append_of_forall₂ hns
  have hparts : List.Forall₂ _ _ (form.members.map IsMember ++ []) := hparts
  rw [List.append_nil] at hparts
  exact contract_ofTree c d hkind hname hbases (forall₂_of_map hparts)

end Contracts

section Items

def IsItem (i : ItemForm) (n : Tree) : Prop :=
  (SourceItem.ofTree? n).map SourceItem.unplaced = some i.decl

/-- The value of a pragma takes the space in front of the semicolon with it. -/
theorem reads_pragma (form : PragmaForm) :
    Reads (.rule .pragmaDirective) ("pragma" :: form.value :: ";" :: ts) ts
      [IsItem (.pragma form)] := by
  intro c hc
  obtain ⟨hword, hnear⟩ := hc.next
  have hat := hnear.skip
  generalize hv : skip ⟨c.offset + Text.byteLength "pragma".toList, behind (form.value :: ";" :: ts)⟩ =
    v at hat
  obtain ⟨x, xs, hx, -, -⟩ := solid_iff.1 (hat.solid form.value (by simp))
  let f : Cursor := ⟨v.offset + Text.byteLength (x :: xs ++ [' ']), ';' :: behind ts⟩
  let d : Cursor := ⟨f.offset + Text.byteLength [';'], behind ts⟩
  have hvalue : v.Passes (x :: (xs ++ [' '])) f := by
    refine ⟨?_, rfl⟩
    rw [hat.head hx]
    simp [f, behind]
  have hall : (x :: (xs ++ [' '])).all (· != ';') = true := by
    have hno := form.noSemicolon
    rw [hx] at hno
    simp only [List.mem_cons, not_or] at hno
    simp only [List.all_cons, List.all_append, Bool.and_eq_true, bne_iff_ne, ne_eq]
    refine ⟨Ne.symm hno.1, List.all_eq_true.2 fun y hy => ?_, by decide⟩
    simp only [bne_iff_ne, ne_eq]
    rintro rfl
    exact hno.2 hy
  refine ⟨d, _, takes_pragmaDirective_iff.2 ⟨_, f, x, xs ++ [' '], hword, char?_behind _ _,
    hv ▸ hvalue, hall, ⟨rfl, rfl⟩, rfl⟩, ⟨.inr rfl, fun t ht => hc.solid t (by simp [ht])⟩,
    .cons ?_ .nil⟩
  simp [IsItem, SourceItem.ofTree?, SourceItem.unplaced, ItemForm.decl]

theorem stringEnd?_eq_some {quote : Char} {cs rest : List Char} (n : Nat) (hquote : quote ∉ cs)
    (hbackslash : '\\' ∉ cs) :
    stringEnd? quote n (cs ++ quote :: rest) = some ⟨n + Text.byteLength (cs ++ [quote]), rest⟩ := by
  induction cs generalizing n with
  | nil =>
    rw [List.nil_append, stringEnd?.eq_def]
    simp
  | cons x xs ih =>
    simp only [List.mem_cons, not_or] at hquote hbackslash
    rw [List.cons_append, stringEnd?.eq_def]
    simp only [Ne.symm hquote.1, Ne.symm hbackslash.1, ↓reduceIte, ih _ hquote.2 hbackslash.2,
      List.cons_append, Text.byteLength_cons, Nat.add_assoc]

def IsPath (form : ImportForm) (n : Tree) : Prop :=
  n.rule = .importPath ∧ Import.unquote (Text.trimChars n.text) = form.path

theorem reads_importPath (form : ImportForm) :
    Reads (.rule .importPath) (("\"" ++ form.path ++ "\"") :: ts) ts [IsPath form] := by
  intro c hc
  obtain ⟨hpass, hnear⟩ := hc.next
  obtain ⟨n, rest⟩ := c
  have htext : ("\"" ++ form.path ++ "\"").toList = '"' :: (form.path.toList ++ ['"']) := by
    simp
  rw [htext] at hpass hnear
  have hrest : rest = '"' :: (form.path.toList ++ '"' :: behind ts) := by
    have h := hpass.1
    simpa using h
  have hstring : string? ⟨n, rest⟩ =
      some ⟨n + Text.byteLength ('"' :: (form.path.toList ++ ['"'])), behind ts⟩ := by
    have hquote : isQuote '"' = true := rfl
    rw [hrest, string?, if_pos hquote, stringEnd?_eq_some _ form.noQuote form.noBackslash]
    simp only [Text.byteLength_cons, Nat.add_assoc]
  have hy := stringLiteral_yields ⟨n, rest⟩
  rw [hstring] at hy
  refine ⟨_, _, (takes_rule_iff (by decide)).2 ⟨_, hy, rfl⟩, hnear, .cons ⟨rfl, ?_⟩ .nil⟩
  rw [Node.text, hpass.upTo, (trimmed_quoted rfl _).trimChars, Import.unquote]
  simp

theorem reads_import (form : ImportForm) :
    Reads (.rule .importDirective) ("import" :: ("\"" ++ form.path ++ "\"") :: ";" :: ts) ts
      [IsItem (.importing form)] := by
  have htext : ("\"" ++ form.path ++ "\"").toList = '"' :: (form.path.toList ++ ['"']) := by
    simp
  have halias : Reads aliasClause (";" :: ts) (";" :: ts) [] :=
    (refuses_keyword (by decide)).seq.maybe
  have hclause : Reads importClause (("\"" ++ form.path ++ "\"") :: ";" :: ts) (";" :: ts)
      [IsPath form] :=
    .choiceRight (.seq (.rule rfl (refuses_text htext (by decide)).seq))
      (.choiceRight (refuses_text htext (by decide)).seq ((reads_importPath form).seq halias))
  refine .rule rfl ((reads_keyword .importWord).seq (hclause.seq reads_text))
    fun c d ns _ _ _ hns => ?_
  obtain _ | ⟨hword, _ | ⟨hpath, _ | _⟩⟩ := hns
  simp [IsItem, SourceItem.ofTree?, SourceItem.unplaced, Import.ofTree, Node.child?, hword.1, hpath.1,
    hpath.2, ItemForm.decl]

theorem reads_sourceItem (i : ItemForm) : Reads sourceItem (i.tokens ++ ts) ts [IsItem i] := by
  have hchoice : ∀ {r : Rule} {us : List String}, r ∈ itemRules →
      Reads (.rule r) us ts [IsItem i] → Reads sourceItem us ts [IsItem i] := by
    intro r us hr h c hc
    obtain ⟨d, ns, ht, hd, hns⟩ := h c hc
    exact ⟨d, ns, takes_sourceItem_of_takes_rule hr ht, hd, hns⟩
  cases i with
  | pragma form => exact hchoice (by decide) (reads_pragma form)
  | importing form => exact hchoice (by decide) (reads_import form)
  | contract form =>
    refine hchoice (by decide) ((reads_contract form).imp fun n hn => ?_)
    simp [IsItem, SourceItem.ofTree?, SourceItem.unplaced, hn.1, hn.2, ItemForm.decl]

theorem refuses_sourceItem : Refuses sourceItem [] := by
  have hwords : ∀ r ∈ itemRules, leadingWords r ≠ [] ∧ [] ∉ (leadingWords r).map String.toList := by
    decide
  rw [sourceItem_eq]
  refine refuses_any (by decide) fun r hr c hc => ?_
  obtain ⟨hled, hnil⟩ := hwords r hr
  obtain ⟨x, hx⟩ := exists_yields r c
  cases x with
  | none => exact hx
  | some p =>
    have hempty : wordAt c = [] := by simp [wordAt, hc.rest, spread]
    exact absurd (hempty ▸ wordAt_of_takes hled hx) hnil

end Items

/-! Padding takes nothing of a token. -/
section Solid

theorem solid_of_start {x : Char} {xs : List Char} (ht : t.toList = x :: xs)
    (hx : isIdentifierStart x = true) : Solid t := by
  refine solid_iff.2 ⟨x, xs, ht, isSpace_of_isIdentifierChar (isIdentifierChar_of_start hx), ?_⟩
  rintro rfl
  cases hx

@[simp]
theorem solid_identifier (i : Identifier) : Solid i.text := by
  obtain ⟨x, xs, hx, hstart⟩ := i.head
  exact solid_of_start hx hstart

@[simp]
theorem solid_dotted (p : Dotted Identifier) : Solid p.text := by
  obtain ⟨x, xs, hx, hstart⟩ := p.first.head
  have htext : p.text.toList = x :: (xs ++ (p.more.map (·.text.toList)).flatMap ('.' :: ·)) := by
    rw [toList_dotted_text, Dotted.parts, List.map_cons, dotted, hx]
    rfl
  exact solid_of_start htext hstart

@[simp]
theorem solid_dottedName (p : DottedName) : Solid p.text := solid_dotted _

theorem solid_of_mem_separateTokens {groups : List (List String)}
    (h : ∀ g ∈ groups, ∀ t ∈ g, Solid t) : ∀ t ∈ separateTokens groups, Solid t := by
  cases groups with
  | nil => simp [separateTokens]
  | cons g gs =>
    intro t ht
    simp only [separateTokens, List.mem_append, List.mem_flatMap, List.mem_cons] at ht
    rcases ht with ht | ⟨g', hg', rfl | ht⟩
    · exact h g (by simp) t ht
    · decide
    · exact h g' (List.mem_cons_of_mem g hg') t ht

theorem TypeForm.solid (t : TypeForm) : ∀ u ∈ t.tokens, Solid u := by
  induction t with
  | named path => simp [tokens]
  | mapping key value ihk ihv =>
    simp only [tokens, List.forall_mem_append, List.forall_mem_cons]
    exact ⟨⟨⟨⟨⟨by decide, by decide, by simp⟩, ihk⟩, by decide, by simp⟩, ihv⟩, by decide, by simp⟩
  | array element ih =>
    simp only [tokens, List.forall_mem_append, List.forall_mem_cons]
    exact ⟨ih, by decide, by decide, by simp⟩

theorem ParameterForm.solid (ps : List ParameterForm) :
    ∀ u ∈ ParameterForm.listTokens ps, Solid u := by
  have hone : ∀ p : ParameterForm, ∀ u ∈ p.tokens, Solid u := by
    intro p
    simp only [tokens, List.forall_mem_append]
    exact ⟨p.type.solid, by simp⟩
  have hall : ∀ u ∈ separateTokens (ps.map tokens), Solid u := by
    refine solid_of_mem_separateTokens fun g hg => ?_
    obtain ⟨p, -, rfl⟩ := List.mem_map.1 hg
    exact hone p
  simp only [listTokens, List.cons_append, List.forall_mem_cons, List.forall_mem_append]
  exact ⟨by decide, hall, by decide, by simp⟩

theorem FunctionForm.solid (f : FunctionForm) : ∀ u ∈ f.tokens, Solid u := by
  have hhead : ∀ u ∈ f.head.tokens, Solid u := by
    cases f.head with
    | function name =>
      simp only [HeadForm.tokens, List.forall_mem_cons]
      exact ⟨by decide, by simp⟩
    | constructor | fallback | receive => decide
  have hreturns : ∀ u ∈ f.returnsTokens, Solid u := by
    unfold returnsTokens
    cases f.returns with
    | none => simp
    | some ps =>
      simp only [Option.map_some, Option.getD_some, List.forall_mem_cons]
      exact ⟨by decide, ParameterForm.solid ps⟩
  have hend : ∀ u ∈ f.endTokens, Solid u := by
    unfold endTokens
    cases f.hasBody <;> decide
  simp only [tokens, List.forall_mem_append]
  exact ⟨hhead, ParameterForm.solid f.params, by simp, hreturns, hend⟩

theorem VariableForm.solid (v : VariableForm) : ∀ u ∈ v.tokens, Solid u := by
  have hattribute : ∀ w ∈ attributeWords, Solid w := by decide
  simp only [tokens, List.forall_mem_append, List.forall_mem_cons]
  refine ⟨v.type.solid, fun u hu => ?_, by simp, by decide, by simp⟩
  obtain ⟨a, -, rfl⟩ := List.mem_map.1 hu
  exact hattribute a.text a.isAttribute

theorem solid_of_mem_names {α : Type} {text : α → String} (h : ∀ x, Solid (text x)) (xs : List α) :
    ∀ u ∈ separateTokens (xs.map fun x => [text x]), Solid u := by
  refine solid_of_mem_separateTokens fun g hg => ?_
  obtain ⟨x, -, rfl⟩ := List.mem_map.1 hg
  simp [h]

theorem EnumForm.solid (e : EnumForm) : ∀ u ∈ e.tokens, Solid u := by
  simp only [tokens, List.cons_append, List.forall_mem_cons, List.forall_mem_append]
  have hvalues : ∀ u ∈ separateTokens (e.values.map fun v => [v.text]), Solid u :=
    solid_of_mem_names (fun v : Name => solid_identifier v.toIdentifier) _
  exact ⟨by decide, by simp, by decide, hvalues, by decide, by simp⟩

theorem MemberForm.solid (m : MemberForm) : ∀ u ∈ m.tokens, Solid u := by
  cases m with
  | function f => exact f.solid
  | stateVariable v => exact v.solid
  | enum e => exact e.solid

theorem ContractForm.solid (c : ContractForm) : ∀ u ∈ c.tokens, Solid u := by
  have hbases : ∀ u ∈ c.basesTokens, Solid u := by
    unfold basesTokens
    split
    · simp
    · simp only [List.forall_mem_cons]
      exact ⟨by decide, solid_of_mem_names solid_dottedName _⟩
  have hmembers : ∀ u ∈ c.members.flatMap (·.tokens), Solid u := by
    intro u hu
    obtain ⟨m, -, hm⟩ := List.mem_flatMap.1 hu
    exact m.solid u hm
  simp only [tokens, List.forall_mem_cons, List.forall_mem_append]
  exact ⟨by cases c.kind <;> decide, by simp, hbases, by decide, hmembers, by decide, by simp⟩

theorem ItemForm.solid (i : ItemForm) : ∀ u ∈ i.tokens, Solid u := by
  cases i with
  | pragma form =>
    have hvalue : Solid form.value := by
      have hsolid := form.startsSolid
      cases hcs : form.value.toList with
      | nil => exact absurd (String.toList_eq_nil_iff.1 hcs) form.notEmpty
      | cons x xs =>
        obtain ⟨hspace, hslash⟩ := hsolid x (by simp [hcs])
        exact solid_iff.2 ⟨x, xs, hcs, hspace, hslash⟩
    simp only [tokens, List.forall_mem_cons]
    exact ⟨by decide, hvalue, by decide, by simp⟩
  | importing form =>
    have hpath : Solid ("\"" ++ form.path ++ "\"") :=
      solid_iff.2 ⟨'"', form.path.toList ++ ['"'], by simp, rfl, by decide⟩
    simp only [tokens, List.forall_mem_cons]
    exact ⟨by decide, hpath, by decide, by simp⟩
  | contract form => exact form.solid

end Solid

/-- A source that is written with single spaces between its tokens declares what was written. -/
theorem parse_writeItems (items : List ItemForm) :
    ∃ u, Source.parse (writeItems items) = .ok u ∧ u.unplaced = ⟨items.map (·.decl)⟩ := by
  have hstart : At (items.flatMap (·.tokens)) (.ofText (writeItems items).toList) := by
    refine ⟨toList_intercalate_space _, fun t ht => ?_⟩
    obtain ⟨i, -, hi⟩ := List.mem_flatMap.1 ht
    exact i.solid t hi
  have hmany : Reads (.many sourceItem) (items.flatMap (·.tokens) ++ []) [] (items.map IsItem) :=
    .many (fun _ => True) (fun i _ _ _ => reads_sourceItem i) (fun _ _ _ => trivial) trivial
      refuses_sourceItem
  rw [List.append_nil] at hmany
  obtain ⟨e, nodes, htake, hnear, hnodes⟩ := hmany _ hstart
  obtain ⟨hsteps, hfails⟩ := (takes_many_iff hstart.skip).1 htake
  have hroot := tree_eq_ok_iff_steps.2 ⟨nodes, e, hsteps, hfails, hnear.skip.rest, rfl⟩
  refine ⟨_, parse_eq_ok_iff.2 ⟨_, hroot, rfl⟩, ?_⟩
  have hitems := map_filterMap_eq (forall₂_of_map hnodes)
  have hend : SourceItem.ofTree? ⟨.endOfInput, skip e, skip e, []⟩ = none := rfl
  simp only [SourceUnit.unplaced, SourceUnit.ofTree, List.filterMap_append, List.filterMap_cons, hend,
    List.filterMap_nil, List.append_nil, hitems]

end SolidityStubs
