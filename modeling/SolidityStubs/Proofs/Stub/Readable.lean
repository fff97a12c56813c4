import SolidityStubs.Proofs.Source.Renamed
import SolidityStubs.Proofs.Stub.Retained

/-! # Interfaces are readable

Where the retained texts are closed and no enum goes by a word of the grammar, an interface is read
back as one contract with a function for each of its stubs, those of inherited files included. A
comment that is open at the end of a retained text swallows the semicolon that is written behind it,
and then nothing is read back.
-/
namespace SolidityStubs

open Source Peg

section Shapes

variable {names : List (List Char)} {cs rest : List Char}

theorem ListShape.rename {isEmpty : Bool} (hnames : Replaceable names) (h : ListShape isEmpty cs) :
    ∃ isEmpty', ListShape isEmpty' (rename names cs) := by
  obtain ⟨t, -, ht⟩ := h.takes
  obtain ⟨t', ht'⟩ := takes_parameterList_renamed hnames ht rfl
  exact ⟨_, (closed_rename hnames.isIdentifier).2 h.closed, t', rfl, ht'⟩

theorem GroupShape.rename (hnames : ∀ name ∈ names, isIdentifier name = true) (h : GroupShape cs) :
    GroupShape (rename names cs) := by
  refine ⟨(closed_rename hnames).2 h.closed, ?_⟩
  obtain ⟨ns, hns⟩ := h.takes
  obtain ⟨mid, rfl⟩ := h.text
  exact takes_callArguments_renamed hnames hns rfl

theorem rename_parts (hnames : ∀ name ∈ names, isIdentifier name = true) {ps : List (List Char)}
    (hps : ∀ p ∈ ps, isIdentifier p = true) (hrest : EndsRun rest) :
    ∃ ps' : List (List Char), (∀ p ∈ ps', isIdentifier p = true) ∧
      rename names (ps.flatMap ('.' :: ·) ++ rest) = ps'.flatMap ('.' :: ·) ++ rename names rest := by
  induction ps with
  | nil => exact ⟨[], by simp, rfl⟩
  | cons p ps ih =>
    obtain ⟨ps', hps', heq⟩ := ih fun q hq => hps q (List.mem_cons_of_mem p hq)
    have hp := hps p (by simp)
    obtain ⟨p', hp', hrenamed⟩ := rename_run hnames (endsRun_parts hrest) (all_of_isIdentifier hp)
    refine ⟨p' :: ps', ?_, ?_⟩
    · intro q hq
      rcases List.mem_cons.1 hq with rfl | hq
      · exact hrenamed.start hp
      · exact hps' q hq
    · rw [List.flatMap_cons, List.cons_append, List.cons_append, List.append_assoc,
        rename_cons_mark hnames (by decide), hp', heq]
      simp

theorem IsDotted.rename (hnames : ∀ name ∈ names, isIdentifier name = true) (h : IsDotted cs)
    (hrest : EndsRun rest) :
    ∃ cs', IsDotted cs' ∧ rename names (cs ++ rest) = cs' ++ rename names rest := by
  obtain ⟨ps, hne, hps, rfl⟩ := h
  cases ps with
  | nil => exact absurd rfl hne
  | cons p ps =>
    have hp := hps p (by simp)
    have hmore : ∀ q ∈ ps, isIdentifier q = true := fun q hq => hps q (List.mem_cons_of_mem p hq)
    obtain ⟨ps', hps', heq⟩ := rename_parts hnames hmore hrest
    obtain ⟨p', hp', hrenamed⟩ := rename_run hnames (endsRun_parts hrest) (all_of_isIdentifier hp)
    refine ⟨dotted (p' :: ps'), ⟨p' :: ps', by simp, ?_, rfl⟩, ?_⟩
    · intro q hq
      rcases List.mem_cons.1 hq with rfl | hq
      · exact hrenamed.start hp
      · exact hps' q hq
    · rw [dotted, List.append_assoc, hp', heq, dotted, List.append_assoc]

theorem GroupShape.endsRun (h : GroupShape cs) (rest : List Char) : EndsRun (cs ++ rest) := by
  obtain ⟨mid, rfl⟩ := h.text
  rfl

theorem ArgumentShape.endsRun (h : ArgumentShape cs) : EndsRun cs := by
  rcases h with ⟨hcs, -⟩ | ⟨ws, group, rfl, hws, hgroup⟩
  · have hend : EndsRun (cs ++ []) := endsRun_of_padded hcs fun _ => rfl
    rwa [List.append_nil] at hend
  · exact endsRun_of_padded hws fun _ => by simpa using hgroup.endsRun []

theorem ArgumentShape.rename (hnames : ∀ name ∈ names, isIdentifier name = true)
    (h : ArgumentShape cs) : ArgumentShape (rename names cs) := by
  rcases h with ⟨hcs, hlast⟩ | ⟨ws, group, rfl, hws, hgroup⟩
  · refine .inl ⟨(padded_rename hnames hcs).1, ?_⟩
    rcases List.eq_nil_or_concat cs with rfl | ⟨ys, y, rfl⟩
    · simp [rename_nil]
    · obtain rfl : y = '/' := hlast y (by simp)
      rw [List.concat_eq_append, rename_append_mark hnames (by decide)]
      simp [rename_nil]
  · obtain ⟨hpadded, hsplit⟩ := padded_rename hnames hws
    exact .inr ⟨_, _, hsplit group, hpadded, hgroup.rename hnames⟩

theorem ModifierShape.rename (hnames : ∀ name ∈ names, isIdentifier name = true) {name : String}
    (h : ModifierShape name cs) : ∃ name', ModifierShape name' (rename names cs) := by
  obtain ⟨hname, args, rfl, hargs⟩ := h
  obtain ⟨name', hname', heq⟩ := hname.rename hnames hargs.endsRun
  refine ⟨String.ofList name', ?_, SolidityStubs.rename names args, ?_, hargs.rename hnames⟩
  · rwa [String.toList_ofList]
  · rw [heq, String.toList_ofList]

theorem exists_modifiers_renamed (hnames : ∀ name ∈ names, isIdentifier name = true)
    {ms : List (String × List Char)} (hms : ∀ m ∈ ms, ModifierShape m.1 m.2) :
    ∃ ms' : List (String × List Char), (∀ m ∈ ms', ModifierShape m.1 m.2) ∧
      ms'.map Prod.snd = ms.map fun m => rename names m.2 := by
  induction ms with
  | nil => exact ⟨[], by simp, rfl⟩
  | cons m ms ih =>
    obtain ⟨ms', hms', heq⟩ := ih fun m' hm' => hms m' (List.mem_cons_of_mem m hm')
    obtain ⟨name', hname'⟩ := (hms m (by simp)).rename hnames
    refine ⟨(name', rename names m.2) :: ms', ?_, by rw [List.map_cons, heq, List.map_cons]⟩
    intro m' hm'
    rcases List.mem_cons.1 hm' with rfl | hm'
    · exact hname'
    · exact hms' m' hm'

/-- The word `function` stays, the name stays a name and the parameters stay parameters. -/
theorem exists_head_renamed (hnames : Replaceable names) (s : StubShape) :
    ∃ s' : StubShape, s'.head = rename names s.head ∧ s'.modifiers = s.modifiers := by
  have hfunction : "function" ∈ headWords := by decide
  obtain ⟨isEmpty, hlist⟩ := s.listShape.rename hnames
  obtain ⟨hnameGap, hsplit⟩ := padded_rename hnames.isIdentifier s.nameGap_padded
  obtain ⟨hlistGap, hsplit'⟩ := padded_rename hnames.isIdentifier s.listGap_padded
  have hrun : EndsRun (s.listGap ++ s.list) :=
    endsRun_of_padded s.listGap_padded fun _ => by simpa using s.listShape.group.endsRun []
  obtain ⟨name, heq, hrenamed⟩ :=
    rename_run hnames.isIdentifier hrun (all_of_isIdentifier s.isIdentifier)
  have hname : isIdentifier (String.ofList name).toList = true := by
    rw [String.toList_ofList]
    exact hrenamed.start s.isIdentifier
  have hne := rename_ne_nil hnames.isIdentifier s.nameGap_ne_nil
  refine ⟨⟨String.ofList name, rename names s.nameGap, rename names s.listGap, rename names s.list,
    isEmpty, s.modifiers, hname, hne, hnameGap, hlistGap, hlist, s.modifierShapes⟩, ?_, rfl⟩
  have hends : EndsRun (s.nameGap ++ (s.name.toList ++ (s.listGap ++ s.list))) :=
    endsRun_of_padded s.nameGap_padded fun hnil => absurd hnil s.nameGap_ne_nil
  have hword : rename names (functionChars ++ (s.nameGap ++ (s.name.toList ++ (s.listGap ++ s.list)))) =
      functionChars ++ rename names (s.nameGap ++ (s.name.toList ++ (s.listGap ++ s.list))) :=
    hnames.rename_headWord hfunction hends
  rw [StubShape.head, StubShape.head, hword, hsplit, heq, hsplit', String.toList_ofList]

end Shapes

section Enums

variable {source : String} {s : Surface}

/-- An enum that has a name at all has an identifier for a name. -/
theorem isIdentifier_of_mem_enumNames (hs : Surface.ofSource source = .ok s) {name : String}
    (hname : name ∈ s.contract.enumNames) : name = "" ∨ isIdentifier name.toList = true := by
  obtain ⟨e, he, rfl⟩ := List.mem_map.1 hname
  obtain ⟨m, hm, henum⟩ := List.mem_filterMap.1 he
  obtain rfl : m = .enum e := by
    cases m <;> cases henum
    rfl
  obtain ⟨t, hread, ht, -⟩ := exists_member_node hs hm
  obtain ⟨hrule, rfl⟩ := Member.of_ofTree? hread
  have hbody := ht.children (by rw [hrule]; decide)
  cases hn : t.child? .identifier with
  | none => exact .inl (by simp [EnumDecl.ofTree, hn])
  | some n =>
    have hnrule : n.rule = .identifier := by simpa using List.find?_some hn
    have hident := isIdentifier_string hnrule (hbody.takes_of_mem (List.mem_of_find?_eq_some hn))
    exact .inr (by simpa [EnumDecl.ofTree, hn] using hident)

theorem replaceable_enumNames (hs : Surface.ofSource source = .ok s)
    (hwords : ∀ name ∈ s.contract.enumNames, name ∉ headWords) :
    Replaceable (enumChars s.contract.enumNames) where
  isIdentifier := by
    intro name hname
    obtain ⟨hmem, hne⟩ := List.mem_filter.1 hname
    obtain ⟨text, htext, rfl⟩ := List.mem_map.1 hmem
    rcases isIdentifier_of_mem_enumNames hs htext with rfl | hident
    · simp at hne
    · exact hident
  not_headWord := by
    intro w hw hmem
    obtain ⟨text, htext, heq⟩ := List.mem_map.1 (List.mem_filter.1 hmem).1
    obtain rfl := String.toList_inj.1 heq
    exact hwords text htext hw

/-- The stub of a function has a shape, with enums replaced. -/
theorem exists_draws_of_mem_functions (hs : Surface.ofSource source = .ok s)
    (hclosed : ∀ text ∈ s.contract.retained source, IsClosedText text)
    (hwords : ∀ name ∈ s.contract.enumNames, name ∉ headWords) {f : FunctionDecl}
    (hf : f ∈ s.contract.functions) :
    ∃ shape, Draws shape (f.stub source plainModifiers s.contract.enumNames) := by
  have hnames := replaceable_enumNames hs hwords
  obtain ⟨shape, -, -, hhead, hmodifiers⟩ := exists_shape_of_mem_functions hs hclosed hf
  have hrenamed : ∃ shape' : StubShape, shape'.modifiers = shape.modifiers ∧
      shape'.head = (f.head source s.contract.enumNames).toList := by
    by_cases hempty : f.params.isEmpty = true
    · refine ⟨shape, rfl, ?_⟩
      rw [hhead, FunctionDecl.head, FunctionDecl.head, if_pos hempty, if_pos hempty]
    · obtain ⟨shape', hhead', hmodifiers'⟩ := exists_head_renamed hnames shape
      refine ⟨shape', hmodifiers', ?_⟩
      rw [FunctionDecl.head, if_neg hempty, substituteEnums, Text.replaceWords_nil] at hhead
      rw [hhead', hhead, FunctionDecl.head, if_neg hempty, toList_substituteEnums]
  obtain ⟨shape', hmodifiers', hhead'⟩ := hrenamed
  obtain ⟨ms, hms, hsnd⟩ := exists_modifiers_renamed hnames.isIdentifier shape'.modifierShapes
  refine ⟨{ shape' with modifiers := ms, modifierShapes := hms }, draws_of_pieces hhead' ?_⟩
  have htexts := congrArg (List.map String.ofList) hsnd
  rw [List.map_map] at htexts
  refine htexts.trans ?_
  rw [hmodifiers', hmodifiers, FunctionDecl.pieces, List.map_map, List.map_map,
    FunctionDecl.keptModifiers]
  refine List.map_congr_left fun m _ => ?_
  simp only [Function.comp, ← toList_substituteEnums, String.ofList_toList]

theorem exists_draws_of_mem_variables (hs : Surface.ofSource source = .ok s)
    (hclosed : ∀ text ∈ s.contract.retained source, IsClosedText text)
    (hwords : ∀ name ∈ s.contract.enumNames, name ∉ headWords) {v : VariableDecl}
    (hv : v ∈ s.contract.publicVariables) :
    ∃ shape, Draws shape (v.stub s.contract.enumNames) := by
  have hnames := replaceable_enumNames hs hwords
  obtain ⟨hname, hgroup⟩ := pieces_of_mem_variables hs hclosed hv
  refine ⟨_, draws_getterShape v s.contract.enumNames hname ?_⟩
  have hrenamed := hgroup.rename hnames.isIdentifier
  rwa [rename_cons_mark hnames.isIdentifier (by decide),
    rename_append_mark hnames.isIdentifier (by decide), rename_nil,
    ← toList_substituteEnums] at hrenamed

end Enums

section Marks

/-- A comment that is open in front of the text is open behind it. -/
def LeavesOpen (cs : List Char) : Prop := ¬ ['*', '/'] <:+: cs

variable {as bs : List Char} {x : Char}

theorem LeavesOpen.cons (h : LeavesOpen as) (hx : x ≠ '*') : LeavesOpen (x :: as) := by
  rw [LeavesOpen, List.infix_cons_iff, not_or]
  exact ⟨by simp [Ne.symm hx], h⟩

/-- The mark that closes a comment does not reach over other characters. -/
theorem LeavesOpen.append_cons (ha : LeavesOpen as) (hb : LeavesOpen bs) (hx : x ≠ '*' ∧ x ≠ '/') :
    LeavesOpen (as ++ x :: bs) := by
  induction as with
  | nil => exact hb.cons hx.1
  | cons y ys ih =>
    rw [LeavesOpen, List.infix_cons_iff, not_or] at ha
    rw [List.cons_append, LeavesOpen, List.infix_cons_iff, not_or]
    refine ⟨fun hprefix => ?_, ih ha.2⟩
    cases ys with
    | nil => simp [Ne.symm hx.2] at hprefix
    | cons z zs =>
      refine ha.1 ?_
      simpa using hprefix

theorem leavesOpen_of_not_mem (h : '*' ∉ as) : LeavesOpen as := fun hmarks =>
  h (hmarks.subset (by simp))

theorem leavesOpen_of_isIdentifier (h : isIdentifier as = true) : LeavesOpen as := by
  refine leavesOpen_of_not_mem fun hmem => ?_
  cases List.all_eq_true.1 (all_of_isIdentifier h) '*' hmem

theorem LeavesOpen.append_behind {texts : List String} (has : LeavesOpen as)
    (h : ∀ text ∈ texts, LeavesOpen text.toList) : LeavesOpen (as ++ behind texts) := by
  induction texts generalizing as with
  | nil => simpa [behind] using has
  | cons text texts ih =>
    have hrest := ih (h text (by simp)) fun t ht => h t (List.mem_cons_of_mem text ht)
    exact has.append_cons hrest (by decide)

variable {source : String} {s : Surface} {enums : List String}

theorem LeavesOpen.substituteEnums (hnames : ∀ name ∈ enumChars enums, isIdentifier name = true)
    {text : String} (h : LeavesOpen text.toList) :
    LeavesOpen (SolidityStubs.substituteEnums enums text).toList := by
  rw [toList_substituteEnums, LeavesOpen, infix_rename_iff hnames]
  exact h

theorem leavesOpen_function (hs : Surface.ofSource source = .ok s)
    (hnames : ∀ name ∈ enumChars enums, isIdentifier name = true)
    (hopen : ∀ text ∈ s.contract.retained source, LeavesOpen text.toList) {f : FunctionDecl}
    (hf : f ∈ s.contract.functions) : LeavesOpen (f.stub source plainModifiers enums).toList := by
  have hretained : ∀ text ∈ f.retained source, LeavesOpen text.toList := fun text htext =>
    hopen text (Contract.mem_retained_of_mem_functions hf htext)
  have hhead : LeavesOpen (f.head source enums).toList := by
    unfold FunctionDecl.head
    split
    · obtain ⟨name, hname, hisName⟩ := isIdentifier_of_mem_functions hs hf
      rw [hname, Option.getD_some, toList_plainHead]
      have hfunction : LeavesOpen functionChars := leavesOpen_of_not_mem (by decide)
      have hparens : LeavesOpen [')'] := leavesOpen_of_not_mem (by decide)
      exact hfunction.append_cons ((leavesOpen_of_isIdentifier hisName).append_cons hparens
        (by decide)) (by decide)
    · rename_i hempty
      exact (hretained _ (FunctionDecl.mem_retained_head hempty source)).substituteEnums hnames
  have hkept : ∀ text ∈ f.keptModifiers source plainModifiers enums, LeavesOpen text.toList := by
    intro text htext
    obtain ⟨m, hm, rfl⟩ := List.mem_map.1 htext
    exact (hretained _ (FunctionDecl.mem_retained_of_mem_plain hm source)).substituteEnums hnames
  have hnil : LeavesOpen [] := leavesOpen_of_not_mem (by simp)
  have hspread := (hhead.append_behind hkept).append_cons hnil (x := ';') (by decide)
  rw [FunctionDecl.stub, String.toList_append, String.toList_append, toList_intercalate_space]
  exact (hspread.cons (by decide)).cons (by decide)

theorem leavesOpen_variable (hs : Surface.ofSource source = .ok s)
    (hnames : ∀ name ∈ enumChars enums, isIdentifier name = true)
    (hopen : ∀ text ∈ s.contract.retained source, LeavesOpen text.toList) {v : VariableDecl}
    (hv : v ∈ s.contract.publicVariables) : LeavesOpen (v.stub enums).toList := by
  obtain ⟨hname, -⟩ := exists_variable_node hs hv
  have hliteral := (hopen _ (Contract.mem_retained_of_mem_publicVariables hv source)).substituteEnums
    hnames
  have hword : LeavesOpen ("  function").toList := leavesOpen_of_not_mem (by decide)
  have hvisible : LeavesOpen (") public constant returns").toList := leavesOpen_of_not_mem (by decide)
  have hend : LeavesOpen [';'] := leavesOpen_of_not_mem (by decide)
  have hgroup := hliteral.append_cons hend (x := ')') (by decide)
  have hreturns := hvisible.append_cons hgroup (x := '(') (by decide)
  have hcall := (leavesOpen_of_isIdentifier hname).append_cons hreturns (x := '(') (by decide)
  rw [VariableDecl.stub]
  simp only [String.toList_append, List.append_assoc]
  exact hword.append_cons hcall (x := ' ') (by decide)

theorem leavesOpen_contractText {name : List Char} {lines : List Line}
    (hname : isIdentifier name = true)
    (h : ∀ stub, .stub stub ∈ lines → LeavesOpen stub.toList) :
    LeavesOpen ('\n' :: '\n' :: contractText name lines) := by
  have hlines : ∀ rest, LeavesOpen rest → LeavesOpen (lines.flatMap Line.chars ++ rest) := by
    intro rest hrest
    induction lines with
    | nil => exact hrest
    | cons l ls ih =>
      have hls := ih fun stub hmem => h stub (List.mem_cons_of_mem l hmem)
      have hl : ∃ text, LeavesOpen text ∧ l.chars = text ++ ['\n'] := by
        cases l with
        | marker => exact ⟨_, leavesOpen_of_not_mem (by decide), rfl⟩
        | stub stub => exact ⟨_, h stub (by simp), rfl⟩
      obtain ⟨text, htext, hchars⟩ := hl
      rw [List.flatMap_cons, hchars, List.append_assoc, List.append_assoc]
      exact htext.append_cons hls (by decide)
  have hcontract : LeavesOpen contractChars := leavesOpen_of_not_mem (by decide)
  have hbrace : LeavesOpen ['\x7d'] := leavesOpen_of_not_mem (by decide)
  have hbody : LeavesOpen ('\x7b' :: '\n' :: (lines.flatMap Line.chars ++ ['\x7d'])) :=
    ((hlines _ hbrace).cons (by decide)).cons (by decide)
  have hheader := (leavesOpen_of_isIdentifier hname).append_cons hbody (x := ' ') (by decide)
  have htext : LeavesOpen (contractText name lines) := hcontract.append_cons hheader (by decide)
  exact (htext.cons (by decide)).cons (by decide)

end Marks

section Files

variable {lib : Library} {root : Path} {source : String} {P Q : String → Prop}

/-- The stubs of a source can be read back: no comment and no string is left open in the texts that
they take over, and no enum goes by a word that functions are told by. -/
def Writable (source : String) : Prop :=
  ∀ s, Surface.ofSource source = .ok s →
    (∀ text ∈ s.contract.retained source, IsClosedText text) ∧
      ∀ name ∈ s.contract.enumNames, name ∉ headWords

/-- The texts that stubs take over do not have the mark which closes a comment. -/
def NeverCloses (source : String) : Prop :=
  ∀ s, Surface.ofSource source = .ok s →
    ∀ text ∈ s.contract.retained source, LeavesOpen text.toList

def StubsOf (Q : String → Prop) (source : String) : Prop :=
  ∀ s, Surface.ofSource source = .ok s →
    (∀ v ∈ s.contract.publicVariables, Q (v.stub s.contract.enumNames)) ∧
      ∀ f ∈ s.contract.functions, Q (f.stub source plainModifiers s.contract.enumNames)

theorem stubsOf_draws (h : Writable source) :
    StubsOf (fun stub => ∃ shape, Draws shape stub) source := by
  intro s hs
  obtain ⟨hclosed, hwords⟩ := h s hs
  exact ⟨fun v hv => exists_draws_of_mem_variables hs hclosed hwords hv,
    fun f hf => exists_draws_of_mem_functions hs hclosed hwords hf⟩

theorem stubsOf_leavesOpen (h : Writable source ∧ NeverCloses source) :
    StubsOf (fun stub => LeavesOpen stub.toList) source := by
  intro s hs
  have hnames := (replaceable_enumNames hs (h.1 s hs).2).isIdentifier
  exact ⟨fun v hv => leavesOpen_variable hs hnames (h.2 s hs) hv,
    fun f hf => leavesOpen_function hs hnames (h.2 s hs) hf⟩

/-- The source and all files that it reaches are such. -/
structure Throughout (P : String → Prop) (lib : Library) (root : Path) (source : String) : Prop where
  own : P source
  reached : ∀ q text, Reaches lib root source q → lib.read q = .ok text → P text

theorem Throughout.imp (h : Throughout P lib root source) (himp : ∀ text, P text → Q text) :
    Throughout Q lib root source :=
  ⟨himp _ h.own, fun q text hq hread => himp _ (h.reached q text hq hread)⟩

theorem Throughout.and (hp : Throughout P lib root source) (hq : Throughout Q lib root source) :
    Throughout (fun text => P text ∧ Q text) lib root source :=
  ⟨⟨hp.own, hq.own⟩, fun q text hreach hread =>
    ⟨hp.reached q text hreach hread, hq.reached q text hreach hread⟩⟩

theorem Throughout.of_asks (h : Throughout P lib root source) {q text : String}
    (hq : Asks root source q) (hread : lib.read q = .ok text) : Throughout P lib root text where
  own := h.reached q text ⟨q, hq, .refl⟩ hread
  reached := by
    rintro q' text' ⟨p, hp, hpath⟩ hread'
    exact h.reached q' text' ⟨q, hq, .head ⟨text, hread, hp⟩ hpath⟩ hread'

namespace Outline

mutual

def stubs : Outline → List String
  | ⟨inherited, getters, functions⟩ => stubsAll inherited ++ getters ++ functions

def stubsAll : List Outline → List String
  | [] => []
  | o :: os => o.stubs ++ stubsAll os

end

mutual

theorem filterMap_lines : ∀ o : Outline, o.lines.filterMap Line.stub? = o.stubs
  | ⟨os, gs, fs⟩ => by
    have hown : ((gs ++ fs).map Line.stub).filterMap Line.stub? = gs ++ fs := by
      rw [List.filterMap_map]
      exact List.filterMap_some
    have hinherited := filterMap_linesAll os
    rw [lines, stubs, List.filterMap_append, hown, List.append_assoc]
    congr 1
    split
    · rename_i hempty
      rw [← hinherited, List.isEmpty_iff.1 hempty]
    · rw [← hinherited]
      rfl

theorem filterMap_linesAll : ∀ os : List Outline,
    (linesAll os).filterMap Line.stub? = stubsAll os
  | [] => rfl
  | o :: os => by
    rw [linesAll, stubsAll, List.filterMap_append, filterMap_lines o, filterMap_linesAll os]

end

mutual

/-- What holds of the stubs of each file holds of all stubs of an outline. -/
theorem Unfolds.forall_stubs : ∀ {o : Outline} {source : String}, o.Unfolds lib root source →
    Throughout (StubsOf Q) lib root source → ∀ stub ∈ o.stubs, Q stub
  | ⟨os, gs, fs⟩, source, h, hall, stub, hmem => by
    unfold Unfolds at h
    obtain ⟨s, hs, rfl, rfl, hos⟩ := h
    obtain ⟨hvariables, hfunctions⟩ := hall.own s hs
    simp only [stubs, List.append_assoc, List.mem_append, List.mem_map] at hmem
    rcases hmem with hmem | ⟨v, hv, rfl⟩ | ⟨f, hf, rfl⟩
    · refine UnfoldAll.forall_stubs hos (fun i hi text hread => ?_) stub hmem
      obtain ⟨hmem, hbase⟩ := List.mem_filter.1 hi
      exact hall.of_asks ((asks_iff hs).2 ⟨i, hmem, hbase, rfl⟩) hread
    · exact hvariables v hv
    · exact hfunctions f hf

theorem UnfoldAll.forall_stubs : ∀ {os : List Outline} {is : List Import},
    UnfoldAll lib root os is →
    (∀ i ∈ is, ∀ text, lib.read (i.target root) = .ok text →
      Throughout (StubsOf Q) lib root text) →
    ∀ stub ∈ stubsAll os, Q stub
  | [], _, _, _, _, hmem => by simp [stubsAll] at hmem
  | _ :: _, [], h, _, _, _ => by simp [UnfoldAll] at h
  | o :: os, i :: is, h, hall, stub, hmem => by
    unfold UnfoldAll at h
    obtain ⟨⟨text, hread, ho⟩, hos⟩ := h
    simp only [stubsAll, List.mem_append] at hmem
    rcases hmem with hmem | hmem
    · exact Unfolds.forall_stubs ho (hall i (by simp) text hread) stub hmem
    · exact UnfoldAll.forall_stubs hos (fun i' hi' => hall i' (List.mem_cons_of_mem i hi')) stub hmem

end

end Outline

end Files

/-- An interface is read back as one contract, with a function for each stub, in order: those that are
inherited, the getters and the functions. Only if the pragma opens a comment, the stubs must not close
it. -/
theorem parse_generated {lib : Library} {root : Path} {source t : String} {s : Surface}
    (hs : Surface.ofSource source = .ok s) (hfiles : Throughout Writable lib root source)
    (hpragma : OpensComment s.pragma → Throughout NeverCloses lib root source)
    (ht : (generate lib ⟨root, false⟩ source).result = .ok t) :
    ∃ o u c, Outline.Unfolds lib root o source ∧ Source.parse t = .ok u ∧ u.contracts = [c] ∧
      c.kind = .contract ∧ c.name = "I" ++ s.contract.name ∧
      List.Forall₂ (fun m stub => ∃ f, m = .function f ∧ f.kind = .function ∧
        "  " ++ f.span.slice t = stub) c.body o.stubs := by
  obtain ⟨d, hd, ht'⟩ := generate_ok_iff.1 ht
  obtain ⟨o, ho, hblock⟩ := outline_of_draft [] source hd
  obtain ⟨s', blocks, hs', -, rfl⟩ := draft_ok_iff.1 hd
  cases hs.symm.trans hs'
  have hinterface : t = (s.draft source blocks).interface := by simpa using ht'
  have hstubs : ∀ stub, .stub stub ∈ o.lines → stub ∈ o.stubs := by
    intro stub hmem
    rw [← o.filterMap_lines]
    exact List.mem_filterMap.2 ⟨_, hmem, rfl⟩
  have hdraws : ∀ stub, .stub stub ∈ o.lines → ∃ shape, True ∧ Draws shape stub := by
    intro stub hmem
    obtain ⟨shape, hshape⟩ :=
      ho.forall_stubs (hfiles.imp fun _ h => stubsOf_draws h) stub (hstubs stub hmem)
    exact ⟨shape, trivial, hshape⟩
  have hisName := isIdentifier_contract_name hs
  have hisName' : isIdentifier ('I' :: s.contract.name.toList) = true := by
    simp only [isIdentifier, Bool.and_eq_true]
    exact ⟨rfl, all_of_isIdentifier hisName⟩
  have hshape := pragmaShape_of_ofSource hs fun hopen =>
    leavesOpen_contractText hisName' fun stub hmem =>
      ho.forall_stubs ((hfiles.and (hpragma hopen)).imp fun _ h => stubsOf_leavesOpen h) stub
        (hstubs stub hmem)
  obtain ⟨u, c, hparse, hcontracts, -, hkind, hname, -, hbody⟩ :=
    interface_readBack hblock hisName hshape hdraws
  rw [← hinterface] at hparse hbody
  rw [o.filterMap_lines] at hbody
  refine ⟨o, u, c, ho, hparse, hcontracts, hkind, hname, hbody.imp ?_⟩
  rintro m stub ⟨shape, f, -, hshape, rfl, hf⟩
  refine ⟨f, rfl, hf.kind, String.toList_inj.1 ?_⟩
  rw [hf.text, hshape]
  simp

/-- A contract with an enum and a base in a file. The pragma has a slash, and a parameter has a comment
with the name of the enum in it. -/
theorem parse_generated_base :
    let lib := Library.ofFiles [("B.sol", "contract B\x7bfunction g()\x7b\x7d\x7d")]
    let source :=
      "pragma/b;import\"B.sol\";contract A is B\x7benum E\x7bX\x7dfunction f(E/*E*/e)\x7b\x7d\x7d"
    let t := "pragma/b;\n\ncontract IA \x7b\n  // inherited\n  function g();\n" ++
      "  function f(uint8/*uint8*/e);\n\x7d"
    (generate lib ⟨.ofString ".", false⟩ source).result = .ok t ∧
      ∃ u c, Source.parse t = .ok u ∧ u.contracts = [c] ∧ c.name = "IA" := by
  intro lib source t
  let base := "contract B\x7bfunction g()\x7b\x7d\x7d"
  let b : Contract := ⟨.contract, "B", [], [.function ⟨.function, some "g", [], ⟨21, 23⟩, [],
    ⟨11, 25⟩⟩], ⟨0, 26⟩⟩
  let a : Contract := ⟨.contract, "A", ["B"], [.enum ⟨"E", ["X"], ⟨39, 48⟩⟩,
    .function ⟨.function, some "f", [⟨.named "E/*E*/", some "e", ⟨59, 66⟩⟩], ⟨58, 67⟩, [], ⟨48, 69⟩⟩],
    ⟨23, 70⟩⟩
  let i : Import := ⟨"B.sol", ⟨9, 23⟩⟩
  have hparseBase := parse_eq_ok_of_parseWithin 12 base ⟨[.contract b]⟩ (by decide +kernel)
  have hparse := parse_eq_ok_of_parseWithin 12 source ⟨[.pragma ⟨0, 9⟩, .importing i, .contract a]⟩
    (by decide +kernel)
  have hsBase : Surface.ofSource base = .ok ⟨"", b, []⟩ :=
    Surface.ofSource_eq_ok_iff.2 ⟨_, hparseBase, by decide +kernel⟩
  have hs : Surface.ofSource source = .ok ⟨"pragma/b;", a, [i]⟩ :=
    Surface.ofSource_eq_ok_iff.2 ⟨_, hparse, by decide +kernel⟩
  have hwritable : ∀ {text s}, Surface.ofSource text = .ok s →
      (∀ x ∈ s.contract.retained text, IsClosedText x) ∧
        (∀ x ∈ s.contract.enumNames, x ∉ headWords) → Writable text := by
    intro text s h hall s' h'
    cases h.symm.trans h'
    exact hall
  have hfiles : Throughout Writable lib (.ofString ".") source := by
    refine ⟨hwritable hs (by decide +kernel), fun q text _ hread => ?_⟩
    obtain ⟨-, rfl⟩ : q = "B.sol" ∧ text = base := by
      simpa [lib, Library.ofFiles] using Library.mem_files_of_read hread
    exact hwritable hsBase (by decide +kernel)
  have ht : (generate lib ⟨.ofString ".", false⟩ source).result = .ok t := by
    have hbase : (draft lib (.ofString ".") ["B.sol"] base).result =
        .ok (Surface.draft ⟨"", b, []⟩ base []) :=
      draft_ok_iff.2 ⟨_, [], hsBase, inheritedBlocks_nil, rfl⟩
    have htarget : i.target (.ofString ".") = "B.sol" := by decide +kernel
    have hread : lib.read (i.target (.ofString ".")) = .ok base := by rw [htarget]; rfl
    have hisBase : i.isBase a.bases = true := by decide +kernel
    have hblocks : (inheritedBlocks lib (.ofString ".") [] a.bases [i]).result = .ok _ :=
      (inheritedBlocks_cons_ok_iff hisBase).2
        ⟨by simp, base, hread, _, htarget ▸ hbase, [], inheritedBlocks_nil, rfl⟩
    refine generate_ok_iff.2 ⟨_, draft_ok_iff.2 ⟨_, _, hs, hblocks, rfl⟩, ?_⟩
    decide +kernel
  have hpragma : ¬ OpensComment "pragma/b;" := by decide +kernel
  obtain ⟨o, u, c, -, hu, hc, -, hname, -⟩ :=
    parse_generated hs hfiles (fun hopens => absurd hopens hpragma) ht
  exact ⟨ht, u, c, hu, hc, hname⟩

/-- A comment behind a modifier runs up to the end of the line, the semicolon of the stub included. -/
theorem parse_generated_comment :
    ∃ t, (generate (.ofFiles []) ⟨.ofString ".", false⟩
        "contract A\x7bfunction f()public//c\n\x7b\x7d\x7d").result = .ok t ∧
      ∀ u, Source.parse t ≠ .ok u := by
  let source := "contract A\x7bfunction f()public//c\n\x7b\x7d\x7d"
  let a : Contract := ⟨.contract, "A", [], [.function ⟨.function, some "f", [], ⟨21, 23⟩,
    [⟨"public", ⟨23, 33⟩⟩], ⟨11, 35⟩⟩], ⟨0, 36⟩⟩
  have hparse := parse_eq_ok_of_parseWithin 12 source ⟨[.contract a]⟩ (by decide +kernel)
  have hs : Surface.ofSource source = .ok ⟨"", a, []⟩ :=
    Surface.ofSource_eq_ok_iff.2 ⟨_, hparse, by decide +kernel⟩
  have hdraft : (draft (.ofFiles []) (.ofString ".") [] source).result = .ok _ :=
    draft_ok_iff.2 ⟨_, [], hs, inheritedBlocks_nil, rfl⟩
  refine ⟨_, generate_ok_iff.2 ⟨_, hdraft, rfl⟩, ?_⟩
  have htext : (Surface.draft ⟨"", a, []⟩ source []).interface =
      "contract IA \x7b\n  function f() public//c;\n\x7d" := by decide +kernel
  rw [if_neg (by simp), htext]
  exact parse_ne_ok_of_failsWithin 12 (by decide +kernel)

end SolidityStubs
