import SolidityStubs.Proofs.Source.Enclosed
import SolidityStubs.Proofs.Source.Printed
import SolidityStubs.Proofs.Stub.Transport

/-! # The shape of stubs

A stub is a head and kept modifiers with single spaces between them. The shapes say what these
pieces look like when no comment and no string is left open in them. Pieces of these shapes are read
in the same way wherever they stand.
-/
namespace SolidityStubs

open Source Peg

structure GroupShape (cs : List Char) : Prop where
  closed : Closed cs
  takes : ∃ ns, Takes grammar .spaced (.rule .callArguments) ⟨0, cs⟩ ⟨Text.byteLength cs, []⟩ ns

structure ListShape (isEmpty : Bool) (cs : List Char) : Prop where
  closed : Closed cs
  takes : ∃ t : Tree, (Parameter.listOfTree t).isEmpty = isEmpty ∧
    Takes grammar .spaced (.rule .parameterList) ⟨0, cs⟩ ⟨Text.byteLength cs, []⟩ [t]

def IsDotted (cs : List Char) : Prop :=
  ∃ ps, ps ≠ [] ∧ (∀ p ∈ ps, isIdentifier p = true) ∧ cs = dotted ps

/-- What stands behind the name of a modifier: arguments, with padding in front, or only padding,
which then ends with a comment. -/
def ArgumentShape (cs : List Char) : Prop :=
  (Padded cs ∧ ∀ x ∈ cs.getLast?, x = '/') ∨ ∃ ws group, cs = ws ++ group ∧ Padded ws ∧
    GroupShape group

def ModifierShape (name : String) (cs : List Char) : Prop :=
  IsDotted name.toList ∧ ∃ args, cs = name.toList ++ args ∧ ArgumentShape args

def EndsModifier (cs : List Char) : Prop :=
  ∃ ws x xs, cs = ws ++ x :: xs ∧ ws.all isSpace = true ∧
    (x = ';' ∨ ws ≠ [] ∧ isIdentifierStart x = true)

section Groups

variable {isEmpty : Bool} {cs : List Char}

theorem GroupShape.text (h : GroupShape cs) : ∃ mid, cs = '(' :: (mid ++ [')']) := by
  obtain ⟨ns, htakes⟩ := h.takes
  obtain ⟨children, hgroup, -⟩ := takes_callArguments_iff.1 htakes
  obtain ⟨mid, hmid⟩ := enclosed_text keepsWithin_fillers hgroup
  exact ⟨mid, hmid.1.trans (List.append_nil _)⟩

/-- A group is passed over wherever it stands. -/
theorem GroupShape.reads (h : GroupShape cs) (n : Nat) (rest : List Char) :
    ∃ ns, Takes grammar .spaced (.rule .callArguments) ⟨n, cs ++ rest⟩
      ⟨n + Text.byteLength cs, rest⟩ ns := by
  obtain ⟨ns, htakes⟩ := h.takes
  obtain ⟨children, hgroup, -⟩ := takes_callArguments_iff.1 htakes
  exact ⟨_, takes_callArguments_iff.2
    ⟨_, takes_enclosed_of_closed keepsWithin_fillers h.closed hgroup n rest, rfl⟩⟩

theorem groupShape_of_enclosed {es : List (Expr Rule)} {c d : Cursor} {ns : List Tree}
    (hkeeps : ∀ a ∈ es, keepsWithin .semicolon true a = true)
    (h : Takes grammar .spaced (enclosed .round es) c d ns) (hpass : c.Passes cs d)
    (hclosed : Closed cs) : GroupShape cs where
  closed := hclosed
  takes := takes_callArguments_of_enclosed hkeeps (takes_enclosed_alone hkeeps h hpass)

theorem listShape_of_takes {c d : Cursor} {t : Tree}
    (h : Takes grammar .spaced (.rule .parameterList) c d [t]) (hpass : c.Passes cs d)
    (hclosed : Closed cs) : ListShape (Parameter.listOfTree t).isEmpty cs where
  closed := hclosed
  takes := by
    obtain ⟨children, hlist, hnode⟩ := takes_parameterList_iff.1 h
    refine ⟨_, ?_, takes_parameterList_iff.2
      ⟨_, takes_enclosed_alone keepsWithin_listBody hlist hpass, rfl⟩⟩
    rw [List.singleton_inj.1 hnode]
    let list : Tree := ⟨.parameterList, c, d, children.map (Node.carry (spliced d.rest []))⟩
    exact (params_isEmpty_of_children (t := list) rfl).trans (params_isEmpty_of_children rfl)

/-- A list of parameters can be passed over like any group. -/
theorem ListShape.group (h : ListShape isEmpty cs) : GroupShape cs := by
  obtain ⟨t, -, htakes⟩ := h.takes
  obtain ⟨children, hlist, -⟩ := takes_parameterList_iff.1 htakes
  exact groupShape_of_enclosed keepsWithin_listBody hlist ⟨by simp, by simp⟩ h.closed

/-- A list of parameters is read wherever it stands, and it does not come to be empty. -/
theorem ListShape.reads (h : ListShape isEmpty cs) (n : Nat) (rest : List Char) :
    ∃ t : Tree, (Parameter.listOfTree t).isEmpty = isEmpty ∧
      Takes grammar .spaced (.rule .parameterList) ⟨n, cs ++ rest⟩ ⟨n + Text.byteLength cs, rest⟩
        [t] := by
  obtain ⟨t, hempty, htakes⟩ := h.takes
  obtain ⟨children, hlist, hnode⟩ := takes_parameterList_iff.1 htakes
  have hreads := takes_enclosed_of_closed keepsWithin_listBody h.closed hlist n rest
  refine ⟨_, ?_, takes_parameterList_iff.2 ⟨_, hreads, rfl⟩⟩
  rw [← hempty, List.singleton_inj.1 hnode]
  let list : Tree := ⟨.parameterList, ⟨0, cs⟩, ⟨Text.byteLength cs, []⟩,
    children.map (Node.carry (spliced [] rest))⟩
  exact (params_isEmpty_of_children (t := list) rfl).trans (params_isEmpty_of_children rfl)

end Groups

section Heads

theorem IsDotted.head {cs : List Char} (h : IsDotted cs) :
    ∃ x xs, cs = x :: xs ∧ isIdentifierStart x = true := by
  obtain ⟨ps, hne, hps, rfl⟩ := h
  cases ps with
  | nil => exact absurd rfl hne
  | cons p ps =>
    have hp := hps p (by simp)
    cases p with
    | nil => cases hp
    | cons x xs =>
      simp only [isIdentifier, Bool.and_eq_true] at hp
      exact ⟨x, xs ++ ps.flatMap ('.' :: ·), rfl, hp.1⟩

theorem isDotted_of_isIdentifier {cs : List Char} (h : isIdentifier cs = true) : IsDotted cs :=
  ⟨[cs], by simp, by simpa using h, by simp [dotted]⟩

theorem ModifierShape.head {name : String} {cs : List Char} (h : ModifierShape name cs) :
    ∃ x xs, cs = x :: xs ∧ isIdentifierStart x = true := by
  obtain ⟨hname, args, rfl, -⟩ := h
  obtain ⟨x, xs, hx, hstart⟩ := hname.head
  exact ⟨x, xs ++ args, by rw [hx]; rfl, hstart⟩

theorem GroupShape.trimmed {cs : List Char} (h : GroupShape cs) : Trimmed cs := by
  obtain ⟨mid, rfl⟩ := h.text
  exact ⟨⟨'(', mid ++ [')'], rfl, rfl⟩, ⟨'(' :: mid, ')', rfl, rfl⟩⟩

theorem ArgumentShape.last {cs : List Char} (h : ArgumentShape cs) :
    ∀ x ∈ cs.getLast?, Text.isBlank x = false := by
  rcases h with ⟨-, hlast⟩ | ⟨ws, group, rfl, -, hgroup⟩
  · intro x hx
    rw [hlast x hx]
    rfl
  · obtain ⟨-, ys, y, rfl, hy⟩ := hgroup.trimmed
    simpa [List.getLast?_append] using hy

theorem ModifierShape.trimmed {name : String} {cs : List Char} (h : ModifierShape name cs) :
    Trimmed cs := by
  obtain ⟨⟨ps, hne, hps, hname⟩, args, rfl, hargs⟩ := h
  have htrimmed : Trimmed name.toList := hname ▸ trimmed_dotted hne hps
  rcases List.eq_nil_or_concat args with rfl | ⟨ys, y, rfl⟩
  · simpa using htrimmed
  · obtain ⟨x, xs, hx, hstart⟩ := htrimmed.head
    have hy := hargs.last y (by simp)
    exact ⟨⟨x, xs ++ ys.concat y, by rw [hx]; rfl, hstart⟩, name.toList ++ ys, y, by simp, hy⟩

/-- Text that starts with padding or a punctuation mark does not carry a name on. -/
theorem char?_of_padded {ws rest : List Char} (n : Nat) (hws : Padded ws)
    (hrest : ws = [] → Cursor.char? isIdentifierChar ⟨n, rest⟩ = none ∧
      Cursor.text? ['.'] ⟨n, rest⟩ = none) :
    Cursor.char? isIdentifierChar ⟨n, ws ++ rest⟩ = none ∧
      Cursor.text? ['.'] ⟨n, ws ++ rest⟩ = none := by
  cases ws with
  | nil => exact hrest rfl
  | cons w ws =>
    rcases hws.head w rfl with hspace | rfl
    · simp only [isSpace, Bool.or_eq_true, beq_iff_eq] at hspace
      rcases hspace with ((rfl | rfl) | rfl) | rfl <;> exact ⟨rfl, rfl⟩
    · exact ⟨rfl, rfl⟩

theorem EndsModifier.char? {cs : List Char} (h : EndsModifier cs) (n : Nat) :
    Cursor.char? isIdentifierChar ⟨n, cs⟩ = none ∧ Cursor.text? ['.'] ⟨n, cs⟩ = none := by
  obtain ⟨ws, x, xs, rfl, hws, hx⟩ := h
  refine char?_of_padded n (padded_of_spaces hws) fun hnil => ?_
  rcases hx with rfl | ⟨hne, -⟩
  · exact ⟨rfl, rfl⟩
  · exact absurd hnil hne

theorem EndsModifier.skip {cs : List Char} (h : EndsModifier cs) (n : Nat) :
    ∃ ws x xs, Cursor.Passes ⟨n, cs⟩ ws (Source.skip ⟨n, cs⟩) ∧ ws.all isSpace = true ∧
      (Source.skip ⟨n, cs⟩).rest = x :: xs ∧ x ≠ '(' := by
  obtain ⟨ws, x, xs, rfl, hws, hx⟩ := h
  have hsolid : x ≠ '/' ∧ isSpace x = false := by
    rcases hx with rfl | ⟨-, hx⟩
    · decide
    · exact solid_of_isIdentifierStart hx
  rw [skip_spaces n hws, skip_solid _ hsolid.1 hsolid.2]
  refine ⟨ws, x, xs, ⟨rfl, rfl⟩, hws, rfl, ?_⟩
  rintro rfl
  rcases hx with hx | ⟨-, hx⟩ <;> cases hx

end Heads

theorem blank_of_spaces {ws : List Char} (h : ws.all isSpace = true) :
    ws.all Text.isBlank = true :=
  List.all_eq_true.2 fun x hx => isBlank_of_isSpace (List.all_eq_true.1 h x hx)

section Modifiers

variable {name : String} {rest : List Char}

theorem takes_userTypeName_rule {cs : List Char} (h : IsDotted cs) (n : Nat)
    (hend : Cursor.char? isIdentifierChar ⟨n + Text.byteLength cs, rest⟩ = none)
    (hdot : Cursor.text? ['.'] ⟨n + Text.byteLength cs, rest⟩ = none) :
    Takes grammar .spaced (.rule .userTypeName) ⟨n, cs ++ rest⟩ ⟨n + Text.byteLength cs, rest⟩
      [⟨.userTypeName, ⟨n, cs ++ rest⟩, ⟨n + Text.byteLength cs, rest⟩, []⟩] := by
  obtain ⟨ps, hne, hps, rfl⟩ := h
  exact (takes_rule_iff (by decide)).2
    ⟨[], takes_userTypeName hne hps ⟨rfl, rfl⟩ hend hdot, rfl⟩

/-- How a modifier is read: up to a position behind it that is reached through spaces. -/
def ReadsModifier (name : String) (cs rest : List Char) (n : Nat) : Prop :=
  ∃ t d ws, Takes grammar .spaced modifierItem ⟨n, cs ++ rest⟩ d [t] ∧
    Cursor.Passes ⟨n + Text.byteLength cs, rest⟩ ws d ∧ ws.all isSpace = true ∧
    skip d = skip ⟨n + Text.byteLength cs, rest⟩ ∧ Modifier.ofTree? t = some ⟨name, ⟨n, d.offset⟩⟩

/-- A clause of return values at a dotted name is the word `returns` and parameters. -/
theorem returnsClause_at (hname : IsDotted name.toList) {n : Nat} {d : Cursor} {ns : List Tree}
    (hend : Cursor.char? isIdentifierChar ⟨n + Text.byteLength name.toList, rest⟩ = none)
    (h : Takes grammar .spaced (.rule .returnsClause) ⟨n, name.toList ++ rest⟩ d ns) :
    name = "returns" ∧ ∃ lists, Takes grammar .spaced (.rule .parameterList)
      (skip ⟨n + Text.byteLength name.toList, rest⟩) d lists := by
  obtain ⟨ps, hne, hps, hdotted⟩ := hname
  have hc : Cursor.rest ⟨n, name.toList ++ rest⟩ = dotted ps ++ rest := by rw [hdotted]
  obtain ⟨hword, ⟨m, fs⟩, lists, hf, hlist⟩ :=
    takes_returnsClause_dotted hne hps hc (endsRun_of_char? hend) h
  obtain rfl : name = "returns" := String.toList_inj.1 (hdotted.trans hword)
  have hrest : rest = fs := (List.append_right_inj _).1 hf.1
  have hoff : m = n + Text.byteLength "returns".toList := hf.2
  exact ⟨rfl, lists, hrest ▸ hoff ▸ hlist⟩

theorem readsModifier_plain {args : List Char} (hname : IsDotted name.toList) (hargs : Padded args)
    (n : Nat) (hrest : EndsModifier rest) : ReadsModifier name (name.toList ++ args) rest n := by
  let e : Cursor := ⟨n + Text.byteLength name.toList, args ++ rest⟩
  let f : Cursor := ⟨n + Text.byteLength (name.toList ++ args), rest⟩
  obtain ⟨hchar, hdot⟩ : Cursor.char? isIdentifierChar e = none ∧ Cursor.text? ['.'] e = none :=
    char?_of_padded _ hargs fun _ => hrest.char? _
  obtain ⟨ws, x, xs, hpass, hws, hx, hopen⟩ := hrest.skip f.offset
  have hskip : skip e = skip f := by
    rw [hargs.skip, Nat.add_assoc, ← Text.byteLength_append]
  have hnone : Fails grammar .spaced (.rule .callArguments) (skip f) :=
    .ruleFail (.seqFirst (fails_text_of_head hx (Ne.symm hopen)))
  have hreturns : Fails grammar .spaced (.rule .returnsClause) ⟨n, name.toList ++ (args ++ rest)⟩ := by
    obtain ⟨y, hy⟩ := exists_yields .returnsClause ⟨n, name.toList ++ (args ++ rest)⟩
    cases y with
    | none => exact hy
    | some q =>
      obtain ⟨-, lists, hlist⟩ := returnsClause_at hname hchar hy
      obtain ⟨children, hbody, -⟩ := takes_parameterList_iff.1 hlist
      obtain ⟨cs, hparen, -⟩ := enclosed_text keepsWithin_listBody hbody
      have hhead := hx.symm.trans ((congrArg Cursor.rest hskip).symm.trans hparen)
      exact absurd (List.cons.inj hhead).1 hopen
  have hinvocation := takes_seq_iff.2 ⟨e, _, [], takes_userTypeName_rule hname n hchar hdot,
    .maybeNot (hskip.symm ▸ hnone), rfl⟩
  have htext : Cursor.Passes ⟨n, name.toList ++ (args ++ rest)⟩ name.toList e := ⟨rfl, rfl⟩
  unfold ReadsModifier
  rw [List.append_assoc]
  refine ⟨_, skip e, ws, .choiceRight hreturns ((takes_rule_iff (by decide)).2
    ⟨_, hinvocation, rfl⟩), hskip.symm ▸ hpass, hws, (skip_skip e).trans hskip, ?_⟩
  simp [Modifier.ofTree?, dottedName, Node.child?, Node.string, Node.text, Node.span, htext.upTo, e]

/-- Whichever alternative reads the arguments, it stops where their parenthesis closes. -/
theorem readsModifier_arguments {ws group : List Char} (hname : IsDotted name.toList)
    (hws : Padded ws) (hgroup : GroupShape group) (n : Nat) (rest : List Char) :
    ReadsModifier name (name.toList ++ (ws ++ group)) rest n := by
  let e : Cursor := ⟨n + Text.byteLength name.toList, ws ++ (group ++ rest)⟩
  let f : Cursor := ⟨e.offset + Text.byteLength ws, group ++ rest⟩
  obtain ⟨mid, hmid⟩ := hgroup.text
  have htext : name.toList ++ (ws ++ group) ++ rest = name.toList ++ (ws ++ (group ++ rest)) := by simp
  have hsize : n + Text.byteLength (name.toList ++ (ws ++ group)) =
      f.offset + Text.byteLength group := by simp [f, e, Nat.add_assoc]
  obtain ⟨hchar, hdot⟩ : Cursor.char? isIdentifierChar e = none ∧ Cursor.text? ['.'] e = none :=
    char?_of_padded _ hws fun _ => by rw [hmid]; exact ⟨rfl, rfl⟩
  have hskip : skip e = f := by
    rw [hws.skip]
    simp only [f, hmid, List.cons_append]
    exact skip_solid _ (by decide) rfl
  obtain ⟨children, hargs⟩ := hgroup.reads f.offset rest
  unfold ReadsModifier
  rw [htext, hsize]
  obtain ⟨y, hy⟩ := exists_yields .returnsClause ⟨n, name.toList ++ (ws ++ (group ++ rest))⟩
  cases y with
  | some q =>
    obtain ⟨d, ns⟩ := q
    obtain ⟨rfl, lists, hlist⟩ := returnsClause_at hname hchar hy
    obtain ⟨params, hlist, -⟩ := takes_parameterList_iff.1 hlist
    obtain ⟨fillers, hargs, -⟩ := takes_callArguments_iff.1 hargs
    have hlist' : Takes grammar .spaced (enclosed .round [listBody]) f d params := hskip ▸ hlist
    obtain rfl := takes_enclosed_unique keepsWithin_listBody keepsWithin_fillers hlist' hargs
    obtain ⟨children, -, rfl⟩ := (takes_rule_iff (by decide)).1 hy
    exact ⟨_, _, [], .choiceLeft hy, .refl _, rfl, rfl, rfl⟩
  | none =>
    have hargs' : Takes grammar .spaced (.rule .callArguments) (skip e)
        ⟨f.offset + Text.byteLength group, rest⟩ children := by
      rw [hskip]
      exact hargs
    have hinvocation := takes_seq_iff.2 ⟨e, _, _, takes_userTypeName_rule hname n hchar hdot,
      .maybe hargs', rfl⟩
    refine ⟨_, _, [], .choiceRight hy ((takes_rule_iff (by decide)).2 ⟨_, hinvocation, rfl⟩), .refl _,
      rfl, rfl, ?_⟩
    have hpass : Cursor.Passes ⟨n, name.toList ++ (ws ++ (group ++ rest))⟩ name.toList e := ⟨rfl, rfl⟩
    simp [Modifier.ofTree?, dottedName, Node.child?, Node.string, Node.text, Node.span, hpass.upTo, e]

theorem ModifierShape.reads {cs : List Char} (h : ModifierShape name cs) (n : Nat)
    (hrest : EndsModifier rest) : ReadsModifier name cs rest n := by
  obtain ⟨hname, args, rfl, ⟨hargs, -⟩ | ⟨ws, group, rfl, hws, hgroup⟩⟩ := h
  · exact readsModifier_plain hname hargs n hrest
  · exact readsModifier_arguments hname hws hgroup n rest

def modifierChars (ms : List (String × List Char)) : List Char := ms.flatMap fun m => ' ' :: m.2

theorem endsModifier_chars {ms : List (String × List Char)} (hms : ∀ m ∈ ms, ModifierShape m.1 m.2)
    (rest : List Char) : EndsModifier (modifierChars ms ++ ';' :: rest) := by
  cases ms with
  | nil => exact ⟨[], ';', rest, rfl, rfl, .inl rfl⟩
  | cons m ms =>
    obtain ⟨x, xs, hx, hstart⟩ := (hms m (by simp)).head
    refine ⟨[' '], x, xs ++ (modifierChars ms ++ ';' :: rest), ?_, rfl, .inr ⟨by simp, hstart⟩⟩
    simp [modifierChars, hx]

/-- Modifiers are read one by one up to the semicolon behind them, and can be cut out again. -/
theorem steps_modifiers {ms : List (String × List Char)} (hms : ∀ m ∈ ms, ModifierShape m.1 m.2)
    (n : Nat) (rest : List Char) :
    ∃ nodes e, Steps grammar modifierItem ⟨n, modifierChars ms ++ ';' :: rest⟩ nodes e ∧
      skip e = ⟨n + Text.byteLength (modifierChars ms), ';' :: rest⟩ ∧
      ∀ source, (origin source).Before ⟨n, modifierChars ms ++ ';' :: rest⟩ →
        (nodes.filterMap Modifier.ofTree?).map
          (fun m => (m.name, Text.trim (m.span.slice source))) =
        ms.map fun m => (m.1, String.ofList m.2) := by
  induction ms generalizing n with
  | nil =>
    refine ⟨[], _, .nil _, ?_, fun _ _ => rfl⟩
    exact skip_solid _ (by decide) rfl
  | cons m ms ih =>
    obtain ⟨name, cs⟩ := m
    have hm : ModifierShape name cs := hms (name, cs) (by simp)
    have hms' : ∀ m ∈ ms, ModifierShape m.1 m.2 := fun m hmem => hms m (List.mem_cons_of_mem _ hmem)
    let tail : List Char := modifierChars ms ++ ';' :: rest
    have htext : modifierChars ((name, cs) :: ms) ++ ';' :: rest = ' ' :: (cs ++ tail) := by
      simp [modifierChars, tail]
    obtain ⟨x, xs, hx, hstart⟩ := hm.head
    have hskip : skip ⟨n, ' ' :: (cs ++ tail)⟩ = ⟨n + 1, cs ++ tail⟩ := by
      rw [skip_space n rfl, hx]
      obtain ⟨hslash, hspace⟩ := solid_of_isIdentifierStart hstart
      exact skip_solid _ hslash hspace
    obtain ⟨t, d, ws, ht, hpass, hws, hd, hmod⟩ := hm.reads (n + 1) (endsModifier_chars hms' rest)
    obtain ⟨nodes, e, hsteps, he, hcut⟩ := ih hms' (n + 1 + Text.byteLength cs)
    obtain ⟨e', hsteps', hskip'⟩ := hsteps.of_skip_eq hd
    have hone : Takes grammar .spaced modifierItem (grammar.skip ⟨n, ' ' :: (cs ++ tail)⟩) d [t] := by
      change Takes grammar .spaced modifierItem (skip ⟨n, ' ' :: (cs ++ tail)⟩) d [t]
      rw [hskip]
      exact ht
    have hall : Steps grammar modifierItem ⟨n, ' ' :: (cs ++ tail)⟩ (t :: nodes) e' :=
      .cons hone hsteps'
    rw [htext]
    refine ⟨t :: nodes, e', hall, ?_, fun source hsource => ?_⟩
    · have hskip'' : skip e' = skip e := hskip'
      rw [hskip'', he]
      simp only [Cursor.mk.injEq, and_true, modifierChars, List.flatMap_cons, List.cons_append,
        Text.byteLength_cons, Text.byteLength_append]
      have hsize : ' '.utf8Size = 1 := rfl
      omega
    · have hstart' : (origin source).Before ⟨n + 1, cs ++ tail⟩ := hsource.trans ⟨[' '], rfl, rfl⟩
      have hslice : Span.slice ⟨n + 1, d.offset⟩ source = String.ofList (cs ++ ws) := by
        refine slice_of_passes hstart' (d := d) ⟨?_, ?_⟩
        · rw [List.append_assoc, ← hpass.1]
        · simp only [hpass.2, Text.byteLength_append]
          omega
      have htrim : Text.trim (String.ofList (cs ++ ws)) = String.ofList cs := by
        rw [Text.trim, String.toList_ofList, hm.trimmed.trimChars_append (blank_of_spaces hws)]
      have hrest := hcut source (hstart'.trans ⟨cs, rfl, rfl⟩)
      simp only [List.filterMap_cons, hmod, List.map_cons, hslice, htrim, hrest]

end Modifiers

def functionChars : List Char := "function".toList

structure StubShape where
  name : String
  nameGap : List Char
  listGap : List Char
  list : List Char
  noParams : Bool
  modifiers : List (String × List Char)
  isIdentifier : isIdentifier name.toList = true
  nameGap_ne_nil : nameGap ≠ []
  nameGap_padded : Padded nameGap
  listGap_padded : Padded listGap
  listShape : ListShape noParams list
  modifierShapes : ∀ m ∈ modifiers, ModifierShape m.1 m.2

namespace StubShape

variable (s : StubShape)

def head : List Char := functionChars ++ (s.nameGap ++ (s.name.toList ++ (s.listGap ++ s.list)))

def text : List Char := s.head ++ (modifierChars s.modifiers ++ [';'])

/-- What is known of a function in a source that was read from a stub: its name, whether it has
parameters, and the texts of its head, of its modifiers and of the whole. -/
structure Describes (f : FunctionDecl) (source : String) : Prop where
  kind : f.kind = .function
  name : f.name = some s.name
  params : f.params.isEmpty = s.noParams
  head : Span.slice ⟨f.span.start, f.paramsSpan.stop⟩ source = String.ofList s.head
  modifiers : f.modifiers.map (fun m => (m.name, Text.trim (m.span.slice source))) =
    s.modifiers.map fun m => (m.1, String.ofList m.2)
  text : f.span.slice source = String.ofList s.text

theorem name_head : ∃ x xs, s.name.toList = x :: xs ∧ isIdentifierStart x = true := by
  have h := s.isIdentifier
  cases hname : s.name.toList with
  | nil => simp [hname, SolidityStubs.isIdentifier] at h
  | cons x xs =>
    simp only [hname, SolidityStubs.isIdentifier, Bool.and_eq_true] at h
    exact ⟨x, xs, rfl, h.1⟩

theorem takes_functionHead (n : Nat) {tail : List Char}
    (htail : ∀ m, Cursor.char? isIdentifierChar ⟨m, tail⟩ = none) :
    ∃ t : Tree, Takes grammar .spaced (.rule .functionHead)
      ⟨n, functionChars ++ (s.nameGap ++ (s.name.toList ++ tail))⟩
      ⟨n + Text.byteLength (functionChars ++ (s.nameGap ++ s.name.toList)), tail⟩ [t] ∧
      t.rule = .functionHead ∧ FunctionKind.ofHead t = .function ∧
      (t.child? .identifier).map (·.string) = some s.name := by
  let e : Cursor := ⟨n + 8, s.nameGap ++ (s.name.toList ++ tail)⟩
  let f : Cursor := ⟨n + 8 + Text.byteLength s.nameGap, s.name.toList ++ tail⟩
  let d : Cursor := ⟨n + 8 + Text.byteLength s.nameGap + Text.byteLength s.name.toList, tail⟩
  obtain ⟨x, xs, hx, hstart⟩ := s.name_head
  have hskip : skip e = f := by
    obtain ⟨hslash, hspace⟩ := solid_of_isIdentifierStart hstart
    rw [s.nameGap_padded.skip]
    simp only [f, hx, List.cons_append]
    exact skip_solid _ hslash hspace
  have hgap : Cursor.char? isIdentifierChar e = none :=
    (char?_of_padded _ s.nameGap_padded fun hnil => absurd hnil s.nameGap_ne_nil).1
  have hword : Takes grammar .spaced (word .functionWord)
      ⟨n, functionChars ++ (s.nameGap ++ (s.name.toList ++ tail))⟩ e
      [⟨.keyword .functionWord, _, e, []⟩] :=
    (takes_rule_iff (by decide)).2 ⟨[], Takes.seq_nil (takes_text_iff.2 ⟨⟨rfl, rfl⟩, rfl⟩)
      (takes_wordEnd hgap), rfl⟩
  have hpass : f.Passes s.name.toList d := ⟨rfl, rfl⟩
  have hname : Takes grammar .spaced (.rule .identifier) f d [⟨.identifier, f, d, []⟩] :=
    (takes_rule_iff (by decide)).2 ⟨[], takes_identifier s.isIdentifier hpass (htail _), rfl⟩
  have hname' : Takes grammar .spaced (.maybe (.rule .identifier)) (skip e) d
      [⟨.identifier, f, d, []⟩] := .maybe (hskip.symm ▸ hname)
  have hbody := takes_seq_iff.2 ⟨e, _, _, hword, hname', rfl⟩
  have hd : (⟨n + Text.byteLength (functionChars ++ (s.nameGap ++ s.name.toList)), tail⟩ : Cursor) =
      d := by
    have hsize : Text.byteLength functionChars = 8 := rfl
    simp only [d, Text.byteLength_append, hsize, Cursor.mk.injEq, and_true]
    omega
  rw [hd]
  refine ⟨_, (takes_rule_iff (by decide)).2 ⟨_, .choiceLeft hbody, rfl⟩, rfl, ?_, ?_⟩
  · simp [FunctionKind.ofHead, Node.child?]
  · simp [Node.child?, Node.string, Node.text, hpass.upTo]

theorem fails_modifierItem (n : Nat) (rest : List Char) :
    Fails grammar .spaced modifierItem ⟨n, ';' :: rest⟩ :=
  .choiceRight (.ruleFail (.seqFirst (.ruleFail (.seqFirst (fails_text (by decide))))))
    (.ruleFail (.seqFirst (fails_userTypeName rfl rfl)))

/-- A stub is read as one function wherever it stands, and its pieces can be cut out again. -/
theorem reads (n : Nat) (rest : List Char) :
    ∃ t : Tree, Takes grammar .spaced (.rule .functionDefinition) ⟨n, s.text ++ rest⟩
      ⟨n + Text.byteLength s.text, rest⟩ [t] ∧
      ∀ source, (origin source).Before ⟨n, s.text ++ rest⟩ →
        s.Describes (.ofTree t) source := by
  let tail : List Char := modifierChars s.modifiers ++ ';' :: rest
  have htext : s.text ++ rest =
      functionChars ++ (s.nameGap ++ (s.name.toList ++ (s.listGap ++ (s.list ++ tail)))) := by
    simp [text, head, tail]
  obtain ⟨mid, hlist⟩ := s.listShape.group.text
  have hgap : ∀ m, Cursor.char? isIdentifierChar ⟨m, s.listGap ++ (s.list ++ tail)⟩ = none := fun m =>
    (char?_of_padded m s.listGap_padded fun _ => by rw [hlist]; exact ⟨rfl, rfl⟩).1
  obtain ⟨front, hfront, hrule, hkind, hname⟩ := s.takes_functionHead n hgap
  let e : Cursor := ⟨n + Text.byteLength (functionChars ++ (s.nameGap ++ s.name.toList)),
    s.listGap ++ (s.list ++ tail)⟩
  let f : Cursor := ⟨e.offset + Text.byteLength s.listGap, s.list ++ tail⟩
  have hskip : skip e = f := by
    rw [s.listGap_padded.skip]
    simp only [f, hlist, List.cons_append]
    exact skip_solid _ (by decide) rfl
  obtain ⟨params, hempty, hparams⟩ := s.listShape.reads f.offset tail
  let g : Cursor := ⟨f.offset + Text.byteLength s.list, tail⟩
  obtain ⟨nodes, i, hsteps, hi, hcut⟩ := steps_modifiers s.modifierShapes g.offset rest
  obtain ⟨i', hsteps', hi'⟩ := hsteps.of_skip_eq (skip_skip g)
  have hend : skip i' = ⟨g.offset + Text.byteLength (modifierChars s.modifiers), ';' :: rest⟩ :=
    Eq.trans hi' hi
  have hmany : Takes grammar .spaced (.many modifierItem) (skip g) i' nodes :=
    (takes_many_iff (skip_skip g)).2 ⟨hsteps', by
      change Fails grammar .spaced modifierItem (skip i')
      rw [hend]
      exact fails_modifierItem _ rest⟩
  have hrow : Row functionHeader ⟨n, s.text ++ rest⟩ (skip i')
      ([front] ++ ([params] ++ (nodes ++ []))) := by
    rw [htext]
    exact .cons hfront (.cons (hskip.symm ▸ hparams) (.cons hmany (.nil _)))
  have hbody : Takes grammar .spaced bodyOrSemicolon (skip i')
      ⟨n + Text.byteLength s.text, rest⟩ [] := by
    rw [hend]
    refine .choiceRight (.ruleFail (.seqFirst (fails_text (by decide))))
      (takes_text_iff.2 ⟨⟨rfl, ?_⟩, rfl⟩)
    simp only [g, f, e, text, head, Text.byteLength_append]
    omega
  obtain ⟨children, -, hnode⟩ := (takes_rule_iff (by decide)).1 hparams
  obtain rfl := List.singleton_inj.1 hnode
  refine ⟨_, takes_functionDefinition_iff.2 ⟨_, _, _, hrow, hbody, rfl⟩, fun source hsource => ?_⟩
  have hpass : Cursor.Passes ⟨n, s.text ++ rest⟩ s.head g := by
    refine ⟨by simp [text, g, tail], ?_⟩
    simp only [g, f, e, head, Text.byteLength_append]
    omega
  have hslice := slice_of_passes hsource hpass
  have hnames := hcut source (hsource.trans ⟨_, hpass⟩)
  rw [List.singleton_append, List.singleton_append, List.append_nil, List.append_nil]
  have hwhole : Cursor.Passes ⟨n, s.text ++ rest⟩ s.text ⟨n + Text.byteLength s.text, rest⟩ := ⟨rfl, rfl⟩
  refine ⟨?_, ?_, ?_, ?_, ?_, slice_of_passes hsource hwhole⟩
  · simp [FunctionDecl.ofTree, Node.child?, hrule, hkind]
  · simpa [FunctionDecl.ofTree, Node.child?, hrule] using hname
  · simpa [FunctionDecl.ofTree, Node.child?, hrule] using hempty
  · simpa [FunctionDecl.ofTree, Node.child?, hrule, Node.span] using hslice
  · have hnone : Modifier.ofTree? front = none := by simp [Modifier.ofTree?, hrule]
    simp only [FunctionDecl.ofTree]
    rw [List.filterMap_cons_none hnone, List.filterMap_cons_none rfl]
    exact hnames

end StubShape

end SolidityStubs
