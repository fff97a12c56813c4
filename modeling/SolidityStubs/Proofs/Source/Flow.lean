import SolidityStubs.Proofs.Peg.Calls
import SolidityStubs.Proofs.Source.Lexeme
import SolidityStubs.Proofs.Source.Termination

/-! # The flow of brackets through the grammar

`flow` runs an expression on what is known about a position: the brackets that are open and whether
padding, a string or a semicolon can start there. An expression that it accepts moves along lexemes,
closes only brackets that it opened itself and passes a border only as its last character.
-/
namespace SolidityStubs.Source

open Peg

/-- What is known at a position. -/
structure Flow where
  /-- The closing brackets that are due since the rule began. -/
  closers : List Char
  /-- No padding starts here. -/
  clear : Bool
  /-- No string starts here. -/
  plain : Bool
  /-- There is no semicolon here. -/
  unended : Bool
deriving DecidableEq, Repr

/-- How an expression ends: at a position of which something is known, right behind the border, or
in one way or the other. -/
inductive Exit
  | reaches (f : Flow)
  | border
  | either
deriving DecidableEq, Repr

namespace Flow

def forget (f : Flow) : Flow := ⟨f.closers, false, false, false⟩

def skipped (m : Mode) (f : Flow) : Flow :=
  if m = .tight ∨ f.clear then f else ⟨f.closers, true, false, false⟩

def anew (m : Mode) (f : Flow) : Flow := ⟨f.closers, m = .spaced, false, false⟩

def without (f : Flow) : Expr Rule → Flow
  | .rule .stringLiteral => { f with plain := true }
  | .text cs => if cs = [';'] then { f with unended := true } else f
  | _ => f

end Flow

def Exit.join : Exit → Exit → Exit
  | .reaches f, .reaches f' => if f.closers = f'.closers then .reaches f.forget else .either
  | .border, .border => .border
  | _, _ => .either

inductive RuleEnd
  | balanced
  | border
  | either
deriving DecidableEq, Repr

def outerEnd : Border → Rule → Option RuleEnd
  | .semicolon, r =>
    match r with
    | .importDirective | .usingDirective | .eventDefinition | .errorDefinition
    | .stateVariableDeclaration => some .border
    | .modifierDefinition | .functionDefinition => some .either
    | _ => some .balanced
  | .ending, r =>
    match r with
    | .contractDefinition | .structDefinition | .enumDefinition | .eventDefinition
    | .errorDefinition | .modifierDefinition | .functionDefinition | .functionBody => some .border
    | .importDirective | .importSymbols | .usingDirective | .stateVariableDeclaration
    | .filler => none
    | _ => some .balanced
  | .opening, r =>
    match r with
    | .importDirective | .importSymbols | .contractDefinition | .structDefinition
    | .enumDefinition | .modifierDefinition | .functionDefinition | .functionBody
    | .usingDirective | .stateVariableDeclaration | .filler => none
    | _ => some .balanced

def ruleEnd (b : Border) (inside : Bool) : Mode → Rule → Option RuleEnd
  | .tight, r => if r = .identifier then some .balanced else none
  | .spaced, r =>
    match r with
    | .pragmaDirective | .pragmaValue | .sourceUnit | .endOfInput => none
    | _ => if inside then some .balanced else outerEnd b r

/-- What a rule relies on where it starts. -/
def entry (inside : Bool) (r : Rule) : Flow :=
  if r = .filler then ⟨[], true, false, !inside⟩ else ⟨[], false, false, false⟩

section Check

variable (b : Border) (enclosed : Bool)

def charExit (accept : Char → Bool) (f : Flow) : Option Exit :=
  if ['(', ')', '[', ']', '\x7b', '\x7d'].any accept
      || (accept '/' && !f.clear)
      || ((accept '"' || accept '\x27') && !f.plain)
      || (accept ';' && !f.unended && !enclosed && f.closers.isEmpty) then none
  else some (.reaches f.forget)

def textExit : List Char → Flow → Option Exit
  | [], f => some (.reaches f)
  | x :: xs, f =>
    if x = '/' ∨ isSpace x ∨ isQuote x then none
    else if !enclosed && b.stops f.closers x then if xs.isEmpty then some .border else none
    else
      match turn f.closers x with
      | some closers => textExit xs ⟨closers, false, false, false⟩
      | none => none

def repeatedExit (f : Flow) : Option Exit → Option Exit
  | some (.reaches f') => if f'.closers = f.closers then some (.reaches f.forget) else none
  | _ => none

def ruleExit (m : Mode) (r : Rule) (f : Flow) : Option Exit :=
  let inside := enclosed || !f.closers.isEmpty
  if ((entry inside r).clear && !f.clear) || ((entry inside r).unended && !f.unended) then none
  else
    match ruleEnd b inside m r with
    | some .balanced => some (.reaches f.forget)
    | some .border => some .border
    | some .either => some .either
    | none => none

/-- Runs an expression on what is known. -/
def flow (m : Mode) : Expr Rule → Flow → Option Exit
  | .char accept, f => charExit enclosed accept f
  | .text cs, f => textExit b enclosed cs f
  | .seq a e, f =>
    match flow m a f with
    | some (.reaches f') => flow m e (f'.skipped m)
    | _ => none
  | .choice a e, f =>
    match flow m a f, flow m e (f.without a) with
    | some x, some y => some (x.join y)
    | _, _ => none
  | .maybe a, f => repeatedExit f (flow m a f)
  | .many a, f =>
    if m = .spaced ∧ !f.clear then none else repeatedExit f (flow m a (f.anew m))
  | .never a, f => (flow m a f).map fun _ => .reaches (f.without a)
  | .rule r, f => ruleExit b enclosed m r f

def taskFlow (m : Mode) : Peg.Task Rule → Flow → Option Exit
  | .once e, f => flow b enclosed m e f
  | .again a, f => repeatedExit f (flow b enclosed m a (f.anew m))

end Check

def RuleEnd.allows : RuleEnd → Exit → Bool
  | .balanced, .reaches f => f.closers.isEmpty
  | .border, .border => true
  | .either, _ => true
  | _, _ => false

def RuleEnd.holds (b : Border) (inside : Bool) (m : Mode) (r : Rule) : Bool :=
  match ruleEnd b inside m r with
  | none => true
  | some e =>
    r = .stringLiteral ||
      (flow b inside (m.enter (production r).shape) (production r).body (entry inside r)).any e.allows

theorem ruleEnd_holds_all : ∀ b ∈ Border.all, ∀ inside ∈ [true, false],
    ∀ m ∈ [Mode.spaced, Mode.tight], ∀ r ∈ Rule.all, RuleEnd.holds b inside m r = true := by
  decide +kernel

theorem ruleEnd_holds (b : Border) (inside : Bool) (m : Mode) (r : Rule) :
    RuleEnd.holds b inside m r = true :=
  ruleEnd_holds_all b b.mem_all inside (by cases inside <;> decide) m (by cases m <;> decide) r
    r.mem_all

/-- What is known is true at a position inside the brackets that `base` closes. -/
structure Flow.Holds (enclosed : Bool) (base : List Char) (f : Flow) (c : Cursor) : Prop where
  base : enclosed = !base.isEmpty
  clear : f.clear = true → trivium? c = none
  plain : f.plain = true → string? c = none
  unended : f.unended = true → c.rest.head? ≠ some ';'

def Exit.Reached (b : Border) (enclosed : Bool) (base : List Char) (p : List Char × Cursor) :
    Exit → Cursor → Prop
  | .reaches f, d => Scans b p (f.closers ++ base, d) ∧ f.Holds enclosed base d
  | .border, d => ∃ closers e x, Scans b p (closers, e) ∧ b.stops closers x = true ∧
      e.Passes [x] d
  | .either, _ => True

section Soundness

variable {b : Border} {enclosed : Bool} {base : List Char} {f : Flow} {c d : Cursor} {m : Mode}

namespace Flow

theorem Holds.forget (h : f.Holds enclosed base c) (d : Cursor) : f.forget.Holds enclosed base d where
  base := h.base
  clear := by simp [Flow.forget]
  plain := by simp [Flow.forget]
  unended := by simp [Flow.forget]

theorem closers_skipped : (f.skipped m).closers = f.closers := by
  unfold Flow.skipped
  split <;> rfl

theorem closers_without (e : Expr Rule) : (f.without e).closers = f.closers := by
  unfold Flow.without
  split
  · rfl
  · split <;> rfl
  · rfl

theorem Holds.skipped (h : f.Holds enclosed base c) :
    (f.skipped m).Holds enclosed base (m.skip grammar c) := by
  unfold Flow.skipped
  cases m with
  | tight =>
    rw [if_pos (.inl rfl)]
    exact h
  | spaced =>
    cases hc : f.clear with
    | true =>
      have hskip : Mode.spaced.skip grammar c = c := skip_of_none (h.clear hc)
      rw [hskip]
      simpa using h
    | false =>
      simp only [reduceCtorEq, Bool.false_eq_true, or_self, ↓reduceIte]
      exact ⟨h.base, fun _ => trivium?_skip c, by simp, by simp⟩

theorem Holds.anew (h : f.Holds enclosed base c) : (f.anew m).Holds enclosed base (m.skip grammar c) where
  base := h.base
  clear hm := by
    simp only [Flow.anew, decide_eq_true_eq] at hm
    subst hm
    exact trivium?_skip c
  plain := by simp [Flow.anew]
  unended := by simp [Flow.anew]

theorem Holds.without {e : Expr Rule} (h : f.Holds enclosed base c) (he : Fails grammar m e c) :
    (f.without e).Holds enclosed base c := by
  unfold Flow.without
  split
  · -- a string cannot start where the rule of strings fails
    refine ⟨h.base, h.clear, fun _ => ?_, h.unended⟩
    cases he with
    | ruleFail hb =>
      have hmode : m.enter (grammar.production .stringLiteral).shape = .tight := by
        cases m <;> rfl
      rw [hmode] at hb
      have hx := hb.unique (stringLiteral_body_yields c)
      simpa using hx.symm
  · split
    · rename_i hcs
      refine ⟨h.base, h.clear, h.plain, fun _ hhead => ?_⟩
      subst hcs
      obtain ⟨n, cs⟩ := c
      cases he with
      | textFail ht =>
        cases cs with
        | nil => simp at hhead
        | cons x xs =>
          simp only [List.head?_cons, Option.some.injEq] at hhead
          subst hhead
          simp [Cursor.text?] at ht
    · exact h
  · exact h

end Flow

theorem turn_append {closers closers' : List Char} {x : Char} (h : turn closers x = some closers') :
    turn (closers ++ base) x = some (closers' ++ base) := by
  unfold turn at h ⊢
  split at h
  · cases h
    rfl
  · split at h
    · split at h
      · cases h
      · rename_i hbracket _ y rest
        simp only [Option.ite_none_right_eq_some, Option.some.injEq] at h
        obtain ⟨rfl, rfl⟩ := h
        simp [hbracket]
    · rename_i hbracket
      cases h
      simp [hbracket]

theorem turn_of_not_isBracket {closers : List Char} {x : Char} (h : isBracket x = false) :
    turn closers x = some closers := by
  have hcloser : closer? x = none := by
    unfold closer?
    unfold isBracket at h
    grind
  simp [turn, hcloser, h]

/-- Brackets around the rule keep a character from the border, unless it closes one of them. -/
theorem Border.stops_append {closers closers' : List Char} {x : Char}
    (hbase : enclosed = !base.isEmpty) (h : (!enclosed && b.stops closers x) = false)
    (hturn : turn closers x = some closers') : b.stops (closers ++ base) x = false := by
  cases base with
  | nil => simpa [hbase] using h
  | cons y base =>
    cases closers with
    | nil =>
      have hbrace : x ≠ '\x7d' := by
        rintro rfl
        cases hturn
      cases b <;> simp [Border.stops, hbrace]
    | cons z closers => cases b <;> simp [Border.stops]

theorem charExit_reached {accept : Char → Bool} {x : Exit} (hx : charExit enclosed accept f = some x)
    (hf : f.Holds enclosed base c) (h : c.char? accept = some d) :
    x.Reached b enclosed base (f.closers ++ base, c) d := by
  obtain ⟨n, cs⟩ := c
  cases cs with
  | nil => simp [Cursor.char?] at h
  | cons y ys =>
    simp only [Cursor.char?, Option.ite_none_right_eq_some, Option.some.injEq] at h
    obtain ⟨hy, rfl⟩ := h
    unfold charExit at hx
    simp only [Option.ite_none_left_eq_some, Option.some.injEq] at hx
    obtain ⟨hnot, rfl⟩ := hx
    simp only [List.any_cons, List.any_nil, Bool.or_false, Bool.or_eq_true, Bool.and_eq_true,
      not_or, not_and, Bool.not_eq_true] at hnot
    obtain ⟨⟨⟨hbrackets, hslash⟩, hquotes⟩, hsemicolon⟩ := hnot
    have hbracket : isBracket y = false := by
      unfold isBracket
      grind
    refine ⟨.single ?_, hf.forget _⟩
    cases hspace : isSpace y with
    | true => exact advance_trivium (trivium?_of_isSpace rfl hspace)
    | false =>
      have htrivium : trivium? ⟨n, y :: ys⟩ = none := by
        by_cases hy' : y = '/'
        · subst hy'
          exact hf.clear (by simpa [hy] using hslash)
        · exact trivium?_eq_none rfl hy' hspace
      have hstring : string? ⟨n, y :: ys⟩ = none := by
        cases hq : isQuote y with
        | false => exact string?_eq_none rfl hq
        | true =>
          refine hf.plain ?_
          simp only [isQuote, Bool.or_eq_true, beq_iff_eq] at hq
          rcases hq with rfl | rfl <;> simp_all
      refine advance_char htrivium hstring rfl ?_ (turn_of_not_isBracket hbracket)
      refine Border.stops_append hf.base ?_ (turn_of_not_isBracket hbracket)
      -- the only character of a border that is no bracket is the semicolon
      cases hstops : b.stops f.closers y with
      | false => simp
      | true =>
        have hsemi : y = ';' := by
          rcases Border.stops_head hstops with rfl | rfl | rfl
          · rfl
          · cases hbracket
          · cases hbracket
        subst hsemi
        have hclosers : f.closers = [] := by
          cases b <;> simp [Border.stops] at hstops <;> exact hstops
        have hunended : f.unended = false := by
          cases hu : f.unended with
          | false => rfl
          | true => exact absurd rfl (hf.unended hu)
        simpa [hy, hunended, hclosers] using hsemicolon

theorem textExit_reached {cs : List Char} {x : Exit} (hx : textExit b enclosed cs f = some x)
    (hf : f.Holds enclosed base c) (h : c.text? cs = some d) :
    x.Reached b enclosed base (f.closers ++ base, c) d := by
  induction cs generalizing c f with
  | nil =>
    cases hx
    cases h
    exact ⟨.refl, hf⟩
  | cons y ys ih =>
    obtain ⟨n, xs⟩ := c
    cases xs with
    | nil => simp [Cursor.text?] at h
    | cons z zs =>
      simp only [Cursor.text?, Option.ite_none_right_eq_some, beq_iff_eq] at h
      obtain ⟨rfl, h⟩ := h
      simp only [textExit, Option.ite_none_left_eq_some, not_or, Bool.not_eq_true] at hx
      obtain ⟨⟨hslash, hspace, hquote⟩, hx⟩ := hx
      split at hx
      · rename_i hstops
        simp only [Option.ite_none_right_eq_some, Option.some.injEq, List.isEmpty_iff] at hx
        obtain ⟨rfl, rfl⟩ := hx
        cases h
        simp only [Bool.and_eq_true, Bool.not_eq_true'] at hstops
        have hbase : base = [] := by simpa [hstops.1] using hf.base
        subst hbase
        exact ⟨_, _, y, .refl, by simpa using hstops.2, rfl, by simp⟩
      · rename_i hstops
        split at hx
        · rename_i closers hturn
          have hf' : Flow.Holds enclosed base ⟨closers, false, false, false⟩
              ⟨n + y.utf8Size, zs⟩ := ⟨hf.base, by simp, by simp, by simp⟩
          have hadvance : advance b (f.closers ++ base, ⟨n, y :: zs⟩) =
              some (closers ++ base, ⟨n + y.utf8Size, zs⟩) :=
            advance_char (trivium?_eq_none rfl hslash hspace) (string?_eq_none rfl hquote) rfl
              (Border.stops_append hf.base (by simpa using hstops) hturn) (turn_append hturn)
          have hrest := ih hx hf' h
          cases x with
          | reaches f' => exact ⟨.head hadvance hrest.1, hrest.2⟩
          | border =>
            obtain ⟨closers', e, w, hs, hw⟩ := hrest
            exact ⟨closers', e, w, .head hadvance hs, hw⟩
          | either => trivial
        · cases hx

theorem Exit.Reached.of_scans {p q : List Char × Cursor} {x : Exit} (hs : Scans b p q)
    (h : x.Reached b enclosed base q d) : x.Reached b enclosed base p d := by
  cases x with
  | reaches f => exact ⟨hs.trans h.1, h.2⟩
  | border =>
    obtain ⟨closers, e, y, hs', hy⟩ := h
    exact ⟨closers, e, y, hs.trans hs', hy⟩
  | either => trivial

theorem Exit.Reached.join_left {p : List Char × Cursor} {x : Exit} (y : Exit)
    (h : x.Reached b enclosed base p d) : (x.join y).Reached b enclosed base p d := by
  cases x with
  | reaches f =>
    cases y with
    | reaches f' =>
      by_cases hclosers : f.closers = f'.closers
      · rw [Exit.join, if_pos hclosers]
        exact ⟨h.1, h.2.forget d⟩
      · rw [Exit.join, if_neg hclosers]
        trivial
    | border | either => trivial
  | border =>
    cases y with
    | border => exact h
    | reaches | either => trivial
  | either => trivial

theorem Exit.Reached.join_right {p : List Char × Cursor} (x : Exit) {y : Exit}
    (h : y.Reached b enclosed base p d) : (x.join y).Reached b enclosed base p d := by
  cases y with
  | reaches f' =>
    cases x with
    | reaches f =>
      by_cases hclosers : f.closers = f'.closers
      · rw [Exit.join, if_pos hclosers]
        refine ⟨?_, h.2.base, by simp [Flow.forget], by simp [Flow.forget], by simp [Flow.forget]⟩
        simpa [Flow.forget, hclosers] using h.1
      · rw [Exit.join, if_neg hclosers]
        trivial
    | border | either => trivial
  | border =>
    cases x with
    | border => exact h
    | reaches | either => trivial
  | either => cases x <;> trivial

theorem repeatedExit_eq_some {y : Option Exit} {x : Exit} (h : repeatedExit f y = some x) :
    x = .reaches f.forget ∧ ∃ f', y = some (.reaches f') ∧ f'.closers = f.closers := by
  unfold repeatedExit at h
  split at h
  · simp only [Option.ite_none_right_eq_some, Option.some.injEq] at h
    exact ⟨h.2.symm, _, rfl, h.1⟩
  · cases h

theorem flow_seq_eq_some {a e : Expr Rule} {x : Exit} (h : flow b enclosed m (.seq a e) f = some x) :
    ∃ f', flow b enclosed m a f = some (.reaches f') ∧
      flow b enclosed m e (f'.skipped m) = some x := by
  rw [flow] at h
  split at h
  · exact ⟨_, by assumption, h⟩
  · cases h

theorem flow_choice_eq_some {a e : Expr Rule} {x : Exit}
    (h : flow b enclosed m (.choice a e) f = some x) :
    ∃ y z, flow b enclosed m a f = some y ∧ flow b enclosed m e (f.without a) = some z ∧
      x = y.join z := by
  rw [flow] at h
  split at h
  · cases h
    exact ⟨_, _, by assumption, by assumption, rfl⟩
  · cases h

theorem flow_many_eq_some {a : Expr Rule} {x : Exit} (h : flow b enclosed m (.many a) f = some x)
    (hf : f.Holds enclosed base c) :
    m.skip grammar c = c ∧ taskFlow b enclosed m (.again a) f = some x := by
  rw [flow, Option.ite_none_left_eq_some] at h
  refine ⟨?_, h.2⟩
  cases m with
  | tight => rfl
  | spaced => exact skip_of_none (hf.clear (by simpa using h.1))

/-- What a rule relies on and how it ends, as a call of the rule sees it. -/
theorem ruleExit_eq_some {r : Rule} {x : Exit} (h : ruleExit b enclosed m r f = some x)
    (hf : f.Holds enclosed base c) :
    ∃ e, ruleEnd b (enclosed || !f.closers.isEmpty) m r = some e ∧
      (entry (enclosed || !f.closers.isEmpty) r).Holds (enclosed || !f.closers.isEmpty)
        (f.closers ++ base) c ∧
      ∀ y d, e.allows y = true →
        y.Reached b (enclosed || !f.closers.isEmpty) (f.closers ++ base) (f.closers ++ base, c) d →
        x.Reached b enclosed base (f.closers ++ base, c) d := by
  unfold ruleExit at h
  dsimp only at h
  rw [Option.ite_none_left_eq_some] at h
  obtain ⟨hentry, h⟩ := h
  simp only [Bool.or_eq_true, Bool.and_eq_true, Bool.not_eq_true', not_or, not_and,
    Bool.not_eq_false] at hentry
  have hentered : (entry (enclosed || !f.closers.isEmpty) r).Holds (enclosed || !f.closers.isEmpty)
      (f.closers ++ base) c := by
    refine ⟨?_, fun hc => hf.clear (hentry.1 hc), ?_, fun hu => hf.unended (hentry.2 hu)⟩
    · cases hclosers : f.closers <;> simp [hf.base]
    · unfold entry
      split <;> simp
  cases hend : ruleEnd b (enclosed || !f.closers.isEmpty) m r with
  | none => simp [hend] at h
  | some e =>
    refine ⟨e, rfl, hentered, fun y d hy hreached => ?_⟩
    cases e with
    | balanced =>
      simp only [hend, Option.some.injEq] at h
      subst h
      cases y with
      | reaches f' =>
        have hclosers : f'.closers = [] := by simpa [RuleEnd.allows] using hy
        refine ⟨?_, hf.forget d⟩
        simpa [hclosers, Flow.forget] using hreached.1
      | border | either => cases hy
    | border =>
      simp only [hend, Option.some.injEq] at h
      subst h
      cases y with
      | border => exact hreached
      | reaches | either => cases hy
    | either =>
      simp only [hend, Option.some.injEq] at h
      subst h
      trivial

/-- The body of a rule other than that of strings has an exit that the end of the rule allows. -/
theorem ruleBody_exit {inside : Bool} {r : Rule} {e : RuleEnd} (he : ruleEnd b inside m r = some e)
    (hr : r ≠ .stringLiteral) :
    ∃ y, flow b inside (m.enter (grammar.production r).shape) (grammar.production r).body
      (entry inside r) = some y ∧ e.allows y = true := by
  have hholds := ruleEnd_holds b inside m r
  unfold RuleEnd.holds at hholds
  simp only [he, hr, decide_false, Bool.false_or] at hholds
  exact Option.any_eq_true _ _ |>.1 hholds

theorem closers_entry (inside : Bool) (r : Rule) : (entry inside r).closers = [] := by
  unfold entry
  split <;> rfl

theorem stringLiteral_reached {x : Exit} {ns : List Tree}
    (hx : ruleExit b enclosed m .stringLiteral f = some x) (hf : f.Holds enclosed base c)
    (h : Takes grammar m (.rule .stringLiteral) c d ns) :
    x.Reached b enclosed base (f.closers ++ base, c) d := by
  cases m with
  | tight => simp [ruleExit, ruleEnd] at hx
  | spaced =>
    have hstring : string? c = some d := by
      have hy := h.unique (stringLiteral_yields c)
      cases hd : string? c with
      | none => simp [hd] at hy
      | some d' => simp_all
    have hend : ∀ b, ruleEnd b (enclosed || !f.closers.isEmpty) .spaced .stringLiteral =
        some .balanced := by
      intro b
      cases b <;> simp [ruleEnd, outerEnd]
    simp only [ruleExit, hend, entry] at hx
    cases hx
    exact ⟨.single (advance_string hstring), hf.forget d⟩

/-- A rule other than that of strings ends as its body does, which is entered with no bracket open. -/
theorem rule_reached {r : Rule} {x : Exit} (hr : r ≠ .stringLiteral)
    (hx : ruleExit b enclosed m r f = some x) (hf : f.Holds enclosed base c)
    (hbody : ∀ {inside base f y}, flow b inside (m.enter (grammar.production r).shape)
        (grammar.production r).body f = some y → f.Holds inside base c →
      y.Reached b inside base (f.closers ++ base, c) d) :
    x.Reached b enclosed base (f.closers ++ base, c) d := by
  obtain ⟨e, he, hentry, hexit⟩ := ruleExit_eq_some hx hf
  obtain ⟨y, hy, hallows⟩ := ruleBody_exit he hr
  have hreached := hbody hy hentry
  rw [closers_entry, List.nil_append] at hreached
  exact hexit y d hallows hreached

/-- A task that `taskFlow` accepts moves along lexemes and ends as its exit says. -/
theorem taskFlow_reached {t : Peg.Task Rule} {ns : List Tree} {x : Exit}
    (h : Yields grammar m t c (some (d, ns))) (hx : taskFlow b enclosed m t f = some x)
    (hf : f.Holds enclosed base c) : x.Reached b enclosed base (f.closers ++ base, c) d := by
  generalize hr : some (d, ns) = y at h
  induction h generalizing d ns f x enclosed base with
  | char h =>
    cases hr
    exact charExit_reached hx hf h
  | text h =>
    cases hr
    exact textExit_reached hx hf h
  | @seq m a e c d' _ _ _ _ _ iha ihb =>
    cases hr
    obtain ⟨f', hfa, hfb⟩ := flow_seq_eq_some hx
    have ha := iha hfa hf rfl
    have hb := ihb hfb ha.2.skipped rfl
    rw [Flow.closers_skipped] at hb
    refine .of_scans ha.1 ?_
    cases m with
    | spaced => exact .of_scans (scans_skip b _ d') hb
    | tight => exact hb
  | choiceLeft _ ih =>
    obtain ⟨y, z, hfa, -, rfl⟩ := flow_choice_eq_some hx
    exact .join_left z (ih hfa hf hr)
  | choiceRight ha _ _ ih =>
    obtain ⟨y, z, -, hfb, rfl⟩ := flow_choice_eq_some hx
    have hz := ih hfb (hf.without ha) hr
    rw [Flow.closers_without] at hz
    exact .join_right y hz
  | maybe _ ih =>
    obtain ⟨rfl, f', hfa, hclosers⟩ := repeatedExit_eq_some hx
    have ha := ih hfa hf hr
    exact ⟨by simpa [Flow.forget, hclosers] using ha.1, hf.forget _⟩
  | maybeNot =>
    obtain ⟨rfl, -⟩ := repeatedExit_eq_some hx
    cases hr
    exact ⟨.refl, hf.forget _⟩
  | @many m a c d' _ _ _ _ _ iha ihs =>
    cases hr
    obtain ⟨hc, hx⟩ := flow_many_eq_some hx hf
    obtain ⟨rfl, f', hfa, hclosers⟩ := repeatedExit_eq_some hx
    have ha := iha hfa (hc ▸ hf.anew) rfl
    have hs := ihs (f := f.forget) hx (hf.forget d') rfl
    refine .of_scans ha.1 ?_
    rw [hclosers]
    exact hs
  | manyNot =>
    obtain ⟨-, hx⟩ := flow_many_eq_some hx hf
    obtain ⟨rfl, -⟩ := repeatedExit_eq_some hx
    cases hr
    exact ⟨.refl, hf.forget _⟩
  | @again m a c d' _ _ _ _ _ iha ihs =>
    cases hr
    obtain ⟨rfl, f', hfa, hclosers⟩ := repeatedExit_eq_some hx
    have ha := iha hfa hf.anew rfl
    have hs := ihs (f := f.forget) hx (hf.forget d') rfl
    have hskip : Scans b (f.closers ++ base, c) (f.closers ++ base, m.skip grammar c) := by
      cases m with
      | spaced => exact scans_skip b _ c
      | tight => exact .refl
    refine .of_scans (hskip.trans ha.1) ?_
    rw [hclosers]
    exact hs
  | againNot =>
    obtain ⟨rfl, -⟩ := repeatedExit_eq_some hx
    cases hr
    exact ⟨.refl, hf.forget _⟩
  | never ha =>
    cases hr
    simp only [taskFlow, flow, Option.map_eq_some_iff] at hx
    obtain ⟨_, -, rfl⟩ := hx
    exact ⟨by rw [Flow.closers_without], hf.without ha⟩
  | @ruleShown m r c d' ns' hs hb ih =>
    cases hr
    by_cases hstring : r = .stringLiteral
    · subst hstring
      exact stringLiteral_reached hx hf (.ruleShown hs hb)
    · exact rule_reached hstring hx hf fun hy hentry => ih hy hentry rfl
  | @ruleHidden m r c p hs hb ih =>
    cases hr
    by_cases hstring : r = .stringLiteral
    · subst hstring
      exact stringLiteral_reached hx hf (.ruleHidden hs hb)
    · exact rule_reached hstring hx hf fun hy hentry => ih hy hentry rfl
  | charFail | textFail | seqFirst | seqSecond | neverFail | ruleFail => cases hr

end Soundness

section Calling

variable {b : Border} {on : List Char × Cursor → Prop} {m : Mode} {c : Cursor}

def Flows (b : Border) (on : List Char × Cursor → Prop) (m : Mode) (t : Peg.Task Rule)
    (c : Cursor) : Prop :=
  ∃ enclosed base f x, taskFlow b enclosed m t f = some x ∧ Flow.Holds enclosed base f c ∧
    on (f.closers ++ base, c)

theorem Flows.on_place {t : Peg.Task Rule} (h : Flows b on m t c) : ∃ closers, on (closers, c) := by
  obtain ⟨_, _, _, _, -, -, hon⟩ := h
  exact ⟨_, hon⟩

variable (hscans : ∀ {p q}, on p → Scans b p q → on q)

include hscans

theorem on_skip {closers : List Char} (h : on (closers, c)) : on (closers, m.skip grammar c) := by
  cases m with
  | tight => exact h
  | spaced => exact hscans h (scans_skip b _ c)

theorem Flows.on_stop {a e : Expr Rule} {d : Cursor} {ns : List Tree}
    (h : Flows b on m (.once (.seq a e)) c) (hd : Takes grammar m a c d ns) :
    ∃ closers, on (closers, d) := by
  obtain ⟨enclosed, base, f, x, hx, hf, hon⟩ := h
  obtain ⟨f', hfa, -⟩ := flow_seq_eq_some hx
  obtain ⟨hscan, -⟩ := taskFlow_reached (t := .once a) hd hfa hf
  exact ⟨_, hscans hon hscan⟩

/-- What a task calls is accepted too. The rule of strings is not looked into. -/
theorem Flows.calls {x y : Stage Rule} (h : Calls grammar x y)
    (hx : x.task ≠ .once (.rule .stringLiteral)) (hflows : Flows b on x.mode x.task x.place) :
    Flows b on y.mode y.task y.place := by
  obtain ⟨enclosed, base, f, x, hflow, hf, hon⟩ := hflows
  cases h with
  | seqFirst =>
    obtain ⟨f', hfa, -⟩ := flow_seq_eq_some hflow
    exact ⟨enclosed, base, f, _, hfa, hf, hon⟩
  | @seqSecond m a e c d ns hd =>
    obtain ⟨f', hfa, hfe⟩ := flow_seq_eq_some hflow
    obtain ⟨hscan, hf'⟩ := taskFlow_reached (t := .once a) hd hfa hf
    refine ⟨enclosed, base, _, x, hfe, hf'.skipped, ?_⟩
    rw [Flow.closers_skipped]
    exact on_skip hscans (hscans hon hscan)
  | choiceFirst =>
    obtain ⟨y, z, hfa, -, -⟩ := flow_choice_eq_some hflow
    exact ⟨enclosed, base, f, y, hfa, hf, hon⟩
  | @choiceSecond m a e c hfail =>
    obtain ⟨y, z, -, hfe, -⟩ := flow_choice_eq_some hflow
    exact ⟨enclosed, base, _, z, hfe, hf.without hfail, (Flow.closers_without a).symm ▸ hon⟩
  | maybe =>
    obtain ⟨-, f', hfa, -⟩ := repeatedExit_eq_some hflow
    exact ⟨enclosed, base, f, _, hfa, hf, hon⟩
  | never =>
    obtain ⟨y, hy, -⟩ := Option.map_eq_some_iff.1 hflow
    exact ⟨enclosed, base, f, y, hy, hf, hon⟩
  | many =>
    obtain ⟨hc, hagain⟩ := flow_many_eq_some hflow hf
    obtain ⟨-, f', hfa, -⟩ := repeatedExit_eq_some hagain
    exact ⟨enclosed, base, _, _, hfa, hc ▸ hf.anew, hon⟩
  | @manyMore m a c d ns hd =>
    obtain ⟨hc, hagain⟩ := flow_many_eq_some hflow hf
    obtain ⟨-, f', hfa, hclosers⟩ := repeatedExit_eq_some hagain
    obtain ⟨hscan, -⟩ := taskFlow_reached (t := .once a) hd hfa (hc ▸ hf.anew)
    exact ⟨enclosed, base, f.forget, x, hagain, hf.forget d, hscans hon (hclosers ▸ hscan)⟩
  | again =>
    obtain ⟨-, f', hfa, -⟩ := repeatedExit_eq_some hflow
    exact ⟨enclosed, base, _, _, hfa, hf.anew, on_skip hscans hon⟩
  | @againMore m a c d ns hd =>
    obtain ⟨-, f', hfa, hclosers⟩ := repeatedExit_eq_some hflow
    obtain ⟨hscan, -⟩ := taskFlow_reached (t := .once a) hd hfa hf.anew
    exact ⟨enclosed, base, f.forget, x, hflow, hf.forget d,
      hscans (on_skip hscans hon) (hclosers ▸ hscan)⟩
  | @rule m r c =>
    obtain ⟨e, he, hentry, -⟩ := ruleExit_eq_some hflow hf
    obtain ⟨y, hy, -⟩ := ruleBody_exit he (by simpa using hx)
    refine ⟨_, _, entry _ r, y, hy, hentry, ?_⟩
    rwa [closers_entry]

end Calling

section Carrying

variable {φ : Cursor → Cursor} {b : Border}

def Guided (φ : Cursor → Cursor) (b : Border) : Mode → Peg.Task Rule → Cursor → Prop :=
  Flows b fun p => InStep φ b p.1 p.2

theorem textExit_agrees {enclosed : Bool} {base cs : List Char} {f : Flow} {c : Cursor} {x : Exit}
    (hx : textExit b enclosed cs f = some x) (hf : f.Holds enclosed base c)
    (hstep : InStep φ b (f.closers ++ base) c) : (φ c).text? cs = (c.text? cs).map φ := by
  induction cs generalizing c f with
  | nil => rfl
  | cons y ys ih =>
    rw [Cursor.text?_cons, Cursor.text?_cons, hstep.agrees.char]
    cases hd : c.char? (y == ·) with
    | none => rfl
    | some d =>
      simp only [Option.map_some, Option.bind_some]
      have hone : c.text? [y] = some d := by rw [Cursor.text?_cons, hd]; rfl
      simp only [textExit, Option.ite_none_left_eq_some] at hx
      obtain ⟨hplain, hx⟩ := hx
      split at hx
      · simp only [Option.ite_none_right_eq_some, List.isEmpty_iff] at hx
        rw [hx.1]
        rfl
      · rename_i hstops
        split at hx
        · rename_i closers hturn
          have hfirst : textExit b enclosed [y] f = some (.reaches ⟨closers, false, false, false⟩) := by
            rw [textExit, if_neg hplain, if_neg hstops, hturn]
            rfl
          obtain ⟨hscan, hf'⟩ := textExit_reached hfirst hf hone
          exact ih hx hf' (hstep.scans hscan)
        · cases hx

theorem stringLiteral_carry {c : Cursor} {x : Reading Rule}
    (hstring : string? (φ c) = (string? c).map φ)
    (h : Yields grammar .spaced (.once (.rule .stringLiteral)) c x) :
    Yields grammar .spaced (.once (.rule .stringLiteral)) (φ c) (Reading.carry φ x) := by
  cases h.unique (stringLiteral_yields c)
  have hφ := stringLiteral_yields (φ c)
  rw [hstring] at hφ
  cases hs : string? c with
  | none => simpa [hs, Reading.carry] using hφ
  | some d => simpa [hs, Reading.carry, Node.carry, Node.carryAll] using hφ

/-- The only rule that is called in the middle of a word is that of identifiers. -/
theorem Flows.spaced_of_rule {on : List Char × Cursor → Prop} {m : Mode} {r : Rule} {c : Cursor}
    (h : Flows b on m (.once (.rule r)) c) (hr : r ≠ .identifier) : m = .spaced := by
  obtain ⟨enclosed, base, f, x, hx, -, -⟩ := h
  cases m with
  | tight => simp [taskFlow, flow, ruleExit, ruleEnd, hr] at hx
  | spaced => rfl

/-- Where lexemes agree, readings agree. -/
theorem carries_guided (φ : Cursor → Cursor) (b : Border) : Carries grammar φ (Guided φ b) := by
  have hscans : ∀ {p q : List Char × Cursor},
      InStep φ b p.1 p.2 → Scans b p q → InStep φ b q.1 q.2 :=
    fun h hscan => h.scans hscan
  have hskip : ∀ (m : Mode) {closers : List Char} {c : Cursor}, InStep φ b closers c →
      m.skip grammar (φ c) = φ (m.skip grammar c) := by
    intro m closers c h
    cases m with
    | tight => rfl
    | spaced => exact h.skip
  refine Carries.of_calls ?_ ?_ ?_ ?_ ?_ ?_
  · intro x y hcalls hrule h
    exact Flows.calls hscans hcalls (hrule _) h
  · intro m accept c h
    obtain ⟨closers, hstep⟩ := h.on_place
    exact hstep.agrees.char accept
  · intro m cs c h
    obtain ⟨_, _, _, _, hx, hf, hstep⟩ := h
    exact textExit_agrees hx hf hstep
  · intro m a e c d ns h hd
    obtain ⟨closers, hstep⟩ := h.on_stop hscans hd
    exact hskip m hstep
  · intro m a c h
    obtain ⟨closers, hstep⟩ := h.on_place
    exact hskip m hstep
  · intro m r c h
    by_cases hr : r = .stringLiteral
    · subst hr
      obtain ⟨closers, hstep⟩ := h.on_place
      obtain rfl := h.spaced_of_rule (by decide)
      exact .inr fun x hx => stringLiteral_carry hstep.agrees.string hx
    · exact .inl (Flows.calls hscans (x := ⟨m, .once (.rule r), c⟩) .rule (by simpa using hr) h)

end Carrying

end SolidityStubs.Source
