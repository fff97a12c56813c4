import SolidityStubs.Proofs.Source.Flow

/-! # Groups and a bracket scanner

The rules of groups call each other, one call for each bracket that opens. A scanner needs no calls:
it goes over the text once and keeps the brackets that are open on a stack. Both come to the same end
of a group, and where there is none both fail.
-/
namespace SolidityStubs.Source

open Peg

inductive Bracket
  | round
  | square
  | curly
deriving DecidableEq, Repr

namespace Bracket

def all : List Bracket := [.round, .square, .curly]

def opening : Bracket → Char
  | .round => '('
  | .square => '['
  | .curly => '\x7b'

def closing : Bracket → Char
  | .round => ')'
  | .square => ']'
  | .curly => '\x7d'

def opened? (x : Char) : Option Bracket := all.find? (·.opening == x)

def closed? (x : Char) : Option Bracket := all.find? (·.closing == x)

def group : Bracket → Expr Rule
  | .round => parenGroup
  | .square => bracketGroup
  | .curly => braceGroup

def rule : Bracket → Rule
  | .round => .callArguments
  | .square => .arraySuffix
  | .curly => .functionBody

end Bracket

inductive Round
  | onward (stack : List Bracket) (next : Cursor)
  | closed (stop : Cursor)
  | stuck

/-- One round of a scan. Behind padding it passes a string, or else one character. A bracket that
opens is put on the stack; a bracket that closes has to fit the top of the stack, which it takes off. -/
def scanRound (stack : List Bracket) (c : Cursor) : Round :=
  let d := skip c
  match string? d with
  | some e => .onward stack e
  | none =>
    match d.rest with
    | [] => .stuck
    | x :: xs =>
      let e : Cursor := ⟨d.offset + x.utf8Size, xs⟩
      match Bracket.opened? x, Bracket.closed? x, stack with
      | some b, _, _ => .onward (b :: stack) e
      | none, none, _ => .onward stack e
      | none, some _, [] => .stuck
      | none, some b, top :: stack =>
        if b ≠ top then .stuck
        else if stack = [] then .closed e
        else .onward stack e

theorem scanRound_length_lt {stack stack' : List Bracket} {c d : Cursor}
    (h : scanRound stack c = .onward stack' d) : d.rest.length < c.rest.length := by
  obtain ⟨ws, hws⟩ := skip_passes c
  have hle := hws.length_le
  unfold scanRound at h
  cases hstring : string? (skip c) with
  | some e =>
    simp only [hstring] at h
    cases h
    obtain ⟨x, xs, -, hp⟩ := string?_passes hstring
    simp only [hp.1, List.length_append, List.length_cons] at hle
    omega
  | none =>
    simp only [hstring] at h
    cases hrest : (skip c).rest with
    | nil => simp [hrest] at h
    | cons x xs =>
      have hd : d.rest = xs := by
        simp only [hrest] at h
        grind
      rw [hrest, List.length_cons] at hle
      rw [hd]
      omega

/-- Goes round after round, up to the bracket that takes the last one off the stack. -/
def scan (stack : List Bracket) (c : Cursor) : Option Cursor :=
  match h : scanRound stack c with
  | .onward stack' d =>
    have := scanRound_length_lt h
    scan stack' d
  | .closed d => some d
  | .stuck => none
termination_by c.rest.length

section Rounds

variable {stack : List Bracket} {b top : Bracket} {c d e : Cursor} {x : Char} {xs : List Char}

namespace Bracket

@[simp]
theorem opened?_opening (b : Bracket) : opened? b.opening = some b := by
  cases b <;> rfl

@[simp]
theorem opened?_closing (b : Bracket) : opened? b.closing = none := by
  cases b <;> rfl

@[simp]
theorem closed?_closing (b : Bracket) : closed? b.closing = some b := by
  cases b <;> rfl

theorem isQuote_opening (b : Bracket) : isQuote b.opening = false := by
  cases b <;> rfl

theorem isQuote_closing (b : Bracket) : isQuote b.closing = false := by
  cases b <;> rfl

theorem closing_inj {b b' : Bracket} (h : b.closing = b'.closing) : b = b' := by
  cases b <;> cases b' <;> first | rfl | cases h

theorem cases_char (x : Char) :
    (∃ b : Bracket, x = b.opening) ∨ (∃ b : Bracket, x = b.closing) ∨
      isBracket x = false ∧ opened? x = none ∧ closed? x = none := by
  by_cases hx : isBracket x = true
  · simp only [isBracket, Bool.or_eq_true, beq_iff_eq] at hx
    rcases hx with ((((rfl | rfl) | rfl) | rfl) | rfl) | rfl
    · exact .inl ⟨.round, rfl⟩
    · exact .inr (.inl ⟨.round, rfl⟩)
    · exact .inl ⟨.square, rfl⟩
    · exact .inr (.inl ⟨.square, rfl⟩)
    · exact .inl ⟨.curly, rfl⟩
    · exact .inr (.inl ⟨.curly, rfl⟩)
  · have hnone : ∀ b : Bracket, b.opening ≠ x ∧ b.closing ≠ x := by
      intro b
      constructor <;> rintro rfl <;> cases b <;> exact hx rfl
    refine .inr (.inr ⟨by simpa using hx, ?_, ?_⟩)
    · exact List.find?_eq_none.2 fun b _ => by simpa using (hnone b).1
    · exact List.find?_eq_none.2 fun b _ => by simpa using (hnone b).2

end Bracket

theorem scan_eq (stack : List Bracket) (c : Cursor) :
    scan stack c =
      match scanRound stack c with
      | .onward stack' d => scan stack' d
      | .closed d => some d
      | .stuck => none := by
  rw [scan]
  split <;> simp_all

theorem scan_string (h : string? (skip c) = some e) : scan stack c = scan stack e := by
  have hround : scanRound stack c = .onward stack e := by simp [scanRound, h]
  rw [scan_eq, hround]

theorem scan_end (h : (skip c).rest = []) : scan stack c = none := by
  have hstring : string? (skip c) = none := by
    generalize skip c = d at h
    obtain ⟨n, rest⟩ := d
    subst h
    rfl
  have hround : scanRound stack c = .stuck := by simp [scanRound, hstring, h]
  rw [scan_eq, hround]

theorem scan_opening (h : (skip c).rest = b.opening :: xs) :
    scan stack c = scan (b :: stack) ⟨(skip c).offset + b.opening.utf8Size, xs⟩ := by
  have hstring := string?_eq_none h b.isQuote_opening
  have hround : scanRound stack c =
      .onward (b :: stack) ⟨(skip c).offset + b.opening.utf8Size, xs⟩ := by
    simp [scanRound, hstring, h]
  rw [scan_eq, hround]

theorem scan_other (hstring : string? (skip c) = none) (h : (skip c).rest = x :: xs)
    (hopened : Bracket.opened? x = none) (hclosed : Bracket.closed? x = none) :
    scan stack c = scan stack ⟨(skip c).offset + x.utf8Size, xs⟩ := by
  have hround : scanRound stack c = .onward stack ⟨(skip c).offset + x.utf8Size, xs⟩ := by
    simp [scanRound, hstring, h, hopened, hclosed]
  rw [scan_eq, hround]

def resume (stack : List Bracket) (d : Cursor) : Option Cursor :=
  if stack = [] then some d else scan stack d

theorem scan_closing (h : (skip c).rest = b.closing :: xs) :
    scan (top :: stack) c =
      if b = top then resume stack ⟨(skip c).offset + b.closing.utf8Size, xs⟩ else none := by
  have hstring := string?_eq_none h b.isQuote_closing
  have hround : scanRound (top :: stack) c =
      if b ≠ top then .stuck
      else if stack = [] then .closed ⟨(skip c).offset + b.closing.utf8Size, xs⟩
      else .onward stack ⟨(skip c).offset + b.closing.utf8Size, xs⟩ := by
    simp [scanRound, hstring, h]
  rw [scan_eq, hround, resume]
  by_cases htop : b = top <;> by_cases hstack : stack = [] <;> simp [htop, hstack]

theorem scan_skip (stack : List Bracket) (c : Cursor) : scan stack (skip c) = scan stack c := by
  have hround : scanRound stack (skip c) = scanRound stack c := by simp only [scanRound, skip_skip]
  rw [scan_eq, hround, ← scan_eq]

end Rounds

section Readings

variable {b : Bracket} {c d e : Cursor} {x : Char} {xs : List Char} {ns : List Tree}
  {r : Reading Rule}

theorem Bracket.group_eq (b : Bracket) : b.group = Source.group b.opening b.closing := by
  cases b <;> rfl

theorem fails_group (h : c.rest.head? ≠ some b.opening) : Fails grammar .spaced b.group c := by
  rw [b.group_eq]
  obtain ⟨n, rest⟩ := c
  cases rest with
  | nil => exact .seqFirst (.textFail rfl)
  | cons x xs => exact .seqFirst (fails_text fun hx => h (by simp [hx]))

/-- Where no bracket opens, a filler is a string or a single character. -/
theorem filler_yields_of_head (hc : ∀ y ∈ c.rest.head?, Bracket.opened? y = none)
    (h : Yields grammar .spaced
      (.once (.choice (.rule .stringLiteral) (.char (! isBracket ·)))) c r) :
    Yields grammar .spaced (.once (.rule .filler)) c r := by
  have hgroup : ∀ b : Bracket, Fails grammar .spaced b.group c := by
    refine fun b => fails_group fun hhead => ?_
    have hnone := hc _ hhead
    simp at hnone
  have hbody : Yields grammar .spaced (.once (production .filler).body) c r :=
    .choiceRight (hgroup .round) (.choiceRight (hgroup .square) (.choiceRight (hgroup .curly) h))
  cases r with
  | none => exact .ruleFail hbody
  | some p => exact .ruleHidden rfl hbody

theorem fails_filler_closing (h : c.rest = b.closing :: xs) :
    Fails grammar .spaced (.rule .filler) c := by
  have hstring : Fails grammar .spaced (.rule .stringLiteral) c := by
    have hy := stringLiteral_yields c
    rwa [string?_eq_none h b.isQuote_closing] at hy
  have hchar : Fails grammar .spaced (.char (! isBracket ·)) c := by
    obtain ⟨n, rest⟩ := c
    cases h
    exact .charFail (by cases b <;> rfl)
  exact filler_yields_of_head (by simp [h]) (.choiceRight hstring hchar)

theorem takes_filler_char (n : Nat) (xs : List Char) (hstring : string? ⟨n, x :: xs⟩ = none)
    (hbracket : isBracket x = false) (hopened : Bracket.opened? x = none) :
    Takes grammar .spaced (.rule .filler) ⟨n, x :: xs⟩ ⟨n + x.utf8Size, xs⟩ [] := by
  have hliteral : Fails grammar .spaced (.rule .stringLiteral) ⟨n, x :: xs⟩ := by
    have h := stringLiteral_yields ⟨n, x :: xs⟩
    rwa [hstring] at h
  have hchar : Takes grammar .spaced (.char (! isBracket ·)) ⟨n, x :: xs⟩ ⟨n + x.utf8Size, xs⟩ [] :=
    .char (by simp [Cursor.char?, hbracket])
  exact filler_yields_of_head (by simpa using hopened) (.choiceRight hliteral hchar)

theorem filler_yields_of_opening (hc : c.rest = b.opening :: xs)
    (h : Yields grammar .spaced (.once b.group) c r) :
    Yields grammar .spaced (.once (.rule .filler)) c r := by
  have hother : ∀ b' : Bracket, b' ≠ b → Fails grammar .spaced b'.group c := by
    intro b' hne
    refine fails_group fun hhead => hne ?_
    rw [hc, List.head?_cons, Option.some.injEq] at hhead
    simpa using congrArg Bracket.opened? hhead.symm
  cases r with
  | some p =>
    have hbody : Yields grammar .spaced (.once (production .filler).body) c (some p) := by
      cases b with
      | round => exact .choiceLeft h
      | square => exact .choiceRight (hother .round (by decide)) (.choiceLeft h)
      | curly =>
        exact .choiceRight (hother .round (by decide))
          (.choiceRight (hother .square (by decide)) (.choiceLeft h))
    exact .ruleHidden rfl hbody
  | none =>
    have hall : ∀ b' : Bracket, Fails grammar .spaced b'.group c := by
      intro b'
      by_cases hb : b' = b
      · exact hb ▸ h
      · exact hother b' hb
    have hstring : Fails grammar .spaced (.rule .stringLiteral) c := by
      have hy := stringLiteral_yields c
      rwa [string?_eq_none hc b.isQuote_opening] at hy
    have hchar : Fails grammar .spaced (.char (! isBracket ·)) c := by
      obtain ⟨n, rest⟩ := c
      cases hc
      exact .charFail (by cases b <;> rfl)
    exact .ruleFail (.choiceRight (hall .round) (.choiceRight (hall .square)
      (.choiceRight (hall .curly) (.choiceRight hstring hchar))))

/-- A group is read up to its last filler, behind which it has to be closed. -/
theorem group_yields_of_fillers {n : Nat}
    (h : Yields grammar .spaced (.again (.rule .filler)) (skip ⟨n + b.opening.utf8Size, xs⟩)
      (some (e, ns))) :
    Yields grammar .spaced (.once b.group) ⟨n, b.opening :: xs⟩
      (((skip e).text? [b.closing]).map (·, ns)) := by
  have hopen : Takes grammar .spaced (.text [b.opening]) ⟨n, b.opening :: xs⟩
      ⟨n + b.opening.utf8Size, xs⟩ [] := .text (by simp [Cursor.text?])
  have hmany : Takes grammar .spaced (.many (.rule .filler)) (skip ⟨n + b.opening.utf8Size, xs⟩) e ns :=
    (many_iff_again (g := grammar) (m := .spaced) (skip_skip _)).2 h
  rw [b.group_eq]
  cases hclose : (skip e).text? [b.closing] with
  | none => exact .seqSecond hopen (.seqSecond hmany (.textFail hclose))
  | some d =>
    have hrest : Takes grammar .spaced (.seq (.many (.rule .filler)) (.text [b.closing]))
        (skip ⟨n + b.opening.utf8Size, xs⟩) d (ns ++ []) := .seq hmany (.text hclose)
    rw [List.append_nil] at hrest
    exact .seq hopen hrest

/-- From inside of a bracket a scan passes the fillers at `c` and goes on if the bracket is closed
behind them. -/
def ScansFillers (c : Cursor) : Prop :=
  ∃ e ns, Yields grammar .spaced (.again (.rule .filler)) c (some (e, ns)) ∧
    ∀ (b : Bracket) (stack : List Bracket),
      scan (b :: stack) c = ((skip e).text? [b.closing]).bind (resume stack)

theorem ScansFillers.cons (h : ScansFillers d)
    (htake : Takes grammar .spaced (.rule .filler) (skip c) d ns)
    (hscan : ∀ (b : Bracket) (stack : List Bracket), scan (b :: stack) c = scan (b :: stack) d) :
    ScansFillers c := by
  obtain ⟨e, ns', hagain, heq⟩ := h
  exact ⟨e, ns ++ ns', .again htake hagain, fun b stack => (hscan b stack).trans (heq b stack)⟩

theorem ScansFillers.nil (hfail : Fails grammar .spaced (.rule .filler) (skip c))
    (hscan : ∀ (b : Bracket) (stack : List Bracket),
      scan (b :: stack) c = ((skip c).text? [b.closing]).bind (resume stack)) :
    ScansFillers c :=
  ⟨c, [], .againNot hfail, hscan⟩

theorem scansFillers_string (hstring : string? (skip c) = some d) (h : ScansFillers d) :
    ScansFillers c := by
  obtain ⟨x, xs, hx, hp⟩ := string?_passes hstring
  have hhead : ∀ y ∈ (skip c).rest.head?, Bracket.opened? y = none := by
    simp only [isQuote, Bool.or_eq_true, beq_iff_eq] at hx
    rw [hp.1]
    rcases hx with rfl | rfl <;> simp [Bracket.opened?] <;> decide
  have hy := stringLiteral_yields (skip c)
  rw [hstring] at hy
  exact h.cons (filler_yields_of_head hhead (.choiceLeft hy)) fun _ _ => scan_string hstring

theorem scansFillers_end (h : (skip c).rest = []) : ScansFillers c := by
  have hnone : string? (skip c) = none ∧ (skip c).char? (! isBracket ·) = none ∧
      ∀ y, (skip c).text? [y] = none := by
    generalize skip c = d at h
    obtain ⟨n, rest⟩ := d
    subst h
    exact ⟨rfl, rfl, fun _ => rfl⟩
  have hy := stringLiteral_yields (skip c)
  rw [hnone.1] at hy
  refine .nil (filler_yields_of_head (by simp [h]) (.choiceRight hy (.charFail hnone.2.1))) ?_
  intro b stack
  rw [scan_end h, hnone.2.2]
  rfl

theorem scansFillers_closing (h : (skip c).rest = b.closing :: xs) : ScansFillers c := by
  refine .nil (fails_filler_closing h) fun top stack => ?_
  rw [scan_closing h]
  generalize skip c = d at h
  obtain ⟨n, rest⟩ := d
  subst h
  by_cases htop : b = top
  · simp [htop, Cursor.text?]
  · have hne : top.closing ≠ b.closing := fun heq => htop (Bracket.closing_inj heq.symm)
    simp [htop, Cursor.text?, hne]

theorem scansFillers_other (hstring : string? (skip c) = none) (h : (skip c).rest = x :: xs)
    (hx : isBracket x = false) (hopened : Bracket.opened? x = none)
    (hclosed : Bracket.closed? x = none)
    (hnext : ScansFillers ⟨(skip c).offset + x.utf8Size, xs⟩) : ScansFillers c := by
  have hc : (⟨(skip c).offset, x :: xs⟩ : Cursor) = skip c := by rw [← h]
  have htake := takes_filler_char (skip c).offset xs (hc.symm ▸ hstring) hx hopened
  rw [hc] at htake
  exact hnext.cons htake fun _ _ => scan_other hstring h hopened hclosed

/-- A group that is never closed stops the fillers and the scan, any other one is a filler that the
scan passes with one bracket more on the stack. -/
theorem scansFillers_opening (h : (skip c).rest = b.opening :: xs)
    (hinner : ScansFillers (skip ⟨(skip c).offset + b.opening.utf8Size, xs⟩))
    (hbehind : ∀ d : Cursor, d.rest.length < (skip c).rest.length → ScansFillers d) :
    ScansFillers c := by
  obtain ⟨e, ns, hagain, heq⟩ := hinner
  have hscan : ∀ (top : Bracket) (stack : List Bracket), scan (top :: stack) c =
      ((skip e).text? [b.closing]).bind (resume (top :: stack)) := by
    intro top stack
    rw [scan_opening h, ← scan_skip, heq]
  have hgroup := group_yields_of_fillers hagain
  have hc : (⟨(skip c).offset, b.opening :: xs⟩ : Cursor) = skip c := by rw [← h]
  rw [hc] at hgroup
  have hfiller := filler_yields_of_opening h hgroup
  cases hclose : (skip e).text? [b.closing] with
  | none =>
    rw [hclose] at hfiller hscan
    refine .nil hfiller fun top stack => ?_
    have hne : top.closing ≠ b.opening := by cases top <;> cases b <;> decide
    have hnone : (skip c).text? [top.closing] = none := by
      rw [← hc]
      simp [Cursor.text?, hne]
    rw [hscan, hnone]
    rfl
  | some d =>
    rw [hclose] at hfiller hscan
    have hlt : d.rest.length < (skip c).rest.length :=
      Yields.length_lt grammar_bounded hfiller rfl
    exact (hbehind d hlt).cons hfiller hscan

/-- The induction is on the text left. -/
theorem scansFillers (c : Cursor) : ScansFillers c := by
  generalize hlen : c.rest.length = len
  induction len using Nat.strongRecOn generalizing c with
  | ind len ih =>
    subst hlen
    obtain ⟨ws, hws⟩ := skip_passes c
    have hle := hws.length_le
    cases hstring : string? (skip c) with
    | some d =>
      obtain ⟨x, xs, -, hp⟩ := string?_passes hstring
      have hlen := congrArg List.length hp.1
      rw [List.length_append, List.length_cons] at hlen
      exact scansFillers_string hstring (ih _ (by omega) d rfl)
    | none =>
      cases hrest : (skip c).rest with
      | nil => exact scansFillers_end hrest
      | cons x xs =>
        rw [hrest, List.length_cons] at hle
        rcases Bracket.cases_char x with ⟨b, rfl⟩ | ⟨b, rfl⟩ | ⟨hx, hopened, hclosed⟩
        · obtain ⟨us, hus⟩ := skip_passes ⟨(skip c).offset + b.opening.utf8Size, xs⟩
          have hinner := hus.length_le
          refine scansFillers_opening hrest (ih _ (Nat.lt_of_le_of_lt hinner hle) _ rfl) ?_
          intro d hd
          rw [hrest, List.length_cons] at hd
          exact ih _ (by omega) d rfl
        · exact scansFillers_closing hrest
        · exact scansFillers_other hstring hrest hx hopened hclosed (ih xs.length (by omega) _ rfl)

/-- A group is read to where a scan from its start ends. -/
theorem group_yields_scan (b : Bracket) (n : Nat) (xs : List Char) :
    ∃ ns, Yields grammar .spaced (.once b.group) ⟨n, b.opening :: xs⟩
      ((scan [] ⟨n, b.opening :: xs⟩).map (·, ns)) := by
  obtain ⟨e, ns, hagain, heq⟩ := scansFillers (skip ⟨n + b.opening.utf8Size, xs⟩)
  have hskip : skip ⟨n, b.opening :: xs⟩ = ⟨n, b.opening :: xs⟩ := by
    cases b <;> exact skip_solid n (by decide) rfl
  have hscan : scan [] ⟨n, b.opening :: xs⟩ = (skip e).text? [b.closing] := by
    rw [scan_opening (congrArg Cursor.rest hskip), hskip, ← scan_skip, heq]
    cases (skip e).text? [b.closing] <;> rfl
  exact ⟨ns, hscan ▸ group_yields_of_fillers hagain⟩

theorem rule_yields_scan (b : Bracket) (n : Nat) (xs : List Char) :
    ∃ ns, Yields grammar .spaced (.once (.rule b.rule)) ⟨n, b.opening :: xs⟩
      ((scan [] ⟨n, b.opening :: xs⟩).map (·, ns)) := by
  obtain ⟨ns, h⟩ := group_yields_scan b n xs
  have hproduction : grammar.production b.rule = ⟨.structured, b.group⟩ := by cases b <;> rfl
  cases hscan : scan [] ⟨n, b.opening :: xs⟩ with
  | none =>
    rw [hscan] at h
    exact ⟨ns, .ruleFail (by rw [hproduction]; exact h)⟩
  | some d =>
    rw [hscan] at h
    exact ⟨_, .ruleShown (by rw [hproduction]; rfl) (by rw [hproduction]; exact h)⟩

end Readings

/-- At a bracket that opens, the group that may stand inside of a rule and the rule of such groups
match up to where the scanner stops, and fail where it fails. -/
theorem groups_match_scan (b : Bracket) (n : Nat) (xs : List Char) {e : Expr Rule}
    (he : e = b.group ∨ e = .rule b.rule) {depth : Nat}
    (hdepth : depthBound (b.opening :: xs) ≤ depth) :
    let run := e.eval (Mode.spaced.skip grammar) (grammar.run depth .spaced) ⟨n, b.opening :: xs⟩
    (∀ d, (∃ ns, run.outcome = .matched d ns) ↔ scan [] ⟨n, b.opening :: xs⟩ = some d) ∧
      (run.outcome = .failed ↔ scan [] ⟨n, b.opening :: xs⟩ = none) := by
  intro run
  have hrepeats : e.repeatsProperly matchesNothing = true := by
    rcases he with rfl | rfl
    · cases b <;> decide
    · rfl
  obtain ⟨ns, hy⟩ : ∃ ns, Yields grammar .spaced (.once e) ⟨n, b.opening :: xs⟩
      ((scan [] ⟨n, b.opening :: xs⟩).map (·, ns)) := by
    rcases he with rfl | rfl
    · exact group_yields_scan b n xs
    · exact rule_yields_scan b n xs
  have hrun : run.outcome.reading? = some ((scan [] ⟨n, b.opening :: xs⟩).map (·, ns)) :=
    (eval_eq_iff hrepeats hdepth).2 hy
  cases hscan : scan [] ⟨n, b.opening :: xs⟩ with
  | none =>
    rw [hscan, Option.map_none, Outcome.reading?_eq_failed] at hrun
    simp [hrun]
  | some d =>
    rw [hscan, Option.map_some, Outcome.reading?_eq_matched] at hrun
    simp [hrun]

/-- A string and a comment hold closing brackets, and a quote has no partner. -/
theorem groups_match_scan_quotes :
    let xs := "')' [\"x] //)\n)y".toList
    depthBound ('(' :: xs) ≤ 2048 ∧ scan [] ⟨0, '(' :: xs⟩ = some ⟨15, ['y']⟩ ∧
      ∃ ns, (grammar.run 2048 .spaced .callArguments ⟨0, '(' :: xs⟩).outcome =
        .matched ⟨15, ['y']⟩ ns := by
  intro xs
  have hdepth : depthBound ('(' :: xs) ≤ 2048 := by decide
  have hscan : scan [] ⟨0, '(' :: xs⟩ = some ⟨15, ['y']⟩ := by decide +kernel
  have hrun := groups_match_scan .round 0 xs (.inr rfl) hdepth
  exact ⟨hdepth, hscan, (hrun.1 _).2 hscan⟩

end SolidityStubs.Source
