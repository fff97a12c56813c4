import Mathlib.Logic.Relation
import SolidityStubs.Proofs.Peg.Repetition
import SolidityStubs.Proofs.Source.Padding
import SolidityStubs.Source.Grammar

/-! # Lexemes

From a position on a text falls apart into padding, strings and single characters, whatever the rules
make of it. A scan follows these pieces and keeps the brackets that are open. It goes on until it
comes to a closing bracket that does not fit or to the border of a declaration.
-/
namespace SolidityStubs.Source

open Peg (Cursor Yields Takes Fails)

def stringEnd? (quote : Char) : Nat → List Char → Option Cursor
  | _, [] => none
  | n, c :: cs =>
    if c = quote then some ⟨n + c.utf8Size, cs⟩
    else if c = '\\' then
      match cs with
      | [] => none
      | x :: xs => stringEnd? quote (n + c.utf8Size + x.utf8Size) xs
    else stringEnd? quote (n + c.utf8Size) cs

def isQuote (c : Char) : Bool :=
  c == '"' || c == '\x27'

def string? : Cursor → Option Cursor
  | ⟨_, []⟩ => none
  | ⟨n, c :: cs⟩ => if isQuote c then stringEnd? c (n + c.utf8Size) cs else none

section Literal

variable {quote : Char}

def quotedPiece (quote : Char) : Peg.Expr Rule :=
  .choice (.seq (.text ['\\']) .anyChar) (.char fun c => c != quote && c != '\\')

theorem quotedPiece_nil (n : Nat) : Fails grammar .tight (quotedPiece quote) ⟨n, []⟩ :=
  .choiceRight (.seqFirst (.textFail rfl)) (.charFail rfl)

theorem quotedPiece_quote (hq : quote ≠ '\\') (n : Nat) (cs : List Char) :
    Fails grammar .tight (quotedPiece quote) ⟨n, quote :: cs⟩ :=
  .choiceRight (.seqFirst (.textFail (by simp [Cursor.text?, hq.symm])))
    (.charFail (by simp [Cursor.char?]))

theorem quotedPiece_backslash_nil (n : Nat) :
    Fails grammar .tight (quotedPiece quote) ⟨n, ['\\']⟩ :=
  .choiceRight (.seqSecond (.text rfl) (.charFail rfl)) (.charFail (by simp [Cursor.char?]))

theorem quotedPiece_backslash (n : Nat) (x : Char) (xs : List Char) :
    Takes grammar .tight (quotedPiece quote) ⟨n, '\\' :: x :: xs⟩
      ⟨n + '\\'.utf8Size + x.utf8Size, xs⟩ [] :=
  .choiceLeft (Takes.seq_nil (.text rfl) (.char rfl))

theorem quotedPiece_other {c : Char} (hc : c ≠ quote) (hb : c ≠ '\\') (n : Nat) (cs : List Char) :
    Takes grammar .tight (quotedPiece quote) ⟨n, c :: cs⟩ ⟨n + c.utf8Size, cs⟩ [] :=
  .choiceRight (.seqFirst (.textFail (by simp [Cursor.text?, hb.symm])))
    (.char (by simp [Cursor.char?, hc, hb]))

/-- The pieces of a string are taken up to where the quote that closes it has to stand. -/
theorem quotedPieces_yields (hq : quote ≠ '\\') (n : Nat) (cs : List Char) :
    ∃ d, Yields grammar .tight (.again (quotedPiece quote)) ⟨n, cs⟩ (some (d, [])) ∧
      d.text? [quote] = stringEnd? quote n cs := by
  fun_induction stringEnd? quote n cs with
  | case1 n => exact ⟨_, .againNot (quotedPiece_nil n), rfl⟩
  | case2 n cs => exact ⟨_, .againNot (quotedPiece_quote hq n cs), by simp [Cursor.text?]⟩
  | case3 n hc =>
    exact ⟨_, .againNot (quotedPiece_backslash_nil n), by simp [Cursor.text?, Ne.symm hc]⟩
  | case4 n x xs hc ih =>
    obtain ⟨d, hy, hd⟩ := ih
    have hagain := Yields.again (quotedPiece_backslash n x xs) hy
    exact ⟨d, hagain, hd⟩
  | case5 n c cs hc hb ih =>
    obtain ⟨d, hy, hd⟩ := ih
    have hagain := Yields.again (quotedPiece_other hc hb n cs) hy
    exact ⟨d, hagain, hd⟩

theorem quoted_yields (hq : quote ≠ '\\') (n : Nat) (cs : List Char) :
    Yields grammar .tight (.once (quoted quote)) ⟨n, quote :: cs⟩
      ((stringEnd? quote (n + quote.utf8Size) cs).map (·, [])) := by
  have hopen : Takes grammar .tight (.text [quote]) ⟨n, quote :: cs⟩ ⟨n + quote.utf8Size, cs⟩ [] :=
    .text (by simp [Cursor.text?])
  obtain ⟨d, hpieces, hd⟩ := quotedPieces_yields hq (n + quote.utf8Size) cs
  have hmany := (Peg.many_iff_again (m := .tight) rfl).2 hpieces
  cases hend : stringEnd? quote (n + quote.utf8Size) cs with
  | none => exact .seqSecond hopen (.seqSecond hmany (.textFail (hd.trans hend)))
  | some e =>
    have hrest : Takes grammar .tight (.seq (.many (quotedPiece quote)) (.text [quote]))
        ⟨n + quote.utf8Size, cs⟩ e [] := Takes.seq_nil hmany (.text (hd.trans hend))
    exact Takes.seq_nil hopen hrest

theorem quoted_fails {c : Cursor} (h : c.text? [quote] = none) :
    Fails grammar .tight (quoted quote) c :=
  .seqFirst (.textFail h)

theorem stringLiteral_body_yields (c : Cursor) :
    Yields grammar .tight (.once (.choice (quoted '"') (quoted '\x27'))) c
      ((string? c).map (·, [])) := by
  obtain ⟨n, cs⟩ := c
  cases cs with
  | nil => exact .choiceRight (quoted_fails rfl) (quoted_fails rfl)
  | cons x xs =>
    by_cases hdouble : x = '"'
    · subst hdouble
      have hquote : '"' ≠ '\\' := by decide
      have hy := quoted_yields hquote n xs
      have hother : Fails grammar .tight (quoted '\x27') ⟨n, '"' :: xs⟩ := quoted_fails rfl
      have hstring : string? ⟨n, '"' :: xs⟩ = stringEnd? '"' (n + '"'.utf8Size) xs := rfl
      rw [hstring]
      cases hend : stringEnd? '"' (n + '"'.utf8Size) xs with
      | none => exact .choiceRight (by rwa [hend] at hy) hother
      | some d => exact .choiceLeft (by rwa [hend] at hy)
    · have hfirst : Fails grammar .tight (quoted '"') ⟨n, x :: xs⟩ :=
        quoted_fails (by simp [Cursor.text?, Ne.symm hdouble])
      by_cases hsingle : x = '\x27'
      · subst hsingle
        exact .choiceRight hfirst (quoted_yields (by decide) n xs)
      · have hnone : string? ⟨n, x :: xs⟩ = none := by simp [string?, isQuote, hdouble, hsingle]
        rw [hnone]
        exact .choiceRight hfirst (quoted_fails (by simp [Cursor.text?, Ne.symm hsingle]))

/-- The rule of strings reads what `string?` passes. -/
theorem stringLiteral_yields (c : Cursor) :
    Yields grammar .spaced (.once (.rule .stringLiteral)) c
      ((string? c).map fun d => (d, [⟨.stringLiteral, c, d, []⟩])) := by
  have hy := stringLiteral_body_yields c
  cases hd : string? c with
  | none => exact .ruleFail (by rwa [hd] at hy)
  | some d => exact .ruleShown (g := grammar) (r := .stringLiteral) rfl (by rwa [hd] at hy)

end Literal

section Heads

variable {c d : Cursor} {x : Char} {xs : List Char}

theorem trivium?_eq_none (hc : c.rest = x :: xs) (hslash : x ≠ '/') (hspace : isSpace x = false) :
    trivium? c = none := by
  obtain ⟨n, cs⟩ := c
  cases hc
  unfold trivium?
  split <;> simp_all

theorem trivium?_of_isSpace (hc : c.rest = x :: xs) (hspace : isSpace x = true) :
    trivium? c = some ⟨c.offset + x.utf8Size, xs⟩ := by
  obtain ⟨n, cs⟩ := c
  cases hc
  have hslash : x ≠ '/' := by
    rintro rfl
    cases hspace
  rw [utf8Size_of_isSpace hspace]
  unfold trivium?
  split <;> simp_all

theorem string?_eq_none (hc : c.rest = x :: xs) (hquote : isQuote x = false) :
    string? c = none := by
  obtain ⟨n, cs⟩ := c
  cases hc
  simp [string?, hquote]

theorem stringEnd?_passes {quote : Char} {n : Nat} {cs : List Char}
    (h : stringEnd? quote n cs = some d) : ∃ as, Cursor.Passes ⟨n, cs⟩ as d := by
  have hone : ∀ (n : Nat) (x : Char) (xs : List Char),
      Cursor.Passes ⟨n, x :: xs⟩ [x] ⟨n + x.utf8Size, xs⟩ := fun _ _ _ => ⟨rfl, by simp⟩
  fun_induction stringEnd? quote n cs with
  | case1 => simp at h
  | case2 n cs =>
    cases h
    exact ⟨_, hone n quote cs⟩
  | case3 => simp at h
  | case4 n x xs _ ih =>
    obtain ⟨as, has⟩ := ih h
    exact ⟨_, ((hone n '\\' (x :: xs)).trans (hone _ x xs)).trans has⟩
  | case5 n c cs _ _ ih =>
    obtain ⟨as, has⟩ := ih h
    exact ⟨_, (hone n c cs).trans has⟩

theorem string?_passes (h : string? c = some d) :
    ∃ x xs, isQuote x = true ∧ c.Passes (x :: xs) d := by
  obtain ⟨n, cs⟩ := c
  cases cs with
  | nil => simp [string?] at h
  | cons x xs =>
    simp only [string?, Option.ite_none_right_eq_some] at h
    obtain ⟨hx, h⟩ := h
    obtain ⟨as, has⟩ := stringEnd?_passes h
    have hopen : Cursor.Passes ⟨n, x :: xs⟩ [x] ⟨n + x.utf8Size, xs⟩ := ⟨rfl, by simp⟩
    exact ⟨x, as, hx, hopen.trans has⟩

theorem trivium?_of_string? (h : string? c = some d) : trivium? c = none := by
  obtain ⟨x, as, hx, hp⟩ := string?_passes h
  refine trivium?_eq_none hp.1 ?_ ?_
  · rintro rfl
    cases hx
  · simp only [isQuote, Bool.or_eq_true, beq_iff_eq] at hx
    rcases hx with rfl | rfl <;> rfl

theorem skip_space (n : Nat) (h : isSpace x = true) : skip ⟨n, x :: xs⟩ = skip ⟨n + x.utf8Size, xs⟩ :=
  skip_of_some (trivium?_of_isSpace rfl h)

theorem skip_spaces (n : Nat) {ws rest : List Char} (h : ws.all isSpace = true) :
    skip ⟨n, ws ++ rest⟩ = skip ⟨n + Text.byteLength ws, rest⟩ := by
  induction ws generalizing n with
  | nil => rfl
  | cons w ws ih =>
    simp only [List.all_cons, Bool.and_eq_true] at h
    rw [List.cons_append, skip_space n h.1, ih _ h.2, Text.byteLength_cons, Nat.add_assoc]

theorem skip_solid (n : Nat) (hx : x ≠ '/') (hspace : isSpace x = false) :
    skip ⟨n, x :: xs⟩ = ⟨n, x :: xs⟩ :=
  skip_of_none (trivium?_eq_none rfl hx hspace)

theorem fails_text {m : Peg.Mode} {y : Char} {ys : List Char} {n : Nat} (hxy : y ≠ x) :
    Fails grammar m (.text (y :: ys)) ⟨n, x :: xs⟩ :=
  .textFail (by simp [Cursor.text?, hxy])

end Heads

/-- Where the text of a declaration ends: at a semicolon outside brackets, at such a semicolon or
the brace that closes the first group of braces, or at an opening brace outside brackets. -/
inductive Border
  | semicolon
  | ending
  | opening
deriving DecidableEq, Repr

namespace Border

def all : List Border := [.semicolon, .ending, .opening]

theorem mem_all (b : Border) : b ∈ all := by
  cases b <;> decide

def stops : Border → List Char → Char → Bool
  | .semicolon, closers, x => x == ';' && closers.isEmpty
  | .ending, closers, x => (x == ';' && closers.isEmpty) || (x == '\x7d' && closers == ['\x7d'])
  | .opening, closers, x => x == '\x7b' && closers.isEmpty

end Border

def closer? (x : Char) : Option Char :=
  if x = '(' then some ')'
  else if x = '[' then some ']'
  else if x = '\x7b' then some '\x7d'
  else none

/-- The closing brackets that are due after one more character. A closing bracket that is not due
comes too early. -/
def turn (closers : List Char) (x : Char) : Option (List Char) :=
  match closer? x with
  | some y => some (y :: closers)
  | none =>
    if isBracket x then
      match closers with
      | [] => none
      | y :: rest => if x = y then some rest else none
    else some closers

def advance (b : Border) : List Char × Cursor → Option (List Char × Cursor)
  | (closers, c) =>
    match trivium? c with
    | some d => some (closers, d)
    | none =>
      match string? c with
      | some d => some (closers, d)
      | none =>
        match c.rest with
        | [] => none
        | x :: xs =>
          if b.stops closers x then none
          else (turn closers x).map (·, ⟨c.offset + x.utf8Size, xs⟩)

abbrev Scans (b : Border) : List Char × Cursor → List Char × Cursor → Prop :=
  Relation.ReflTransGen fun p q => advance b p = some q

section Scanning

variable {b : Border} {closers closers' : List Char} {c d : Cursor} {x : Char} {xs : List Char}

theorem advance_trivium (h : trivium? c = some d) : advance b (closers, c) = some (closers, d) := by
  simp [advance, h]

theorem advance_string (h : string? c = some d) : advance b (closers, c) = some (closers, d) := by
  simp [advance, h, trivium?_of_string? h]

theorem advance_char (ht : trivium? c = none) (hs : string? c = none) (hc : c.rest = x :: xs)
    (hstop : b.stops closers x = false) (hturn : turn closers x = some closers') :
    advance b (closers, c) = some (closers', ⟨c.offset + x.utf8Size, xs⟩) := by
  simp [advance, ht, hs, hc, hstop, hturn]

theorem Border.stops_head (h : b.stops closers x = true) : x = ';' ∨ x = '\x7d' ∨ x = '\x7b' := by
  cases b <;> simp [Border.stops] at h <;> grind

theorem advance_border (hc : c.rest = x :: xs) (h : b.stops closers x = true) :
    advance b (closers, c) = none := by
  have ht : trivium? c = none ∧ string? c = none := by
    rcases Border.stops_head h with rfl | rfl | rfl <;>
      exact ⟨trivium?_eq_none hc (by decide) rfl, string?_eq_none hc rfl⟩
  simp [advance, ht.1, ht.2, hc, h]

theorem advance_passes {p q : List Char × Cursor} (h : advance b p = some q) :
    ∃ x xs, p.2.Passes (x :: xs) q.2 := by
  obtain ⟨closers, c⟩ := p
  unfold advance at h
  cases ht : trivium? c with
  | some d =>
    simp only [ht] at h
    cases h
    exact trivium?_passes ht
  | none =>
    cases hs : string? c with
    | some d =>
      simp only [ht, hs] at h
      cases h
      obtain ⟨x, xs, -, hp⟩ := string?_passes hs
      exact ⟨x, xs, hp⟩
    | none =>
      obtain ⟨n, cs⟩ := c
      cases cs with
      | nil => simp [ht, hs] at h
      | cons x xs =>
        simp only [ht, hs, Option.ite_none_left_eq_some, Option.map_eq_some_iff] at h
        obtain ⟨-, closers', -, rfl⟩ := h
        exact ⟨x, [], rfl, by simp⟩

theorem Scans.before {p q : List Char × Cursor} (h : Scans b p q) : p.2.Before q.2 := by
  induction h with
  | refl => exact .refl _
  | tail _ hstep ih =>
    obtain ⟨x, xs, hp⟩ := advance_passes hstep
    exact ih.trans ⟨_, hp⟩

theorem scans_skip (b : Border) (closers : List Char) (c : Cursor) :
    Scans b (closers, c) (closers, skip c) := by
  induction c using skip_induction with
  | stop c h => rw [skip_of_none h]
  | step c d h ih =>
    rw [skip_of_some h]
    exact .head (advance_trivium h) ih

/-- A scan that ends has passed all that another scan from the same place reaches. -/
theorem Scans.to_end {p q r : List Char × Cursor} (hq : Scans b p q) (hr : Scans b p r)
    (hend : advance b r = none) : Scans b q r := by
  have hunique : Relator.RightUnique fun p q => advance b p = some q :=
    fun _ _ _ h h' => Option.some.inj (h.symm.trans h')
  rcases Relation.ReflTransGen.total_of_right_unique hunique hq hr with h | h
  · exact h
  · cases Relation.ReflTransGen.cases_head h with
    | inl heq => exact heq ▸ .refl
    | inr hnext =>
      obtain ⟨_, hstep, -⟩ := hnext
      simp [hend] at hstep

end Scanning

/-- The same lexemes start at `c` and at `φ c`, and `φ` leads from the end of one to the end of the
other. -/
structure Agrees (φ : Cursor → Cursor) (c : Cursor) : Prop where
  trivium : trivium? (φ c) = (trivium? c).map φ
  string : string? (φ c) = (string? c).map φ
  char : ∀ accept, (φ c).char? accept = (c.char? accept).map φ

theorem Agrees.advance {φ : Cursor → Cursor} {b : Border} {closers closers' : List Char}
    {c d : Cursor} (h : Agrees φ c) (hstep : advance b (closers, c) = some (closers', d)) :
    advance b (closers, φ c) = some (closers', φ d) := by
  have ht := h.trivium
  have hs := h.string
  unfold Source.advance at hstep
  cases htc : trivium? c with
  | some e =>
    simp only [htc] at hstep
    cases hstep
    exact advance_trivium (by rw [ht, htc]; rfl)
  | none =>
    cases hsc : string? c with
    | some e =>
      simp only [htc, hsc] at hstep
      cases hstep
      exact advance_string (by rw [hs, hsc]; rfl)
    | none =>
      rw [htc, Option.map_none] at ht
      rw [hsc, Option.map_none] at hs
      obtain ⟨n, cs⟩ := c
      cases cs with
      | nil => simp [htc, hsc] at hstep
      | cons x xs =>
        simp only [htc, hsc, Option.ite_none_left_eq_some, Option.map_eq_some_iff] at hstep
        obtain ⟨hstop, closers'', hturn, hd⟩ := hstep
        cases hd
        have hchar := h.char (· == x)
        rw [Cursor.char?, if_pos (beq_self_eq_true x), Option.map_some] at hchar
        obtain ⟨y, hy, hpass⟩ := Cursor.char?_passes hchar
        obtain rfl : y = x := by simpa using hy
        have hnext : φ ⟨n + y.utf8Size, xs⟩ =
            ⟨(φ ⟨n, y :: xs⟩).offset + y.utf8Size, (φ ⟨n + y.utf8Size, xs⟩).rest⟩ :=
          hpass.unique ⟨hpass.1, by simp⟩
        rw [hnext]
        exact advance_char ht hs hpass.1 (by simpa using hstop) hturn

def InStep (φ : Cursor → Cursor) (b : Border) (closers : List Char) (c : Cursor) : Prop :=
  ∀ closers' d, Scans b (closers, c) (closers', d) → Agrees φ d

namespace InStep

variable {φ : Cursor → Cursor} {b : Border} {closers closers' : List Char} {c d : Cursor}

theorem agrees (h : InStep φ b closers c) : Agrees φ c := h closers c .refl

theorem scans (h : InStep φ b closers c) (hs : Scans b (closers, c) (closers', d)) :
    InStep φ b closers' d := fun _ _ hs' => h _ _ (hs.trans hs')

theorem skip (h : InStep φ b closers c) : skip (φ c) = φ (skip c) := by
  induction c using skip_induction with
  | stop c hc =>
    have hφ : trivium? (φ c) = none := by rw [h.agrees.trivium, hc]; rfl
    rw [skip_of_none hc, skip_of_none hφ]
  | step c d hc ih =>
    have hφ : trivium? (φ c) = some (φ d) := by rw [h.agrees.trivium, hc]; rfl
    rw [skip_of_some hc, skip_of_some hφ]
    exact ih (h.scans (.single (advance_trivium hc)))

end InStep

end SolidityStubs.Source
