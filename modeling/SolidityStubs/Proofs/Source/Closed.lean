import SolidityStubs.Proofs.Source.Coverage
import SolidityStubs.Proofs.Source.Splice

/-! # Closed text

A text is closed if no comment and no string is left open in it, and no slash at its end could open
one. Its lexemes do not depend on what stands behind it: a closed text is read in the same way alone
and in front of any other text.
-/
namespace SolidityStubs.Source

open Peg

/-- What the next character belongs to: code, which may come behind a slash, a comment or a string.
In a block comment it may come behind a star, in a string behind a backslash. -/
inductive Region
  | code
  | slash
  | line
  | block
  | star
  | quoted (quote : Char)
  | escaped (quote : Char)
deriving DecidableEq, Repr

namespace Region

def nextInCode (x : Char) : Region :=
  if x = '/' then .slash else if isQuote x then .quoted x else .code

def next : Region → Char → Region
  | .code, x => nextInCode x
  | .slash, x => if x = '/' then .line else if x = '*' then .block else nextInCode x
  | .line, x => if isLineEnd x then .code else .line
  | .block, x => if x = '*' then .star else .block
  | .star, x => if x = '/' then .code else if x = '*' then .star else .block
  | .quoted quote, x =>
    if x = quote then .code else if x = '\\' then .escaped quote else .quoted quote
  | .escaped quote, _ => .quoted quote

def after (r : Region) (cs : List Char) : Region := cs.foldl next r

/-- The text behind the first place where code goes on. -/
def leave? : Region → List Char → Option (List Char)
  | _, [] => none
  | r, x :: xs => if r.next x = .code then some xs else (r.next x).leave? xs

end Region

/-- No comment and no string is open at the end of the text. -/
def Closed (cs : List Char) : Prop := Region.code.after cs = .code

instance (cs : List Char) : Decidable (Closed cs) := inferInstanceAs (Decidable (_ = _))

/-- Padding whatever follows it: a line comment in it comes with the end of its line. -/
inductive Padded : List Char → Prop
  | nil : Padded []
  | space {x : Char} {ws : List Char} (hx : isSpace x = true) (h : Padded ws) : Padded (x :: ws)
  | line {body ws : List Char} {x : Char} (hbody : ∀ y ∈ body, isLineEnd y = false)
      (hx : isLineEnd x = true) (h : Padded ws) : Padded ('/' :: '/' :: (body ++ x :: ws))
  | block {body ws : List Char} (hbody : ¬ ['*', '/'] <:+: body ++ ['*']) (h : Padded ws) :
      Padded ('/' :: '*' :: (body ++ '*' :: '/' :: ws))

def isBare (x : Char) : Bool := x != '/' && ! isQuote x

variable {b : Border} {c d : Cursor} {x y : Char} {xs as bs cs : List Char} {r : Region}

section Regions

namespace Region

@[simp]
theorem after_nil (r : Region) : r.after [] = r := rfl

@[simp]
theorem after_cons (r : Region) (x : Char) (xs : List Char) :
    r.after (x :: xs) = (r.next x).after xs := rfl

theorem after_append (r : Region) (as bs : List Char) :
    r.after (as ++ bs) = (r.after as).after bs := List.foldl_append

theorem next_code_of_isBare (h : isBare x = true) : next .code x = .code := by
  simp only [isBare, Bool.and_eq_true, bne_iff_ne, Bool.not_eq_true'] at h
  simp [next, nextInCode, h.1, h.2]

/-- Outside of code a text comes back to code at the end if the text behind the first way back is
closed. -/
theorem after_eq_code_iff (hr : r ≠ .code) :
    r.after cs = .code ↔ ∃ rest, r.leave? cs = some rest ∧ Closed rest := by
  induction cs generalizing r with
  | nil => simp [leave?, hr]
  | cons x xs ih =>
    by_cases hx : r.next x = .code
    · simp [leave?, hx, Closed]
    · rw [after_cons, ih hx, leave?, if_neg hx]

end Region

theorem Closed.append_iff (h : Closed as) : Closed (as ++ bs) ↔ Closed bs := by
  rw [Closed, Region.after_append, h, Closed]

theorem Closed.append (ha : Closed as) (hb : Closed bs) : Closed (as ++ bs) := ha.append_iff.2 hb

theorem closed_cons_iff (hx : isBare x = true) : Closed (x :: xs) ↔ Closed xs := by
  rw [Closed, Region.after_cons, Region.next_code_of_isBare hx, Closed]

theorem closed_of_isBare (h : cs.all isBare = true) : Closed cs := by
  induction cs with
  | nil => rfl
  | cons x xs ih =>
    rw [List.all_cons, Bool.and_eq_true] at h
    exact (closed_cons_iff h.1).2 (ih h.2)

theorem isBare_of_isLineEnd (h : isLineEnd x = true) : isBare x = true := by
  simp only [isLineEnd, Bool.or_eq_true, beq_iff_eq] at h
  rcases h with rfl | rfl <;> rfl

theorem isBare_of_isSpace (h : isSpace x = true) : isBare x = true := by
  simp only [isSpace, Bool.or_eq_true, beq_iff_eq] at h
  rcases h with ((rfl | rfl) | rfl) | rfl <;> rfl

end Regions

section Lexemes

theorem leave?_star (hx : x ≠ '/') : Region.star.leave? (x :: xs) = Region.block.leave? (x :: xs) := by
  have hnext : Region.star.next x = Region.block.next x := by simp [Region.next, hx]
  rw [Region.leave?, Region.leave?, hnext]

theorem blockEnd?_rest (n : Nat) (cs : List Char) :
    (blockEnd? n cs).map Cursor.rest = Region.block.leave? cs := by
  fun_induction blockEnd? n cs with
  | case1 => rfl
  | case2 n cs => rfl
  | case3 n x xs hclose ih =>
    rw [ih, Region.leave?]
    by_cases hx : x = '*'
    · subst hx
      cases xs with
      | nil => rfl
      | cons y ys =>
        have hy : y ≠ '/' := by
          rintro rfl
          exact hclose ys rfl rfl
        exact (leave?_star hy).symm
    · simp [Region.next, hx]

theorem stringEnd?_rest {quote : Char} (n : Nat) (cs : List Char) :
    (stringEnd? quote n cs).map Cursor.rest = (Region.quoted quote).leave? cs := by
  fun_induction stringEnd? quote n cs with
  | case1 => rfl
  | case2 n cs => simp [Region.leave?, Region.next]
  | case3 n hc => simp [Region.leave?, Region.next, hc]
  | case4 n x xs hc ih => simp [Region.leave?, Region.next, hc, ih]
  | case5 n x xs hc hb ih => simp [Region.leave?, Region.next, hc, hb, ih]

theorem lineEnd_rest_eq (n : Nat) (cs : List Char) :
    (lineEnd n cs).rest = [] ∧ Region.line.leave? cs = none ∨
      ∃ x xs, (lineEnd n cs).rest = x :: xs ∧ isLineEnd x = true ∧
        Region.line.leave? cs = some xs := by
  induction cs generalizing n with
  | nil => exact .inl ⟨rfl, rfl⟩
  | cons x xs ih =>
    by_cases hx : isLineEnd x = true
    · exact .inr ⟨x, xs, by simp [lineEnd, hx], hx, by simp [Region.leave?, Region.next, hx]⟩
    · simpa [lineEnd, Region.leave?, Region.next, hx] using ih (n + x.utf8Size)

/-- A block comment stays open in a text that does not have the mark which closes it. -/
theorem leave?_block_eq_none_iff : Region.block.leave? cs = none ↔ ¬ ['*', '/'] <:+: cs := by
  have hboth : (Region.block.leave? cs = none ↔ ¬ ['*', '/'] <:+: cs) ∧
      (Region.star.leave? cs = none ↔ ¬ ['*', '/'] <:+: '*' :: cs) := by
    induction cs with
    | nil => exact ⟨by simp [Region.leave?], by simp [Region.leave?, List.infix_cons_iff]⟩
    | cons x xs ih =>
      have hblock : Region.block.leave? (x :: xs) = none ↔ ¬ ['*', '/'] <:+: x :: xs := by
        by_cases hx : x = '*'
        · subst hx
          exact ih.2
        · simp [Region.leave?, Region.next, hx, ih.1, List.infix_cons_iff, Ne.symm hx]
      refine ⟨hblock, ?_⟩
      by_cases hx : x = '/'
      · subst hx
        simp [Region.leave?, Region.next, List.infix_cons_iff]
      · rw [leave?_star hx, hblock, List.infix_cons_iff (a := '*')]
        simp [Ne.symm hx]
  exact hboth.1

/-- A comment that opens in closed text is closed in it. -/
theorem Closed.blockEnd? (n : Nat) (h : Closed ('/' :: '*' :: cs)) :
    ∃ d, Source.blockEnd? n cs = some d ∧ Closed d.rest := by
  obtain ⟨rest, hleave, hrest⟩ := (Region.after_eq_code_iff (r := .block) (by decide)).1 h
  rw [← blockEnd?_rest n] at hleave
  obtain ⟨d, hd, rfl⟩ := Option.map_eq_some_iff.1 hleave
  exact ⟨d, hd, hrest⟩

theorem Closed.string? (n : Nat) (hx : isQuote x = true) (h : Closed (x :: xs)) :
    ∃ d, Source.string? ⟨n, x :: xs⟩ = some d ∧ Closed d.rest := by
  have hslash : x ≠ '/' := by
    rintro rfl
    cases hx
  have hquoted : (Region.quoted x).after xs = .code := by
    rw [Closed, Region.after_cons] at h
    simpa [Region.next, Region.nextInCode, hslash, hx] using h
  obtain ⟨rest, hleave, hrest⟩ := (Region.after_eq_code_iff (by simp)).1 hquoted
  rw [← stringEnd?_rest (n + x.utf8Size)] at hleave
  obtain ⟨d, hd, rfl⟩ := Option.map_eq_some_iff.1 hleave
  exact ⟨d, by rw [Source.string?, if_pos hx, hd], hrest⟩

/-- Behind a slash that opens no comment there is more text, and it is read as code. -/
theorem Closed.of_slash {n : Nat} (h : Closed ('/' :: xs)) (ht : trivium? ⟨n, '/' :: xs⟩ = none) :
    ∃ y ys, xs = y :: ys ∧ y ≠ '/' ∧ y ≠ '*' ∧ Closed xs := by
  cases xs with
  | nil => cases h
  | cons y ys =>
    rw [trivium?_slash] at ht
    by_cases hslash : y = '/'
    · simp [hslash] at ht
    · by_cases hstar : y = '*'
      · subst hstar
        obtain ⟨d, hd, -⟩ := h.blockEnd? (n + 2)
        simp [hd] at ht
      · refine ⟨y, ys, rfl, hslash, hstar, ?_⟩
        rw [Closed, Region.after_cons, Region.after_cons] at h
        rw [Closed, Region.after_cons]
        simpa [Region.next, Region.nextInCode, hslash, hstar] using h

theorem Closed.of_trivium? (h : Closed c.rest) (ht : trivium? c = some d) : Closed d.rest := by
  fun_cases trivium? c with
  | case1 => cases ht
  | case2 n cs =>
    obtain rfl : lineEnd (n + 2) cs = d := by simpa [trivium?] using ht
    obtain ⟨rest, hleave, hrest⟩ := (Region.after_eq_code_iff (r := .line) (by decide)).1 h
    rcases lineEnd_rest_eq (n + 2) cs with ⟨-, hnone⟩ | ⟨x, xs, hline, hx, hsome⟩
    · cases hnone.symm.trans hleave
    · cases hsome.symm.trans hleave
      rw [hline]
      exact (closed_cons_iff (isBare_of_isLineEnd hx)).2 hrest
  | case3 n cs =>
    obtain ⟨e, he, hrest⟩ := Closed.blockEnd? (n + 2) h
    obtain rfl : e = d := by simpa [trivium?, he] using ht
    exact hrest
  | case4 n x xs _ _ hx =>
    obtain rfl : ⟨n + 1, xs⟩ = d := by simpa [trivium?, hx] using ht
    exact (closed_cons_iff (isBare_of_isSpace hx)).1 h
  | case5 n x xs _ _ hx => simp [trivium?, hx] at ht

theorem Closed.of_advance {closers closers' : List Char} (h : Closed c.rest)
    (hstep : advance b (closers, c) = some (closers', d)) : Closed d.rest := by
  unfold advance at hstep
  cases ht : trivium? c with
  | some e =>
    simp only [ht] at hstep
    cases hstep
    exact h.of_trivium? ht
  | none =>
    obtain ⟨n, cs⟩ := c
    cases cs with
    | nil => simp [ht, Source.string?] at hstep
    | cons x xs =>
      cases hx : isQuote x with
      | true =>
        obtain ⟨e, he, hrest⟩ := h.string? n hx
        simp only [ht, he] at hstep
        cases hstep
        exact hrest
      | false =>
        have hnone := string?_eq_none (c := ⟨n, x :: xs⟩) rfl hx
        simp only [ht, hnone, Option.ite_none_left_eq_some, Option.map_eq_some_iff] at hstep
        obtain ⟨-, closers'', -, hd⟩ := hstep
        cases hd
        by_cases hslash : x = '/'
        · subst hslash
          obtain ⟨-, -, -, -, -, hxs⟩ := h.of_slash ht
          exact hxs
        · exact (closed_cons_iff (by simp [isBare, hslash, hx])).1 h

theorem Scans.closed {p q : List Char × Cursor} (h : Scans b p q) (hp : Closed p.2.rest) :
    Closed q.2.rest := by
  induction h with
  | refl => exact hp
  | tail _ hstep ih => exact ih.of_advance hstep

end Lexemes

section Padding

theorem padded_of_spaces {ws : List Char} (h : ws.all isSpace = true) : Padded ws := by
  induction ws with
  | nil => exact .nil
  | cons w ws ih =>
    simp only [List.all_cons, Bool.and_eq_true] at h
    exact .space h.1 (ih h.2)

theorem Padded.padding {ws : List Char} (h : Padded ws) (rest : List Char) : Padding ws rest := by
  induction h with
  | nil => exact .nil rest
  | space hx _ ih => exact .space hx ih
  | line hbody hx _ ih => exact .line hbody (by simpa using hx) (.space (isSpace_of_isLineEnd hx) ih)
  | block hbody _ ih => exact .block hbody ih

theorem Padded.skip {ws : List Char} (h : Padded ws) (n : Nat) (rest : List Char) :
    Source.skip ⟨n, ws ++ rest⟩ = Source.skip ⟨n + Text.byteLength ws, rest⟩ :=
  (h.padding rest).skip n

/-- A line comment in front of padding that starts with the end of its line. -/
theorem Padded.line_behind {body ws : List Char} (hbody : ∀ y ∈ body, isLineEnd y = false)
    (hx : isLineEnd x = true) (h : Padded (x :: ws)) : Padded ('/' :: '/' :: (body ++ x :: ws)) := by
  cases h with
  | space _ hws => exact .line hbody hx hws
  | line => cases hx
  | block => cases hx

theorem padded_of_padding (h : Padding cs (x :: xs)) (hx : isLineEnd x = false) : Padded cs := by
  generalize hrest : x :: xs = rest at h
  induction h with
  | nil => exact .nil
  | space hy _ ih => exact .space hy (ih hrest)
  | @line body cs rest hbody hend _ ih =>
    subst hrest
    cases cs with
    | nil =>
      have hsome := hend x (by simp)
      rw [hx] at hsome
      cases hsome
    | cons y ys => exact .line_behind hbody (hend y (by simp)) (ih rfl)
  | block hbody _ ih => exact .block hbody (ih hrest)

theorem closed_lineComment_iff {body ws : List Char} (hbody : ∀ y ∈ body, isLineEnd y = false)
    (hx : isLineEnd x = true) : Closed ('/' :: '/' :: (body ++ x :: ws)) ↔ Closed ws := by
  have hend : lineEnd 0 (body ++ x :: ws) = _ := lineEnd_of_body hbody (by simpa using hx) 0
  have hleave : Region.line.leave? (body ++ x :: ws) = some ws := by
    rcases lineEnd_rest_eq 0 (body ++ x :: ws) with ⟨hnil, -⟩ | ⟨y, ys, hline, -, hleave⟩
    · simp [hend] at hnil
    · rw [hend] at hline
      cases hline
      exact hleave
  refine (Region.after_eq_code_iff (r := .line) (by decide)).trans ?_
  simp [hleave]

theorem closed_blockComment_iff {body ws : List Char} (hbody : ¬ ['*', '/'] <:+: body ++ ['*']) :
    Closed ('/' :: '*' :: (body ++ '*' :: '/' :: ws)) ↔ Closed ws := by
  have hend := blockEnd?_of_body hbody 0 ws
  rw [List.append_assoc] at hend
  have hleave := (blockEnd?_rest 0 _).symm.trans (congrArg (Option.map Cursor.rest) hend)
  refine (Region.after_eq_code_iff (r := .block) (by decide)).trans ?_
  simp only [List.cons_append, List.nil_append] at hleave
  simp [hleave]

theorem not_closed_lineComment {body : List Char} (hbody : ∀ y ∈ body, isLineEnd y = false) :
    ¬ Closed ('/' :: '/' :: body) := by
  have hline : Region.line.after body = .line := by
    induction body with
    | nil => rfl
    | cons y ys ih =>
      rw [Region.after_cons, Region.next, if_neg (by simp [hbody y (by simp)])]
      exact ih fun z hz => hbody z (List.mem_cons_of_mem y hz)
  intro h
  cases hline.symm.trans h

theorem Padded.closed {ws : List Char} (h : Padded ws) : Closed ws := by
  induction h with
  | nil => rfl
  | space hx _ ih => exact (closed_cons_iff (isBare_of_isSpace hx)).2 ih
  | line hbody hx _ ih => exact (closed_lineComment_iff hbody hx).2 ih
  | block hbody _ ih => exact (closed_blockComment_iff hbody).2 ih

/-- Padding that is closed is padding whatever follows it. -/
theorem Closed.padded (hclosed : Closed cs) {rest : List Char} (h : Padding cs rest) : Padded cs := by
  induction h with
  | nil => exact .nil
  | space hx _ ih => exact .space hx (ih ((closed_cons_iff (isBare_of_isSpace hx)).1 hclosed))
  | @line body cs rest hbody hend _ ih =>
    cases cs with
    | nil =>
      rw [List.append_nil] at hclosed
      exact absurd hclosed (not_closed_lineComment hbody)
    | cons y ys =>
      have hy := hend y (by simp)
      have hys := (closed_lineComment_iff hbody hy).1 hclosed
      exact .line_behind hbody hy (ih ((closed_cons_iff (isBare_of_isLineEnd hy)).2 hys))
  | block hbody _ ih => exact .block hbody (ih ((closed_blockComment_iff hbody).1 hclosed))

theorem Padded.head {ws : List Char} (h : Padded ws) :
    ∀ x ∈ ws.head?, isSpace x = true ∨ x = '/' := by
  cases h with
  | nil => simp
  | space hx _ => simpa using .inl hx
  | line => simp
  | block => simp

theorem Padded.last {ws : List Char} (h : Padded ws) :
    ∀ x ∈ ws.getLast?, isSpace x = true ∨ x = '/' := by
  -- behind the last piece comes nothing, else the last character is that of the rest
  have hcons : ∀ {y : Char} {ws : List Char}, (isSpace y = true ∨ y = '/') →
      (∀ x ∈ ws.getLast?, isSpace x = true ∨ x = '/') →
      ∀ x ∈ (y :: ws).getLast?, isSpace x = true ∨ x = '/' := by
    intro y ws hy hws
    cases ws with
    | nil => simpa using hy
    | cons z zs => rwa [List.getLast?_cons_cons]
  have hlast : ∀ (as : List Char) (y : Char) (ws : List Char),
      (as ++ y :: ws).getLast? = (y :: ws).getLast? := by simp [List.getLast?_append, List.getLast?_cons]
  induction h with
  | nil => simp
  | space hx _ ih => exact hcons (.inl hx) ih
  | @line body ws x _ hx _ ih =>
    have hsplit : '/' :: '/' :: (body ++ x :: ws) = ('/' :: '/' :: body) ++ x :: ws := rfl
    rw [hsplit, hlast]
    exact hcons (.inl (isSpace_of_isLineEnd hx)) ih
  | @block body ws _ _ ih =>
    have hsplit : '/' :: '*' :: (body ++ '*' :: '/' :: ws) =
        ('/' :: '*' :: (body ++ ['*'])) ++ '/' :: ws := by simp
    rw [hsplit, hlast]
    exact hcons (.inr rfl) ih

end Padding

section Elsewhere

theorem Closed.lineEnd_append (n : Nat) (h : Closed ('/' :: '/' :: cs)) (new : List Char) :
    lineEnd n (cs ++ new) = ⟨(lineEnd n cs).offset, (lineEnd n cs).rest ++ new⟩ := by
  obtain ⟨rest, hleave, -⟩ := (Region.after_eq_code_iff (r := .line) (by decide)).1 h
  rcases lineEnd_rest_eq n cs with ⟨-, hnone⟩ | ⟨x, xs, hline, -, -⟩
  · cases hnone.symm.trans hleave
  · rw [Source.lineEnd_append, if_neg (by simp [hline])]

theorem Closed.trivium?_append (n : Nat) (h : Closed (x :: xs)) (new : List Char) :
    trivium? ⟨n, x :: xs ++ new⟩ =
      (trivium? ⟨n, x :: xs⟩).map fun d => ⟨d.offset, d.rest ++ new⟩ := by
  by_cases hslash : x = '/'
  · subst hslash
    cases ht : trivium? ⟨n, '/' :: xs⟩ with
    | none =>
      obtain ⟨y, ys, rfl, hy, hstar, -⟩ := h.of_slash ht
      rw [List.cons_append, List.cons_append, trivium?_slash, if_neg hy, if_neg hstar]
      rfl
    | some d =>
      cases xs with
      | nil => cases h
      | cons y ys =>
        rw [List.cons_append, List.cons_append]
        rw [trivium?_slash] at ht ⊢
        by_cases hy : y = '/'
        · subst hy
          rw [if_pos rfl] at ht ⊢
          rw [h.lineEnd_append, ← Option.some.inj ht]
          rfl
        · rw [if_neg hy] at ht ⊢
          by_cases hstar : y = '*'
          · rw [if_pos hstar] at ht ⊢
            rw [blockEnd?_append_of_some new ht]
            rfl
          · simp [hstar] at ht
  · cases hspace : isSpace x with
    | true =>
      rw [List.cons_append, trivium?_of_isSpace rfl hspace, trivium?_of_isSpace rfl hspace]
      rfl
    | false =>
      rw [List.cons_append, trivium?_eq_none rfl hslash hspace, trivium?_eq_none rfl hslash hspace]
      rfl

theorem Closed.string?_append (n : Nat) (h : Closed (x :: xs)) (new : List Char) :
    Source.string? ⟨n, x :: xs ++ new⟩ =
      (Source.string? ⟨n, x :: xs⟩).map fun d => ⟨d.offset, d.rest ++ new⟩ := by
  cases hx : isQuote x with
  | false =>
    rw [List.cons_append, string?_eq_none rfl hx, string?_eq_none rfl hx]
    rfl
  | true =>
    obtain ⟨d, hd, -⟩ := h.string? n hx
    rw [hd]
    rw [Source.string?, if_pos hx] at hd
    rw [List.cons_append, Source.string?, if_pos hx, stringEnd?_append_of_some new hd]
    rfl

/-- The lexemes of a closed text stay as they are if more text comes behind it. -/
theorem Closed.agrees (h : Closed c.rest) (hne : c.rest ≠ []) (new : List Char) :
    Agrees (spliced [] new) c := by
  obtain ⟨n, cs⟩ := c
  have hmap : ∀ d : Cursor, spliced [] new d = ⟨d.offset, d.rest ++ new⟩ := fun d => by
    simp [spliced]
  cases cs with
  | nil => exact absurd rfl hne
  | cons x xs =>
    refine ⟨?_, ?_, fun accept => ?_⟩
    · rw [hmap, h.trivium?_append]
      exact congrArg (Option.map · _) (funext fun d => (hmap d).symm)
    · rw [hmap, h.string?_append]
      exact congrArg (Option.map · _) (funext fun d => (hmap d).symm)
    · by_cases hx : accept x = true <;> simp [Cursor.char?, hx, hmap]

theorem Closed.scans_append {p q : List Char × Cursor} (hclosed : Closed p.2.rest) (h : Scans b p q)
    (new : List Char) :
    Scans b (p.1, ⟨p.2.offset, p.2.rest ++ new⟩) (q.1, ⟨q.2.offset, q.2.rest ++ new⟩) := by
  induction h with
  | refl => exact .refl
  | @tail q r hscan hstep ih =>
    have hne : q.2.rest ≠ [] := by
      obtain ⟨x, xs, hpass⟩ := advance_passes hstep
      simp [hpass.1]
    refine ih.tail ?_
    have hnext := ((Scans.closed hscan hclosed).agrees hne new).advance hstep
    simpa [spliced] using hnext

/-- A scan that does not come to the end of a closed text passes the same lexemes if more text comes
behind it. -/
theorem Closed.inStep {closers : List Char} (h : Closed c.rest)
    (hend : ∀ q, Scans b (closers, c) q → q.2.rest ≠ []) (new : List Char) :
    InStep (spliced [] new) b closers c :=
  fun _ _ hscan => (hscan.closed h).agrees (hend _ hscan) new

end Elsewhere

end SolidityStubs.Source
