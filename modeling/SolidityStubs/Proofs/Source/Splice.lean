import SolidityStubs.Proofs.Source.Flow

/-! # Splicing

A text is spliced if what comes from some place on is replaced. Lexemes that end before that place
stay as they are. A string or comment that is never closed could come to be closed in the new text;
`Seamless` says that this does not happen.
-/
namespace SolidityStubs.Source

open Peg

section Append

theorem getLast?_ne_of_cons {x y : Char} {xs : List Char} (h : (x :: xs).getLast? ≠ some y) :
    xs.getLast? ≠ some y := by
  cases xs with
  | nil => simp
  | cons z zs => simpa [List.getLast?_cons_cons] using h

variable {a : List Char} (n : Nat) (rest : List Char)

theorem lineEnd_append :
    lineEnd n (a ++ rest) =
      if (lineEnd n a).rest = [] then lineEnd (n + Text.byteLength a) rest
      else ⟨(lineEnd n a).offset, (lineEnd n a).rest ++ rest⟩ := by
  induction a generalizing n with
  | nil => simp [lineEnd]
  | cons x xs ih =>
    by_cases hx : isLineEnd x = true
    · simp [lineEnd, hx]
    · simp only [List.cons_append, lineEnd, hx, Bool.false_eq_true, ↓reduceIte, ih,
        Text.byteLength_cons, Nat.add_assoc]

/-- A block comment is closed in the first part of a text or, if not, in the rest. -/
theorem blockEnd?_append (ha : a.getLast? ≠ some '*') :
    blockEnd? n (a ++ rest) =
      match blockEnd? n a with
      | some d => some ⟨d.offset, d.rest ++ rest⟩
      | none => blockEnd? (n + Text.byteLength a) rest := by
  fun_induction blockEnd? n a with
  | case1 n => simp
  | case2 n cs => simp [blockEnd?]
  | case3 n c cs hclose ih =>
    -- the mark that closes the comment does not start with `c` here either
    have hstep : blockEnd? n (c :: (cs ++ rest)) = blockEnd? (n + c.utf8Size) (cs ++ rest) := by
      rw [blockEnd?]
      intro ds hc hds
      subst hc
      cases cs with
      | nil => simp at ha
      | cons y ys =>
        simp only [List.cons_append, List.cons.injEq] at hds
        exact hclose ys rfl (by rw [hds.1])
    rw [List.cons_append, hstep, ih (getLast?_ne_of_cons ha), Text.byteLength_cons, Nat.add_assoc]

theorem stringEnd?_other {quote x : Char} (hx : x ≠ quote) (hb : x ≠ '\\') (n : Nat)
    (xs : List Char) : stringEnd? quote n (x :: xs) = stringEnd? quote (n + x.utf8Size) xs := by
  rw [stringEnd?.eq_def]
  simp [hx, hb]

theorem stringEnd?_append {quote : Char} (ha : a.getLast? ≠ some '\\') :
    stringEnd? quote n (a ++ rest) =
      match stringEnd? quote n a with
      | some d => some ⟨d.offset, d.rest ++ rest⟩
      | none => stringEnd? quote (n + Text.byteLength a) rest := by
  fun_induction stringEnd? quote n a with
  | case1 n => simp
  | case2 n cs =>
    rw [stringEnd?.eq_def]
    simp
  | case3 n hc => simp at ha
  | case4 n x xs hc ih =>
    have hlast : xs.getLast? ≠ some '\\' := getLast?_ne_of_cons (getLast?_ne_of_cons ha)
    have hstep : stringEnd? quote n ('\\' :: x :: (xs ++ rest)) =
        stringEnd? quote (n + '\\'.utf8Size + x.utf8Size) (xs ++ rest) := by
      rw [stringEnd?.eq_def]
      simp [hc]
    rw [List.cons_append, List.cons_append, hstep, ih hlast, Text.byteLength_cons,
      Text.byteLength_cons, Nat.add_assoc n, Nat.add_assoc n, Nat.add_assoc]
  | case5 n c cs hc hb ih =>
    rw [List.cons_append, stringEnd?_other hc hb, ih (getLast?_ne_of_cons ha), Text.byteLength_cons,
      Nat.add_assoc]

end Append

theorem blockEnd?_append_of_some {n : Nat} {d : Cursor} {as : List Char} (bs : List Char)
    (h : blockEnd? n as = some d) : blockEnd? n (as ++ bs) = some ⟨d.offset, d.rest ++ bs⟩ := by
  fun_induction blockEnd? n as with
  | case1 => cases h
  | case2 n cs =>
    cases h
    rfl
  | case3 n x xs hclose ih =>
    have hstep : blockEnd? n (x :: (xs ++ bs)) = blockEnd? (n + x.utf8Size) (xs ++ bs) := by
      rw [blockEnd?]
      rintro cs rfl hcs
      cases xs with
      | nil => cases h
      | cons z zs =>
        simp only [List.cons_append, List.cons.injEq] at hcs
        exact hclose zs rfl (by rw [hcs.1])
    rw [List.cons_append, hstep, ih h]

theorem stringEnd?_append_of_some {quote : Char} {n : Nat} {d : Cursor} {as : List Char}
    (bs : List Char)
    (h : stringEnd? quote n as = some d) :
    stringEnd? quote n (as ++ bs) = some ⟨d.offset, d.rest ++ bs⟩ := by
  fun_induction stringEnd? quote n as with
  | case1 | case3 => cases h
  | case2 n cs =>
    cases h
    rw [List.cons_append, stringEnd?.eq_def]
    simp
  | case4 n x xs hq ih =>
    have hstep : stringEnd? quote n ('\\' :: x :: (xs ++ bs)) =
        stringEnd? quote (n + '\\'.utf8Size + x.utf8Size) (xs ++ bs) := by
      rw [stringEnd?.eq_def]
      simp [hq]
    rw [List.cons_append, List.cons_append, hstep, ih h]
  | case5 n x xs hq hb ih => rw [List.cons_append, stringEnd?_other hq hb, ih h]

theorem lineEnd_length_le (n : Nat) (cs : List Char) : (lineEnd n cs).rest.length ≤ cs.length := by
  obtain ⟨as, has⟩ := lineEnd_passes n cs
  exact has.length_le

theorem blockEnd?_length_lt {n : Nat} {cs : List Char} {d : Cursor} (h : blockEnd? n cs = some d) :
    d.rest.length < cs.length := by
  fun_induction blockEnd? n cs with
  | case1 => cases h
  | case2 n cs =>
    cases h
    simp only [List.length_cons]
    omega
  | case3 n c cs _ ih =>
    have := ih h
    simp only [List.length_cons]
    omega

theorem stringEnd?_length_lt {quote : Char} {n : Nat} {cs : List Char} {d : Cursor}
    (h : stringEnd? quote n cs = some d) : d.rest.length < cs.length := by
  fun_induction stringEnd? quote n cs with
  | case1 | case3 => cases h
  | case2 n cs =>
    cases h
    simp
  | case4 n x xs _ ih =>
    have := ih h
    simp only [List.length_cons]
    omega
  | case5 n c cs _ _ ih =>
    have := ih h
    simp only [List.length_cons]
    omega

/-- What is not closed in the old text is not closed in the new one. -/
structure Seamless (old new : List Char) : Prop where
  block : ∀ n n', blockEnd? n old = none → blockEnd? n' new = none
  string : ∀ quote n n', isQuote quote = true → stringEnd? quote n old = none →
    stringEnd? quote n' new = none

/-- The text does not end in the middle of an escape or of the mark that closes a comment. -/
structure Settled (a : List Char) : Prop where
  star : a.getLast? ≠ some '*'
  backslash : a.getLast? ≠ some '\\'

theorem Settled.of_append {a b : List Char} (h : Settled (a ++ b)) : Settled b := by
  cases b with
  | nil => exact ⟨by simp, by simp⟩
  | cons x xs => exact ⟨by simpa using h.star, by simpa using h.backslash⟩

theorem settled_append_singleton (a : List Char) {x : Char} (hstar : x ≠ '*') (hb : x ≠ '\\') :
    Settled (a ++ [x]) := ⟨by simpa using hstar, by simpa using hb⟩

/-- The position when `new` comes in place of the final `old`. -/
def spliced (old new : List Char) (c : Cursor) : Cursor :=
  ⟨c.offset, c.rest.take (c.rest.length - old.length) ++ new⟩

section Spliced

variable {old new : List Char}

@[simp]
theorem spliced_append (n : Nat) (a : List Char) :
    spliced old new ⟨n, a ++ old⟩ = ⟨n, a ++ new⟩ := by
  simp [spliced]

theorem spliced_of_eq {c : Cursor} {a : List Char} (hc : c.rest = a ++ old) :
    spliced old new c = ⟨c.offset, a ++ new⟩ := by
  simp [spliced, hc]

/-- Behind a position there is still all of the old text. -/
def Ahead (old : List Char) (c : Cursor) : Prop := ∃ a, c.rest = a ++ old

theorem Ahead.length_le {c : Cursor} (h : Ahead old c) : old.length ≤ c.rest.length := by
  obtain ⟨a, ha⟩ := h
  simp [ha]

theorem Ahead.of_before {c d : Cursor} (h : Ahead old d) (hc : c.Before d) : Ahead old c := by
  obtain ⟨a, ha⟩ := h
  obtain ⟨cs, hcs, -⟩ := hc
  exact ⟨cs ++ a, by rw [hcs, ha, List.append_assoc]⟩

theorem Ahead.of_length_le {c d : Cursor} (h : Ahead old c) (hc : c.Before d)
    (hd : old.length ≤ d.rest.length) : Ahead old d := by
  obtain ⟨a, ha⟩ := h
  obtain ⟨cs, hcs, -⟩ := hc
  rcases List.append_eq_append_iff.1 (hcs.symm.trans ha) with ⟨bs, hb, hrest⟩ | ⟨bs, hb, hrest⟩
  · exact ⟨bs, hrest⟩
  · refine ⟨[], ?_⟩
    have hlen := congrArg List.length hrest
    simp only [List.length_append] at hlen
    obtain rfl : bs = [] := List.length_eq_zero_iff.1 (by omega)
    simpa using hrest.symm

theorem passes_spliced {c d : Cursor} {cs : List Char} (h : c.Passes cs d) (hd : Ahead old d) :
    (spliced old new c).Passes cs (spliced old new d) := by
  obtain ⟨a, ha⟩ := hd
  obtain ⟨hrest, hoff⟩ := h
  have hc : c.rest = (cs ++ a) ++ old := by rw [hrest, ha, List.append_assoc]
  rw [spliced_of_eq ha, spliced_of_eq hc]
  exact ⟨by simp, hoff⟩

theorem trivium?_slash (n : Nat) (y : Char) (ys : List Char) :
    trivium? ⟨n, '/' :: y :: ys⟩ =
      if y = '/' then some (lineEnd (n + 2) ys)
      else if y = '*' then blockEnd? (n + 2) ys
      else none := by
  by_cases hslash : y = '/'
  · subst hslash
    simp [trivium?]
  · by_cases hstar : y = '*'
    · subst hstar
      simp [trivium?]
    · rw [trivium?]
      · simp [hslash, hstar, isSpace]
      · intro cs _ hcs
        exact hslash (List.cons.inj hcs).1
      · intro cs _ hcs
        exact hstar (List.cons.inj hcs).1

/-- A line comment that ends in front of the old text stays. It ends right there only if the line
does. -/
theorem lineEnd_spliced {n : Nat} {a : List Char} (hd : Ahead old (lineEnd n (a ++ old)))
    (hline : old.length < (lineEnd n (a ++ old)).rest.length ∨
      ∃ x xs, old = x :: xs ∧ isLineEnd x = false) :
    lineEnd n (a ++ new) = spliced old new (lineEnd n (a ++ old)) := by
  have hle := hd.length_le
  by_cases hrest : (lineEnd n a).rest = []
  · exfalso
    rw [lineEnd_append, if_pos hrest] at hline hle
    rcases hline with hline | ⟨x, xs, rfl, hx⟩
    · have := lineEnd_length_le (n + Text.byteLength a) old
      omega
    · rw [lineEnd, if_neg (by simp [hx]), List.length_cons] at hle
      have := lineEnd_length_le (n + Text.byteLength a + x.utf8Size) xs
      omega
  · rw [lineEnd_append, if_neg hrest, lineEnd_append, if_neg hrest, spliced_append]

theorem blockEnd?_spliced {n : Nat} {a : List Char} {d : Cursor} (ha : Settled a)
    (h : blockEnd? n (a ++ old) = some d) (hd : old.length ≤ d.rest.length) :
    blockEnd? n (a ++ new) = some (spliced old new d) := by
  rw [blockEnd?_append _ _ ha.star] at h ⊢
  cases hend : blockEnd? n a with
  | some e =>
    simp only [hend, Option.some.injEq] at h
    rw [← h, spliced_append]
  | none =>
    simp only [hend] at h
    have := blockEnd?_length_lt h
    omega

/-- A comment of which only the first slash stands in front of a text reaches into the text. -/
theorem trivium?_slash_length_lt {n : Nat} {cs : List Char} {d : Cursor}
    (h : trivium? ⟨n, '/' :: cs⟩ = some d) : d.rest.length < cs.length := by
  cases cs with
  | nil => simp [trivium?, isSpace] at h
  | cons y ys =>
    rw [trivium?_slash] at h
    split at h
    · cases h
      exact Nat.lt_succ_of_le (lineEnd_length_le (n + 2) ys)
    · split at h
      · exact Nat.lt_succ_of_lt (blockEnd?_length_lt h)
      · cases h

/-- A piece of padding stays if it ends in front of the old text. A line comment ends there only if
the line does. -/
theorem trivium?_spliced {c d : Cursor} {a : List Char} (h : trivium? c = some d)
    (hc : c.rest = a ++ old) (ha : Settled a) (hd : Ahead old d)
    (hline : old.length < d.rest.length ∨ ∃ x xs, old = x :: xs ∧ isLineEnd x = false) :
    trivium? (spliced old new c) = some (spliced old new d) := by
  obtain ⟨n, cs⟩ := c
  simp only at hc
  subst hc
  rw [spliced_append]
  have hle := hd.length_le
  cases a with
  | nil =>
    have hlt := trivium?_length_lt h
    simp only [List.nil_append] at hlt
    omega
  | cons x a =>
    by_cases hx : x = '/'
    · subst hx
      cases a with
      | nil =>
        have hlt : d.rest.length < old.length := trivium?_slash_length_lt h
        omega
      | cons y a =>
        have ha' : Settled a := ha.of_append (a := ['/', y])
        simp only [List.cons_append, trivium?_slash] at h ⊢
        by_cases hy : y = '/'
        · rw [if_pos hy, Option.some.injEq] at h
          subst h
          rw [if_pos hy, lineEnd_spliced hd hline]
        · rw [if_neg hy] at h ⊢
          by_cases hstar : y = '*'
          · rw [if_pos hstar] at h ⊢
            exact blockEnd?_spliced ha' h hle
          · rw [if_neg hstar] at h
            cases h
    · cases hspace : isSpace x with
      | false =>
        rw [trivium?_eq_none rfl hx hspace] at h
        cases h
      | true =>
        rw [List.cons_append, trivium?_of_isSpace rfl hspace] at h ⊢
        cases h
        rw [spliced_append]

/-- Where no padding starts there is none after the splice either, unless a comment that was left
open is now closed in the new text. -/
theorem trivium?_spliced_of_none {c : Cursor} {x : Char} {a : List Char} (h : trivium? c = none)
    (hc : c.rest = x :: a ++ old) (ha : Settled (x :: a)) (hx : x = '/' → a ≠ []) :
    trivium? (spliced old new c) = none ∨
      ['/', '*'] <+: x :: a ∧ blockEnd? (c.offset + Text.byteLength (x :: a)) old = none ∧
        trivium? (spliced old new c) = blockEnd? (c.offset + Text.byteLength (x :: a)) new := by
  obtain ⟨n, cs⟩ := c
  simp only at hc
  subst hc
  rw [spliced_append]
  by_cases hslash : x = '/'
  · subst hslash
    cases a with
    | nil => exact absurd rfl (hx rfl)
    | cons y a =>
      simp only [List.cons_append, trivium?_slash] at h ⊢
      by_cases hy : y = '/'
      · simp [hy] at h
      · rw [if_neg hy] at h ⊢
        by_cases hstar : y = '*'
        · subst hstar
          have ha' : Settled a := ha.of_append (a := ['/', '*'])
          have hoff : n + Text.byteLength ('/' :: '*' :: a) = n + 2 + Text.byteLength a := by
            have hslash : '/'.utf8Size = 1 := rfl
            have hstar : '*'.utf8Size = 1 := rfl
            simp only [Text.byteLength_cons, hslash, hstar]
            omega
          rw [if_pos rfl, blockEnd?_append _ _ ha'.star] at h ⊢
          rw [hoff]
          cases hend : blockEnd? (n + 2) a with
          | some e => simp [hend] at h
          | none =>
            simp only [hend] at h
            exact .inr ⟨⟨a, rfl⟩, h, rfl⟩
        · exact .inl (if_neg hstar)
  · cases hspace : isSpace x with
    | true =>
      rw [trivium?_of_isSpace rfl hspace] at h
      cases h
    | false => exact .inl (trivium?_eq_none rfl hslash hspace)

theorem trivium?_spliced_none {c : Cursor} {x : Char} {a : List Char} (h : trivium? c = none)
    (hc : c.rest = x :: a ++ old) (ha : Settled (x :: a)) (hseam : Seamless old new)
    (hx : x = '/' → a ≠ []) : trivium? (spliced old new c) = none := by
  rcases trivium?_spliced_of_none h hc ha hx with hnone | ⟨-, hold, hnew⟩
  · exact hnone
  · rw [hnew]
    exact hseam.block _ _ hold

theorem string?_spliced {c : Cursor} {a : List Char} (hc : c.rest = a ++ old) (hne : a ≠ [])
    (ha : Settled a)
    (hopen : ∀ quote n n', isQuote quote = true → stringEnd? quote n old = none →
      stringEnd? quote n' new = none)
    (hend : ∀ d, string? c = some d → old.length ≤ d.rest.length) :
    string? (spliced old new c) = (string? c).map (spliced old new) := by
  obtain ⟨n, cs⟩ := c
  simp only at hc
  subst hc
  rw [spliced_append]
  cases a with
  | nil => exact absurd rfl hne
  | cons x a =>
    have ha' : Settled a := ha.of_append (a := [x])
    simp only [List.cons_append, string?] at hend ⊢
    cases hq : isQuote x with
    | false => simp
    | true =>
      simp only [hq, ↓reduceIte, stringEnd?_append _ _ ha'.backslash] at hend ⊢
      cases hs : stringEnd? x (n + x.utf8Size) a with
      | some d => simp
      | none =>
        simp only [hs] at hend ⊢
        cases hold : stringEnd? x (n + x.utf8Size + Text.byteLength a) old with
        | none => simpa using hopen x _ _ hq hold
        | some d =>
          have hle := hend d hold
          have hlt := stringEnd?_length_lt hold
          omega

/-- Lexemes in front of the old text stay as they are. -/
theorem agrees_spliced {c : Cursor} {x : Char} {a : List Char} (hc : c.rest = x :: a ++ old)
    (ha : Settled (x :: a)) (hseam : Seamless old new) (hx : x = '/' → a ≠ [])
    (htrivium : ∀ d, trivium? c = some d → Ahead old d ∧ old.length < d.rest.length)
    (hstring : ∀ d, string? c = some d → old.length ≤ d.rest.length) :
    Agrees (spliced old new) c where
  trivium := by
    cases h : trivium? c with
    | none => rw [trivium?_spliced_none h hc ha hseam hx, Option.map_none]
    | some d =>
      obtain ⟨hahead, hlt⟩ := htrivium d h
      rw [trivium?_spliced h hc ha hahead (.inl hlt), Option.map_some]
  string := string?_spliced hc (by simp) ha hseam.string hstring
  char accept := by
    obtain ⟨n, cs⟩ := c
    simp only at hc
    subst hc
    rw [spliced_append]
    by_cases hx : accept x = true <;> simp [Cursor.char?, hx]

/-- In front of the old text a scan stays in step if it ends at a single character there. -/
theorem inStep_spliced_of_end {b : Border} {closers closers' : List Char} {c e : Cursor} {x : Char}
    {xs : List Char} (hscan : Scans b (closers, c) (closers', e))
    (hstuck : advance b (closers', e) = none) (he : e.rest = x :: xs) (hslash : x ≠ '/')
    (hspace : isSpace x = false) (hquote : isQuote x = false) (hxs : old.length ≤ xs.length)
    {a : List Char} (hc : c.rest = a ++ old) (ha : Settled a) (hseam : Seamless old new) :
    InStep (spliced old new) b closers c := by
  intro closers₁ c₁ hscan₁
  have hend := hscan₁.to_end hscan hstuck
  obtain ⟨cs, hcs, -⟩ := hscan₁.before
  obtain ⟨a₁, ha₁⟩ : Ahead old c₁ := by
    refine Ahead.of_length_le ⟨a, hc⟩ hscan₁.before ?_
    have := hend.before.length_le
    simp only [he, List.length_cons] at this
    omega
  have hsettled : Settled a₁ := by
    have : a = cs ++ a₁ := by
      refine (List.append_left_inj old).1 ?_
      rw [← hc, hcs, ha₁, List.append_assoc]
    exact (this ▸ ha).of_append
  have hlen := congrArg List.length ha₁
  simp only [List.length_append] at hlen
  rcases Relation.ReflTransGen.cases_head hend with heq | ⟨⟨closers₂, c₂⟩, hstep, hrest⟩
  · -- at the end itself
    cases heq
    obtain ⟨a', rfl⟩ : ∃ a', a₁ = x :: a' := by
      cases a₁ with
      | nil =>
        simp only [he, List.length_cons, List.length_nil] at hlen
        omega
      | cons y a' =>
        rw [he, List.cons_append, List.cons.injEq] at ha₁
        exact ⟨a', by rw [ha₁.1]⟩
    have htrivium : trivium? e = none := trivium?_eq_none he hslash hspace
    have hstring : string? e = none := string?_eq_none he hquote
    refine agrees_spliced ha₁ hsettled hseam (fun h => absurd h hslash) ?_ ?_
    · intro d hd
      simp [htrivium] at hd
    · intro d hd
      simp [hstring] at hd
  · have hbefore := Scans.before hrest
    have hle := hbefore.length_le
    obtain ⟨y, ys, hp⟩ := advance_passes hstep
    have hp' := congrArg List.length hp.1
    simp only [he, List.length_cons, List.length_append] at hle hp'
    obtain ⟨z, a', rfl⟩ : ∃ z a', a₁ = z :: a' := by
      cases a₁ with
      | nil =>
        simp only [List.length_nil] at hlen
        omega
      | cons z a' => exact ⟨z, a', rfl⟩
    refine agrees_spliced ha₁ hsettled hseam ?_ ?_ ?_
    · rintro - rfl
      simp only [List.length_cons, List.length_nil] at hlen
      omega
    · intro d hd
      cases hstep.symm.trans (advance_trivium hd)
      exact ⟨Ahead.of_length_le ⟨_, ha₁⟩ ⟨_, hp⟩ (by omega), by omega⟩
    · intro d hd
      cases hstep.symm.trans (advance_string hd)
      omega

/-- In front of the old text a scan up to a border stays in step. -/
theorem inStep_spliced {b : Border} {closers closers' : List Char} {c e : Cursor} {x : Char}
    {xs : List Char} (hscan : Scans b (closers, c) (closers', e)) (hstop : b.stops closers' x = true)
    (he : e.rest = x :: xs) (hxs : old.length ≤ xs.length) {a : List Char} (hc : c.rest = a ++ old)
    (ha : Settled a) (hseam : Seamless old new) : InStep (spliced old new) b closers c := by
  obtain ⟨hslash, hspace, hquote⟩ : x ≠ '/' ∧ isSpace x = false ∧ isQuote x = false := by
    rcases Border.stops_head hstop with rfl | rfl | rfl <;> decide
  exact inStep_spliced_of_end hscan (advance_border he hstop) he hslash hspace hquote hxs hc ha hseam

theorem skip_spliced {c : Cursor} {a : List Char} (hc : c.rest = a ++ old) (ha : Settled a)
    (hp : Ahead old (skip c))
    (hline : old.length < (skip c).rest.length ∨ ∃ x xs, old = x :: xs ∧ isLineEnd x = false) :
    skip (spliced old new c) = skip (spliced old new (skip c)) := by
  induction c using skip_induction generalizing a with
  | stop c h => rw [skip_of_none h]
  | step c d h ih =>
    rw [skip_of_some h] at hp hline ⊢
    obtain ⟨a', ha'⟩ := hp.of_before (skip_passes d)
    have hsettled : Settled a' := by
      obtain ⟨x, xs, hrest, -⟩ := trivium?_passes h
      have : a = x :: xs ++ a' := by
        refine (List.append_left_inj old).1 ?_
        rw [← hc, hrest, ha', List.append_assoc]
      exact (this ▸ ha).of_append
    have hd : old.length < d.rest.length ∨ ∃ x xs, old = x :: xs ∧ isLineEnd x = false := by
      refine hline.imp_left fun hlt => ?_
      obtain ⟨cs, hcs⟩ := skip_passes d
      exact Nat.lt_of_lt_of_le hlt hcs.length_le
    rw [skip_of_some (trivium?_spliced h hc ha ⟨a', ha'⟩ hd)]
    exact ih ha' hsettled hp hline

end Spliced

end SolidityStubs.Source
