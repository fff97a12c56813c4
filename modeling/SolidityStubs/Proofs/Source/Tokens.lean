import Mathlib.Data.List.Forall2
import SolidityStubs.Proofs.Source.Layout

/-! # Reading tokens

A text made of tokens with single spaces between them is read token by token. `Reads` says that an
expression takes the first tokens of such a text and leaves nodes of given kinds, and `Refuses` that
it does not match there. Both are put together along the expression.
-/
namespace SolidityStubs.Source

open Peg

def behind (ts : List String) : List Char := ts.flatMap fun t => ' ' :: t.toList

def spread : List String → List Char
  | [] => []
  | t :: ts => t.toList ++ behind ts

theorem toList_intercalate_cons (separator t : String) (ts : List String) :
    (separator.intercalate (t :: ts)).toList =
      t.toList ++ ts.flatMap fun u => separator.toList ++ u.toList := by
  induction ts generalizing t with
  | nil => simp
  | cons u us ih =>
    rw [String.intercalate_cons_cons, String.toList_append, String.toList_append, ih u]
    simp

theorem toList_intercalate_space (ts : List String) : (" ".intercalate ts).toList = spread ts := by
  cases ts with
  | nil => rfl
  | cons t ts => exact toList_intercalate_cons " " t ts

theorem spread_append {us : List String} (ts : List String) (h : us ≠ []) :
    spread (us ++ ts) = spread us ++ behind ts := by
  cases us with
  | nil => exact absurd rfl h
  | cons u us => simp [spread, behind]

/-- A token that padding cannot swallow. -/
def Solid (t : String) : Prop := t.toList.head?.any (fun x => ! isSpace x && x != '/') = true

instance (t : String) : Decidable (Solid t) := inferInstanceAs (Decidable (_ = true))

theorem solid_iff {t : String} :
    Solid t ↔ ∃ x xs, t.toList = x :: xs ∧ isSpace x = false ∧ x ≠ '/' := by
  unfold Solid
  cases t.toList <;> simp

structure At (ts : List String) (c : Cursor) : Prop where
  rest : c.rest = spread ts
  solid : ∀ t ∈ ts, Solid t

/-- The position at the start of the given tokens or right in front of the space before them. -/
structure Near (ts : List String) (c : Cursor) : Prop where
  rest : c.rest = spread ts ∨ c.rest = behind ts
  solid : ∀ t ∈ ts, Solid t

section Positions

variable {t : String} {ts : List String} {c d : Cursor}

theorem At.near (h : At ts c) : Near ts c := ⟨.inl h.rest, h.solid⟩

theorem At.trivium (h : At ts c) : trivium? c = none := by
  obtain ⟨n, cs⟩ := c
  have hrest := h.rest
  cases ts with
  | nil =>
    simp only [spread] at hrest
    rw [hrest]
    rfl
  | cons t ts =>
    obtain ⟨x, xs, ht, hspace, hslash⟩ := solid_iff.1 (h.solid t (by simp))
    have hhead : Cursor.rest ⟨n, cs⟩ = x :: (xs ++ behind ts) := by simpa [spread, ht] using hrest
    exact trivium?_eq_none hhead hslash hspace

theorem At.skip (h : At ts c) : Source.skip c = c := skip_of_none h.trivium

theorem Near.skip (h : Near ts c) : At ts (Source.skip c) := by
  rcases h.rest with hrest | hrest
  · have hat : At ts c := ⟨hrest, h.solid⟩
    rwa [hat.skip]
  · cases ts with
    | nil =>
      have hat : At [] c := ⟨hrest, h.solid⟩
      rwa [hat.skip]
    | cons t ts =>
      have hspace : trivium? c = some ⟨c.offset + 1, spread (t :: ts)⟩ :=
        trivium?_of_isSpace (x := ' ') hrest rfl
      have hat : At (t :: ts) ⟨c.offset + 1, spread (t :: ts)⟩ := ⟨rfl, h.solid⟩
      rwa [skip_of_some hspace, hat.skip]

theorem At.next (h : At (t :: ts) c) :
    c.Passes t.toList ⟨c.offset + Text.byteLength t.toList, behind ts⟩ ∧
      Near ts ⟨c.offset + Text.byteLength t.toList, behind ts⟩ :=
  ⟨⟨h.rest, rfl⟩, .inr rfl, fun u hu => h.solid u (List.mem_cons_of_mem t hu)⟩

theorem char?_behind (n : Nat) (ts : List String) :
    Cursor.char? isIdentifierChar ⟨n, behind ts⟩ = none := by
  cases ts <;> rfl

def wordOf (t : String) : List Char := t.toList.takeWhile isIdentifierChar

theorem At.wordAt (h : At (t :: ts) c) : wordAt c = wordOf t := by
  have hbehind : (behind ts).takeWhile isIdentifierChar = [] := by
    cases ts <;> rfl
  rw [Source.wordAt, h.rest, spread, List.takeWhile_append, hbehind]
  split
  · rename_i hlength
    rw [List.append_nil, wordOf, (List.takeWhile_prefix _).eq_of_length hlength]
  · rfl

theorem At.head (h : At (t :: ts) c) {x : Char} {xs : List Char} (ht : t.toList = x :: xs) :
    c.rest = x :: (xs ++ behind ts) := by
  simp [h.rest, spread, ht]

end Positions

/-- At the tokens `ts` the expression takes those in front of `ts'` and leaves nodes of the given
kinds. -/
def Reads (e : Expr Rule) (ts ts' : List String) (kinds : List (Tree → Prop)) : Prop :=
  ∀ c, At ts c → ∃ d ns, Takes grammar .spaced e c d ns ∧ Near ts' d ∧
    List.Forall₂ (fun n kind => kind n) ns kinds

def Refuses (e : Expr Rule) (ts : List String) : Prop :=
  ∀ c, At ts c → Fails grammar .spaced e c

section Combining

variable {a b e : Expr Rule} {r : Rule} {t : String} {ts ts' ts'' : List String}
  {kinds kinds' : List (Tree → Prop)}

theorem Reads.imp {kind kind' : Tree → Prop} (h : Reads e ts ts' [kind])
    (hkind : ∀ n, kind n → kind' n) : Reads e ts ts' [kind'] := by
  intro c hc
  obtain ⟨d, ns, ht, hd, hns⟩ := h c hc
  obtain _ | ⟨hn, hns⟩ := hns
  exact ⟨d, _, ht, hd, .cons (hkind _ hn) hns⟩

theorem Reads.seq (ha : Reads a ts ts' kinds) (hb : Reads b ts' ts'' kinds') :
    Reads (.seq a b) ts ts'' (kinds ++ kinds') := by
  intro c hc
  obtain ⟨d, as, hta, hd, has⟩ := ha c hc
  obtain ⟨f, bs, htb, hf, hbs⟩ := hb (skip d) hd.skip
  exact ⟨f, as ++ bs, .seq hta htb, hf, List.rel_append has hbs⟩

theorem Refuses.seq (ha : Refuses a ts) : Refuses (.seq a b) ts :=
  fun c hc => .seqFirst (ha c hc)

theorem Reads.choiceLeft (ha : Reads a ts ts' kinds) : Reads (.choice a b) ts ts' kinds := by
  intro c hc
  obtain ⟨d, ns, ht, hd, hns⟩ := ha c hc
  exact ⟨d, ns, .choiceLeft ht, hd, hns⟩

theorem Reads.choiceRight (ha : Refuses a ts) (hb : Reads b ts ts' kinds) :
    Reads (.choice a b) ts ts' kinds := by
  intro c hc
  obtain ⟨d, ns, ht, hd, hns⟩ := hb c hc
  exact ⟨d, ns, .choiceRight (ha c hc) ht, hd, hns⟩

theorem Refuses.choice (ha : Refuses a ts) (hb : Refuses b ts) : Refuses (.choice a b) ts :=
  fun c hc => .choiceRight (ha c hc) (hb c hc)

theorem Reads.maybe (ha : Reads a ts ts' kinds) : Reads (.maybe a) ts ts' kinds := by
  intro c hc
  obtain ⟨d, ns, ht, hd, hns⟩ := ha c hc
  exact ⟨d, ns, .maybe ht, hd, hns⟩

theorem Refuses.maybe (ha : Refuses a ts) : Reads (.maybe a) ts ts [] :=
  fun c hc => ⟨c, [], .maybeNot (ha c hc), hc.near, .nil⟩

theorem Refuses.many (ha : Refuses a ts) : Reads (.many a) ts ts [] :=
  fun c hc => ⟨c, [], .manyNot (ha c hc), hc.near, .nil⟩

/-- A repetition takes one group of tokens after the other and stops where none follows. What may
follow a group is up to `Follow`. -/
theorem Reads.many {α : Type} (Follow : List String → Prop) {group : α → List String}
    {kind : α → Tree → Prop} {xs : List α}
    (hread : ∀ x ∈ xs, ∀ us, Follow us → Reads a (group x ++ us) us [kind x])
    (hfollow : ∀ x ∈ xs, ∀ us, Follow (group x ++ us)) (hts : Follow ts) (hend : Refuses a ts) :
    Reads (.many a) (xs.flatMap group ++ ts) ts (xs.map kind) := by
  -- the row of steps, from a position that may still have a space in front
  have hsteps : ∀ c, Near (xs.flatMap group ++ ts) c →
      ∃ d ns, Steps grammar a c ns d ∧ Near ts d ∧
        List.Forall₂ (fun n kind => kind n) ns (xs.map kind) := by
    induction xs with
    | nil => exact fun c hc => ⟨c, [], .nil c, hc, .nil⟩
    | cons x xs ih =>
      intro c hc
      rw [List.flatMap_cons, List.append_assoc] at hc
      have hus : Follow (xs.flatMap group ++ ts) := by
        cases xs with
        | nil => exact hts
        | cons y ys =>
          rw [List.flatMap_cons, List.append_assoc]
          exact hfollow y (by simp) _
      obtain ⟨d, ns, ht, hd, hns⟩ := hread x (by simp) _ hus (skip c) hc.skip
      obtain ⟨f, ms, hs, hf, hms⟩ := ih (fun y hy => hread y (List.mem_cons_of_mem x hy))
        (fun y hy => hfollow y (List.mem_cons_of_mem x hy)) d hd
      exact ⟨f, ns ++ ms, .cons ht hs, hf, List.rel_append hns hms⟩
  intro c hc
  obtain ⟨d, ns, hs, hd, hns⟩ := hsteps c hc.near
  exact ⟨d, ns, (takes_many_iff hc.skip).2 ⟨hs, hend _ hd.skip⟩, hd, hns⟩

theorem Reads.rule {kind : Tree → Prop} (hr : (production r).shape = .structured)
    (hbody : Reads (production r).body ts ts' kinds)
    (hkind : ∀ c d ns, At ts c → Near ts' d → c.Before d →
      List.Forall₂ (fun n kind => kind n) ns kinds → kind ⟨r, c, d, ns⟩) :
    Reads (.rule r) ts ts' [kind] := by
  intro c hc
  obtain ⟨d, ns, ht, hd, hns⟩ := hbody c hc
  have hshape : (grammar.production r).shape = .structured := hr
  refine ⟨d, [⟨r, c, d, ns⟩], (takes_rule_iff (by simp [hshape])).2 ⟨ns, ?_, rfl⟩, hd,
    .cons (hkind c d ns hc hd (ht.passes grammar_bounded.skips) hns) .nil⟩
  rw [hshape]
  exact ht

theorem Refuses.rule (hr : (production r).shape = .structured) (h : Refuses (production r).body ts) :
    Refuses (.rule r) ts := by
  intro c hc
  have hshape : (grammar.production r).shape = .structured := hr
  refine .ruleFail ?_
  rw [hshape]
  exact h c hc

/-- A rule cannot be read where another word stands than it starts with. -/
theorem refuses_of_wordOf (hr : leadingWords r ≠ [])
    (ht : wordOf t ∉ (leadingWords r).map String.toList) : Refuses (.rule r) (t :: ts) := by
  intro c hc
  obtain ⟨x, hx⟩ := exists_yields r c
  cases x with
  | none => exact hx
  | some p => exact absurd (hc.wordAt ▸ wordAt_of_takes hr hx) ht

theorem reads_text : Reads (.text t.toList) (t :: ts) ts [] := by
  intro c hc
  obtain ⟨hpass, hnear⟩ := hc.next
  exact ⟨_, [], takes_text_iff.2 ⟨hpass, rfl⟩, hnear, .nil⟩

theorem refuses_text {x y : Char} {xs cs : List Char} (ht : t.toList = x :: xs) (hxy : y ≠ x) :
    Refuses (.text (y :: cs)) (t :: ts) := by
  intro c hc
  refine .textFail ?_
  obtain ⟨n, rest⟩ := c
  have hrest : rest = x :: (xs ++ behind ts) := hc.head ht
  simp [hrest, Cursor.text?, hxy]

def IsLeaf (r : Rule) (t : String) (n : Tree) : Prop := n.rule = r ∧ n.string = t

theorem reads_leaf (hr : (production r).shape = .atomic)
    (h : ∀ c d, c.Passes t.toList d → d.rest = behind ts →
      Takes grammar .tight (production r).body c d []) : Reads (.rule r) (t :: ts) ts [IsLeaf r t] := by
  intro c hc
  obtain ⟨hpass, hnear⟩ := hc.next
  have hshape : (grammar.production r).shape = .atomic := hr
  refine ⟨_, [⟨r, c, _, []⟩], (takes_rule_iff (by simp [hshape])).2 ⟨[], ?_, rfl⟩, hnear,
    .cons ⟨rfl, ?_⟩ .nil⟩
  · rw [hshape]
    exact h c _ hpass rfl
  · simp [Node.string, Node.text, hpass.upTo]

theorem reads_keyword (k : Keyword) :
    Reads (word k) (k.spelling :: ts) ts [IsLeaf (.keyword k) k.spelling] := by
  refine reads_leaf rfl fun c d hpass hd => ?_
  have hend : Takes grammar .tight wordEnd d d [] := by
    obtain ⟨n, rest⟩ := d
    simp only at hd
    subst hd
    exact .never (.charFail (char?_behind n ts))
  exact Takes.seq_nil (takes_text_iff.2 ⟨hpass, rfl⟩) hend

theorem refuses_keyword {k : Keyword} (ht : wordOf t ≠ k.spelling.toList) :
    Refuses (word k) (t :: ts) :=
  refuses_of_wordOf (by simp [leadingWords]) (by simpa [leadingWords] using ht)

end Combining

end SolidityStubs.Source
