import SolidityStubs.Proofs.Source.Groups
import SolidityStubs.Proofs.Source.Taken
import SolidityStubs.Proofs.Text.Renaming

/-! # Reading renamed text

Parameters and types are read token by token, and renaming replaces tokens one by one. A name stays a
name, and a word of the grammar neither comes nor goes; comments, strings and brackets stay where they
are. So what is read of a text is read of the renamed text, and what does not match does not match
there either.
-/
namespace SolidityStubs.Source

open Peg

/-- The words that parameters and types are told by, and the word in front of them. -/
def headWords : List String :=
  ["function", "mapping", "address", "payable", "memory", "storage", "calldata", "indexed"]

/-- Names whose replacement leaves the grammar alone. -/
structure Replaceable (names : List (List Char)) : Prop where
  isIdentifier : ∀ name ∈ names, isIdentifier name = true
  not_headWord : ∀ w ∈ headWords, w.toList ∉ names

variable {names : List (List Char)} {c c' d : Cursor} {cs rest : List Char} {m : Mode}
  {x : Reading Rule}

def restOf (x : Reading Rule) : Option (List Char) := x.map (·.1.rest)

/-- At a position with the renamed text the task ends as the reading does. -/
def Follows (names : List (List Char)) (m : Mode) (t : Peg.Task Rule) (c' : Cursor)
    (x : Reading Rule) : Prop :=
  ∃ x', Yields grammar m t c' x' ∧ restOf x' = (restOf x).map (rename names)

theorem follows_some_iff {t : Peg.Task Rule} {ns : List Tree} :
    Follows names m t c' (some (d, ns)) ↔
      ∃ d' ns', Yields grammar m t c' (some (d', ns')) ∧ d'.rest = rename names d.rest := by
  constructor
  · rintro ⟨x', hx', hrest⟩
    cases x' with
    | none => cases hrest
    | some p => exact ⟨p.1, p.2, hx', Option.some.inj hrest⟩
  · rintro ⟨d', ns', hd', hrest⟩
    exact ⟨_, hd', congrArg some hrest⟩

theorem follows_none_iff {t : Peg.Task Rule} :
    Follows names m t c' none ↔ Yields grammar m t c' none := by
  constructor
  · rintro ⟨x', hx', hrest⟩
    cases x' with
    | none => exact hx'
    | some p => cases hrest
  · exact fun h => ⟨none, h, rfl⟩

theorem follows_rule {r : Rule} {y : Reading Rule}
    (h : Follows names (m.enter (production r).shape) (.once (production r).body) c' y)
    (hx : restOf x = restOf y) : Follows names m (.once (.rule r)) c' x := by
  obtain ⟨y', hy', hrest⟩ := h
  rw [← hx] at hrest
  cases y' with
  | none => exact ⟨none, .ruleFail hy', hrest⟩
  | some p =>
    cases hs : m.shows (production r).shape with
    | true => exact ⟨_, .ruleShown hs hy', hrest⟩
    | false => exact ⟨_, .ruleHidden hs hy', hrest⟩

theorem follows_of_body {r : Rule}
    (hbody : ∀ y, Yields grammar (m.enter (production r).shape) (.once (production r).body) c y →
      Follows names (m.enter (production r).shape) (.once (production r).body) c' y)
    (h : Yields grammar m (.once (.rule r)) c x) : Follows names m (.once (.rule r)) c' x := by
  cases h with
  | ruleShown _ hb => exact follows_rule (hbody _ hb) rfl
  | ruleHidden _ hb => exact follows_rule (hbody _ hb) rfl
  | ruleFail hb => exact follows_rule (hbody _ hb) rfl

section Positions

variable (hnames : ∀ name ∈ names, isIdentifier name = true)

include hnames

theorem endsRun_rename (h : EndsRun rest) : EndsRun (rename names rest) := by
  cases rest with
  | nil => rwa [rename_nil]
  | cons y ys =>
    rw [SolidityStubs.rename, renameFrom_of_not_start hnames (not_start_of_endsRun h)]
    exact h

theorem lineEnd_renameFrom {before : Option Char} (n n' k : Nat)
    (hk : (cs.take k).all isIdentifierChar = true) :
    (lineEnd n' (renameFrom names before k cs)).rest = rename names (lineEnd n cs).rest := by
  induction cs generalizing before n n' k with
  | nil => simp [renameFrom, Text.replaceFrom, lineEnd, rename]
  | cons x xs ih =>
    cases k with
    | succ k =>
      simp only [List.take_succ_cons, List.all_cons, Bool.and_eq_true] at hk
      rw [renameFrom_succ, lineEnd, if_neg (by simp [isLineEnd_of_isIdentifierChar hk.1])]
      exact ih _ n' k hk.2
    | zero =>
      cases hfind : names.find? (Text.standsAt before (x :: xs)) with
      | none =>
        rw [renameFrom_none hfind, lineEnd, lineEnd]
        by_cases hx : isLineEnd x = true
        · have hmark := isMark_of_isSpace (isSpace_of_isLineEnd hx)
          rw [if_pos hx, if_pos hx, rename_cons_mark hnames hmark,
            renameFrom_before (isMark_iff.1 hmark).2]
        · rw [if_neg hx, if_neg hx]
          exact ih _ _ 0 rfl
      | some name =>
        obtain ⟨hx, htake⟩ := take_of_standsAt hnames (List.mem_of_find?_eq_some hfind)
          (List.find?_some hfind)
        have hnew : (lineEnd n' primitiveChars).rest = [] := rfl
        rw [renameFrom_some hfind, lineEnd_append, if_pos hnew, lineEnd,
          if_neg (by simp [isLineEnd_of_isIdentifierChar hx])]
        exact ih _ _ _ htake

theorem trivium?_slash_renamed (n n' : Nat) (xs : List Char) :
    (trivium? ⟨n', '/' :: rename names xs⟩).map Cursor.rest =
      (trivium? ⟨n, '/' :: xs⟩).map fun d => rename names d.rest := by
  cases xs with
  | nil => rw [rename_nil]; rfl
  | cons y ys =>
    have hmark : isMark '/' = true ∧ isMark '*' = true := by decide
    by_cases hslash : y = '/'
    · subst hslash
      rw [rename_cons_mark hnames hmark.1, trivium?_slash, trivium?_slash, if_pos rfl, if_pos rfl]
      simp only [Option.map_some, Option.some.injEq]
      exact lineEnd_renameFrom hnames (n + 2) (n' + 2) 0 rfl
    · by_cases hstar : y = '*'
      · subst hstar
        have hleave : Region.block.leave? (rename names ys) =
            (Region.block.leave? ys).map (rename names) :=
          leave?_renameFrom hnames 0 rfl rfl (.inl rfl)
        rw [rename_cons_mark hnames hmark.2, trivium?_slash, trivium?_slash, if_neg (by decide),
          if_pos rfl, if_neg (by decide), if_pos rfl, blockEnd?_rest, hleave,
          ← blockEnd?_rest (n + 2), Option.map_map]
        rfl
      · have hnone : ∀ (m : Nat) (z : Char) (zs : List Char), z ≠ '/' → z ≠ '*' →
            trivium? ⟨m, '/' :: z :: zs⟩ = none := by
          intro m z zs hz hz'
          rw [trivium?_slash, if_neg hz, if_neg hz']
        rw [hnone n y ys hslash hstar]
        rcases renameFrom_cons hnames none y ys with ⟨-, heq⟩ | ⟨-, z, zs, heq, hz⟩
        · rw [rename, heq, hnone n' y _ hslash hstar]
          rfl
        · have hne : z ≠ '/' ∧ z ≠ '*' := by constructor <;> rintro rfl <;> cases hz
          rw [rename, heq, hnone n' z zs hne.1 hne.2]
          rfl

theorem trivium?_renamed {before : Option Char} (hc : c'.rest = renameFrom names before 0 c.rest) :
    (trivium? c').map Cursor.rest = (trivium? c).map fun d => rename names d.rest := by
  obtain ⟨n, cs⟩ := c
  obtain ⟨n', cs'⟩ := c'
  simp only at hc
  subst hc
  cases cs with
  | nil => simp [renameFrom, Text.replaceFrom, trivium?]
  | cons x xs =>
    rcases renameFrom_cons hnames before x xs with ⟨-, heq⟩ | ⟨hstart, y, ys, heq, hy⟩
    · rw [heq]
      by_cases hslash : x = '/'
      · subst hslash
        rw [renameFrom_before (by decide)]
        exact trivium?_slash_renamed hnames n n' xs
      · cases hspace : isSpace x with
        | true =>
          rw [trivium?_of_isSpace rfl hspace, trivium?_of_isSpace rfl hspace,
            renameFrom_before (isMark_iff.1 (isMark_of_isSpace hspace)).2]
          rfl
        | false =>
          rw [trivium?_eq_none rfl hslash hspace, trivium?_eq_none rfl hslash hspace]
          rfl
    · obtain ⟨hslash, hspace⟩ := solid_of_isIdentifierStart hstart
      obtain ⟨hslash', hspace'⟩ := solid_of_isIdentifierStart hy
      rw [heq, trivium?_eq_none rfl hslash' hspace', trivium?_eq_none rfl hslash hspace]
      rfl

theorem string?_renamed {before : Option Char} (hc : c'.rest = renameFrom names before 0 c.rest) :
    (string? c').map Cursor.rest = (string? c).map fun d => rename names d.rest := by
  obtain ⟨n, cs⟩ := c
  obtain ⟨n', cs'⟩ := c'
  simp only at hc
  subst hc
  cases cs with
  | nil => simp [renameFrom, Text.replaceFrom, string?]
  | cons x xs =>
    have hquote : ∀ z, isIdentifierStart z = true → isQuote z = false := fun z hz =>
      isQuote_of_isIdentifierChar (isIdentifierChar_of_start hz)
    rcases renameFrom_cons hnames before x xs with ⟨-, heq⟩ | ⟨hstart, y, ys, heq, hy⟩
    · rw [heq]
      cases hx : isQuote x with
      | false =>
        rw [string?_eq_none rfl hx, string?_eq_none rfl hx]
        rfl
      | true =>
        have hinside : (Region.quoted x).isInside = true := hx
        have hleave : (Region.quoted x).leave? (renameFrom names (some x) 0 xs) =
            ((Region.quoted x).leave? xs).map (rename names) :=
          leave?_renameFrom hnames 0 rfl hinside (.inl rfl)
        rw [string?, if_pos hx, string?, if_pos hx, stringEnd?_rest, hleave,
          ← stringEnd?_rest (n + x.utf8Size), Option.map_map]
        rfl
    · rw [heq, string?_eq_none rfl (hquote y hy), string?_eq_none rfl (hquote x hstart)]
      rfl

theorem skip_renamed (hc : c'.rest = rename names c.rest) :
    (skip c').rest = rename names (skip c).rest := by
  induction c using skip_induction generalizing c' with
  | stop c h =>
    have hnone := trivium?_renamed hnames hc
    rw [h, Option.map_none, Option.map_eq_none_iff] at hnone
    rw [skip_of_none h, skip_of_none hnone, hc]
  | step c d h ih =>
    have hsome := trivium?_renamed hnames hc
    rw [h] at hsome
    obtain ⟨d', hd', hrest⟩ := Option.map_eq_some_iff.1 hsome
    rw [skip_of_some h, skip_of_some hd', ih hrest]

theorem skip_renamedFrom {before : Option Char} (hc : c'.rest = renameFrom names before 0 c.rest) :
    ∃ before', (skip c').rest = renameFrom names before' 0 (skip c).rest := by
  have htrivium := trivium?_renamed hnames hc
  cases h : trivium? c with
  | none =>
    rw [h, Option.map_none, Option.map_eq_none_iff] at htrivium
    exact ⟨before, by rw [skip_of_none h, skip_of_none htrivium, hc]⟩
  | some d =>
    rw [h] at htrivium
    obtain ⟨d', hd', hrest⟩ := Option.map_eq_some_iff.1 htrivium
    exact ⟨none, by rw [skip_of_some h, skip_of_some hd', skip_renamed hnames hrest, rename]⟩

theorem text?_renamed {ms : List Char} (hms : ms.all isMark = true)
    (hc : c'.rest = rename names c.rest) :
    (c'.text? ms).map Cursor.rest = ((c.text? ms).map Cursor.rest).map (rename names) := by
  induction ms generalizing c c' with
  | nil => simpa [Cursor.text?] using hc
  | cons y ys ih =>
    simp only [List.all_cons, Bool.and_eq_true] at hms
    obtain ⟨n, cs⟩ := c
    obtain ⟨n', cs'⟩ := c'
    simp only at hc
    subst hc
    cases cs with
    | nil =>
      rw [rename_nil]
      rfl
    | cons x xs =>
      by_cases hxy : y = x
      · subst hxy
        rw [rename_cons_mark hnames hms.1]
        simp only [Cursor.text?, beq_self_eq_true, ↓reduceIte]
        exact ih hms.2 rfl
      · have hnone : Cursor.text? (y :: ys) ⟨n', rename names (x :: xs)⟩ = none := by
          refine Option.eq_none_iff_forall_ne_some.2 fun e he => hxy ?_
          obtain ⟨zs, hzs, -⟩ := of_rename_eq_mark hnames hms.1 (Cursor.text?_passes he).1
          exact (List.cons.inj hzs).1.symm
        rw [hnone]
        simp [Cursor.text?, hxy]

end Positions

section Tokens

variable (hnames : ∀ name ∈ names, isIdentifier name = true)

/-- The run of identifier characters at a position is one run in all its splittings. -/
theorem run_unique {as bs rest rest' : List Char} (has : as.all isIdentifierChar = true)
    (hbs : bs.all isIdentifierChar = true) (hrest : EndsRun rest) (hrest' : EndsRun rest')
    (h : as ++ rest = bs ++ rest') : as = bs ∧ rest = rest' := by
  have hle : as <+: bs := prefix_of_endsRun has ⟨rest, h⟩ hrest'
  have hge : bs <+: as := prefix_of_endsRun hbs ⟨rest', h.symm⟩ hrest
  have heq := hle.eq_of_length (Nat.le_antisymm hle.length_le hge.length_le)
  subst heq
  exact ⟨rfl, (List.append_right_inj as).1 h⟩

theorem exists_run (cs : List Char) :
    ∃ run rest, cs = run ++ rest ∧ run.all isIdentifierChar = true ∧ EndsRun rest := by
  refine ⟨cs.takeWhile isIdentifierChar, cs.dropWhile isIdentifierChar, ?_, ?_, ?_⟩
  · rw [List.takeWhile_append_dropWhile]
  · exact List.all_takeWhile
  · have hhead := List.head?_dropWhile_not isIdentifierChar cs
    cases hrest : (cs.dropWhile isIdentifierChar).head? with
    | none => simp [EndsRun, hrest]
    | some y => simpa [EndsRun, hrest] using hhead

include hnames

/-- A word that the renamed text starts with was there before, unless it is the new type. -/
theorem of_rename_eq_word {w rest' : List Char} (hw : w.all isIdentifierChar = true) (hnew : '8' ∉ w)
    (hrest' : EndsRun rest') (h : rename names cs = w ++ rest') :
    ∃ rest, cs = w ++ rest ∧ rest' = rename names rest ∧ EndsRun rest := by
  obtain ⟨run, rest, rfl, hrun, hrest⟩ := exists_run cs
  obtain ⟨run', heq, hrenamed⟩ := rename_run hnames hrest hrun
  obtain ⟨rfl, hrest''⟩ :=
    run_unique hrenamed.chars hw (endsRun_rename hnames hrest) hrest' (heq.symm.trans h)
  rcases hrenamed.changed with rfl | h8
  · exact ⟨rest, rfl, hrest''.symm, hrest⟩
  · exact absurd h8 hnew

theorem identifier_follows (hc : c'.rest = rename names c.rest)
    (h : Yields grammar m (.once (.rule .identifier)) c x) :
    Follows names m (.once (.rule .identifier)) c' x := by
  refine follows_of_body (fun y hy => ?_) h
  have hmode : m.enter (production .identifier).shape = .tight := by cases m <;> rfl
  rw [hmode] at hy ⊢
  cases y with
  | some p =>
    obtain ⟨-, hend, run, hrun, hpass⟩ := identifier_of_takes_body hy
    have hrest := endsRun_of_char? hend
    obtain ⟨run', heq, hrenamed⟩ := rename_run hnames hrest (all_of_isIdentifier hrun)
    let d' : Cursor := ⟨c'.offset + Text.byteLength run', rename names p.1.rest⟩
    have hpass' : c'.Passes run' d' := ⟨by rw [hc, hpass.1, heq], rfl⟩
    refine follows_some_iff.2 ⟨d', [], takes_identifier (hrenamed.start hrun) hpass' ?_, rfl⟩
    exact char?_of_endsRun (endsRun_rename hnames hrest)
  | none =>
    refine follows_none_iff.2 (.seqFirst (.charFail ?_))
    cases hy with
    | seqSecond _ hmany => cases hmany
    | seqFirst hfirst =>
      cases hfirst with
      | charFail hfirst =>
        obtain ⟨n, cs⟩ := c
        obtain ⟨n', cs'⟩ := c'
        simp only at hc
        subst hc
        cases cs with
        | nil =>
          rw [rename_nil]
          rfl
        | cons y ys =>
          have hy : isIdentifierStart y = false := by simpa [Cursor.char?] using hfirst
          rw [SolidityStubs.rename, renameFrom_of_not_start hnames hy]
          simp [Cursor.char?, hy]

end Tokens

section Words

/-- A rule that matches in both texts or in none. -/
theorem follows_whole {r : Rule} (h : Yields grammar .spaced (.once (.rule r)) c x)
    (hthere : ∀ d ns, Takes grammar .spaced (.rule r) c d ns →
      ∃ d' ns', Takes grammar .spaced (.rule r) c' d' ns' ∧ d'.rest = rename names d.rest)
    (hback : ∀ d' ns', Takes grammar .spaced (.rule r) c' d' ns' →
      ∃ d ns, Takes grammar .spaced (.rule r) c d ns) :
    Follows names .spaced (.once (.rule r)) c' x := by
  cases x with
  | some p => exact follows_some_iff.2 (hthere p.1 p.2 h)
  | none =>
    obtain ⟨x', hx'⟩ := exists_yields r c'
    cases x' with
    | none => exact follows_none_iff.2 hx'
    | some p =>
      obtain ⟨d, ns, hd⟩ := hback p.1 p.2 hx'
      cases h.unique hd

theorem takes_oneOfWords_iff {words : List String} {ns : List Tree}
    (hchars : ∀ w ∈ words, w.toList.all isIdentifierChar = true)
    (hapart : ∀ w ∈ words, ∀ v ∈ words, v.toList <+: w.toList → v = w) :
    Takes grammar .tight (oneOfWords words) c d ns ↔
      ns = [] ∧ d.char? isIdentifierChar = none ∧ ∃ w ∈ words, c.Passes w.toList d := by
  constructor
  · intro h
    obtain ⟨e, _, _, hany, hend, rfl⟩ := takes_seq_iff.1 h
    obtain ⟨_, hmem, hliteral⟩ := takes_of_takes_any hany
    obtain ⟨w, hw, rfl⟩ := List.mem_map.1 hmem
    obtain ⟨hpass, rfl⟩ := takes_text_iff.1 hliteral
    have hnone := char?_of_takes_wordEnd hend
    cases hend with
    | never => exact ⟨rfl, hnone, w, hw, hpass⟩
  · rintro ⟨rfl, hend, w, hw, hpass⟩
    exact Takes.seq_nil (takes_any_literal hchars hapart hw hpass hend) (takes_wordEnd hend)

theorem takes_spacedWords_iff {v w ws : List Char} {y : Char} {ns : List Tree} (hw : w = y :: ws)
    (hy : isSpace y = false) :
    Takes grammar .tight (.seq (.text v) (.seq spaces (.seq (.text w) wordEnd))) c d ns ↔
      ns = [] ∧ d.char? isIdentifierChar = none ∧
        ∃ gap, gap ≠ [] ∧ gap.all isSpace = true ∧ c.Passes (v ++ (gap ++ w)) d := by
  constructor
  · intro h
    obtain ⟨e, _, _, hv, hrest, rfl⟩ := takes_seq_iff.1 h
    obtain ⟨f, _, _, hspaces, hrest', rfl⟩ := takes_seq_iff.1 hrest
    obtain ⟨g, _, _, hword, hend, rfl⟩ := takes_seq_iff.1 hrest'
    obtain ⟨hvPass, rfl⟩ := takes_text_iff.1 hv
    obtain ⟨hwPass, rfl⟩ := takes_text_iff.1 hword
    obtain ⟨rfl, -, x, xs, hgap, hx, hxs⟩ := takes_char_many_iff.1 hspaces
    have hnone := char?_of_takes_wordEnd hend
    cases hend with
    | never =>
      exact ⟨rfl, hnone, x :: xs, by simp, by simp [hx, hxs], hvPass.trans (hgap.trans hwPass)⟩
  · rintro ⟨rfl, hend, gap, hne, hgap, hpass⟩
    cases gap with
    | nil => exact absurd rfl hne
    | cons x xs =>
      simp only [List.all_cons, Bool.and_eq_true] at hgap
      obtain ⟨e, hvPass, hrest⟩ := hpass.split
      obtain ⟨f, hgapPass, hwPass⟩ := hrest.split
      have hstop : f.char? isSpace = none := by
        obtain ⟨n, fs⟩ := f
        obtain rfl : fs = w ++ d.rest := hwPass.1
        simp [Cursor.char?, hw, hy]
      refine Takes.seq_nil (takes_text_iff.2 ⟨hvPass, rfl⟩) (Takes.seq_nil (d := f) ?_ ?_)
      · exact takes_char_many_iff.2 ⟨rfl, hstop, x, xs, hgapPass, hgap.1, hgap.2⟩
      · exact Takes.seq_nil (takes_text_iff.2 ⟨hwPass, rfl⟩) (takes_wordEnd hend)

theorem chars_headWords : ∀ w ∈ headWords, w.toList.all isIdentifierChar = true ∧
    w.toList.all Text.isWord = true ∧ '8' ∉ w.toList := by
  decide

variable (hnames : Replaceable names)

include hnames

theorem Replaceable.rename_headWord {w : String} (hw : w ∈ headWords) (hrest : EndsRun rest) :
    rename names (w.toList ++ rest) = w.toList ++ rename names rest :=
  rename_word hnames.isIdentifier hrest (chars_headWords w hw).2.1 (hnames.not_headWord w hw)

/-- No word of the grammar is new. -/
theorem Replaceable.of_rename_eq {w : String} {rest' : List Char} (hw : w ∈ headWords)
    (hrest' : EndsRun rest') (h : rename names cs = w.toList ++ rest') :
    ∃ rest, cs = w.toList ++ rest ∧ rest' = rename names rest ∧ EndsRun rest :=
  of_rename_eq_word hnames.isIdentifier (chars_headWords w hw).1 (chars_headWords w hw).2.2 hrest' h

theorem oneOfWords_follows {r : Rule} (words : List String)
    (hr : production r = ⟨.atomic, oneOfWords words⟩) (hwords : ∀ w ∈ words, w ∈ headWords)
    (hapart : ∀ w ∈ words, ∀ v ∈ words, v.toList <+: w.toList → v = w)
    (hc : c'.rest = rename names c.rest) (h : Yields grammar .spaced (.once (.rule r)) c x) :
    Follows names .spaced (.once (.rule r)) c' x := by
  have hiff : ∀ {c d ns}, Takes grammar .spaced (.rule r) c d ns ↔
      ns = [⟨r, c, d, []⟩] ∧ d.char? isIdentifierChar = none ∧ ∃ w ∈ words, c.Passes w.toList d := by
    intro c d ns
    have hchars := fun w hw => (chars_headWords w (hwords w hw)).1
    have hgrammar : grammar.production r = ⟨.atomic, oneOfWords words⟩ := hr
    rw [takes_rule_iff (by simp [hgrammar]), hgrammar]
    constructor
    · rintro ⟨children, h, rfl⟩
      obtain ⟨rfl, hend, hw⟩ := (takes_oneOfWords_iff hchars hapart).1 h
      exact ⟨rfl, hend, hw⟩
    · rintro ⟨rfl, hend, hw⟩
      exact ⟨[], (takes_oneOfWords_iff hchars hapart).2 ⟨rfl, hend, hw⟩, rfl⟩
  refine follows_whole h (fun d ns hd => ?_) fun d' ns' hd' => ?_
  · obtain ⟨-, hend, w, hw, hpass⟩ := hiff.1 hd
    have hrest := endsRun_of_char? hend
    have heq := hnames.rename_headWord (hwords w hw) hrest
    refine ⟨⟨c'.offset + Text.byteLength w.toList, rename names d.rest⟩, _,
      hiff.2 ⟨rfl, ?_, w, hw, ?_⟩, rfl⟩
    · exact char?_of_endsRun (endsRun_rename hnames.isIdentifier hrest)
    · exact ⟨by rw [hc, hpass.1, heq], rfl⟩
  · obtain ⟨-, hend, w, hw, hpass⟩ := hiff.1 hd'
    obtain ⟨rest, hrest, -, hends⟩ := hnames.of_rename_eq (hwords w hw) (endsRun_of_char? hend)
      (hc.symm.trans hpass.1)
    exact ⟨⟨c.offset + Text.byteLength w.toList, rest⟩, _,
      hiff.2 ⟨rfl, char?_of_endsRun hends, w, hw, hrest, rfl⟩⟩

omit hnames in
theorem takes_addressPayable_iff {ns : List Tree} :
    Takes grammar .spaced (.rule .addressPayable) c d ns ↔
      ns = [⟨.addressPayable, c, d, []⟩] ∧ d.char? isIdentifierChar = none ∧
        ∃ gap, gap ≠ [] ∧ gap.all isSpace = true ∧
          c.Passes ("address".toList ++ (gap ++ "payable".toList)) d := by
  have hp : "payable".toList = 'p' :: "ayable".toList := rfl
  rw [takes_rule_iff (by decide)]
  constructor
  · rintro ⟨children, h, rfl⟩
    obtain ⟨rfl, hrest⟩ := (takes_spacedWords_iff hp rfl).1 h
    exact ⟨rfl, hrest⟩
  · rintro ⟨rfl, hrest⟩
    exact ⟨[], (takes_spacedWords_iff hp rfl).2 ⟨rfl, hrest⟩, rfl⟩

theorem addressPayable_follows (hc : c'.rest = rename names c.rest)
    (h : Yields grammar .spaced (.once (.rule .addressPayable)) c x) :
    Follows names .spaced (.once (.rule .addressPayable)) c' x := by
  have haddress : "address" ∈ headWords := by decide
  have hpayable : "payable" ∈ headWords := by decide
  refine follows_whole h (fun d ns hd => ?_) fun d' ns' hd' => ?_
  · obtain ⟨-, hend, gap, hne, hgap, hpass⟩ := takes_addressPayable_iff.1 hd
    have hrest := endsRun_of_char? hend
    refine ⟨⟨c'.offset + Text.byteLength ("address".toList ++ (gap ++ "payable".toList)),
      rename names d.rest⟩, _, takes_addressPayable_iff.2 ⟨rfl, ?_, gap, hne, hgap, ?_, rfl⟩, rfl⟩
    · exact char?_of_endsRun (endsRun_rename hnames.isIdentifier hrest)
    · rw [hc, hpass.1, List.append_assoc, List.append_assoc,
        hnames.rename_headWord haddress (endsRun_spaces hne hgap _),
        rename_spaces hnames.isIdentifier hgap, hnames.rename_headWord hpayable hrest,
        List.append_assoc, List.append_assoc]
  · obtain ⟨-, hend, gap, hne, hgap, hpass⟩ := takes_addressPayable_iff.1 hd'
    have htext := hc.symm.trans hpass.1
    rw [List.append_assoc, List.append_assoc] at htext
    obtain ⟨rest, hrest, hrest', -⟩ := hnames.of_rename_eq haddress (endsRun_spaces hne hgap _) htext
    obtain ⟨rest₁, rfl, hrest₁⟩ := of_rename_eq_spaces hnames.isIdentifier hgap hrest'.symm
    obtain ⟨rest₂, rfl, -, hends⟩ := hnames.of_rename_eq hpayable (endsRun_of_char? hend) hrest₁.symm
    refine ⟨⟨c.offset + Text.byteLength ("address".toList ++ (gap ++ "payable".toList)), rest₂⟩, _,
      takes_addressPayable_iff.2 ⟨rfl, char?_of_endsRun hends, gap, hne, hgap, ?_, rfl⟩⟩
    rw [hrest, List.append_assoc, List.append_assoc]

end Words

section Groups

theorem scan_run {run : List Char} (hrun : run.all isIdentifierChar = true) (stack : List Bracket)
    (n : Nat) : scan stack ⟨n, run ++ rest⟩ = scan stack ⟨n + Text.byteLength run, rest⟩ := by
  induction run generalizing n with
  | nil => rfl
  | cons y ys ih =>
    simp only [List.all_cons, Bool.and_eq_true] at hrun
    have hskip : skip ⟨n, y :: (ys ++ rest)⟩ = ⟨n, y :: (ys ++ rest)⟩ :=
      skip_solid n (ne_of_isIdentifierChar hrun.1 rfl) (isSpace_of_isIdentifierChar hrun.1)
    have hquote := isQuote_of_isIdentifierChar hrun.1
    have hbracket := isBracket_of_isIdentifierChar hrun.1
    rw [List.cons_append]
    rcases Bracket.cases_char y with ⟨b, rfl⟩ | ⟨b, rfl⟩ | ⟨-, hopened, hclosed⟩
    · cases b <;> cases hbracket
    · cases b <;> cases hbracket
    · rw [scan_other (hskip.symm ▸ string?_eq_none rfl hquote) (congrArg Cursor.rest hskip) hopened
        hclosed, hskip, ih hrun.2, Text.byteLength_cons, Nat.add_assoc]

/-- A scan comes to the same bracket in the renamed text. The induction is on the text left, name by
name. -/
theorem scan_renamed (hnames : ∀ name ∈ names, isIdentifier name = true) {before : Option Char}
    {stack : List Bracket} (hstack : stack ≠ []) (hc : c'.rest = renameFrom names before 0 c.rest) :
    (scan stack c').map Cursor.rest = (scan stack c).map fun d => rename names d.rest := by
  generalize hlen : c.rest.length = len
  induction len using Nat.strongRecOn generalizing c c' before stack with
  | ind len ih =>
    subst hlen
    obtain ⟨ws, hws⟩ := skip_passes c
    have hle := hws.length_le
    obtain ⟨before', hskip⟩ := skip_renamedFrom hnames hc
    have hstring := string?_renamed hnames hskip
    cases hs : string? (skip c) with
    | some d =>
      rw [hs] at hstring
      obtain ⟨d', hd', hrest⟩ := Option.map_eq_some_iff.1 hstring
      obtain ⟨y, ys, -, hp⟩ := string?_passes hs
      have hlen := congrArg List.length hp.1
      rw [List.length_append, List.length_cons] at hlen
      rw [scan_string hs, scan_string hd']
      exact ih d.rest.length (by omega) hstack hrest rfl
    | none =>
      rw [hs, Option.map_none, Option.map_eq_none_iff] at hstring
      cases hrest : (skip c).rest with
      | nil =>
        rw [hrest] at hskip
        rw [scan_end hrest, scan_end (hskip.trans (by simp [renameFrom, Text.replaceFrom]))]
        rfl
      | cons y ys =>
        rw [hrest, List.length_cons] at hle
        cases hy : isIdentifierChar y with
        | true =>
          obtain ⟨run, rest, hsplit, hrun, hends⟩ := exists_run (y :: ys)
          obtain ⟨run', heq, hrun', -⟩ := renameFrom_run hnames hends hrun before' 0 (Nat.zero_le _)
          have hne : run ≠ [] := by
            rintro rfl
            rw [List.nil_append] at hsplit
            subst hsplit
            simp [EndsRun, hy] at hends
          have hlt : rest.length < c.rest.length := by
            have hpos := List.length_pos_iff.2 hne
            have hlen := congrArg List.length hsplit
            rw [List.length_cons, List.length_append] at hlen
            omega
          rw [hrest, hsplit, heq] at hskip
          rw [hsplit] at hrest
          have hthere : skip c = ⟨(skip c).offset, run ++ rest⟩ := by rw [← hrest]
          have hthere' : skip c' = ⟨(skip c').offset, run' ++ rename names rest⟩ := by rw [← hskip]
          rw [← scan_skip _ c, ← scan_skip _ c', hthere, hthere', scan_run hrun, scan_run hrun']
          exact ih rest.length hlt hstack rfl rfl
        | false =>
          have hstart := isIdentifierStart_of_char hy
          rw [hrest, renameFrom_of_not_start hnames hstart] at hskip
          have hnext : ∀ {stack : List Bracket} {m m' : Nat}, stack ≠ [] →
              (scan stack ⟨m', renameFrom names (some y) 0 ys⟩).map Cursor.rest =
                (scan stack ⟨m, ys⟩).map fun d => rename names d.rest :=
            fun hstack => ih ys.length (by omega) hstack rfl rfl
          rcases Bracket.cases_char y with ⟨b, rfl⟩ | ⟨b, rfl⟩ | ⟨-, hopened, hclosed⟩
          · rw [scan_opening hrest, scan_opening hskip]
            exact hnext (by simp)
          · cases stack with
            | nil => exact absurd rfl hstack
            | cons top stack =>
              rw [scan_closing hrest, scan_closing hskip]
              split
              · unfold resume
                split
                · have hword : Text.isWord b.closing = false := by cases b <;> decide
                  rw [renameFrom_before hword]
                  rfl
                · exact hnext ‹_›
              · rfl
          · rw [scan_other hs hrest hopened hclosed, scan_other hstring hskip hopened hclosed]
            exact hnext hstack

theorem scan_renamed_opening (hnames : ∀ name ∈ names, isIdentifier name = true) (b : Bracket)
    (n n' : Nat) (xs : List Char) :
    (scan [] ⟨n', b.opening :: rename names xs⟩).map Cursor.rest =
      (scan [] ⟨n, b.opening :: xs⟩).map fun d => rename names d.rest := by
  have hskip : ∀ m ys, skip ⟨m, b.opening :: ys⟩ = ⟨m, b.opening :: ys⟩ := by
    intro m ys
    cases b <;> exact skip_solid m (by decide) rfl
  rw [scan_opening (congrArg Cursor.rest (hskip n' _)), scan_opening (congrArg Cursor.rest (hskip n _)),
    hskip, hskip]
  exact scan_renamed hnames (by simp) rfl

theorem arraySuffix_follows (hnames : ∀ name ∈ names, isIdentifier name = true)
    (hc : c'.rest = rename names c.rest)
    (h : Yields grammar .spaced (.once (.rule .arraySuffix)) c x) :
    Follows names .spaced (.once (.rule .arraySuffix)) c' x := by
  have hopen : isMark '[' = true := by decide
  obtain ⟨n, cs⟩ := c
  obtain ⟨n', cs'⟩ := c'
  simp only at hc
  by_cases hhead : ∃ xs, cs = '[' :: xs
  · obtain ⟨xs, rfl⟩ := hhead
    rw [rename_cons_mark hnames hopen] at hc
    subst hc
    obtain ⟨ns, hy⟩ := rule_yields_scan .square n xs
    obtain ⟨ns', hy'⟩ := rule_yields_scan .square n' (rename names xs)
    have hscan := scan_renamed_opening hnames .square n n' xs
    cases h.unique hy
    refine ⟨_, hy', ?_⟩
    simp only [restOf, Option.map_map]
    exact hscan
  · have hfails : ∀ {m : Nat} {ds : List Char}, (∀ xs, ds ≠ '[' :: xs) →
        Fails grammar .spaced (.rule .arraySuffix) ⟨m, ds⟩ := by
      intro m ds hds
      refine .ruleFail (.seqFirst ?_)
      cases ds with
      | nil => exact .textFail rfl
      | cons y ys =>
        refine fails_text ?_
        rintro rfl
        exact hds ys rfl
    cases h.unique (hfails fun xs hxs => hhead ⟨xs, hxs⟩)
    refine follows_none_iff.2 (hfails fun xs hxs => ?_)
    obtain ⟨ys, hys, -⟩ := of_rename_eq_mark hnames hopen (hc.symm.trans hxs)
    exact hhead ⟨ys, hys⟩

end Groups

section Simulation

def tokenRules : Mode → List Rule
  | .spaced => [.parameterList, .parameter, .typeName, .mappingType, .userTypeName, .identifier,
      .keyword .mappingWord, .storageLocation, .addressPayable, .arraySuffix]
  | .tight => [.identifier]

def tokenwise (m : Mode) : Expr Rule → Bool
  | .char _ => false
  | .text cs => cs.all isMark
  | .seq a b | .choice a b => tokenwise m a && tokenwise m b
  | .maybe a | .many a | .never a => tokenwise m a
  | .rule r => (tokenRules m).contains r

def tokenwiseTask (m : Mode) : Peg.Task Rule → Bool
  | .once e | .again e => tokenwise m e

theorem tokenRules_cases {r : Rule} (hnames : Replaceable names) (hr : r ∈ tokenRules m)
    (hc : c'.rest = rename names c.rest) :
    tokenwise (m.enter (production r).shape) (production r).body = true ∨
      ∀ x, Yields grammar m (.once (.rule r)) c x → Follows names m (.once (.rule r)) c' x := by
  cases m with
  | tight =>
    obtain rfl := List.mem_singleton.1 hr
    exact .inr fun x h => identifier_follows hnames.isIdentifier hc h
  | spaced =>
    simp only [tokenRules, List.mem_cons, List.not_mem_nil, or_false] at hr
    rcases hr with rfl | rfl | rfl | rfl | rfl | rfl | rfl | rfl | rfl | rfl
    · exact .inl (by decide)
    · exact .inl (by decide)
    · exact .inl (by decide)
    · exact .inl (by decide)
    · exact .inl (by decide)
    · exact .inr fun x h => identifier_follows hnames.isIdentifier hc h
    · refine .inr fun x h => oneOfWords_follows hnames ["mapping"] rfl ?_ ?_ hc h
      · decide
      · decide
    · refine .inr fun x h => oneOfWords_follows hnames storageWords rfl ?_ ?_ hc h
      · decide
      · decide
    · exact .inr fun x h => addressPayable_follows hnames hc h
    · exact .inr fun x h => arraySuffix_follows hnames.isIdentifier hc h

theorem skip_mode_renamed (hnames : Replaceable names) (hc : c'.rest = rename names c.rest)
    (m : Mode) :
    (m.skip grammar c').rest = rename names (m.skip grammar c).rest := by
  cases m with
  | tight => exact hc
  | spaced => exact skip_renamed hnames.isIdentifier hc

theorem text_follows {ms : List Char} (hnames : Replaceable names) (hms : ms.all isMark = true)
    (hc : c'.rest = rename names c.rest) (h : Yields grammar m (.once (.text ms)) c x) :
    Follows names m (.once (.text ms)) c' x := by
  have hrest := text?_renamed hnames.isIdentifier hms hc
  cases h with
  | text h =>
    rw [h] at hrest
    obtain ⟨d', hd', hrest'⟩ := Option.map_eq_some_iff.1 hrest
    exact follows_some_iff.2 ⟨d', [], .text hd', hrest'⟩
  | textFail h =>
    rw [h] at hrest
    exact follows_none_iff.2 (.textFail (Option.map_eq_none_iff.1 hrest))

/-- What is read token by token is read of the renamed text. The induction is over the
reading. -/
theorem follows_of_tokenwise (hnames : Replaceable names) {t : Peg.Task Rule}
    (h : Yields grammar m t c x) (ht : tokenwiseTask m t = true)
    (hc : c'.rest = rename names c.rest) : Follows names m t c' x := by
  induction h generalizing c' with
  | char => cases ht
  | charFail => cases ht
  | text h => exact text_follows hnames ht hc (.text h)
  | textFail h => exact text_follows hnames ht hc (.textFail h)
  | @seq m a b c d e ns ns' ha _ iha ihb =>
    obtain ⟨hta, htb⟩ := Bool.and_eq_true_iff.1 ht
    obtain ⟨d', as, ha', hd⟩ := follows_some_iff.1 (iha hta hc)
    obtain ⟨e', bs, hb', he⟩ := follows_some_iff.1
      (ihb htb (skip_mode_renamed hnames hd m))
    exact follows_some_iff.2 ⟨e', _, .seq ha' hb', he⟩
  | seqFirst _ iha =>
    obtain ⟨hta, -⟩ := Bool.and_eq_true_iff.1 ht
    exact follows_none_iff.2 (.seqFirst (follows_none_iff.1 (iha hta hc)))
  | @seqSecond m a b c d ns ha _ iha ihb =>
    obtain ⟨hta, htb⟩ := Bool.and_eq_true_iff.1 ht
    obtain ⟨d', as, ha', hd⟩ := follows_some_iff.1 (iha hta hc)
    have hb' := ihb htb (skip_mode_renamed hnames hd m)
    exact follows_none_iff.2 (.seqSecond ha' (follows_none_iff.1 hb'))
  | choiceLeft _ iha =>
    obtain ⟨hta, -⟩ := Bool.and_eq_true_iff.1 ht
    obtain ⟨d', ns', ha', hd⟩ := follows_some_iff.1 (iha hta hc)
    exact follows_some_iff.2 ⟨d', ns', .choiceLeft ha', hd⟩
  | choiceRight _ _ iha ihb =>
    obtain ⟨hta, htb⟩ := Bool.and_eq_true_iff.1 ht
    have ha' := follows_none_iff.1 (iha hta hc)
    obtain ⟨y, hb', hy⟩ := ihb htb hc
    exact ⟨y, .choiceRight ha' hb', hy⟩
  | maybe _ iha =>
    obtain ⟨d', ns', ha', hd⟩ := follows_some_iff.1 (iha ht hc)
    exact follows_some_iff.2 ⟨d', ns', .maybe ha', hd⟩
  | maybeNot _ iha =>
    have ha' := follows_none_iff.1 (iha ht hc)
    exact follows_some_iff.2 ⟨_, [], .maybeNot ha', hc⟩
  | many ha _ iha ihs =>
    obtain ⟨d', as, ha', hd⟩ := follows_some_iff.1 (iha ht hc)
    obtain ⟨e', bs, hs', he⟩ := follows_some_iff.1 (ihs ht hd)
    exact follows_some_iff.2 ⟨e', _, .many ha' hs', he⟩
  | manyNot _ iha =>
    have ha' := follows_none_iff.1 (iha ht hc)
    exact follows_some_iff.2 ⟨_, [], .manyNot ha', hc⟩
  | @again m a c d e ns ns' ha _ iha ihs =>
    obtain ⟨d', as, ha', hd⟩ := follows_some_iff.1
      (iha ht (skip_mode_renamed hnames hc m))
    obtain ⟨e', bs, hs', he⟩ := follows_some_iff.1 (ihs ht hd)
    exact follows_some_iff.2 ⟨e', _, .again ha' hs', he⟩
  | @againNot m a c _ iha =>
    have ha' := iha ht (skip_mode_renamed hnames hc m)
    exact follows_some_iff.2 ⟨_, [], .againNot (follows_none_iff.1 ha'), hc⟩
  | never _ iha =>
    have ha' := follows_none_iff.1 (iha ht hc)
    exact follows_some_iff.2 ⟨_, [], .never ha', hc⟩
  | neverFail _ iha =>
    obtain ⟨d', ns', ha', -⟩ := follows_some_iff.1 (iha ht hc)
    exact follows_none_iff.2 (.neverFail ha')
  | ruleShown hs hb ih =>
    rcases tokenRules_cases hnames (List.contains_iff_mem.1 ht) hc with hbody | hwhole
    · exact follows_rule (ih hbody hc) rfl
    · exact hwhole _ (.ruleShown hs hb)
  | ruleHidden hs hb ih =>
    rcases tokenRules_cases hnames (List.contains_iff_mem.1 ht) hc with hbody | hwhole
    · exact follows_rule (ih hbody hc) rfl
    · exact hwhole _ (.ruleHidden hs hb)
  | ruleFail hb ih =>
    rcases tokenRules_cases hnames (List.contains_iff_mem.1 ht) hc with hbody | hwhole
    · exact follows_rule (ih hbody hc) rfl
    · exact hwhole _ (.ruleFail hb)

theorem stop_eq_of_whole {r : Rule} {ns : List Tree}
    (h : Takes grammar .spaced (.rule r) ⟨0, cs⟩ d ns) (hd : d.rest = []) :
    d = ⟨Text.byteLength cs, []⟩ := by
  obtain ⟨cs', hpass⟩ := h.passes grammar_bounded.skips
  obtain ⟨m, rest⟩ := d
  simp only at hd
  subst hd
  obtain rfl : cs' = cs := by simpa using hpass.1.symm
  simpa using hpass.2

theorem takes_parameterList_renamed (hnames : Replaceable names) {ns : List Tree}
    (h : Takes grammar .spaced (.rule .parameterList) ⟨0, cs⟩ d ns) (hd : d.rest = []) :
    ∃ t, Takes grammar .spaced (.rule .parameterList) ⟨0, rename names cs⟩
      ⟨Text.byteLength (rename names cs), []⟩ [t] := by
  let c' : Cursor := ⟨0, rename names cs⟩
  have hfollows : Follows names .spaced (.once (.rule .parameterList)) c' (some (d, ns)) :=
    follows_of_tokenwise hnames h (by decide) rfl
  obtain ⟨d', ns', h', hrest⟩ := follows_some_iff.1 hfollows
  rw [hd, rename_nil] at hrest
  obtain ⟨children, -, rfl⟩ := (takes_rule_iff (by decide)).1 h'
  exact ⟨_, stop_eq_of_whole h' hrest ▸ h'⟩

theorem takes_callArguments_renamed (hnames : ∀ name ∈ names, isIdentifier name = true)
    {ns : List Tree}
    (h : Takes grammar .spaced (.rule .callArguments) ⟨0, '(' :: cs⟩ d ns) (hd : d.rest = []) :
    ∃ ns', Takes grammar .spaced (.rule .callArguments) ⟨0, rename names ('(' :: cs)⟩
      ⟨Text.byteLength (rename names ('(' :: cs)), []⟩ ns' := by
  have hopen : isMark '(' = true := by decide
  rw [rename_cons_mark hnames hopen]
  obtain ⟨fillers, hy⟩ := rule_yields_scan .round 0 cs
  obtain ⟨fillers', hy'⟩ := rule_yields_scan .round 0 (rename names cs)
  have hscan := scan_renamed_opening hnames .round 0 0 cs
  obtain ⟨e, he, heq⟩ := Option.map_eq_some_iff.1 (h.unique hy).symm
  cases heq
  rw [he, Option.map_some, hd, rename_nil] at hscan
  obtain ⟨d', hd', hrest⟩ := Option.map_eq_some_iff.1 hscan
  rw [hd', Option.map_some] at hy'
  exact ⟨_, stop_eq_of_whole hy' hrest ▸ hy'⟩

end Simulation

end SolidityStubs.Source
