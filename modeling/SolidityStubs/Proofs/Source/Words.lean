import SolidityStubs.Proofs.Source.Tokens
import SolidityStubs.Proofs.Source.Written

/-! # Words and names

How identifiers, dotted names and the words of a list are read: all of the word, if nothing that
belongs to it follows.
-/
namespace SolidityStubs.Source

open Peg

variable {c d : Cursor}

theorem isIdentifierChar_of_start {x : Char} (h : isIdentifierStart x = true) :
    isIdentifierChar x = true := by
  simp only [isIdentifierStart, isIdentifierChar, Char.isAlphanum, Bool.or_eq_true] at h ⊢
  rcases h with (h | h) | h
  · exact .inl (.inl (.inl h))
  · exact .inl (.inr h)
  · exact .inr h

theorem all_of_isIdentifier {cs : List Char} (h : isIdentifier cs = true) :
    cs.all isIdentifierChar = true := by
  cases cs with
  | nil => rfl
  | cons x xs =>
    simp only [isIdentifier, Bool.and_eq_true] at h
    simp only [List.all_cons, Bool.and_eq_true]
    exact ⟨isIdentifierChar_of_start h.1, h.2⟩

section Runs

/-- No identifier goes on at the start of the text. -/
def EndsRun (rest : List Char) : Prop := rest.head?.all (! isIdentifierChar ·) = true

theorem endsRun_of_char? (h : d.char? isIdentifierChar = none) : EndsRun d.rest := by
  obtain ⟨n, ds⟩ := d
  cases ds with
  | nil => rfl
  | cons x xs =>
    have hx : isIdentifierChar x = false := by simpa [Cursor.char?] using h
    simp [EndsRun, hx]

theorem char?_of_endsRun (h : EndsRun d.rest) : d.char? isIdentifierChar = none := by
  obtain ⟨n, ds⟩ := d
  cases ds with
  | nil => rfl
  | cons x xs =>
    have hx : isIdentifierChar x = false := by simpa [EndsRun] using h
    simp [Cursor.char?, hx]

end Runs

section Names

theorem takes_identifier {cs : List Char} (hcs : isIdentifier cs = true) (h : c.Passes cs d)
    (hd : d.char? isIdentifierChar = none) :
    Takes grammar .tight (production .identifier).body c d [] := by
  cases cs with
  | nil => cases hcs
  | cons x xs =>
    simp only [isIdentifier, Bool.and_eq_true] at hcs
    exact takes_char_many_iff.2 ⟨rfl, hd, x, xs, h, hcs.1, hcs.2⟩

theorem fails_identifier {x : Char} {xs : List Char} {m : Mode} (hc : c.rest = x :: xs)
    (hx : isIdentifierStart x = false) : Fails grammar m (.rule .identifier) c := by
  obtain ⟨n, cs⟩ := c
  cases hc
  exact .ruleFail (.seqFirst (.charFail (by simp [Cursor.char?, hx])))

def dotted : List (List Char) → List Char
  | [] => []
  | p :: ps => p ++ ps.flatMap ('.' :: ·)

theorem endsRun_parts {ps : List (List Char)} {rest : List Char} (hrest : EndsRun rest) :
    EndsRun (ps.flatMap ('.' :: ·) ++ rest) := by
  cases ps with
  | nil => exact hrest
  | cons p ps => rfl

theorem takes_part {p : List Char} {ps : List (List Char)} {e : Cursor} (hp : isIdentifier p = true)
    (h : c.Passes p e) (hmore : e.Passes (ps.flatMap ('.' :: ·)) d)
    (hd : d.char? isIdentifierChar = none) :
    Takes grammar .tight (.rule .identifier) c e [] := by
  have hend : EndsRun e.rest := by
    rw [hmore.1]
    exact endsRun_parts (endsRun_of_char? hd)
  exact .ruleHidden rfl (takes_identifier hp h (char?_of_endsRun hend))

theorem takes_parts {ps : List (List Char)} (hps : ∀ p ∈ ps, isIdentifier p = true)
    (h : c.Passes (ps.flatMap ('.' :: ·)) d) (hd : d.char? isIdentifierChar = none)
    (hdot : d.text? ['.'] = none) :
    Yields grammar .tight (.again (.seq (.text ['.']) (.rule .identifier))) c (some (d, [])) := by
  induction ps generalizing c with
  | nil =>
    obtain rfl := h.eq_of_nil
    exact .againNot (.seqFirst (.textFail hdot))
  | cons p ps ih =>
    obtain ⟨hp, hps'⟩ := List.forall_mem_cons.1 hps
    rw [List.flatMap_cons] at h
    obtain ⟨f, hpart, hmore⟩ := h.split
    rw [← List.singleton_append] at hpart
    obtain ⟨e, hopen, hname⟩ := hpart.split
    have hstep : Takes grammar .tight (.seq (.text ['.']) (.rule .identifier)) c f [] :=
      Takes.seq_nil (takes_text_iff.2 ⟨hopen, rfl⟩) (takes_part hp hname hmore hd)
    exact Yields.again (g := grammar) (m := .tight) hstep (ih hps' hmore)

/-- A dotted name is read up to where neither a character of it nor a dot follows. -/
theorem takes_userTypeName {ps : List (List Char)} (hne : ps ≠ [])
    (hps : ∀ p ∈ ps, isIdentifier p = true) (h : c.Passes (dotted ps) d)
    (hd : d.char? isIdentifierChar = none) (hdot : d.text? ['.'] = none) :
    Takes grammar .tight (production .userTypeName).body c d [] := by
  cases ps with
  | nil => exact absurd rfl hne
  | cons p ps =>
    obtain ⟨hp, hps'⟩ := List.forall_mem_cons.1 hps
    obtain ⟨e, hfirst, hmore⟩ := h.split
    have hmany := (many_iff_again (g := grammar) (m := .tight) rfl).2
      (takes_parts hps' hmore hd hdot)
    exact Takes.seq_nil (takes_part hp hfirst hmore hd) hmany

theorem fails_userTypeName {x : Char} {xs : List Char} (hc : c.rest = x :: xs)
    (hx : isIdentifierStart x = false) : Fails grammar .spaced (.rule .userTypeName) c :=
  .ruleFail (.seqFirst (fails_identifier hc hx))

/-- A word that starts where a dotted name does is all of the name or is followed by a dot. -/
theorem dotted_eq_word {ps : List (List Char)} {rest w : List Char} (hne : ps ≠ [])
    (hps : ∀ p ∈ ps, isIdentifier p = true) (hc : c.rest = dotted ps ++ rest) (hend : EndsRun rest)
    (hw : w.all isIdentifierChar = true) (h : c.Passes w d) (hd : d.char? isIdentifierChar = none) :
    dotted ps = w ∧ d.rest = rest ∨ d.rest.head? = some '.' := by
  cases ps with
  | nil => exact absurd rfl hne
  | cons p ps =>
    have hp := List.all_eq_true.1 (all_of_isIdentifier (hps p (by simp)))
    have hrest : (ps.flatMap ('.' :: ·) ++ rest).takeWhile isIdentifierChar = [] := by
      cases ps with
      | nil =>
        cases rest with
        | nil => rfl
        | cons x xs =>
          have hx : isIdentifierChar x = false := by simpa [EndsRun] using hend
          simp [hx]
      | cons q qs => rfl
    have hfirst : p = w := by
      rw [← wordAt_of_passes h hw hd, wordAt, hc, dotted, List.append_assoc,
        List.takeWhile_append_of_pos hp, hrest, List.append_nil]
    have hd' : ps.flatMap ('.' :: ·) ++ rest = d.rest := by
      have h := h.1
      rw [hc, dotted, hfirst, List.append_assoc] at h
      exact (List.append_right_inj _).1 h
    cases ps with
    | nil => exact .inl ⟨by simp [dotted, hfirst], by simpa using hd'.symm⟩
    | cons q qs => exact .inr (by simp [← hd'])

/-- A clause of return values that starts with a dotted name starts with the word `returns` alone. -/
theorem takes_returnsClause_dotted {ps : List (List Char)} {rest : List Char} {ns : List Tree}
    (hne : ps ≠ []) (hps : ∀ p ∈ ps, isIdentifier p = true) (hc : c.rest = dotted ps ++ rest)
    (hend : EndsRun rest)
    (h : Takes grammar .spaced (.rule .returnsClause) c d ns) :
    dotted ps = "returns".toList ∧ ∃ e lists, c.Passes "returns".toList e ∧
      Takes grammar .spaced (.rule .parameterList) (skip e) d lists := by
  obtain ⟨children, hb, -⟩ := (takes_rule_iff (by decide)).1 h
  obtain ⟨e, _, lists, hword, hlist, -⟩ := takes_seq_iff.1 hb
  obtain ⟨_, hreturns, -⟩ := (takes_rule_iff (by decide)).1 hword
  obtain ⟨e', _, _, hliteral, hnone, -⟩ := takes_seq_iff.1 hreturns
  have hpass := (takes_text_iff.1 hliteral).1
  have hendWord := char?_of_takes_wordEnd hnone
  cases hnone with
  | never _ =>
    rcases dotted_eq_word hne hps hc hend (by decide) hpass hendWord with ⟨hname, -⟩ | hdot
    · exact ⟨hname, e', lists, hpass, hlist⟩
    · -- behind a dot no parameters follow
      obtain ⟨xs, hrest⟩ := List.head?_eq_some_iff.1 hdot
      have hskip : skip e' = e' := skip_of_none (trivium?_eq_none hrest (by decide) rfl)
      obtain ⟨_, hbody, -⟩ := (takes_rule_iff (by decide)).1 hlist
      obtain ⟨f, _, _, hopen, -, -⟩ := takes_seq_iff.1 hbody
      have hparen : (skip e').Passes ['('] f := (takes_text_iff.1 hopen).1
      rw [hskip] at hparen
      have h := hparen.1
      simp [hrest] at h

end Names

section Lists

variable {words : List String} {w : String}

theorem takes_of_takes_any {m : Mode} {es : List (Expr Rule)} {ns : List Tree}
    (h : Takes grammar m (.any es) c d ns) : ∃ e ∈ es, Takes grammar m e c d ns := by
  induction es with
  | nil =>
    cases h with
    | never h =>
      cases h with
      | textFail h => simp [Cursor.text?] at h
  | cons e es ih =>
    cases es with
    | nil => exact ⟨e, by simp, h⟩
    | cons e' es =>
      cases h with
      | choiceLeft h => exact ⟨e, by simp, h⟩
      | choiceRight _ h =>
        obtain ⟨e'', he, ht⟩ := ih h
        exact ⟨e'', List.mem_cons_of_mem _ he, ht⟩

theorem wordAt_of_oneOfWords (hwords : ∀ w ∈ words, w.toList.all isIdentifierChar = true)
    {ns : List Tree} (h : Takes grammar .tight (oneOfWords words) c d ns) :
    wordAt c ∈ words.map String.toList := by
  obtain ⟨e, as, bs, hany, hend, rfl⟩ := takes_seq_iff.1 h
  obtain ⟨_, hmem, hliteral⟩ := takes_of_takes_any hany
  obtain ⟨w, hw, rfl⟩ := List.mem_map.1 hmem
  rw [wordAt_of_literal (hwords w hw) (takes_seq_iff.2 ⟨e, as, bs, hliteral, hend, rfl⟩)]
  exact List.mem_map_of_mem hw

/-- A word of which no other word of the list is a prefix is found by the choice of words. -/
theorem takes_any_literal (hwords : ∀ w ∈ words, w.toList.all isIdentifierChar = true)
    (hapart : ∀ w ∈ words, ∀ v ∈ words, v.toList <+: w.toList → v = w) (hw : w ∈ words)
    (h : c.Passes w.toList d) (hd : d.char? isIdentifierChar = none) :
    Takes grammar .tight (.any (words.map .literal)) c d [] := by
  -- another word does not fit, since it would have to end inside of this one
  have hother : ∀ v ∈ words, v ≠ w → Fails grammar .tight (.literal v) c := by
    intro v hv hne
    refine .textFail (Option.eq_none_iff_forall_ne_some.2 fun e he => hne ?_)
    have hrest := (Cursor.text?_passes he).1
    rw [h.1] at hrest
    rcases List.append_eq_append_iff.1 hrest with ⟨zs, hvw, hzs⟩ | ⟨zs, hwv, -⟩
    · cases zs with
      | nil => exact hapart w hw v hv (by simp [hvw])
      | cons z zs =>
        have hz : isIdentifierChar z = true :=
          List.all_eq_true.1 (hwords v hv) z (by simp [hvw])
        obtain ⟨n, ds⟩ := d
        simp only at hzs
        subst hzs
        simp [Cursor.char?, hz] at hd
    · exact hapart w hw v hv ⟨zs, hwv.symm⟩
  have htake : Takes grammar .tight (.literal w) c d [] := takes_text_iff.2 ⟨h, rfl⟩
  clear hapart hwords
  induction words with
  | nil => simp at hw
  | cons v vs ih =>
    cases vs with
    | nil =>
      obtain rfl : w = v := by simpa using hw
      exact htake
    | cons v' vs =>
      by_cases hv : v = w
      · exact .choiceLeft (hv ▸ htake)
      · have hw' : w ∈ v' :: vs := by simpa [Ne.symm hv] using hw
        exact .choiceRight (hother v (by simp) hv)
          (ih hw' fun u hu => hother u (List.mem_cons_of_mem v hu))

theorem takes_wordEnd (hd : d.char? isIdentifierChar = none) :
    Takes grammar .tight wordEnd d d [] := .never (.charFail hd)

end Lists

section Tokens

variable {t : String} {ts : List String}

theorem char?_of_rest_behind (hd : d.rest = behind ts) : d.char? isIdentifierChar = none := by
  obtain ⟨n, rest⟩ := d
  simp only at hd
  subst hd
  exact char?_behind n ts

theorem reads_identifier (i : Identifier) :
    Reads (.rule .identifier) (i.text :: ts) ts [IsLeaf .identifier i.text] :=
  reads_leaf rfl fun _ _ hpass hd => takes_identifier i.isIdentifier hpass (char?_of_rest_behind hd)

theorem refuses_identifier {x : Char} {xs : List Char} (ht : t.toList = x :: xs)
    (hx : isIdentifierStart x = false) : Refuses (.rule .identifier) (t :: ts) :=
  fun _ hc => fails_identifier (hc.head ht) hx

theorem toList_dotted_text (p : Dotted Identifier) :
    p.text.toList = dotted (p.parts.map (·.text.toList)) := by
  rw [Dotted.text, Dotted.parts, List.map_cons, toList_intercalate_cons]
  simp only [dotted, List.map_cons, List.flatMap_map]
  rfl

theorem reads_userTypeName (p : Dotted Identifier) :
    Reads (.rule .userTypeName) (p.text :: ts) ts [IsLeaf .userTypeName p.text] := by
  refine reads_leaf rfl fun c d hpass hd => ?_
  rw [toList_dotted_text] at hpass
  refine takes_userTypeName (by simp [Dotted.parts]) ?_ hpass (char?_of_rest_behind hd) ?_
  · intro q hq
    obtain ⟨i, -, rfl⟩ := List.mem_map.1 hq
    exact i.isIdentifier
  · obtain ⟨n, rest⟩ := d
    simp only at hd
    subst hd
    cases ts <;> rfl

theorem refuses_userTypeName {x : Char} {xs : List Char} (ht : t.toList = x :: xs)
    (hx : isIdentifierStart x = false) : Refuses (.rule .userTypeName) (t :: ts) :=
  fun _ hc => fails_userTypeName (hc.head ht) hx

theorem wordOf_dotted (p : Dotted Identifier) : wordOf p.text = p.first.text.toList := by
  have hfirst := List.all_eq_true.1 (all_of_isIdentifier p.first.isIdentifier)
  rw [wordOf, toList_dotted_text, Dotted.parts, List.map_cons, dotted,
    List.takeWhile_append_of_pos hfirst]
  cases p.more <;> simp [isIdentifierChar]

theorem wordOf_identifier (i : Identifier) : wordOf i.text = i.text.toList := by
  have hall := List.all_eq_true.1 (all_of_isIdentifier i.isIdentifier)
  rw [wordOf, ← List.append_nil i.text.toList, List.takeWhile_append_of_pos hall, List.takeWhile_nil]

theorem reads_contractKind (k : ContractKind) :
    Reads (.rule .contractKind) (k.spelling :: ts) ts [IsLeaf .contractKind k.spelling] := by
  refine reads_leaf rfl fun c d hpass hd => ?_
  have hend := char?_of_rest_behind hd
  have hplain : Takes grammar .tight (.any (["contract", "library", "interface"].map .literal)) c d
      [] := takes_any_literal (by decide) (by decide) (by cases k <;> decide) hpass hend
  have habstract :
      Fails grammar .tight (.all [.literal "abstract", spaces, .literal "contract"]) c := by
    refine .seqFirst (.textFail ?_)
    obtain ⟨n, rest⟩ := c
    have hrest : rest = k.spelling.toList ++ d.rest := hpass.1
    rw [hrest]
    cases k <;> rfl
  exact Takes.seq_nil (.choiceRight habstract hplain) (takes_wordEnd hend)

theorem reads_attribute (a : AttributeForm) :
    Reads (.rule .stateVariableAttribute) (a.text :: ts) ts
      [IsLeaf .stateVariableAttribute a.text] := by
  refine reads_leaf rfl fun c d hpass hd => ?_
  have hend := char?_of_rest_behind hd
  exact Takes.seq_nil (takes_any_literal (by decide) (by decide) a.isAttribute hpass hend)
    (takes_wordEnd hend)

theorem refuses_oneOfWords {r : Rule} {words : List String}
    (hr : production r = ⟨.atomic, oneOfWords words⟩)
    (hwords : ∀ w ∈ words, w.toList.all isIdentifierChar = true)
    (ht : wordOf t ∉ words.map String.toList) : Refuses (.rule r) (t :: ts) := by
  intro c hc
  obtain ⟨x, hx⟩ := exists_yields r c
  cases x with
  | none => exact hx
  | some p =>
    have hprod : grammar.production r = ⟨.atomic, oneOfWords words⟩ := hr
    obtain ⟨children, hb, -⟩ := (takes_rule_iff (by simp [hprod])).1 hx
    rw [hprod] at hb
    exact absurd (hc.wordAt ▸ wordAt_of_oneOfWords hwords hb) ht

theorem isSpace_of_isIdentifierChar {x : Char} (h : isIdentifierChar x = true) :
    isSpace x = false := by
  cases hx : isSpace x with
  | false => rfl
  | true =>
    simp only [isSpace, Bool.or_eq_true, beq_iff_eq] at hx
    rcases hx with ((rfl | rfl) | rfl) | rfl <;> cases h

theorem isLineEnd_of_isIdentifierChar {x : Char} (h : isIdentifierChar x = true) :
    isLineEnd x = false := by
  cases hx : isLineEnd x with
  | false => rfl
  | true => cases (isSpace_of_isIdentifierChar h).symm.trans (isSpace_of_isLineEnd hx)

theorem solid_of_isIdentifierStart {x : Char} (h : isIdentifierStart x = true) :
    x ≠ '/' ∧ isSpace x = false := by
  refine ⟨?_, isSpace_of_isIdentifierChar (isIdentifierChar_of_start h)⟩
  rintro rfl
  cases h

theorem mem_dotted {ps : List (List Char)} (hps : ∀ p ∈ ps, p.all isIdentifierChar = true) {x : Char}
    (hx : x ∈ dotted ps) : isIdentifierChar x = true ∨ x = '.' := by
  cases ps with
  | nil => simp [dotted] at hx
  | cons p ps =>
    simp only [dotted, List.mem_append, List.mem_flatMap, List.mem_cons] at hx
    rcases hx with hx | ⟨q, hq, rfl | hx⟩
    · exact .inl (List.all_eq_true.1 (hps p (by simp)) x hx)
    · exact .inr rfl
    · exact .inl (List.all_eq_true.1 (hps q (List.mem_cons_of_mem p hq)) x hx)

theorem isSpace_of_mem_dotted_text (p : Dotted Identifier) {x : Char} (hx : x ∈ p.text.toList) :
    isSpace x = false := by
  rw [toList_dotted_text] at hx
  have hall : ∀ q ∈ p.parts.map (·.text.toList), q.all isIdentifierChar = true := by
    intro q hq
    obtain ⟨i, -, rfl⟩ := List.mem_map.1 hq
    exact all_of_isIdentifier i.isIdentifier
  rcases mem_dotted hall hx with h | rfl
  · exact isSpace_of_isIdentifierChar h
  · rfl

/-- A dotted name is not read as a payable address unless the word `payable` follows. -/
theorem refuses_addressPayable (p : Dotted Identifier) {u : String} {us : List String}
    (hu : wordOf u ≠ "payable".toList) : Refuses (.rule .addressPayable) (p.text :: u :: us) := by
  intro c hc
  obtain ⟨x, hx⟩ := exists_yields .addressPayable c
  cases x with
  | none => exact hx
  | some q =>
    obtain ⟨children, hb, -⟩ := (takes_rule_iff (by decide)).1 hx
    obtain ⟨d, _, _, haddress, hrest, -⟩ := takes_seq_iff.1 hb
    obtain ⟨e, _, _, hspaces, hrest, -⟩ := takes_seq_iff.1 hrest
    obtain ⟨f, _, _, hpayable, hend, -⟩ := takes_seq_iff.1 hrest
    obtain ⟨-, hnone, x, xs, hpass, hx, hxs⟩ := takes_char_many_iff.1 hspaces
    have hd := (takes_text_iff.1 haddress).1
    have hf := (takes_text_iff.1 hpayable).1
    have hword : wordAt e = "payable".toList :=
      wordAt_of_passes hf (by decide) (char?_of_takes_wordEnd hend)
    refine absurd ?_ hu
    rw [← hword]
    -- behind `address` comes the one space in front of the next token
    have htext :
        p.text.toList ++ ' ' :: spread (u :: us) = "address".toList ++ x :: (xs ++ e.rest) := by
      have hc' : c.rest = p.text.toList ++ ' ' :: spread (u :: us) := hc.rest
      have hd' : d.rest = x :: (xs ++ e.rest) := hpass.1
      rw [← hc', ← hd']
      exact hd.1
    have hsplit := congrArg (List.dropWhile (! isSpace ·)) htext
    have haddress : "address".toList.all (! isSpace ·) = true := rfl
    rw [List.dropWhile_append_of_pos fun y hy => by simp [isSpace_of_mem_dotted_text p hy],
      List.dropWhile_append_of_pos (List.all_eq_true.1 haddress), List.dropWhile_cons_of_neg (by decide),
      List.dropWhile_cons_of_neg (by simp [hx])] at hsplit
    obtain ⟨-, hrest⟩ := List.cons_eq_cons.1 hsplit
    have hsolid : ∀ v ∈ u :: us, Solid v := fun v hv => hc.solid v (List.mem_cons_of_mem _ hv)
    obtain ⟨y, ys, hy, hyspace, -⟩ := solid_iff.1 (hsolid u (by simp))
    have hnil : xs = [] := by
      cases xs with
      | nil => rfl
      | cons z zs =>
        simp only [spread, hy, List.cons_append] at hrest
        obtain ⟨rfl, -⟩ := List.cons_eq_cons.1 hrest
        simp [hyspace] at hxs
    subst hnil
    have hat : At (u :: us) e := ⟨hrest.symm, hsolid⟩
    exact hat.wordAt.symm

end Tokens

end SolidityStubs.Source
