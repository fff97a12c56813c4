import Mathlib.Data.List.DropRight
import SolidityStubs.Proofs.Source.Coverage
import SolidityStubs.Proofs.Source.Edit
import SolidityStubs.Proofs.Source.Enclosed
import SolidityStubs.Proofs.Source.Printed
import SolidityStubs.Proofs.Source.Renamed

/-! # Types in front of other text

A type is read in the same way whatever follows it, as long as its name does not go on there and no
parameters, further words or suffixes come up. Brackets inside of it hold whatever they hold.
-/
namespace SolidityStubs.Source

open Peg

variable {old new : List Char} {c d : Cursor} {ns : List Tree}

theorem skip_spliced_solid {x : Char} {xs : List Char} (hc : Facing old c)
    (hx : (skip c).rest = x :: xs) (hxs : old.length ≤ xs.length) (hslash : x ≠ '/')
    (hspace : isSpace x = false) : skip (spliced old new c) = spliced old new (skip c) := by
  have hlt : old.length < (skip c).rest.length := by
    rw [hx, List.length_cons]
    omega
  have hahead : Ahead old (skip c) :=
    hc.ahead.of_length_le (skip_passes c) (Nat.le_of_lt hlt)
  obtain ⟨a, ha, hsettled⟩ := hc
  rw [skip_spliced ha hsettled hahead (.inl hlt)]
  obtain ⟨a', ha'⟩ := hahead
  cases a' with
  | nil => simp [ha'] at hlt
  | cons y a' =>
    have hy : y = x := by
      rw [hx] at ha'
      exact (List.cons.inj ha').1.symm
    subst hy
    rw [spliced_of_eq ha', List.cons_append]
    exact skip_solid _ hslash hspace

section Suffixes

theorem arraySuffix_text (h : Takes grammar .spaced (.rule .arraySuffix) c d ns) :
    ∃ cs, c.Passes ('[' :: (cs ++ [']'])) d := by
  obtain ⟨children, hgroup, -⟩ := takes_arraySuffix_iff.1 h
  obtain ⟨cs, hcs⟩ := enclosed_text keepsWithin_fillers hgroup
  exact ⟨cs, hcs⟩

theorem takes_arraySuffix_spliced (h : Takes grammar .spaced (.rule .arraySuffix) c d ns)
    (hc : Facing old c) (hd : Ahead old d) (hseam : Seamless old new) :
    Takes grammar .spaced (.rule .arraySuffix) (spliced old new c) (spliced old new d)
      (ns.map (Node.carry (spliced old new))) := by
  obtain ⟨children, hgroup, rfl⟩ := takes_arraySuffix_iff.1 h
  refine takes_arraySuffix_iff.2
    ⟨_, takes_enclosed_of_facing keepsWithin_fillers hgroup hc hd hseam, ?_⟩
  simp [Node.carry, Node.carryAll_eq_map]

theorem steps_arraySuffix_spliced (h : Steps grammar (.rule .arraySuffix) c ns d)
    (hc : Facing old c) (hd : Ahead old d) (hseam : Seamless old new) :
    Steps grammar (.rule .arraySuffix) (spliced old new c) (ns.map (Node.carry (spliced old new)))
      (spliced old new d) := by
  induction h with
  | nil c => exact .nil _
  | @cons c e d ns ns' htake hsteps ih =>
    have he : Ahead old e := hd.of_before (hsteps.before grammar_bounded.skips)
    have htake : Takes grammar .spaced (.rule .arraySuffix) (skip c) e ns := htake
    obtain ⟨cs, hcs⟩ := arraySuffix_text htake
    have hstart : Ahead old (skip c) := he.of_before ⟨_, hcs⟩
    have hrest : (skip c).rest = '[' :: (cs ++ [']'] ++ e.rest) := by
      simpa using hcs.1
    have hlen : old.length ≤ (cs ++ [']'] ++ e.rest).length := by
      have := he.length_le
      simp only [List.length_append]
      omega
    have hskip : skip (spliced old new c) = spliced old new (skip c) :=
      skip_spliced_solid hc hrest hlen (by decide) rfl
    have htake' := takes_arraySuffix_spliced htake (hc.of_before (skip_passes c) hstart) he hseam
    rw [← hskip] at htake'
    have hrest := ih (hc.of_before (Cursor.Before.trans (skip_passes c) ⟨_, hcs⟩) he) hd
    rw [List.map_append]
    exact .cons htake' hrest

end Suffixes

section Mappings

def mappingBody : List (Expr Rule) :=
  [.rule .typeName, .maybe (.rule .identifier), .text ['=', '>'], .rule .typeName,
    .maybe (.rule .identifier)]

theorem takes_mappingType_iff :
    Takes grammar .spaced (.rule .mappingType) c d ns ↔
      ∃ e children, c.Passes "mapping".toList e ∧ e.char? isIdentifierChar = none ∧
        Takes grammar .spaced (enclosed .round mappingBody) (skip e) d children ∧
        ns = [⟨.mappingType, c, d, ⟨.keyword .mappingWord, c, e, []⟩ :: children⟩] := by
  rw [takes_rule_iff (by decide)]
  change (∃ children, Takes grammar .spaced (.seq (word .mappingWord) (enclosed .round mappingBody))
    c d children ∧ _) ↔ _
  constructor
  · rintro ⟨children, h, rfl⟩
    obtain ⟨e, ks, body, hword, hbody, rfl⟩ := takes_seq_iff.1 h
    obtain ⟨rfl, he, hend⟩ := keyword_of_takes hword
    exact ⟨e, body, he, hend, hbody, by simp⟩
  · rintro ⟨e, children, he, hend, hbody, rfl⟩
    exact ⟨_, takes_seq_iff.2 ⟨e, _, children, takes_keyword he hend, hbody, rfl⟩, rfl⟩

theorem takes_mappingType_spliced (h : Takes grammar .spaced (.rule .mappingType) c d ns)
    (hc : Facing old c) (hd : Ahead old d) (hseam : Seamless old new) :
    Takes grammar .spaced (.rule .mappingType) (spliced old new c) (spliced old new d)
      (ns.map (Node.carry (spliced old new))) := by
  obtain ⟨e, children, he, hend, hbody, rfl⟩ := takes_mappingType_iff.1 h
  have hkeeps : ∀ a ∈ mappingBody, keepsWithin .semicolon true a = true := by decide
  obtain ⟨cs, hcs⟩ := enclosed_text hkeeps hbody
  have hparen : (skip e).rest = '(' :: (cs ++ [')'] ++ d.rest) := hcs.1
  have hlen : old.length ≤ (cs ++ [')'] ++ d.rest).length := by
    have := hd.length_le
    simp only [List.length_append]
    omega
  have hopened : Ahead old (skip e) := hd.of_before ⟨_, hcs⟩
  have hword : Facing old e := hc.of_before ⟨_, he⟩ (hopened.of_before (skip_passes e))
  have hlt : old.length < e.rest.length := by
    have hle := Cursor.Before.length_le (skip_passes e)
    rw [hparen, List.length_cons] at hle
    omega
  refine takes_mappingType_iff.2 ⟨spliced old new e, children.map (Node.carry (spliced old new)),
    passes_spliced he hword.ahead, ?_, ?_, ?_⟩
  · rw [char?_spliced hword.ahead hlt, hend, Option.map_none]
  · rw [skip_spliced_solid hword hparen hlen (by decide) rfl]
    exact takes_enclosed_of_facing hkeeps hbody (hword.of_before (skip_passes e) hopened) hd hseam
  · simp [Node.carry, Node.carryAll_eq_map]

end Mappings

section Bases

/-- Where only a bracket can follow a name has come to its end. -/
theorem endsRun_of_skip {n : Nat} {rest : List Char}
    (h : ∀ x ∈ (skip ⟨n, rest⟩).rest.head?, x = '[') :
    EndsRun rest ∧ rest.head? ≠ some '.' := by
  cases rest with
  | nil => exact ⟨rfl, by simp⟩
  | cons y ys =>
    have hy : isIdentifierChar y = false ∧ y ≠ '.' := by
      by_cases hslash : y = '/'
      · subst hslash
        decide
      · cases hspace : isSpace y with
        | true =>
          simp only [isSpace, Bool.or_eq_true, beq_iff_eq] at hspace
          rcases hspace with ((rfl | rfl) | rfl) | rfl <;> decide
        | false =>
          rw [skip_solid n hslash hspace] at h
          cases h y rfl
          decide
    exact ⟨by simp [EndsRun, hy.1], by simpa using hy.2⟩

theorem text?_eq_none_of_head {x : Char} {xs : List Char} (h : c.rest.head? ≠ some x) :
    c.text? (x :: xs) = none := by
  obtain ⟨n, cs⟩ := c
  cases cs with
  | nil => rfl
  | cons y ys =>
    have hxy : x ≠ y := fun hxy => h (by simp [hxy])
    simp [Cursor.text?, hxy]

variable {ps : List (List Char)} {rest : List Char}

/-- A name is no mapping if no parenthesis follows it. -/
theorem fails_mappingType_of_dotted (hne : ps ≠ []) (hps : ∀ p ∈ ps, isIdentifier p = true)
    (hc : c.rest = dotted ps ++ rest) (hafter : ∀ n, ∀ x ∈ (skip ⟨n, rest⟩).rest.head?, x = '[') :
    Fails grammar .spaced (.rule .mappingType) c := by
  obtain ⟨x, hx⟩ := exists_yields .mappingType c
  cases x with
  | none => exact hx
  | some q =>
    obtain ⟨e, children, he, hend, hbody, -⟩ := takes_mappingType_iff.1 hx
    obtain ⟨f, -, hf, -⟩ := takes_enclosed_iff.1 hbody
    have hparen : (skip e).rest = '(' :: f.rest := hf.1
    obtain ⟨hrun, -⟩ := endsRun_of_skip (hafter 0)
    rcases dotted_eq_word hne hps hc hrun (by decide) he hend with ⟨-, hrest⟩ | hdot
    · obtain ⟨n, es⟩ := e
      cases hrest
      have hopen := hafter n '(' (by rw [hparen]; rfl)
      simp at hopen
    · obtain ⟨es, hrest⟩ := List.head?_eq_some_iff.1 hdot
      have hskip : skip e = e := skip_of_none (trivium?_eq_none hrest (by decide) rfl)
      rw [hskip, hrest] at hparen
      cases hparen

/-- A name is no payable address if the word `payable` does not follow it. -/
theorem fails_addressPayable_of_dotted (hne : ps ≠ []) (hps : ∀ p ∈ ps, isIdentifier p = true)
    (hc : c.rest = dotted ps ++ rest) (hafter : ∀ n, ∀ x ∈ (skip ⟨n, rest⟩).rest.head?, x = '[') :
    Fails grammar .spaced (.rule .addressPayable) c := by
  obtain ⟨x, hx⟩ := exists_yields .addressPayable c
  cases x with
  | none => exact hx
  | some q =>
    obtain ⟨-, -, gap, hgap, hspaces, hpass⟩ := takes_addressPayable_iff.1 hx
    obtain ⟨hrun, hdot⟩ := endsRun_of_skip (hafter 0)
    let e : Cursor := ⟨c.offset + Text.byteLength "address".toList,
      gap ++ ("payable".toList ++ q.1.rest)⟩
    have he : c.Passes "address".toList e := ⟨by rw [hpass.1]; simp [e], rfl⟩
    have hend : e.char? isIdentifierChar = none :=
      char?_of_endsRun (endsRun_spaces hgap hspaces _)
    rcases dotted_eq_word hne hps hc hrun (by decide) he hend with ⟨-, hrest⟩ | hdot'
    · -- behind the spaces comes the word `payable`
      have hword := hafter 0 'p' (by
        rw [← hrest, skip_spaces 0 hspaces]
        exact congrArg (fun d => d.rest.head?) (skip_solid (x := 'p') _ (by decide) rfl))
      simp at hword
    · cases gap with
      | nil => exact absurd rfl hgap
      | cons y ys =>
        cases hdot'
        simp [isSpace] at hspaces

/-- A base type in front of a splice is read again if no more than a suffix follows it. -/
theorem takes_baseType_spliced (h : Takes grammar .spaced baseType c d ns) (hc : Facing old c)
    (hd : Ahead old d) (hseam : Seamless old new)
    (hafter : ∀ n, ∀ x ∈ (skip ⟨n, (spliced old new d).rest⟩).rest.head?, x = '[') :
    Takes grammar .spaced baseType (spliced old new c) (spliced old new d)
      (ns.map (Node.carry (spliced old new))) := by
  obtain ⟨hrun, hdot⟩ := endsRun_of_skip (hafter 0)
  cases h with
  | choiceLeft hmapping => exact .choiceLeft (takes_mappingType_spliced hmapping hc hd hseam)
  | choiceRight _ h =>
    cases h with
    | choiceLeft haddress =>
      obtain ⟨rfl, -, gap, hgap, hspaces, hpass⟩ := takes_addressPayable_iff.1 haddress
      have hpass' : (spliced old new c).Passes _ (spliced old new d) := passes_spliced hpass hd
      refine .choiceRight ?_ (.choiceLeft (takes_addressPayable_iff.2
        ⟨rfl, char?_of_endsRun hrun, gap, hgap, hspaces, hpass'⟩))
      obtain ⟨x, hx⟩ := exists_yields .mappingType (spliced old new c)
      cases x with
      | none => exact hx
      | some q =>
        obtain ⟨e, _, he, -⟩ := takes_mappingType_iff.1 hx
        have hheads := hpass'.1.symm.trans he.1
        cases hheads
    | choiceRight _ hname =>
      obtain ⟨rfl, ps, hne, hps, hpass⟩ := dotted_of_takes hname
      have hpass' : (spliced old new c).Passes _ (spliced old new d) := passes_spliced hpass hd
      refine .choiceRight (fails_mappingType_of_dotted hne hps hpass'.1 hafter) (.choiceRight
        (fails_addressPayable_of_dotted hne hps hpass'.1 hafter) ((takes_rule_iff (by decide)).2
          ⟨[], takes_userTypeName hne hps hpass' (char?_of_endsRun hrun) ?_, rfl⟩))
      exact text?_eq_none_of_head hdot

end Bases

section Texts

theorem dotted_ends {ps : List (List Char)} (hne : ps ≠ []) :
    (∃ p ∈ ps, p <+: dotted ps) ∧ ∃ p ∈ ps, p <:+ dotted ps := by
  constructor
  · cases ps with
    | nil => exact absurd rfl hne
    | cons p ps => exact ⟨p, by simp, List.prefix_append _ _⟩
  · rcases List.eq_nil_or_concat ps with rfl | ⟨qs, q, rfl⟩
    · exact absurd rfl hne
    · refine ⟨q, by simp, ?_⟩
      cases qs with
      | nil => simp [dotted]
      | cons p qs => exact ⟨p ++ qs.flatMap ('.' :: ·) ++ ['.'], by simp [dotted]⟩

theorem baseType_text (h : Takes grammar .spaced baseType c d ns) :
    ∃ cs, c.Passes cs d ∧ Trimmed cs ∧ Settled cs := by
  have hends : ∀ {cs xs ys : List Char} {x y : Char}, cs = x :: xs → isIdentifierChar x = true →
      cs = ys ++ [y] → (isIdentifierChar y = true ∨ y = ')') → Trimmed cs ∧ Settled cs := by
    rintro cs xs ys x y hhead hx hlast hy
    have hend : Text.isBlank y = false ∧ y ≠ '*' ∧ y ≠ '\\' := by
      rcases hy with hy | rfl
      · refine ⟨isBlank_of_isIdentifierChar hy, ?_, ?_⟩ <;> rintro rfl <;> cases hy
      · decide
    refine ⟨⟨⟨x, xs, hhead, isBlank_of_isIdentifierChar hx⟩, ys, y, hlast, hend.1⟩, ?_⟩
    rw [hlast]
    exact settled_append_singleton ys hend.2.1 hend.2.2
  cases h with
  | choiceLeft hmapping =>
    obtain ⟨e, children, he, -, hbody, -⟩ := takes_mappingType_iff.1 hmapping
    obtain ⟨ws, hws⟩ := skip_passes e
    obtain ⟨cs, hcs⟩ := enclosed_text (by decide) hbody
    have hlast : "mapping".toList ++ (ws ++ '(' :: (cs ++ [')'])) =
        "mapping".toList ++ (ws ++ '(' :: cs) ++ [')'] := by simp
    exact ⟨_, he.trans (hws.trans hcs), hends (x := 'm') rfl rfl hlast (.inr rfl)⟩
  | choiceRight _ h =>
    cases h with
    | choiceLeft haddress =>
      obtain ⟨-, -, gap, -, -, hpass⟩ := takes_addressPayable_iff.1 haddress
      have hlast : "address".toList ++ (gap ++ "payable".toList) =
          "address".toList ++ (gap ++ "payabl".toList) ++ ['e'] := by simp
      exact ⟨_, hpass, hends (x := 'a') rfl rfl hlast (.inl rfl)⟩
    | choiceRight _ hname =>
      obtain ⟨-, ps, hne, hps, hpass⟩ := dotted_of_takes hname
      obtain ⟨⟨p, hp, more, hfirst⟩, q, hq, less, hlast⟩ := dotted_ends hne
      have hall := fun r hr => List.all_eq_true.1 (all_of_isIdentifier (hps r hr))
      cases p with
      | nil => cases hps _ hp
      | cons x xs =>
        rcases List.eq_nil_or_concat q with rfl | ⟨ys, y, rfl⟩
        · cases hps _ hq
        · rw [List.concat_eq_append, ← List.append_assoc] at hlast
          exact ⟨_, hpass, hends hfirst.symm (hall _ hp x (by simp)) hlast.symm
            (.inl (hall _ hq y (by simp)))⟩

end Texts

section Trimming

theorem trimRight_append (as bs : List Char) :
    Text.trimRight (as ++ bs) =
      if Text.trimRight bs = [] then Text.trimRight as else as ++ Text.trimRight bs := by
  simp only [Text.trimRight, Text.trimLeft, List.reverse_append, List.dropWhile_append,
    List.isEmpty_iff, List.reverse_eq_nil_iff]
  split <;> simp

theorem trimRight_eq_self {cs : List Char} {x : Char} (hx : Text.isBlank x = false) :
    Text.trimRight (cs ++ [x]) = cs ++ [x] := by
  rw [trimRight_append]
  simp [Text.trimRight, Text.trimLeft, hx]

theorem trimRight_initial (cs : List Char) : Text.trimRight cs <+: cs := by
  have h := List.dropWhile_suffix (l := cs.reverse) Text.isBlank
  rw [← List.reverse_prefix, List.reverse_reverse] at h
  exact h

theorem getLast?_trimRight (cs : List Char) :
    ∀ x ∈ (Text.trimRight cs).getLast?, Text.isBlank x = false := by
  intro x hx
  have hnot := List.head?_dropWhile_not Text.isBlank cs.reverse
  rw [Text.trimRight, List.getLast?_reverse] at hx
  rw [Text.trimLeft] at hx
  rw [hx] at hnot
  simpa using hnot

theorem trimChars_trimChars (cs : List Char) :
    Text.trimChars (Text.trimChars cs) = Text.trimChars cs := by
  have hleft : Text.trimLeft (Text.trimChars cs) = Text.trimChars cs := by
    obtain ⟨more, hmore⟩ := trimRight_initial (Text.trimLeft cs)
    cases hcs : Text.trimChars cs with
    | nil => rfl
    | cons x xs =>
      have hx := List.head?_dropWhile_not Text.isBlank cs
      have hhead : (cs.dropWhile Text.isBlank).head? = some x := by
        change Text.trimChars cs ++ more = cs.dropWhile Text.isBlank at hmore
        rw [← hmore, hcs]
        rfl
      rw [hhead] at hx
      simp [Text.trimLeft, hx]
  rw [Text.trimChars, hleft, Text.trimChars]
  simp [Text.trimRight, Text.trimLeft, List.dropWhile_idempotent]

theorem trimChars_append_of_trimmed {cs : List Char} (hc : Trimmed cs) (ds : List Char) :
    Text.trimChars (cs ++ ds) = cs ++ Text.trimRight ds := by
  obtain ⟨x, xs, rfl, hx⟩ := hc.head
  obtain ⟨ys, y, hlast, hy⟩ := hc.last
  have hleft : Text.trimLeft (x :: xs ++ ds) = x :: xs ++ ds := by simp [Text.trimLeft, hx]
  rw [Text.trimChars, hleft, trimRight_append]
  split
  · rename_i hnil
    rw [hnil, List.append_nil, hlast, trimRight_eq_self hy]
  · rfl

theorem trimRight_lineComment (body : List Char) :
    Text.trimRight (['/', '/'] ++ body) = '/' :: '/' :: Text.trimRight body := by
  rw [trimRight_append]
  split
  · rename_i hnil
    rw [hnil]
    change Text.trimRight (['/'] ++ ['/']) = ['/'] ++ ['/']
    exact trimRight_eq_self rfl
  · rfl

/-- Padding without the blanks at its end is still padding: what is cut off is spaces behind or
blanks inside of a line comment. -/
theorem padding_trimRight {cs rest : List Char} (h : Padding cs rest) :
    Padding (Text.trimRight cs) [] := by
  induction h with
  | nil => exact .nil _
  | @space x cs rest hx _ ih =>
    have hone : x :: cs = [x] ++ cs := rfl
    rw [hone, trimRight_append]
    split
    · have hnil : Text.trimRight [x] = [] := by
        simp [Text.trimRight, Text.trimLeft, isBlank_of_isSpace hx]
      rw [hnil]
      exact .nil _
    · exact .space hx ih
  | @line body cs rest hbody hend _ ih =>
    have hsplit : '/' :: '/' :: (body ++ cs) = ['/', '/'] ++ body ++ cs := rfl
    rw [hsplit, trimRight_append]
    split
    · -- the comment comes last and loses the blanks at its end
      have hbody' : ∀ x ∈ Text.trimRight body, isLineEnd x = false :=
        fun x hx => hbody x ((trimRight_initial body).subset hx)
      rw [trimRight_lineComment]
      simpa using Padding.line hbody' (by simp) (.nil [])
    · refine .line hbody (fun x hx => hend x ?_) ih
      obtain ⟨more, hmore⟩ := trimRight_initial cs
      rw [List.append_nil] at hx
      rw [← hmore, List.append_assoc, List.head?_append, hx]
      rfl
  | @block body cs rest hbody _ ih =>
    have hsplit : '/' :: '*' :: (body ++ '*' :: '/' :: cs) =
        '/' :: '*' :: (body ++ ['*']) ++ ['/'] ++ cs := by simp
    rw [hsplit, trimRight_append]
    split
    · rw [trimRight_eq_self rfl]
      simpa using Padding.block hbody (.nil [])
    · simpa using Padding.block hbody ih

end Trimming

section Alone

theorem takes_typeName_iff :
    Takes grammar .spaced (.rule .typeName) c d ns ↔
      ∃ e bases suffixes, Takes grammar .spaced baseType c e bases ∧
        Takes grammar .spaced (.many (.rule .arraySuffix)) (skip e) d suffixes ∧
        ns = [⟨.typeName, c, d, bases ++ suffixes⟩] := by
  rw [takes_rule_iff (by decide)]
  constructor
  · rintro ⟨children, h, rfl⟩
    obtain ⟨e, bases, suffixes, hbase, hsuffixes, rfl⟩ := takes_seq_iff.1 h
    exact ⟨e, bases, suffixes, hbase, hsuffixes, rfl⟩
  · rintro ⟨e, bases, suffixes, hbase, hsuffixes, rfl⟩
    exact ⟨_, takes_seq_iff.2 ⟨e, bases, suffixes, hbase, hsuffixes, rfl⟩, rfl⟩

theorem fails_arraySuffix_nil (n : Nat) : Fails grammar .spaced (.rule .arraySuffix) ⟨n, []⟩ :=
  .ruleFail (.seqFirst (.textFail rfl))

theorem steps_arraySuffix_text {e : Cursor} {ns' : List Tree}
    (h : Takes grammar .spaced (.rule .arraySuffix) (skip c) e ns)
    (hs : Steps grammar (.rule .arraySuffix) e ns' d) :
    ∃ cs, (skip c).Passes ('[' :: (cs ++ [']'])) d := by
  induction hs generalizing c ns with
  | nil => exact arraySuffix_text h
  | @cons e _ _ _ _ hnext _ ih =>
    obtain ⟨cs, hcs⟩ := arraySuffix_text h
    obtain ⟨ws, hws⟩ := skip_passes e
    obtain ⟨zs, hzs⟩ := ih hnext
    refine ⟨cs ++ [']'] ++ ws ++ '[' :: zs, ?_⟩
    have hall := (hcs.trans hws).trans hzs
    simpa using hall

/-- A type without suffixes is read again from its text without the blanks at the end. -/
theorem takes_typeName_bare {e : Cursor} {cs pad : List Char}
    (h : Takes grammar .spaced baseType c e ns) (hcs : c.Passes cs e) (hsettled : Settled cs)
    (hpad : e.Passes pad (skip e)) (hpadding : Padding pad (skip e).rest) :
    Takes grammar .spaced (.rule .typeName) (spliced e.rest (Text.trimRight pad) c)
      ⟨e.offset + Text.byteLength (Text.trimRight pad), []⟩
      [⟨.typeName, spliced e.rest (Text.trimRight pad) c,
        ⟨e.offset + Text.byteLength (Text.trimRight pad), []⟩,
        ns.map (Node.carry (spliced e.rest (Text.trimRight pad)))⟩] := by
  have hprefix : Text.trimRight pad <+: e.rest :=
    (trimRight_initial pad).trans (hpad.1 ▸ List.prefix_append pad _)
  have he : spliced e.rest (Text.trimRight pad) e = ⟨e.offset, Text.trimRight pad⟩ :=
    spliced_of_eq (a := []) rfl
  have hend : ∀ n, skip ⟨n, Text.trimRight pad⟩ = ⟨n + Text.byteLength (Text.trimRight pad), []⟩ := by
    intro n
    have hskip := (padding_trimRight hpadding).skip n
    rwa [List.append_nil] at hskip
  have hbase := takes_baseType_spliced h ⟨cs, hcs.1, hsettled⟩ ⟨[], rfl⟩
    (seamless_of_initial hprefix) (by simp [he, hend])
  rw [he] at hbase
  refine takes_typeName_iff.2 ⟨_, _, [], hbase, ?_, by rw [List.append_nil]⟩
  rw [hend]
  exact .manyNot (fails_arraySuffix_nil _)

theorem takes_typeName_suffixed {e f : Cursor} {bases first more : List Tree}
    (h : Takes grammar .spaced baseType c e bases) (hc : Facing d.rest c)
    (hfirst : Takes grammar .spaced (.rule .arraySuffix) (skip e) f first)
    (hmore : Steps grammar (.rule .arraySuffix) f more d) :
    Takes grammar .spaced (.rule .typeName) (spliced d.rest [] c) ⟨d.offset, []⟩
      [⟨.typeName, spliced d.rest [] c, ⟨d.offset, []⟩,
        (bases ++ (first ++ more)).map (Node.carry (spliced d.rest []))⟩] := by
  have hseam : Seamless d.rest [] := seamless_of_initial (List.nil_prefix)
  obtain ⟨cs, hcs⟩ := steps_arraySuffix_text hfirst hmore
  have hstart : Ahead d.rest (skip e) := ⟨_, hcs.1⟩
  have he : Facing d.rest e :=
    hc.of_before (h.passes grammar_bounded.skips) (hstart.of_before (skip_passes e))
  have hlen : d.rest.length ≤ (cs ++ [']'] ++ d.rest).length := by
    simp only [List.length_append]
    omega
  have hskip : skip (spliced d.rest [] e) = spliced d.rest [] (skip e) :=
    skip_spliced_solid he hcs.1 hlen (by decide) rfl
  have hbase := takes_baseType_spliced h hc he.ahead hseam (by
    intro n x hx
    have hrest : (spliced d.rest [] (skip e)).rest = '[' :: (cs ++ [']'] ++ []) := by
      rw [spliced_of_eq hcs.1]
      rfl
    rw [skip_rest_eq n (spliced d.rest [] e).offset, hskip, hrest] at hx
    exact (Option.some.inj hx).symm)
  have hsteps : Steps grammar (.rule .arraySuffix) (skip e) (first ++ more) d := by
    refine .cons ?_ hmore
    change Takes grammar .spaced (.rule .arraySuffix) (skip (skip e)) f first
    rwa [skip_skip]
  have hsteps' := steps_arraySuffix_spliced hsteps (he.of_before (skip_passes e) hstart)
    ⟨[], rfl⟩ hseam
  have hd : spliced d.rest [] d = ⟨d.offset, []⟩ := spliced_of_eq (a := []) rfl
  rw [hd, ← hskip] at hsteps'
  have hmany := (takes_many_iff (skip_skip _)).2 ⟨hsteps', fails_arraySuffix_nil _⟩
  exact takes_typeName_iff.2 ⟨_, _, _, hbase, hmany, by rw [List.map_append]⟩

/-- A type is read in the same way from its trimmed text alone. Its nodes are carried over by a
splice behind them. -/
theorem takes_typeName_alone {t : Tree} (h : Takes grammar .spaced (.rule .typeName) c d [t]) :
    ∃ old new e, Ahead old e ∧ Chained c t.children e ∧
      spliced old new c = ⟨c.offset, Text.trimChars t.text⟩ ∧
      Takes grammar .spaced (.rule .typeName) ⟨c.offset, Text.trimChars t.text⟩
        ⟨c.offset + Text.byteLength (Text.trimChars t.text), []⟩
        [⟨.typeName, ⟨c.offset, Text.trimChars t.text⟩,
          ⟨c.offset + Text.byteLength (Text.trimChars t.text), []⟩,
          t.children.map (Node.carry (spliced old new))⟩] := by
  obtain ⟨e, bases, suffixes, hbase, hsuffixes, hnode⟩ := takes_typeName_iff.1 h
  cases hnode
  obtain ⟨cs, hcs, htrimmed, hsettled⟩ := baseType_text hbase
  obtain ⟨hsteps, -⟩ := (takes_many_iff (skip_skip _)).1 hsuffixes
  cases hsteps with
  | nil =>
    obtain ⟨pad, hpad, hpadding⟩ := skip_padding e
    have htext : Text.trimChars (c.upTo (skip e)) = cs ++ Text.trimRight pad := by
      rw [(hcs.trans hpad).upTo, trimChars_append_of_trimmed htrimmed]
    have hbare := takes_typeName_bare hbase hcs hsettled hpad hpadding
    have hstart : spliced e.rest (Text.trimRight pad) c = ⟨c.offset, cs ++ Text.trimRight pad⟩ :=
      spliced_of_eq hcs.1
    have hstop : e.offset + Text.byteLength (Text.trimRight pad) =
        c.offset + Text.byteLength (cs ++ Text.trimRight pad) := by
      rw [hcs.2, Text.byteLength_append, Nat.add_assoc]
    rw [hstart, hstop] at hbare
    simp only [Node.text, htext, List.append_nil]
    exact ⟨e.rest, Text.trimRight pad, e, ⟨[], rfl⟩, hbase.chained grammar_bounded.skips, hstart,
      hbare⟩
  | @cons _ f _ first more hfirst hmore =>
    have hfirst' : Takes grammar .spaced (.rule .arraySuffix) (skip e) f first := by
      rw [← skip_skip e]
      exact hfirst
    obtain ⟨zs, hzs⟩ := steps_arraySuffix_text hfirst' hmore
    obtain ⟨ws, hws⟩ := skip_passes e
    have hpass : c.Passes (cs ++ (ws ++ '[' :: (zs ++ [']']))) d := hcs.trans (hws.trans hzs)
    have hlast : ws ++ '[' :: (zs ++ [']']) = ws ++ '[' :: zs ++ [']'] := by simp
    have htext : Text.trimChars (c.upTo d) = cs ++ (ws ++ '[' :: (zs ++ [']'])) := by
      rw [hpass.upTo, trimChars_append_of_trimmed htrimmed, hlast, trimRight_eq_self rfl]
    have hfacing : Facing d.rest c := by
      refine ⟨_, hpass.1, ?_⟩
      rw [hlast, ← List.append_assoc]
      exact settled_append_singleton _ (by decide) (by decide)
    have hsuffixed := takes_typeName_suffixed hbase hfacing hfirst' hmore
    have hstart : spliced d.rest [] c = ⟨c.offset, cs ++ (ws ++ '[' :: (zs ++ [']']))⟩ := by
      rw [spliced_of_eq hpass.1, List.append_nil]
    rw [hstart, hpass.2] at hsuffixed
    simp only [Node.text, htext]
    obtain ⟨-, hchained, -⟩ := (h.chained grammar_bounded.skips).of_mem (List.mem_singleton_self _)
    exact ⟨d.rest, [], d, ⟨[], rfl⟩, hchained, hstart, hsuffixed⟩

end Alone

end SolidityStubs.Source
