import Mathlib.Data.List.Infix
import SolidityStubs.Proofs.Source.Pieces
import SolidityStubs.Proofs.Source.Renamed
import SolidityStubs.Proofs.Source.Reported

/-! # A comment behind a space

A comment and a second space are put behind a space of a source. What stands in front of the comment
is read as before and what stands behind it is moved, unless the comment comes between two words
that a rule joins by spaces alone or closes a comment that was left open.
-/
namespace SolidityStubs.Source

open Peg

def comment : List Char := ['/', '*', '*', '/']

/-- The text with a comment behind the space `w`, and the space once more. -/
def commented (before : List Char) (w : Char) (after : List Char) : String :=
  String.ofList (before ++ w :: (comment ++ w :: after))

/-- A space of a source outside of strings, comments and the values of pragmas. -/
structure Spot (source : String) (root : Tree) (before : List Char) (w : Char) (after : List Char) :
    Prop where
  text : source.toList = before ++ w :: after
  space : isSpace w = true
  between : Walks root (origin source) ⟨Text.byteLength before, w :: after⟩

def reachesWithin (depth steps : Nat) (source : String) (c : Cursor) : Bool :=
  (treeWithin depth source).any fun root => walk root steps (origin source) = some c

theorem exists_spot (depth steps : Nat) {source : String} {before after : List Char} {w : Char}
    (htext : source.toList = before ++ w :: after) (hspace : isSpace w = true)
    (h : reachesWithin depth steps source ⟨Text.byteLength before, w :: after⟩ = true) :
    ∃ root, tree source = .ok root ∧ Spot source root before w after := by
  obtain ⟨root, hroot, hwalk⟩ := Option.any_eq_true _ _ |>.1 h
  exact ⟨root, tree_eq_ok_of_treeWithin hroot, htext, hspace,
    walks_of_walk (of_decide_eq_true hwalk)⟩

def joiningRules : List Rule := [.contractKind, .addressPayable]

/-- A comment behind the space changes neither what stands before it nor how words are joined. -/
structure Spot.Harmless (source : String) (root : Tree) (before : List Char) : Prop where
  /-- All comments that are opened before the space are closed. -/
  closed : ∀ c rest, Walks root (origin source) c → c.offset ≤ Text.byteLength before →
    c.rest = '/' :: '*' :: rest → trivium? c ≠ none
  /-- The space is not one of those that join two words. -/
  apart : ∀ r ∈ joiningRules, ∀ c d ns,
    ComesTo grammar (wholeSource source) ⟨.spaced, .once (.rule r), c⟩ →
    Takes grammar .spaced (.rule r) c d ns →
    d.offset ≤ Text.byteLength before ∨ Text.byteLength before < c.offset

def commenting (before : List Char) (w : Char) (after : List Char) (c : Cursor) : Cursor :=
  if c.offset ≤ Text.byteLength before then spliced after (comment ++ w :: after) c else c.moved 0 5

section Words

variable {c d : Cursor} {cs : List Char} {ns : List Tree} {r : Rule}

def Joined (r : Rule) (cs : List Char) : Prop :=
  match r with
  | .contractKind => cs ∈ ["contract", "library", "interface"].map String.toList ∨
      ∃ gap, gap ≠ [] ∧ gap.all isSpace = true ∧
        cs = "abstract".toList ++ (gap ++ "contract".toList)
  | .addressPayable =>
      ∃ gap, gap ≠ [] ∧ gap.all isSpace = true ∧ cs = "address".toList ++ (gap ++ "payable".toList)
  | _ => False

theorem takes_seq_assoc {a b e : Expr Rule} :
    Takes grammar .tight (.seq (.seq a b) e) c d ns ↔
      Takes grammar .tight (.seq a (.seq b e)) c d ns := by
  constructor
  · intro h
    obtain ⟨f, _, _, hab, he, rfl⟩ := takes_seq_iff.1 h
    obtain ⟨g, _, _, ha, hb, rfl⟩ := takes_seq_iff.1 hab
    rw [List.append_assoc]
    exact .seq ha (.seq hb he)
  · intro h
    obtain ⟨f, _, _, ha, hbe, rfl⟩ := takes_seq_iff.1 h
    obtain ⟨g, _, _, hb, he, rfl⟩ := takes_seq_iff.1 hbe
    rw [← List.append_assoc]
    exact .seq (.seq ha hb) he

theorem takes_contractKind_iff :
    Takes grammar .spaced (.rule .contractKind) c d ns ↔
      ns = [⟨.contractKind, c, d, []⟩] ∧ d.char? isIdentifierChar = none ∧
        ∃ cs, Joined .contractKind cs ∧ c.Passes cs d := by
  have hplain {ns : List Tree} :
      Takes grammar .tight (oneOfWords ["contract", "library", "interface"]) c d ns ↔
        ns = [] ∧ d.char? isIdentifierChar = none ∧
          ∃ v ∈ ["contract", "library", "interface"], c.Passes v.toList d :=
    takes_oneOfWords_iff (by decide) (by decide)
  have habstract {ns : List Tree} : Takes grammar .tight
      (.seq (.all [.literal "abstract", spaces, .literal "contract"]) wordEnd) c d ns ↔
        ns = [] ∧ d.char? isIdentifierChar = none ∧ ∃ gap, gap ≠ [] ∧ gap.all isSpace = true ∧
          c.Passes ("abstract".toList ++ (gap ++ "contract".toList)) d := by
    have hcontract : "contract".toList = 'c' :: "ontract".toList := rfl
    refine Iff.trans ?_ (takes_spacedWords_iff hcontract rfl)
    refine takes_seq_assoc.trans ?_
    rw [takes_seq_iff, takes_seq_iff]
    exact exists_congr fun _ => exists_congr fun _ => exists_congr fun _ =>
      and_congr_right fun _ => and_congr_left fun _ => takes_seq_assoc
  rw [takes_rule_iff (by decide)]
  constructor
  · rintro ⟨children, h, rfl⟩
    obtain ⟨e, _, _, hkind, hend, rfl⟩ := takes_seq_iff.1 h
    cases hkind with
    | choiceLeft hkind =>
      obtain ⟨hns, hnone, gap, hne, hgap, hpass⟩ := habstract.1 (.seq hkind hend)
      exact ⟨by rw [hns], hnone, _, .inr ⟨gap, hne, hgap, rfl⟩, hpass⟩
    | choiceRight _ hkind =>
      obtain ⟨hns, hnone, v, hv, hpass⟩ := hplain.1 (.seq hkind hend)
      exact ⟨by rw [hns], hnone, _, .inl (List.mem_map_of_mem hv), hpass⟩
  · rintro ⟨rfl, hend, cs, hcs | ⟨gap, hne, hgap, rfl⟩, hpass⟩
    · obtain ⟨v, hv, rfl⟩ := List.mem_map.1 hcs
      obtain ⟨e, _, _, hkind, hend', hns⟩ := takes_seq_iff.1 (hplain.2 ⟨rfl, hend, v, hv, hpass⟩)
      have hfails :
          Fails grammar .tight (.all [.literal "abstract", spaces, .literal "contract"]) c := by
        refine .seqFirst (.textFail ?_)
        obtain ⟨n, rest⟩ := c
        have hrest : rest = v.toList ++ d.rest := hpass.1
        rw [hrest]
        simp only [List.mem_cons, List.not_mem_nil, or_false] at hv
        rcases hv with rfl | rfl | rfl <;> rfl
      exact ⟨[], hns ▸ .seq (.choiceRight hfails hkind) hend', rfl⟩
    · obtain ⟨e, _, _, hkind, hend', hns⟩ :=
        takes_seq_iff.1 (habstract.2 ⟨rfl, hend, gap, hne, hgap, hpass⟩)
      exact ⟨[], hns ▸ .seq (.choiceLeft hkind) hend', rfl⟩

theorem takes_joined_iff (hr : r ∈ joiningRules) :
    Takes grammar .spaced (.rule r) c d ns ↔
      ns = [⟨r, c, d, []⟩] ∧ d.char? isIdentifierChar = none ∧
        ∃ cs, Joined r cs ∧ c.Passes cs d := by
  simp only [joiningRules, List.mem_cons, List.not_mem_nil, or_false] at hr
  rcases hr with rfl | rfl
  · exact takes_contractKind_iff
  · rw [takes_addressPayable_iff]
    refine and_congr_right fun _ => and_congr_right fun _ => ?_
    constructor
    · rintro ⟨gap, hne, hgap, hpass⟩
      exact ⟨_, ⟨gap, hne, hgap, rfl⟩, hpass⟩
    · rintro ⟨_, ⟨gap, hne, hgap, rfl⟩, hpass⟩
      exact ⟨gap, hne, hgap, hpass⟩

theorem Joined.chars (h : Joined r cs) :
    '/' ∉ cs ∧ ∃ as x, cs = as ++ [x] ∧ isIdentifierChar x = true := by
  have hgap : ∀ {gap v u : List Char} {x : Char}, gap.all isSpace = true → '/' ∉ v →
      '/' ∉ u ++ [x] → isIdentifierChar x = true → '/' ∉ v ++ (gap ++ (u ++ [x])) ∧
        ∃ as y, v ++ (gap ++ (u ++ [x])) = as ++ [y] ∧ isIdentifierChar y = true := by
    intro gap v u x hgap hv hu hx
    refine ⟨fun hmem => ?_, v ++ (gap ++ u), x, by simp, hx⟩
    rcases List.mem_append.1 hmem with hmem | hmem
    · exact hv hmem
    · rcases List.mem_append.1 hmem with hmem | hmem
      · cases List.all_eq_true.1 hgap _ hmem
      · exact hu hmem
  cases r with
  | contractKind =>
    rcases h with h | ⟨gap, -, hspaces, rfl⟩
    · simp only [List.map_cons, List.map_nil, List.mem_cons, List.not_mem_nil, or_false] at h
      rcases h with rfl | rfl | rfl
      · exact ⟨by decide, "contrac".toList, 't', rfl, rfl⟩
      · exact ⟨by decide, "librar".toList, 'y', rfl, rfl⟩
      · exact ⟨by decide, "interfac".toList, 'e', rfl, rfl⟩
    · exact hgap (u := "contrac".toList) (x := 't') hspaces (by decide) (by decide) rfl
  | addressPayable =>
    obtain ⟨gap, -, hspaces, rfl⟩ := h
    exact hgap (u := "payabl".toList) (x := 'e') hspaces (by decide) (by decide) rfl
  | _ => cases h

def spaceFree (cs : List Char) : Bool :=
  cs.all fun x => !isSpace x

theorem not_mem_of_spaceFree {w : Char} (hw : isSpace w = true) (h : spaceFree cs = true) :
    w ∉ cs := by
  intro hmem
  have := List.all_eq_true.1 h w hmem
  rw [hw] at this
  cases this

theorem second_of_gap {v gap u a b : List Char} {w : Char} (hw : isSpace w = true)
    (hgap : gap.all isSpace = true) (hv : spaceFree v = true) (hu : spaceFree u = true)
    (h : v ++ (gap ++ u) = a ++ w :: b) :
    ∃ gap', gap'.all isSpace = true ∧ b = gap' ++ u := by
  obtain ⟨as, hrest⟩ : ∃ as, gap ++ u = as ++ w :: b := by
    rcases List.append_eq_append_iff.1 h with ⟨as, -, hrest⟩ | ⟨bs, rfl, hrest⟩
    · exact ⟨as, hrest⟩
    · cases bs with
      | nil => exact ⟨[], by simpa using hrest.symm⟩
      | cons x bs =>
        rw [List.cons_append, List.cons.injEq] at hrest
        exact absurd (by simp [hrest.1]) (not_mem_of_spaceFree hw hv)
  rcases List.append_eq_append_iff.1 hrest with ⟨as', -, rfl⟩ | ⟨gs, rfl, hgs⟩
  · exact absurd (by simp) (not_mem_of_spaceFree hw hu)
  · cases gs with
    | nil =>
      rw [List.nil_append] at hgs
      exact absurd (by simp [← hgs]) (not_mem_of_spaceFree hw hu)
    | cons x gs =>
      rw [List.cons_append, List.cons.injEq] at hgs
      simp only [List.all_append, List.all_cons, Bool.and_eq_true] at hgap
      exact ⟨gs, hgap.2.2, hgs.2⟩

theorem Joined.second {a b : List Char} {w : Char} (h : Joined r (a ++ w :: b))
    (hw : isSpace w = true) :
    ∃ u ∈ ["contract", "payable"], ∃ gap, gap.all isSpace = true ∧ b = gap ++ u.toList := by
  cases r with
  | contractKind =>
    rcases h with h | ⟨gap, -, hgap, h⟩
    · have hwords : ∀ cs ∈ ["contract", "library", "interface"].map String.toList,
          spaceFree cs = true := by decide
      exact absurd (by simp) (not_mem_of_spaceFree hw (hwords _ h))
    · exact ⟨"contract", by simp, second_of_gap hw hgap (by decide) (by decide) h.symm⟩
  | addressPayable =>
    obtain ⟨gap, -, hgap, h⟩ := h
    exact ⟨"payable", by simp, second_of_gap hw hgap (by decide) (by decide) h.symm⟩
  | _ => cases h

theorem front_of_append_eq {a rest rest' : List Char} {x : Char} (h : a ++ x :: rest = cs ++ rest')
    (hx : x ∉ cs) : ∃ bs, a = cs ++ bs ∧ rest' = bs ++ x :: rest := by
  rcases List.append_eq_append_iff.1 h with ⟨bs, hbs, hrest⟩ | hfront
  · cases bs with
    | nil => exact ⟨[], by simp [hbs], by simpa using hrest.symm⟩
    | cons z bs =>
      rw [List.cons_append, List.cons.injEq] at hrest
      exact absurd (by simp [hbs, hrest.1]) hx
  · exact hfront

end Words

namespace Spot

variable {source : String} {root : Tree} {before after : List Char} {w : Char} {c d : Cursor}
  {cs : List Char}

theorem commenting_front {a : List Char} (hc : c.rest = a ++ w :: after)
    (hle : c.offset ≤ Text.byteLength before) :
    commenting before w after c = ⟨c.offset, a ++ w :: (comment ++ w :: after)⟩ := by
  have hrest : c.rest = (a ++ [w]) ++ after := by simp [hc]
  rw [commenting, if_pos hle, spliced_of_eq hrest]
  simp

theorem commenting_behind (hlt : Text.byteLength before < c.offset) :
    commenting before w after c = c.moved 0 5 := if_neg (Nat.not_le.2 hlt)

variable (s : Spot source root before w after)

include s

theorem isIdentifierChar_eq_false : isIdentifierChar w = false := by
  cases hx : isIdentifierChar w with
  | false => rfl
  | true =>
    have := isSpace_of_isIdentifierChar hx
    rw [s.space] at this
    cases this

theorem isQuote_eq_false : isQuote w = false := by
  cases hq : isQuote w with
  | false => rfl
  | true =>
    simp only [isQuote, Bool.or_eq_true, beq_iff_eq] at hq
    rcases hq with rfl | rfl <;> cases s.space

theorem settled_append (a : List Char) : Settled (a ++ [w]) :=
  settled_append_singleton a (by rintro rfl; cases s.space) (by rintro rfl; cases s.space)

theorem origin_before : (origin source).Before ⟨Text.byteLength before, w :: after⟩ :=
  ⟨before, s.text, by simp [Cursor.ofText]⟩

theorem exists_front (hc : (origin source).Before c) (hle : c.offset ≤ Text.byteLength before) :
    ∃ a, c.rest = a ++ w :: after ∧ Text.byteLength before = c.offset + Text.byteLength a := by
  obtain ⟨a, ha, hoff⟩ := hc.of_offset_le s.origin_before hle
  exact ⟨a, ha, hoff⟩

theorem commenting_origin :
    commenting before w after (origin source) = origin (commented before w after) := by
  rw [commenting_front s.text (Nat.zero_le _)]
  simp [Cursor.ofText, commented]

theorem passes_commenting (hc : (origin source).Before c) (h : c.Passes cs d)
    (hapart : d.offset ≤ Text.byteLength before ∨ Text.byteLength before < c.offset) :
    (commenting before w after c).Passes cs (commenting before w after d) := by
  have hle := Cursor.Before.offset_le ⟨cs, h⟩
  rcases hapart with hd | hlt
  · obtain ⟨a, ha, -⟩ := s.exists_front (hc.trans ⟨_, h⟩) hd
    have hrest : c.rest = (cs ++ a) ++ w :: after := by rw [h.1, ha, List.append_assoc]
    rw [commenting_front ha hd, commenting_front hrest (Nat.le_trans hle hd)]
    exact ⟨by simp, h.2⟩
  · rw [commenting_behind hlt, commenting_behind (Nat.lt_of_lt_of_le hlt hle)]
    exact h.moved (Nat.zero_le _)

theorem exists_split (hc : (origin source).Before c) (h : c.Passes cs d)
    (hle : c.offset ≤ Text.byteLength before) (hlt : Text.byteLength before < d.offset) :
    ∃ a b, cs = a ++ w :: b ∧ after = b ++ d.rest := by
  obtain ⟨a, ha, hoff⟩ := s.exists_front hc hle
  have hlen := h.2
  rcases List.append_eq_append_iff.1 (h.1.symm.trans ha) with ⟨bs, rfl, -⟩ | ⟨bs, rfl, hbs⟩
  · rw [Text.byteLength_append] at hoff
    omega
  · cases bs with
    | nil =>
      simp only [List.append_nil] at hlen
      omega
    | cons y bs =>
      rw [List.cons_append, List.cons.injEq] at hbs
      exact ⟨a, bs, by rw [hbs.1], hbs.2⟩

theorem apart_of_spaceFree (hc : (origin source).Before c) (h : c.Passes cs d)
    (hcs : spaceFree cs = true) :
    d.offset ≤ Text.byteLength before ∨ Text.byteLength before < c.offset := by
  by_contra hcon
  rw [not_or, Nat.not_le, Nat.not_lt] at hcon
  obtain ⟨a, b, rfl, -⟩ := s.exists_split hc h hcon.2 hcon.1
  exact not_mem_of_spaceFree s.space hcs (by simp)

theorem eq_place (hc : (origin source).Before c) (h : c.offset = Text.byteLength before) :
    c = ⟨Text.byteLength before, w :: after⟩ :=
  Cursor.Before.eq_of_offset_eq hc s.origin_before h

theorem char?_commenting {accept : Char → Bool} (hc : (origin source).Before c)
    (hw : c.offset = Text.byteLength before → accept w = false) :
    (commenting before w after c).char? accept =
      (c.char? accept).map (commenting before w after) := by
  rcases Nat.lt_or_ge (Text.byteLength before) c.offset with hlt | hle
  · rw [commenting_behind hlt, Cursor.char?_moved (Nat.zero_le _)]
    cases hd : c.char? accept with
    | none => rfl
    | some d =>
      obtain ⟨x, -, hp⟩ := Cursor.char?_passes hd
      have hle := Cursor.Before.offset_le ⟨_, hp⟩
      rw [Option.map_some, Option.map_some, commenting_behind (Nat.lt_of_lt_of_le hlt hle)]
  · obtain ⟨a, ha, hoff⟩ := s.exists_front hc hle
    rw [commenting_front ha hle]
    obtain ⟨n, rest⟩ := c
    simp only at ha hoff hle
    subst ha
    cases a with
    | nil =>
      have := hw (by simp [hoff])
      simp [Cursor.char?, this]
    | cons x a =>
      cases hx : accept x with
      | false => simp [Cursor.char?, hx]
      | true =>
        have hle' : n + x.utf8Size ≤ Text.byteLength before := by
          rw [Text.byteLength_cons] at hoff
          omega
        simp only [List.cons_append, Cursor.char?, hx, ↓reduceIte, Option.map_some]
        rw [commenting_front (c := ⟨n + x.utf8Size, a ++ w :: after⟩) rfl hle']

theorem text?_commenting (hcs : spaceFree cs = true) (hc : (origin source).Before c) :
    (commenting before w after c).text? cs = (c.text? cs).map (commenting before w after) := by
  induction cs generalizing c with
  | nil => rfl
  | cons y ys ih =>
    have hy : (y == w) = false := by
      rw [beq_eq_false_iff_ne]
      rintro rfl
      exact not_mem_of_spaceFree s.space hcs (by simp)
    rw [Cursor.text?_cons, Cursor.text?_cons, s.char?_commenting hc fun _ => hy]
    cases hd : c.char? (y == ·) with
    | none => rfl
    | some d =>
      obtain ⟨x, -, hp⟩ := Cursor.char?_passes hd
      have hys : spaceFree ys = true := by
        simp only [spaceFree, List.all_cons, Bool.and_eq_true] at hcs
        exact hcs.2
      exact ih hys (hc.trans ⟨_, hp⟩)

theorem joined_behind {r : Rule} (hcs : Joined r cs) (hc : (origin source).Before c)
    (h : c.Passes cs d) (hle : c.offset ≤ Text.byteLength before)
    (hlt : Text.byteLength before < d.offset) :
    ∃ u ∈ ["contract", "payable"], u.toList <+: after.dropWhile isSpace := by
  obtain ⟨a, b, rfl, hb⟩ := s.exists_split hc h hle hlt
  obtain ⟨u, hu, gap, hgap, rfl⟩ := hcs.second s.space
  refine ⟨u, hu, ?_⟩
  have hstart : ∀ u ∈ ["contract", "payable"], ∀ cs, (u.toList ++ cs).dropWhile isSpace =
      u.toList ++ cs := by
    intro u hu cs
    simp only [List.mem_cons, List.not_mem_nil, or_false] at hu
    rcases hu with rfl | rfl <;> rfl
  rw [hb, List.append_assoc, List.dropWhile_append_of_pos (List.all_eq_true.1 hgap), hstart u hu]
  exact ⟨d.rest, rfl⟩

/-- A space is harmless if all comments of the source are closed and neither `contract` nor
`payable` is the next word behind the space. -/
theorem harmless_of_text
    (hclosed : ∀ cs ∈ source.toList.tails, cs.take 2 = ['/', '*'] → blockEnd? 0 (cs.drop 2) ≠ none)
    (hnext : ∀ u ∈ ["contract", "payable"], ¬ u.toList <+: after.dropWhile isSpace)
    (hroot : tree source = .ok root) : Harmless source root before where
  closed := by
    intro c rest hc hle hrest
    obtain ⟨a, ha, -⟩ := hc.before hroot
    have hmem : c.rest ∈ source.toList.tails := (List.mem_tails _ _).2 ⟨a, ha.symm⟩
    have hsome := hclosed _ hmem (by simp [hrest])
    obtain ⟨n, cs⟩ := c
    simp only at hrest
    subst hrest
    have hmoved : blockEnd? (0 - 0 + (n + 2)) rest = _ := blockEnd?_moved (Nat.le_refl 0) rest
    rw [Nat.zero_add] at hmoved
    intro hnone
    rw [trivium?_slash, if_neg (by decide), if_pos rfl, hmoved, Option.map_eq_none_iff] at hnone
    exact hsome hnone
  apart := by
    intro r hr c d ns hcomes htakes
    obtain ⟨-, -, cs, hcs, hpass⟩ := (takes_joined_iff hr).1 htakes
    have hc : (origin source).Before c := ComesTo.before grammar_bounded.skips hcomes
    by_contra hcon
    rw [not_or, Nat.not_le, Nat.not_lt] at hcon
    obtain ⟨u, hu, hfollows⟩ := s.joined_behind hcs hc hpass hcon.2 hcon.1
    exact hnext u hu hfollows

/-- Behind the space there is a comment, and the space once more. -/
theorem skip_commenting_place :
    skip (commenting before w after ⟨Text.byteLength before, w :: after⟩) =
      skip (Cursor.moved 0 5 ⟨Text.byteLength before + w.utf8Size, after⟩) := by
  have hw := utf8Size_of_isSpace s.space
  rw [commenting_front (a := []) rfl (Nat.le_refl _), List.nil_append,
    skip_of_some (trivium?_of_isSpace rfl s.space)]
  have hcomment : trivium? ⟨Text.byteLength before + w.utf8Size, comment ++ w :: after⟩ =
      some ⟨Text.byteLength before + w.utf8Size + 4, w :: after⟩ := rfl
  rw [skip_of_some hcomment, skip_of_some (trivium?_of_isSpace rfl s.space)]
  simp only [Cursor.moved, hw]
  rfl

theorem stringEnd?_comment {quote : Char} {n : Nat} (hquote : isQuote quote = true)
    (hopen : stringEnd? quote n after = none) (n' : Nat) :
    stringEnd? quote n' (comment ++ w :: after) = none := by
  have hslash : '/' ≠ quote := by
    rintro rfl
    cases hquote
  have hstar : '*' ≠ quote := by
    rintro rfl
    cases hquote
  have hspace : w ≠ quote := by
    rintro rfl
    rw [s.isQuote_eq_false] at hquote
    cases hquote
  have hnone : ∀ k, stringEnd? quote k after = none := by
    intro k
    have hmoved : stringEnd? quote (n - n + k) after = _ := stringEnd?_moved (Nat.le_refl n) after
    rwa [hopen, Nat.sub_self, Nat.zero_add, Option.map_none] at hmoved
  simp only [comment, List.cons_append, List.nil_append]
  rw [stringEnd?_other hslash (by decide), stringEnd?_other hstar (by decide),
    stringEnd?_other hstar (by decide), stringEnd?_other hslash (by decide),
    stringEnd?_other hspace (by rintro rfl; cases s.space)]
  exact hnone _

/-- Joined words that start in front of the comment end there, as they have no slash. So they stand
in the source as well. -/
theorem takes_joined_of_commenting {r : Rule} (hr : r ∈ joiningRules)
    (hc : (origin source).Before c) (hle : c.offset ≤ Text.byteLength before) {d' : Cursor} {ns : List Tree}
    (h : Takes grammar .spaced (.rule r) (commenting before w after c) d' ns) :
    ∃ d ns', Takes grammar .spaced (.rule r) c d ns' := by
  obtain ⟨-, hend, cs, hcs, hpass⟩ := (takes_joined_iff hr).1 h
  obtain ⟨hslash, as, y, rfl, hy⟩ := hcs.chars
  obtain ⟨a, ha, -⟩ := s.exists_front hc hle
  rw [commenting_front ha hle] at hpass
  have htext : (a ++ [w]) ++ '/' :: ('*' :: '*' :: '/' :: w :: after) =
      (as ++ [y]) ++ d'.rest := by
    rw [← hpass.1]
    simp [comment]
  obtain ⟨bs, hbs, hrest⟩ := front_of_append_eq htext hslash
  cases bs with
  | nil =>
    -- the words would end with the space
    rw [List.append_nil] at hbs
    have hyw := (List.append_inj' hbs rfl).2
    simp only [List.cons.injEq, and_true] at hyw
    rw [← hyw, s.isIdentifierChar_eq_false] at hy
    cases hy
  | cons z bs =>
    have hcrest : c.rest = (as ++ [y]) ++ (z :: bs ++ after) := by
      have : c.rest = (a ++ [w]) ++ after := by simp [ha]
      rw [this, hbs, List.append_assoc]
    have hz : isIdentifierChar z = false := by
      obtain ⟨n, rest⟩ := d'
      simp only at hrest
      subst hrest
      simpa [Cursor.char?] using hend
    have hpass' : c.Passes (as ++ [y])
        ⟨c.offset + Text.byteLength (as ++ [y]), z :: bs ++ after⟩ := ⟨hcrest, rfl⟩
    exact ⟨_, _, (takes_joined_iff hr).2
      ⟨rfl, by simp [Cursor.char?, hz], as ++ [y], hcs, hpass'⟩⟩

/-- Words that a rule joins by spaces are read as before, unless the comment comes between them. -/
theorem joined_commenting {r : Rule} (hr : r ∈ joiningRules) (hc : (origin source).Before c)
    (hapart : ∀ d ns, Takes grammar .spaced (.rule r) c d ns →
      d.offset ≤ Text.byteLength before ∨ Text.byteLength before < c.offset)
    {x : Reading Rule} (h : Yields grammar .spaced (.once (.rule r)) c x) :
    Yields grammar .spaced (.once (.rule r)) (commenting before w after c)
      (Reading.carry (commenting before w after) x) := by
  cases x with
  | some p =>
    obtain ⟨d, ns⟩ := p
    obtain ⟨rfl, hend, cs, hcs, hpass⟩ := (takes_joined_iff hr).1 h
    have hend' : (commenting before w after d).char? isIdentifierChar = none := by
      rw [s.char?_commenting (hc.trans ⟨_, hpass⟩) fun _ => s.isIdentifierChar_eq_false, hend]
      rfl
    exact (takes_joined_iff hr).2
      ⟨rfl, hend', cs, hcs, s.passes_commenting hc hpass (hapart d _ h)⟩
  | none =>
    obtain ⟨y, hy⟩ := exists_yields r (commenting before w after c)
    cases y with
    | none => exact hy
    | some p =>
      exfalso
      rcases Nat.lt_or_ge (Text.byteLength before) c.offset with hlt | hle
      · have hmoved := Yields.carry (carries_moved_grammar 0 5) h (Nat.zero_le _)
        rw [commenting_behind hlt] at hy
        cases hy.unique hmoved
      · obtain ⟨d, ns', htakes⟩ := s.takes_joined_of_commenting hr hc hle hy
        cases h.unique htakes

variable (hroot : tree source = .ok root) (harmless : Harmless source root before)

include hroot harmless

/-- Where no padding starts, none starts in the text with the comment. -/
theorem trivium?_commenting_of_none (hc : Walks root (origin source) c)
    (hle : c.offset ≤ Text.byteLength before) (h : trivium? c = none) :
    trivium? (commenting before w after c) = none := by
  obtain ⟨a, ha, -⟩ := s.exists_front (hc.before hroot) hle
  rw [commenting_front ha hle]
  cases a with
  | nil =>
    rw [trivium?_of_isSpace ha s.space] at h
    cases h
  | cons x a =>
    by_cases hx : x = '/'
    · subst hx
      -- the character behind the slash is in front of the comment as well
      obtain ⟨y, ys, ys', hys, hys'⟩ : ∃ y ys ys', a ++ w :: after = y :: ys ∧
          a ++ w :: (comment ++ w :: after) = y :: ys' := by
        cases a with
        | nil => exact ⟨w, _, _, rfl, rfl⟩
        | cons y a => exact ⟨y, _, _, rfl, rfl⟩
      rw [List.cons_append, hys] at ha
      obtain ⟨n, rest⟩ := c
      simp only at ha
      subst ha
      have hstar : y ≠ '*' := by
        rintro rfl
        exact harmless.closed _ ys hc hle rfl h
      rw [trivium?_slash] at h
      rw [List.cons_append, hys', trivium?_slash]
      split at h
      · cases h
      · rename_i hslash
        rw [if_neg hslash, if_neg hstar]
    · cases hspace : isSpace x with
      | true =>
        rw [trivium?_of_isSpace ha hspace] at h
        cases h
      | false => exact trivium?_eq_none rfl hx hspace

theorem skip_commenting (hc : Walks root (origin source) c) :
    skip (commenting before w after c) = commenting before w after (skip c) := by
  induction c using skip_induction with
  | stop c h =>
    rw [skip_of_none h]
    refine skip_of_none ?_
    rcases Nat.lt_or_ge (Text.byteLength before) c.offset with hlt | hle
    · rw [commenting_behind hlt, trivium?_moved (Nat.zero_le _), h]
      rfl
    · exact s.trivium?_commenting_of_none hroot harmless hc hle h
  | step c d h ih =>
    have hpiece := piece?_of_trivium hroot h
    have hd : Walks root (origin source) d := .tail hc hpiece
    have hcd := (piece?_before hroot hpiece).offset_le
    rcases hc.apart hroot s.between hpiece with hle | hge
    · -- the piece ends in front of the space
      obtain ⟨a, ha, -⟩ := s.exists_front (hd.before hroot) hle
      obtain ⟨b, hb, -⟩ := s.exists_front (hc.before hroot) (Nat.le_trans hcd hle)
      have hrest : c.rest = (b ++ [w]) ++ after := by simp [hb]
      have hsome : trivium? (commenting before w after c) = some (commenting before w after d) := by
        rw [commenting, commenting, if_pos hle, if_pos (Nat.le_trans hcd hle)]
        exact trivium?_spliced h hrest (s.settled_append b) ⟨a ++ [w], by simp [ha]⟩
          (.inl (by simp only [ha, List.length_append, List.length_cons]; omega))
      rw [skip_of_some hsome, skip_of_some h]
      exact ih hd
    · have hbehind : Text.byteLength before < d.offset := by
        obtain ⟨x, xs, hp⟩ := trivium?_passes h
        have := x.utf8Size_pos
        simp only at hge
        rw [hp.2, Text.byteLength_cons]
        omega
      have hskip : commenting before w after (skip d) = (skip d).moved 0 5 :=
        commenting_behind (Nat.lt_of_lt_of_le hbehind (Cursor.Before.offset_le (skip_passes d)))
      rw [skip_of_some h, hskip, ← skip_moved (Nat.zero_le _)]
      rcases Nat.lt_or_ge (Text.byteLength before) c.offset with hlt | hle
      · rw [commenting_behind hlt, skip_moved (Nat.zero_le _), skip_of_some h,
          skip_moved (Nat.zero_le _)]
      · obtain rfl := s.eq_place (hc.before hroot) (Nat.le_antisymm hle hge)
        rw [trivium?_of_isSpace rfl s.space] at h
        cases h
        exact s.skip_commenting_place

omit s hroot harmless in
theorem piece?_of_string (hvalues : ∀ v ∈ pragmaValues root, v.start ≠ c)
    (h : string? c = some d) : piece? root c = some d := by
  rw [piece?_of_forall_ne hvalues, lexeme?_of_string h]

omit harmless in
theorem string?_apart (hc : Walks root (origin source) c)
    (hvalues : ∀ v ∈ pragmaValues root, v.start ≠ c) (h : string? c = some d) :
    d.offset ≤ Text.byteLength before ∨ Text.byteLength before < c.offset := by
  refine (hc.apart hroot s.between (piece?_of_string hvalues h)).imp_right fun hge => ?_
  refine Nat.lt_of_le_of_ne hge fun heq => ?_
  obtain rfl := s.eq_place (hc.before hroot) heq.symm
  have hnone := trivium?_of_string? h
  rw [trivium?_of_isSpace rfl s.space] at hnone
  cases hnone

omit harmless in
theorem string?_commenting (hc : Walks root (origin source) c)
    (hvalues : ∀ v ∈ pragmaValues root, v.start ≠ c) :
    string? (commenting before w after c) = (string? c).map (commenting before w after) := by
  have hpiece : ∀ d, string? c = some d → piece? root c = some d :=
    fun d hd => piece?_of_string hvalues hd
  have hw := s.isQuote_eq_false
  rcases Nat.lt_or_ge (Text.byteLength before) c.offset with hlt | hle
  · rw [commenting_behind hlt, string?_moved (Nat.zero_le _)]
    refine Option.map_congr fun d hd => ?_
    have hcd := (piece?_before hroot (hpiece d hd)).offset_le
    rw [commenting_behind (Nat.lt_of_lt_of_le hlt hcd)]
  · obtain ⟨a, ha, hoff⟩ := s.exists_front (hc.before hroot) hle
    cases a with
    | nil =>
      rw [commenting_front ha hle, string?_eq_none (c := c) ha hw]
      exact string?_eq_none rfl hw
    | cons x a =>
      have hlt : c.offset < Text.byteLength before := by
        have := x.utf8Size_pos
        rw [Text.byteLength_cons] at hoff
        omega
      have hfront : ∀ d, string? c = some d → d.offset ≤ Text.byteLength before := by
        intro d hd
        rcases s.string?_apart hroot hc hvalues hd with h | h
        · exact h
        · omega
      have hrest : c.rest = (x :: a ++ [w]) ++ after := by simp [ha]
      rw [commenting, if_pos hle, string?_spliced hrest (by simp) (s.settled_append (x :: a))]
      · refine Option.map_congr fun d hd => ?_
        rw [commenting, if_pos (hfront d hd)]
      · intro quote n n' hquote hopen
        exact s.stringEnd?_comment hquote hopen n'
      · intro d hd
        have hbefore := (hc.before hroot).trans (piece?_before hroot (hpiece d hd))
        obtain ⟨b, hb, -⟩ := s.exists_front hbefore (hfront d hd)
        simp only [hb, List.length_append, List.length_cons]
        omega

end Spot

end SolidityStubs.Source
