import SolidityStubs.Proofs.Source.Commenting

/-! # Reading a source with one more comment

Each item of a source is read again when a comment is put behind a harmless space, with its
positions mapped. The texts of names, words and import paths stay.
-/
namespace SolidityStubs.Source

open Peg

section Course

/-- A character that can be a space can be a slash as well, so padding is skipped in front of it. -/
def shunsSpaces : Expr Rule → Bool
  | .char accept => accept '/' || [' ', '\t', '\r', '\n'].all (! accept ·)
  | .text _ | .rule _ => true
  | .seq a e | .choice a e => shunsSpaces a && shunsSpaces e
  | .maybe a | .many a | .never a => shunsSpaces a

def taskShunsSpaces : Peg.Task Rule → Bool
  | .once e | .again e => shunsSpaces e

/-- Only the rules that join words by spaces take a space. -/
theorem production_shunsSpaces : ∀ r ∈ Rule.all, r ∉ joiningRules →
    shunsSpaces (production r).body = true := by
  decide

theorem accept_of_shunsSpaces {accept : Char → Bool} {w : Char} (hw : isSpace w = true)
    (h : shunsSpaces (.char accept) = true) (hslash : accept '/' = false) : accept w = false := by
  simp only [shunsSpaces, hslash, Bool.false_or, List.all_cons, List.all_nil, Bool.and_true,
    Bool.and_eq_true, Bool.not_eq_true'] at h
  simp only [isSpace, Bool.or_eq_true, beq_iff_eq] at hw
  rcases hw with ((rfl | rfl) | rfl) | rfl
  · exact h.1
  · exact h.2.1
  · exact h.2.2.1
  · exact h.2.2.2

variable {source : String} {n : Tree} {m : Mode} {t : Peg.Task Rule} {c d : Cursor}

structure Course (source : String) (n : Tree) (m : Mode) (t : Peg.Task Rule) (c : Cursor) :
    Prop where
  flows : Flows (borderOf n.rule) (Scans (borderOf n.rule) ([], n.start)) m t c
  comes : ComesTo grammar (wholeSource source) ⟨m, t, c⟩
  shuns : taskShunsSpaces t = true

theorem Course.calls {x y : Stage Rule} (h : Calls grammar x y)
    (hx : ∀ r, x.task = .once (.rule r) → r ≠ .stringLiteral ∧ r ∉ joiningRules)
    (hcourse : Course source n x.mode x.task x.place) : Course source n y.mode y.task y.place where
  flows := Flows.calls (fun hp hq => hp.trans hq) h (fun heq => (hx _ heq).1 rfl) hcourse.flows
  comes := hcourse.comes.tail h
  shuns := by
    have hshuns := hcourse.shuns
    cases h with
    | seqFirst | choiceFirst =>
      simp only [taskShunsSpaces, shunsSpaces, Bool.and_eq_true] at hshuns ⊢
      exact hshuns.1
    | seqSecond | choiceSecond =>
      simp only [taskShunsSpaces, shunsSpaces, Bool.and_eq_true] at hshuns ⊢
      exact hshuns.2
    | maybe | never | many | manyMore | again | againMore => exact hshuns
    | @rule m r c => exact production_shunsSpaces r r.mem_all (hx r rfl).2

theorem Course.calls_of_not_atomic {x y : Stage Rule} (h : Calls grammar x y)
    (hx : ∀ r, x.task = .once (.rule r) → (grammar.production r).shape ≠ .atomic)
    (hcourse : Course source n x.mode x.task x.place) : Course source n y.mode y.task y.place := by
  have hatomic : ∀ r ∈ Rule.stringLiteral :: joiningRules,
      (grammar.production r).shape = .atomic := by decide
  refine hcourse.calls h fun r hr => ?_
  have hmem : r ∉ Rule.stringLiteral :: joiningRules := fun hmem => hx r hr (hatomic r hmem)
  simpa using hmem

theorem Course.origin_before (h : Course source n m t c) : (origin source).Before c :=
  ComesTo.before grammar_bounded.skips h.comes

theorem textExit_spaceFree {b : Border} {enclosed : Bool} {cs : List Char} {f : Flow} {x : Exit}
    (h : textExit b enclosed cs f = some x) : spaceFree cs = true := by
  induction cs generalizing f with
  | nil => rfl
  | cons y ys ih =>
    simp only [textExit, Option.ite_none_left_eq_some, not_or, Bool.not_eq_true] at h
    obtain ⟨⟨-, hspace, -⟩, h⟩ := h
    have hys : spaceFree ys = true := by
      split at h
      · simp only [Option.ite_none_right_eq_some, List.isEmpty_iff] at h
        rw [h.1]
        rfl
      · split at h
        · exact ih h
        · cases h
    simpa [spaceFree, hspace] using hys

end Course

def namingRules : List Rule :=
  [.identifier, .userTypeName, .stateVariableAttribute, .contractKind, .importPath]

def KeepsText (φ : Cursor → Cursor) (n : Tree) : Prop :=
  n.rule ∈ namingRules → (n.carry φ).text = n.text

theorem keepsText_of_not_mem {φ : Cursor → Cursor} {n : Tree} (h : n.rule ∉ namingRules) :
    KeepsText φ n := fun hn => absurd hn h

namespace Spot

variable {source : String} {root n : Tree} {before after : List Char} {w : Char} {m : Mode}
  {t : Peg.Task Rule} {c d : Cursor} {cs : List Char} (s : Spot source root before w after)
  (hroot : tree source = .ok root) (harmless : Harmless source root before)

include hroot

/-- Inside of an item the reading of a source goes from piece to piece. -/
theorem walks_of_scans (hn : n ∈ root.children) (hr : n.rule ∈ itemRules)
    (hpragma : n.rule ≠ .pragmaDirective) (hstart : Walks root (origin source) n.start)
    {closers : List Char} (h : Scans (borderOf n.rule) ([], n.start) (closers, c)) :
    Walks root (origin source) c ∧ ∀ v ∈ pragmaValues root, v.start ≠ c := by
  obtain ⟨hwalks, hlt, -⟩ := item_scans hroot hn hr hpragma h
  refine ⟨hstart.trans hwalks, ?_⟩
  have hfree := freeOfValues_item hroot hn hpragma
  exact (hfree.mono (Scans.before h).offset_le (Nat.le_refl _)).start_ne hlt

include s harmless

theorem carries_commenting (hn : n ∈ root.children) (hr : n.rule ∈ itemRules)
    (hpragma : n.rule ≠ .pragmaDirective) (hstart : Walks root (origin source) n.start) :
    Carries grammar (commenting before w after) (Course source n) := by
  have hskip : ∀ (m : Mode) {closers : List Char} {c : Cursor},
      Scans (borderOf n.rule) ([], n.start) (closers, c) →
        m.skip grammar (commenting before w after c) =
          commenting before w after (m.skip grammar c) := by
    intro m closers c h
    cases m with
    | tight => rfl
    | spaced =>
      exact s.skip_commenting hroot harmless (walks_of_scans hroot hn hr hpragma hstart h).1
  refine Carries.of_calls ?_ ?_ ?_ ?_ ?_ ?_
  · intro x y hcalls hrule h
    exact h.calls hcalls fun r hr => absurd hr (hrule r)
  · intro m accept c h
    refine s.char?_commenting h.origin_before fun hplace => ?_
    obtain ⟨enclosed, base, f, x, hx, hf, -⟩ := h.flows
    refine accept_of_shunsSpaces s.space h.shuns ?_
    -- no padding starts where a slash is taken, but the space is padding
    cases hslash : accept '/' with
    | false => rfl
    | true =>
      exfalso
      obtain rfl := s.eq_place h.origin_before hplace
      simp only [taskFlow, flow, charExit, Option.ite_none_left_eq_some, Bool.or_eq_true,
        Bool.and_eq_true, not_or, not_and, hslash, Bool.not_eq_true', Bool.not_eq_false,
        forall_const] at hx
      have hclear := hf.clear hx.1.1.1.2
      rw [trivium?_of_isSpace rfl s.space] at hclear
      cases hclear
  · intro m cs c h
    obtain ⟨enclosed, base, f, x, hx, -, -⟩ := h.flows
    exact s.text?_commenting (textExit_spaceFree hx) h.origin_before
  · intro m a e c d ns h hd
    obtain ⟨closers, hscan⟩ := h.flows.on_stop (fun hp hq => hp.trans hq) hd
    exact hskip m hscan
  · intro m a c h
    obtain ⟨closers, hscan⟩ := h.flows.on_place
    exact hskip m hscan
  · intro m r c h
    by_cases hjoin : r ∈ joiningRules
    · have hident : ∀ r ∈ joiningRules, r ≠ .identifier := by decide
      obtain rfl := h.flows.spaced_of_rule (hident r hjoin)
      refine .inr fun x hx => s.joined_commenting hjoin h.origin_before (fun d ns hd => ?_) hx
      exact harmless.apart r hjoin c d ns h.comes hd
    · by_cases hstring : r = .stringLiteral
      · subst hstring
        obtain ⟨closers, hscan⟩ := h.flows.on_place
        obtain rfl := h.flows.spaced_of_rule (by decide)
        obtain ⟨hwalks, hvalues⟩ := walks_of_scans hroot hn hr hpragma hstart hscan
        exact .inr fun x hx => stringLiteral_carry (s.string?_commenting hroot hwalks hvalues) hx
      · refine .inl (Course.calls (x := ⟨m, .once (.rule r), c⟩) .rule (fun r' hr' => ?_) h)
        cases hr'
        exact ⟨hstring, hjoin⟩

omit hroot harmless in
theorem text_carry (hc : (origin source).Before n.start) (h : n.start.Passes cs n.stop)
    (hapart : n.stop.offset ≤ Text.byteLength before ∨ Text.byteLength before < n.start.offset) :
    (n.carry (commenting before w after)).text = n.text := by
  simp only [Node.text, Node.carry_start, Node.carry_stop]
  rw [h.upTo, (s.passes_commenting hc h hapart).upTo]

omit hroot harmless in
theorem text_carry_of_spaceFree (hc : (origin source).Before n.start)
    (h : n.start.Passes cs n.stop) (hcs : spaceFree cs = true) :
    (n.carry (commenting before w after)).text = n.text :=
  s.text_carry hc h (s.apart_of_spaceFree hc h hcs)

theorem keepsText (hn : n ∈ root.children) (hr : n.rule ∈ itemRules)
    (hpragma : n.rule ≠ .pragmaDirective) (hstart : Walks root (origin source) n.start) {k : Tree}
    (hcourse : Course source n .spaced (.once (.rule k.rule)) k.start)
    (h : Takes grammar .spaced (.rule k.rule) k.start k.stop [k]) :
    KeepsText (commenting before w after) k := by
  intro hk
  simp only [namingRules, List.mem_cons, List.not_mem_nil, or_false] at hk
  rcases hk with hk | hk | hk | hk | hk <;> rw [hk] at h hcourse
  · obtain ⟨-, ⟨p, hp, hpass⟩, -⟩ := takes_identifier_iff.1 h
    refine s.text_carry_of_spaceFree hcourse.origin_before hpass (List.all_eq_true.2 fun x hx => ?_)
    rw [isSpace_of_isIdentifierChar (List.all_eq_true.1 (all_of_isIdentifier hp) x hx)]
    rfl
  · obtain ⟨-, ps, -, hps, hpass⟩ := dotted_of_takes h
    refine s.text_carry_of_spaceFree hcourse.origin_before hpass (List.all_eq_true.2 fun x hx => ?_)
    rcases mem_dotted (fun p hp => all_of_isIdentifier (hps p hp)) hx with hx | rfl
    · rw [isSpace_of_isIdentifierChar hx]
      rfl
    · rfl
  · obtain ⟨children, hbody, -⟩ := (takes_rule_iff (by decide)).1 h
    obtain ⟨-, -, v, hv, hpass⟩ := (takes_oneOfWords_iff (by decide) (by decide)).1 hbody
    have hwords : ∀ v ∈ attributeWords, spaceFree v.toList = true := by decide
    exact s.text_carry_of_spaceFree hcourse.origin_before hpass (hwords v hv)
  · obtain ⟨-, -, cs, -, hpass⟩ := takes_contractKind_iff.1 h
    exact s.text_carry hcourse.origin_before hpass
      (harmless.apart .contractKind (by decide) _ _ _ hcourse.comes h)
  · -- a path is one string, which the space does not stand in
    obtain ⟨children, hbody, -⟩ := (takes_rule_iff (by decide)).1 h
    have hstring : string? k.start = some k.stop := by
      have hy := hbody.unique (stringLiteral_yields k.start)
      cases hd : string? k.start with
      | none => simp [hd] at hy
      | some d => simp_all
    obtain ⟨closers, hscan⟩ := hcourse.flows.on_place
    obtain ⟨hwalks, hvalues⟩ := walks_of_scans hroot hn hr hpragma hstart hscan
    obtain ⟨x, xs, -, hpass⟩ := string?_passes hstring
    exact s.text_carry hcourse.origin_before hpass (s.string?_apart hroot hwalks hvalues hstring)

omit s harmless in
theorem comesTo_item (hn : n ∈ root.children) :
    ComesTo grammar (wholeSource source) ⟨.spaced, .once (.rule n.rule), n.start⟩ := by
  obtain ⟨d, h⟩ := tree_eq_ok_iff.1 hroot
  obtain ⟨children, hbody, hnode⟩ := (takes_rule_iff (by decide)).1 h
  obtain rfl := List.singleton_inj.1 hnode
  exact .head .rule (hbody.comesTo_of_mem hn)

/-- A pragma is read again: the space is not in its value. -/
theorem takes_pragma_commenting (hn : n ∈ root.children) (hr : n.rule = .pragmaDirective)
    (hstart : Walks root (origin source) n.start) :
    Takes grammar .spaced (.rule .pragmaDirective) (commenting before w after n.start)
      (commenting before w after n.stop) [n.carry (commenting before w after)] ∧
      n.Every (KeepsText (commenting before w after)) := by
  have htakes := takes_of_mem_children hroot hn
  rw [hr] at htakes
  obtain ⟨e, f, x, xs, hword, hend, hvalue, hall, hsemi, hnode⟩ :=
    takes_pragmaDirective_iff.1 htakes
  have hnode := List.singleton_inj.1 hnode
  obtain ⟨hfirst, hpiece, hlast⟩ := pragma_walks hroot hn hword hvalue hsemi hnode
  have he : Walks root (origin source) e := hstart.trans hfirst
  have hse : Walks root (origin source) (skip e) := he.trans (walks_skip hroot e)
  have hskip := s.skip_commenting hroot harmless he
  constructor
  · refine takes_pragmaDirective_iff.2 ⟨commenting before w after e, commenting before w after f,
      x, xs, ?_, ?_, ?_, hall, ?_, ?_⟩
    · exact s.passes_commenting (hstart.before hroot) hword
        (s.apart_of_spaceFree (hstart.before hroot) hword (by decide))
    · rw [s.char?_commenting (he.before hroot) fun _ => s.isIdentifierChar_eq_false, hend]
      rfl
    · rw [hskip]
      refine s.passes_commenting (hse.before hroot) hvalue ?_
      rcases hse.apart hroot s.between hpiece with hle | hge
      · exact .inl hle
      · rcases Nat.lt_or_eq_of_le hge with hlt | heq
        · exact .inr hlt
        · have hclear := trivium?_skip e
          rw [s.eq_place (hse.before hroot) heq.symm, trivium?_of_isSpace rfl s.space] at hclear
          cases hclear
    · have hf := hse.tail hpiece
      exact s.passes_commenting (Walks.before hroot hf) hsemi
        (s.apart_of_spaceFree (Walks.before hroot hf) hsemi (by decide))
    · rw [hnode]
      simp [Node.carry, Node.carryAll, hskip]
  · refine .intro (keepsText_of_not_mem (by rw [hr]; decide)) ?_
    rw [hnode]
    intro k hk
    simp only [List.mem_cons, List.not_mem_nil, or_false] at hk
    rcases hk with rfl | rfl
    · exact .intro (keepsText_of_not_mem (by simp [namingRules])) (by simp)
    · exact .intro (keepsText_of_not_mem (by simp [namingRules])) (by simp)

theorem takes_item_commenting (hn : n ∈ root.children) (hr : n.rule ∈ itemRules)
    (hstart : Walks root (origin source) n.start) :
    Takes grammar .spaced sourceItem (commenting before w after n.start)
      (commenting before w after n.stop) [n.carry (commenting before w after)] ∧
      n.Every (KeepsText (commenting before w after)) := by
  by_cases hpragma : n.rule = .pragmaDirective
  · obtain ⟨htakes, hkeeps⟩ := s.takes_pragma_commenting hroot harmless hn hpragma hstart
    exact ⟨takes_sourceItem_of_takes_rule (by decide) htakes, hkeeps⟩
  · have hcourse : Course source n .spaced (.once (.rule n.rule)) n.start :=
      ⟨⟨false, [], .start, .border, item_flow _ hr hpragma, Flow.start_holds _, .refl⟩,
        comesTo_item hroot hn, rfl⟩
    have htakes := takes_of_mem_children hroot hn
    refine ⟨takes_sourceItem_of_takes_rule hr (Takes.carry
      (s.carries_commenting hroot harmless hn hr hpragma hstart) htakes hcourse), ?_⟩
    refine htakes.every (fun k hk hkt => ?_) n (by simp)
    exact s.keepsText hroot harmless hn hr hpragma hstart
      (ComesTo.of_calls Course.calls_of_not_atomic hk rfl hcourse) hkt

theorem steps_commenting {ns : List Tree} (h : Steps grammar sourceItem c ns d)
    (hns : ∀ n ∈ ns, n ∈ root.children) (hc : Walks root (origin source) c) :
    Steps grammar sourceItem (commenting before w after c)
        (ns.map (Node.carry (commenting before w after))) (commenting before w after d) ∧
      Walks root (origin source) d ∧ ∀ n ∈ ns, n.Every (KeepsText (commenting before w after)) := by
  induction h with
  | nil c => exact ⟨.nil _, hc, by simp⟩
  | @cons c d e ns ns' ht hs ih =>
    obtain ⟨r, hr, hrule⟩ := takes_rule_of_takes_sourceItem ht
    obtain ⟨children, -, rfl⟩ := (takes_rule_iff (itemRules_show r hr)).1 hrule
    have hmem := hns _ (List.mem_append_left _ (List.mem_singleton.2 rfl))
    have hskip : Walks root (origin source) (skip c) := hc.trans (walks_skip hroot c)
    obtain ⟨htakes, hkeeps⟩ := s.takes_item_commenting hroot harmless hmem hr hskip
    obtain ⟨hsteps, hd, hrest⟩ := ih (fun n hn => hns n (List.mem_append_right _ hn))
      (hskip.trans (item_walks hroot hmem hr))
    refine ⟨?_, hd, ?_⟩
    · rw [List.map_append]
      have hpadding : grammar.skip (commenting before w after c) =
          commenting before w after (skip c) := s.skip_commenting hroot harmless hc
      exact .cons (hpadding ▸ htakes) hsteps
    · intro n hn
      rcases List.mem_append.1 hn with hn | hn
      · cases List.mem_singleton.1 hn
        exact hkeeps
      · exact hrest n hn

/-- The source with the comment is read like the source without it. -/
theorem tree_commented :
    tree (commented before w after) = .ok (root.carry (commenting before w after)) ∧
      root.Every (KeepsText (commenting before w after)) := by
  obtain ⟨items, e, hsteps, hfails, hempty, hnode⟩ := tree_eq_ok_iff_steps.1 hroot
  have hchildren : root.children = items ++ [⟨.endOfInput, skip e, skip e, []⟩] := by rw [hnode]
  obtain ⟨hsteps', he, hkeeps⟩ := s.steps_commenting hroot harmless hsteps
    (fun n hn => by rw [hchildren]; exact List.mem_append_left _ hn) .refl
  have hskip := s.skip_commenting hroot harmless he
  -- the end of the source lies behind the space
  have hbehind : Text.byteLength before < (skip e).offset := by
    have hbefore : (origin source).Before (skip e) := (he.before hroot).trans (skip_passes e)
    rcases Nat.lt_or_ge (Text.byteLength before) (skip e).offset with hlt | hle
    · exact hlt
    · obtain ⟨a, ha, -⟩ := s.exists_front hbefore hle
      rw [hempty] at ha
      simp at ha
  constructor
  · refine tree_eq_ok_iff_steps.2 ⟨_, commenting before w after e,
      s.commenting_origin ▸ hsteps', ?_, ?_, ?_⟩
    · rw [hskip, commenting_behind hbehind]
      exact Yields.carry (carries_moved_grammar 0 5) hfails (Nat.zero_le _)
    · rw [hskip, commenting_behind hbehind]
      exact hempty
    · rw [hnode, hskip]
      simp [Node.carry, Node.carryAll_eq_map, s.commenting_origin]
  · refine .intro (keepsText_of_not_mem (by rw [hnode]; simp [namingRules])) fun n hn => ?_
    rw [hchildren] at hn
    rcases List.mem_append.1 hn with hn | hn
    · exact hkeeps n hn
    · rw [List.mem_singleton.1 hn]
      exact .intro (keepsText_of_not_mem (by simp [namingRules])) (by simp)

end Spot

end SolidityStubs.Source
