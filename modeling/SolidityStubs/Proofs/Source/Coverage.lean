import SolidityStubs.Proofs.Source.Edit
import SolidityStubs.Proofs.Source.Spans

/-! # Nothing of a source is lost

Declarations stand one behind the other with nothing but padding around them: the items in the
source, and the members between the braces of their contract. So whatever else is written there
belongs to one declaration.
-/
namespace SolidityStubs

open Peg Source

namespace Source

/-- Spaces and whole comments in front of the text `rest`. A line comment reaches up to the end of
its line or of the text, a block comment up to the first mark that closes it. -/
inductive Padding : List Char → List Char → Prop
  | nil (rest : List Char) : Padding [] rest
  | space {x : Char} {cs rest : List Char} (hx : isSpace x = true) (h : Padding cs rest) :
      Padding (x :: cs) rest
  | line {body cs rest : List Char} (hbody : ∀ x ∈ body, isLineEnd x = false)
      (hend : ∀ x ∈ (cs ++ rest).head?, isLineEnd x = true) (h : Padding cs rest) :
      Padding ('/' :: '/' :: (body ++ cs)) rest
  | block {body cs rest : List Char} (hbody : ¬ ['*', '/'] <:+: body ++ ['*'])
      (h : Padding cs rest) : Padding ('/' :: '*' :: (body ++ '*' :: '/' :: cs)) rest

section Padding

variable {c d e : Cursor} {cs : List Char}

theorem lineEnd_body (n : Nat) (cs : List Char) :
    ∃ body, Cursor.Passes ⟨n, cs⟩ body (lineEnd n cs) ∧ ∀ x ∈ body, isLineEnd x = false := by
  induction cs generalizing n with
  | nil => exact ⟨[], .refl _, by simp⟩
  | cons x xs ih =>
    by_cases hx : isLineEnd x = true
    · refine ⟨[], ?_, by simp⟩
      simpa [lineEnd, hx] using Cursor.Passes.refl ⟨n, x :: xs⟩
    · obtain ⟨body, hpasses, hbody⟩ := ih (n + x.utf8Size)
      have hone : Cursor.Passes ⟨n, x :: xs⟩ [x] ⟨n + x.utf8Size, xs⟩ := ⟨rfl, by simp⟩
      refine ⟨x :: body, by simpa [lineEnd, hx] using hone.trans hpasses, ?_⟩
      simpa using ⟨by simpa using hx, hbody⟩

/-- The mark that closes a block comment is the first one. -/
theorem blockEnd?_body {n : Nat} (h : blockEnd? n cs = some d) :
    ∃ body, Cursor.Passes ⟨n, cs⟩ (body ++ ['*', '/']) d ∧ ¬ ['*', '/'] <:+: body ++ ['*'] := by
  fun_induction blockEnd? n cs with
  | case1 => cases h
  | case2 n cs =>
    cases h
    exact ⟨[], ⟨rfl, by simp; rfl⟩, by decide⟩
  | case3 n x xs hne ih =>
    obtain ⟨body, hpasses, hbody⟩ := ih h
    have hone : Cursor.Passes ⟨n, x :: xs⟩ [x] ⟨n + x.utf8Size, xs⟩ := ⟨rfl, by simp⟩
    refine ⟨x :: body, hone.trans hpasses, ?_⟩
    rw [List.cons_append, List.infix_cons_iff]
    rintro (hhead | hinfix)
    · -- then the mark would have been found at `x` already
      obtain ⟨rest, hrest⟩ := hhead
      have hxs : xs = body ++ ['*', '/'] ++ d.rest := hpasses.1
      cases body with
      | nil => simp at hrest
      | cons y body =>
        simp only [List.cons_append, List.nil_append, List.cons.injEq] at hrest hxs
        obtain ⟨rfl, rfl, -⟩ := hrest
        exact hne _ rfl hxs
    · exact hbody hinfix

theorem padding_of_trivium? (h : trivium? c = some d) (hd : d.Passes cs e)
    (hcs : Padding cs e.rest) : ∃ bs, c.Passes bs e ∧ Padding bs e.rest := by
  have hopen : ∀ (n : Nat) (y : Char) (ys : List Char), y.utf8Size = 1 →
      Cursor.Passes ⟨n, '/' :: y :: ys⟩ ['/', y] ⟨n + 2, ys⟩ := by
    intro n y ys hy
    exact ⟨rfl, by simp [hy]; rfl⟩
  fun_cases trivium? c with
  | case1 => cases h
  | case2 n xs =>
    obtain ⟨body, hpasses, hbody⟩ := lineEnd_body (n + 2) xs
    obtain rfl : lineEnd (n + 2) xs = d := by simpa [trivium?] using h
    have hend : ∀ x ∈ (cs ++ e.rest).head?, isLineEnd x = true := by
      intro x hx
      rw [← hd.1] at hx
      rcases lineEnd_rest (n + 2) xs with hnil | ⟨y, ys, hrest, hy⟩
      · simp [hnil] at hx
      · rw [hrest] at hx
        cases hx
        exact hy
    exact ⟨_, ((hopen n '/' xs rfl).trans hpasses).trans hd, .line hbody hend hcs⟩
  | case3 n xs =>
    obtain ⟨body, hpasses, hbody⟩ := blockEnd?_body (by simpa [trivium?] using h)
    refine ⟨_, ((hopen n '*' xs rfl).trans hpasses).trans hd, ?_⟩
    simpa using Padding.block hbody hcs
  | case4 n x xs _ _ hx =>
    have hspace : Cursor.Passes ⟨n, x :: xs⟩ [x] ⟨n + 1, xs⟩ :=
      ⟨rfl, by simp [utf8Size_of_isSpace hx]⟩
    obtain rfl : ⟨n + 1, xs⟩ = d := by simpa [trivium?, hx] using h
    exact ⟨_, hspace.trans hd, .space hx hcs⟩
  | case5 n x xs _ _ hx => simp [trivium?, hx] at h

theorem skip_padding (c : Cursor) : ∃ cs, c.Passes cs (skip c) ∧ Padding cs (skip c).rest := by
  induction c using skip_induction with
  | stop c h =>
    rw [skip_of_none h]
    exact ⟨[], .refl c, .nil _⟩
  | step c d h ih =>
    rw [skip_of_some h]
    obtain ⟨cs, hpasses, hcs⟩ := ih
    exact padding_of_trivium? h hpasses hcs

theorem blockEnd?_of_body {body : List Char} (h : ¬ ['*', '/'] <:+: body ++ ['*']) (n : Nat)
    (rest : List Char) :
    blockEnd? n (body ++ ['*', '/'] ++ rest) =
      some ⟨n + Text.byteLength (body ++ ['*', '/']), rest⟩ := by
  induction body generalizing n with
  | nil => rfl
  | cons x xs ih =>
    rw [List.cons_append, List.infix_cons_iff, not_or] at h
    have hstep : blockEnd? n (x :: (xs ++ ['*', '/'] ++ rest)) =
        blockEnd? (n + x.utf8Size) (xs ++ ['*', '/'] ++ rest) := by
      rw [blockEnd?]
      rintro cs rfl hcs
      cases xs with
      | nil => simp at hcs
      | cons y ys =>
        simp only [List.cons_append, List.cons.injEq] at hcs
        obtain ⟨rfl, -⟩ := hcs
        exact h.1 ⟨ys ++ ['*'], rfl⟩
    rw [List.cons_append, List.cons_append, hstep, ih h.2, Text.byteLength_cons, Nat.add_assoc]

theorem lineEnd_of_body {body rest : List Char} (hbody : ∀ x ∈ body, isLineEnd x = false)
    (hrest : ∀ x ∈ rest.head?, isLineEnd x = true) (n : Nat) :
    lineEnd n (body ++ rest) = ⟨n + Text.byteLength body, rest⟩ := by
  induction body generalizing n with
  | nil =>
    cases rest with
    | nil => rfl
    | cons x xs => simp [lineEnd, hrest x rfl]
  | cons x xs ih =>
    have hx : isLineEnd x = false := hbody x (by simp)
    simp only [List.cons_append, lineEnd, hx, Bool.false_eq_true, ↓reduceIte, Text.byteLength_cons]
    rw [ih fun y hy => hbody y (List.mem_cons_of_mem x hy), Nat.add_assoc]

theorem skip_blockComment {body : List Char} (h : ¬ ['*', '/'] <:+: body ++ ['*']) (n : Nat)
    (rest : List Char) :
    skip ⟨n, '/' :: '*' :: (body ++ ['*', '/']) ++ rest⟩ =
      skip ⟨n + Text.byteLength ('/' :: '*' :: (body ++ ['*', '/'])), rest⟩ := by
  have htrivium : trivium? ⟨n, '/' :: '*' :: (body ++ ['*', '/']) ++ rest⟩ = _ :=
    blockEnd?_of_body h (n + 2) rest
  rw [skip_of_some htrivium, Text.byteLength_cons, Text.byteLength_cons, ← Nat.add_assoc,
    ← Nat.add_assoc]
  rfl

theorem skip_lineComment {body rest : List Char} (hbody : ∀ x ∈ body, isLineEnd x = false)
    (hrest : ∀ x ∈ rest.head?, isLineEnd x = true) (n : Nat) :
    skip ⟨n, '/' :: '/' :: body ++ rest⟩ =
      skip ⟨n + Text.byteLength ('/' :: '/' :: body), rest⟩ := by
  have htrivium :
      trivium? ⟨n, '/' :: '/' :: body ++ rest⟩ = some (lineEnd (n + 2) (body ++ rest)) := rfl
  rw [skip_of_some htrivium, lineEnd_of_body hbody hrest, Text.byteLength_cons,
    Text.byteLength_cons, ← Nat.add_assoc, ← Nat.add_assoc]
  rfl

theorem Padding.skip {rest : List Char} (h : Padding cs rest) (n : Nat) :
    Source.skip ⟨n, cs ++ rest⟩ = Source.skip ⟨n + Text.byteLength cs, rest⟩ := by
  induction h generalizing n with
  | nil => rfl
  | space hx _ ih => rw [List.cons_append, skip_space n hx, ih, Text.byteLength_cons, Nat.add_assoc]
  | @line body cs rest hbody hend _ ih =>
    have hsplit : '/' :: '/' :: (body ++ cs) = '/' :: '/' :: body ++ cs := rfl
    rw [hsplit, List.append_assoc, skip_lineComment hbody hend, ih, Text.byteLength_append,
      Nat.add_assoc]
  | @block body cs rest hbody _ ih =>
    have hsplit : '/' :: '*' :: (body ++ '*' :: '/' :: cs) =
        '/' :: '*' :: (body ++ ['*', '/']) ++ cs := by simp
    rw [hsplit, List.append_assoc, skip_blockComment hbody, ih, Text.byteLength_append, Nat.add_assoc]

end Padding

end Source

namespace Span

def covers (span : Span) (offset : Nat) : Bool := span.start ≤ offset && offset < span.stop

/-- The places that some spans leave free in `outer`: before the first, between each two and behind
the last. -/
def gaps (outer : Span) : List Span → List Span
  | [] => [outer]
  | s :: ss => ⟨outer.start, s.start⟩ :: gaps ⟨s.stop, outer.stop⟩ ss

def IsPadding (span : Span) (source : String) : Prop :=
  ∃ before text after, source.toList = before ++ (text ++ after) ∧
    span.start = Text.byteLength before ∧
    span.stop = Text.byteLength before + Text.byteLength text ∧ Source.Padding text after

/-- The spans stand one behind the other in `outer` and leave only padding free. Each byte belongs
either to one of them or to padding. -/
structure Exhaust (source : String) (outer : Span) (spans : List Span) : Prop where
  siblings : Siblings source outer spans
  padding : ∀ gap ∈ outer.gaps spans, gap.IsPadding source
  once : ∀ n, outer.covers n = true →
    spans.countP (·.covers n) + (outer.gaps spans).countP (·.covers n) = 1

/-- Siblings and the gaps between them split what they lie in. -/
theorem Siblings.countP_covers {source : String} {outer : Span} {spans : List Span}
    (h : Siblings source outer spans) (n : Nat) :
    spans.countP (·.covers n) + (outer.gaps spans).countP (·.covers n) =
      if outer.covers n = true then 1 else 0 := by
  induction spans generalizing outer with
  | nil => simp [gaps, List.countP_cons]
  | cons s ss ih =>
    have hrest : Siblings source ⟨s.stop, outer.stop⟩ ss := by
      refine ⟨fun t ht => h.fits t (List.mem_cons_of_mem _ ht), fun t ht => ?_,
        (List.pairwise_cons.1 h.inOrder).2⟩
      exact ⟨(List.pairwise_cons.1 h.inOrder).1 t ht, (h.inside t (List.mem_cons_of_mem _ ht)).2⟩
    have hsum := ih hrest
    have hs := (h.fits s (by simp)).start_le_stop
    obtain ⟨hstart, hstop⟩ := h.inside s (by simp)
    simp only [gaps, List.countP_cons]
    simp only [covers, Bool.and_eq_true, decide_eq_true_eq] at hsum ⊢
    split at hsum <;> split <;> split <;> split <;> omega

end Span

section Reading

variable {source : String} {c d e : Cursor} {ns : List Tree}

theorem isPadding_skip (hc : (origin source).Before c) :
    Span.IsPadding ⟨c.offset, (skip c).offset⟩ source := by
  obtain ⟨before, hrest, hoff⟩ := hc
  obtain ⟨text, htext, hpadding⟩ := skip_padding c
  have hstart : c.offset = Text.byteLength before := by simpa [Cursor.ofText] using hoff
  refine ⟨before, text, (skip c).rest, ?_, hstart, ?_, hpadding⟩
  · rw [← htext.1]
    exact hrest
  · rw [← hstart]
    exact htext.2

/-- Steps that each leave one node have nothing but padding around them. -/
theorem gaps_of_steps {a : Expr Rule} (hone : ∀ c d ns, Takes grammar .spaced a c d ns →
      ∃ r children, ns = [⟨r, c, d, children⟩])
    (h : Steps grammar a c ns e) (hc : (origin source).Before c) :
    ∀ gap ∈ Span.gaps ⟨c.offset, (skip e).offset⟩ (ns.map (·.span)), gap.IsPadding source := by
  induction h with
  | nil c =>
    intro gap hgap
    rw [List.mem_singleton.1 hgap]
    exact isPadding_skip hc
  | @cons c d e ns ns' htakes _ ih =>
    obtain ⟨r, children, rfl⟩ := hone _ _ _ htakes
    have hd : (origin source).Before d :=
      (hc.trans (skip_passes c)).trans (htakes.passes grammar_bounded.skips)
    intro gap hgap
    rcases List.mem_cons.1 hgap with rfl | hgap
    · exact isPadding_skip hc
    · exact ih hd gap hgap

theorem exhaust_of_steps {a : Expr Rule} (hone : ∀ c d ns, Takes grammar .spaced a c d ns →
      ∃ r children, ns = [⟨r, c, d, children⟩])
    (h : Steps grammar a c ns e) (hc : (origin source).Before c) :
    Span.Exhaust source ⟨c.offset, (skip e).offset⟩ (ns.map (·.span)) := by
  have hchained : Chained c ns (skip e) := by
    simpa using (h.chained grammar_bounded.skips).append (.nil (skip_passes e))
  have hsiblings := siblings_of_chained hc hchained
  refine ⟨hsiblings, gaps_of_steps hone h hc, fun n hn => ?_⟩
  rw [hsiblings.countP_covers n, if_pos hn]

/-- Declarations that are read off every node have the spans of the nodes. -/
theorem map_span_filterMap {α : Type} {read : Tree → Option α} {span : α → Span}
    (hspan : ∀ t a, read t = some a → span a = t.span) {ts : List Tree}
    (hread : ∀ t ∈ ts, (read t).isSome = true) :
    (ts.filterMap read).map span = ts.map (·.span) := by
  induction ts with
  | nil => rfl
  | cons t ts ih =>
    obtain ⟨a, ha⟩ := Option.isSome_iff_exists.1 (hread t (by simp))
    have hrest := ih fun t' ht' => hread t' (List.mem_cons_of_mem _ ht')
    rw [List.filterMap_cons, ha, List.map_cons, List.map_cons, hspan t a ha, hrest]

theorem SourceItem.isSome_ofTree? {t : Tree} (h : t.rule ∈ itemRules) :
    (SourceItem.ofTree? t).isSome = true := by
  obtain ⟨rule, start, stop, children⟩ := t
  simp only [itemRules, List.mem_cons, List.not_mem_nil, or_false] at h
  rcases h with rfl | rfl | rfl | rfl | rfl | rfl | rfl <;> rfl

theorem Member.isSome_ofTree? {t : Tree} (h : t.rule ∈ partRules) :
    (Member.ofTree? t).isSome = true := by
  obtain ⟨rule, start, stop, children⟩ := t
  simp only [partRules, List.mem_cons, List.not_mem_nil, or_false] at h
  rcases h with rfl | rfl | rfl | rfl | rfl | rfl | rfl | rfl <;> rfl

theorem Member.ofTree?_eq_none {t : Tree} (h : t.rule ∉ partRules) : Member.ofTree? t = none := by
  unfold Member.ofTree?
  split <;> simp_all [partRules]

theorem Source.Row.unique {es : List (Expr Rule)} {ns' : List Tree} (h : Row es c d ns)
    (h' : Row es c e ns') : d = e := by
  induction h generalizing ns' with
  | nil =>
    cases h'
    rfl
  | cons htakes _ ih =>
    cases h' with
    | cons htakes' hrow' =>
      cases htakes.unique htakes'
      exact ih hrow'

end Reading

/-- The body of the contract: it starts behind the brace that follows what is read as the header, and
stops in front of the brace that ends the contract. -/
structure Contract.HasBody (c : Contract) (source : String) (body : Span) : Prop where
  opening : ∃ start brace opened nodes, (origin source).Before start ∧ start.offset = c.span.start ∧
    Row contractHeader start brace nodes ∧ brace.Passes ['\x7b'] opened ∧ opened.offset = body.start
  closing : ∃ brace stop : Cursor, (origin source).Before brace ∧ brace.offset = body.stop ∧
    brace.Passes ['\x7d'] stop ∧ stop.offset = c.span.stop

theorem Contract.HasBody.unique {c : Contract} {source : String} {body body' : Span}
    (h : c.HasBody source body) (h' : c.HasBody source body') : body' = body := by
  obtain ⟨start, brace, opened, nodes, hstart, hoff, hrow, hbrace, hopened⟩ := h.opening
  obtain ⟨start', brace', opened', nodes', hstart', hoff', hrow', hbrace', hopened'⟩ := h'.opening
  obtain ⟨close, stop, -, hclose, hpasses, hstop⟩ := h.closing
  obtain ⟨close', stop', -, hclose', hpasses', hstop'⟩ := h'.closing
  cases hstart.eq_of_offset_eq hstart' (hoff.trans hoff'.symm)
  cases hrow.unique hrow'
  have hfirst := hbrace.2
  have hfirst' := hbrace'.2
  have hlast := hpasses.2
  have hlast' := hpasses'.2
  obtain ⟨start, stop⟩ := body
  obtain ⟨start', stop'⟩ := body'
  simp only at hopened hopened' hclose hclose'
  rw [Span.mk.injEq]
  omega

theorem Contract.exhaust_ofTree {source : String} {t : Tree} (hr : t.rule = .contractDefinition)
    (h : Takes grammar .spaced (.rule t.rule) t.start t.stop [t])
    (ht : (origin source).Before t.start) :
    ∃ body, (Contract.ofTree t).HasBody source body ∧
      Span.Exhaust source body ((Contract.ofTree t).body.map (·.span)) := by
  rw [hr] at h
  obtain ⟨brace, opened, e, header, parts, hrow, hopen, hsteps, -, hclose, hnode⟩ :=
    takes_contractDefinition_iff.1 h
  have hchildren : t.children = header ++ parts := by
    rw [List.singleton_inj.1 hnode]
  have hopened : (origin source).Before opened :=
    (ht.trans hrow.chained.before).trans ⟨_, hopen⟩
  have hbrace : (origin source).Before (skip e) :=
    (hopened.trans (hsteps.before grammar_bounded.skips)).trans (skip_passes e)
  -- no member is read off the header
  have hheader : header.filterMap Member.ofTree? = [] := by
    rw [List.filterMap_eq_nil_iff]
    intro n hn
    exact Member.ofTree?_eq_none (contractHeader_node hrow hn)
  have hbody : (Contract.ofTree t).body.map (·.span) = parts.map (·.span) := by
    simp only [Contract.ofTree, hchildren, List.filterMap_append, hheader, List.nil_append]
    refine map_span_filterMap (fun _ _ => Member.span_of_ofTree?) fun n hn => ?_
    exact Member.isSome_ofTree? (rule_mem_partRules hsteps hn)
  refine ⟨⟨opened.offset, (skip e).offset⟩, ⟨?_, ?_⟩, ?_⟩
  · exact ⟨t.start, brace, opened, header, ht, rfl, hrow, hopen, rfl⟩
  · exact ⟨skip e, t.stop, hbrace, rfl, hclose, rfl⟩
  · rw [hbody]
    exact exhaust_of_steps (fun _ _ _ => contractPart_node) hsteps hopened

/-- In a source that can be read nothing is lost. Its items exhaust it, and the members of each
contract exhaust the body of the contract. -/
theorem declarations_exhaust {source : String} {u : SourceUnit} (h : parse source = .ok u) :
    Span.Exhaust source ⟨0, Text.byteLength source.toList⟩ (u.items.map (·.span)) ∧
      ∀ c ∈ u.contracts, ∃ body, c.HasBody source body ∧
        (∀ body', c.HasBody source body' → body' = body) ∧
        Span.Exhaust source body (c.body.map (·.span)) := by
  obtain ⟨root, htree, rfl⟩ := parse_eq_ok_iff.1 h
  obtain ⟨items, e, hsteps, -, hend, rfl⟩ := tree_eq_ok_iff_steps.1 htree
  have horigin := Cursor.Before.refl (origin source)
  constructor
  · have hitems : (SourceUnit.ofTree ⟨.sourceUnit, origin source, skip e,
        items ++ [⟨.endOfInput, skip e, skip e, []⟩]⟩).items.map (·.span) = items.map (·.span) := by
      simp only [SourceUnit.ofTree, List.filterMap_append, SourceItem.ofTree?, List.filterMap_cons,
        List.filterMap_nil, List.append_nil]
      refine map_span_filterMap (fun _ _ => SourceItem.span_of_ofTree?) fun n hn => ?_
      exact SourceItem.isSome_ofTree? (rule_mem_itemRules hsteps hn)
    have hlength : (skip e).offset = Text.byteLength source.toList := by
      obtain ⟨cs, hrest, hoff⟩ :=
        Cursor.Before.trans (hsteps.before grammar_bounded.skips) (skip_passes e)
      rw [hend, List.append_nil] at hrest
      have hsource : source.toList = cs := hrest
      simpa [Cursor.ofText, hsource] using hoff
    rw [hitems, ← hlength]
    exact exhaust_of_steps (fun _ _ _ => sourceItem_node) hsteps horigin
  · intro c hc
    obtain ⟨t, ht, hrule, rfl⟩ := exists_node_of_mem_contracts hc
    have hmem : t ∈ items := by
      rcases List.mem_append.1 ht with ht | ht
      · exact ht
      · rw [List.mem_singleton.1 ht] at hrule
        cases hrule
    have hbefore := ((hsteps.chained grammar_bounded.skips).of_mem hmem).1
    obtain ⟨body, hbody, hexhaust⟩ :=
      Contract.exhaust_ofTree hrule (hsteps.takes_of_mem hmem) (horigin.trans hbefore)
    exact ⟨body, hbody, fun body' h' => hbody.unique h', hexhaust⟩

/-- Comments around all declarations, with braces inside them, and a line comment at the end. -/
theorem declarations_exhaust_comments :
    let source := "//é\npragma a;contract C/*\x7b*/\x7b /*\x7d*/uint x;\n\x7d//"
    let c : Contract := ⟨.contract, "C", [],
      [.stateVariable ⟨"x", .named "uint", false, false, ⟨36, 43⟩⟩], ⟨14, 45⟩⟩
    parse source = .ok ⟨[.pragma ⟨5, 14⟩, .contract c]⟩ ∧
      Span.Exhaust source ⟨0, 47⟩ [⟨5, 14⟩, ⟨14, 45⟩] ∧
      ∃ body, c.HasBody source body ∧ Span.Exhaust source body [⟨36, 43⟩] := by
  intro source c
  have h := parse_eq_ok_of_parseWithin 12 source ⟨[.pragma ⟨5, 14⟩, .contract c]⟩ (by decide +kernel)
  obtain ⟨hitems, hcontracts⟩ := declarations_exhaust h
  obtain ⟨body, hbody, -, hmembers⟩ := hcontracts c (by simp [SourceUnit.contracts, SourceItem.contract?])
  have hlength : Text.byteLength source.toList = 47 := by decide +kernel
  rw [hlength] at hitems
  exact ⟨h, hitems, body, hbody, hmembers⟩

end SolidityStubs
