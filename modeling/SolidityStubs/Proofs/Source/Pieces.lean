import Mathlib.Data.List.Pairwise
import SolidityStubs.Proofs.Source.Rebuild
import SolidityStubs.Proofs.Source.Spans

/-! # The pieces of a source

Apart from the values of its pragmas, which are taken as they stand, a source falls apart into
lexemes. A walk from piece to piece comes by all places from which the items of the source skip
padding.
-/
namespace SolidityStubs.Source

open Peg

def lexeme? (c : Cursor) : Option Cursor :=
  (trivium? c).or ((string? c).or (c.char? fun _ => true))

def pragmaValues (root : Tree) : List Tree :=
  (root.childrenOf .pragmaDirective).flatMap (·.childrenOf .pragmaValue)

def piece? (root : Tree) (c : Cursor) : Option Cursor :=
  match (pragmaValues root).find? (·.start = c) with
  | some v => some v.stop
  | none => lexeme? c

abbrev Walks (root : Tree) : Cursor → Cursor → Prop :=
  Relation.ReflTransGen fun c d => piece? root c = some d

def walk (root : Tree) : Nat → Cursor → Option Cursor
  | 0, c => some c
  | steps + 1, c => (piece? root c).bind (walk root steps)

theorem walks_of_walk {root : Tree} {steps : Nat} {c d : Cursor} (h : walk root steps c = some d) :
    Walks root c d := by
  induction steps generalizing c with
  | zero =>
    cases h
    exact .refl
  | succ steps ih =>
    obtain ⟨e, he, hd⟩ := Option.bind_eq_some_iff.1 h
    exact .head he (ih hd)

section Lexemes

variable {c d : Cursor} {x : Char} {xs : List Char}

theorem lexeme?_of_trivium (h : trivium? c = some d) : lexeme? c = some d := by
  simp [lexeme?, h]

theorem lexeme?_of_string (h : string? c = some d) : lexeme? c = some d := by
  simp [lexeme?, h, trivium?_of_string? h]

theorem lexeme?_of_char (ht : trivium? c = none) (hs : string? c = none) (h : c.Passes [x] d) :
    lexeme? c = some d := by
  obtain ⟨n, cs⟩ := c
  obtain ⟨m, ds⟩ := d
  obtain ⟨hrest, hoff⟩ := h
  simp only [List.singleton_append, Text.byteLength_cons, Text.byteLength_nil] at hrest hoff
  subst hrest hoff
  simp [lexeme?, ht, hs, Cursor.char?]

theorem lexeme?_of_advance {b : Border} {p q : List Char × Cursor} (h : advance b p = some q) :
    lexeme? p.2 = some q.2 := by
  obtain ⟨closers, c⟩ := p
  unfold advance at h
  cases ht : trivium? c with
  | some d =>
    simp only [ht] at h
    cases h
    exact lexeme?_of_trivium ht
  | none =>
    cases hs : string? c with
    | some d =>
      simp only [ht, hs] at h
      cases h
      exact lexeme?_of_string hs
    | none =>
      obtain ⟨n, cs⟩ := c
      cases cs with
      | nil => simp [ht, hs] at h
      | cons x xs =>
        simp only [ht, hs, Option.ite_none_left_eq_some, Option.map_eq_some_iff] at h
        obtain ⟨-, closers', -, rfl⟩ := h
        exact lexeme?_of_char ht hs ⟨rfl, by simp⟩

theorem lexeme?_before (h : lexeme? c = some d) : c.Before d := by
  unfold lexeme? at h
  cases ht : trivium? c with
  | some e =>
    obtain ⟨x, xs, hp⟩ := trivium?_passes ht
    simp only [ht, Option.some_or, Option.some.injEq] at h
    exact ⟨_, h ▸ hp⟩
  | none =>
    cases hs : string? c with
    | some e =>
      obtain ⟨x, xs, -, hp⟩ := string?_passes hs
      simp only [ht, hs, Option.none_or, Option.some_or, Option.some.injEq] at h
      exact ⟨_, h ▸ hp⟩
    | none =>
      simp only [ht, hs, Option.none_or] at h
      obtain ⟨x, -, hp⟩ := Cursor.char?_passes h
      exact ⟨_, hp⟩

end Lexemes

section Values

variable {source : String} {root n v : Tree} {c d : Cursor}

theorem mem_pragmaValues_iff :
    v ∈ pragmaValues root ↔
      ∃ n ∈ root.children, n.rule = .pragmaDirective ∧ v ∈ n.children ∧ v.rule = .pragmaValue := by
  simp [pragmaValues, Node.childrenOf, and_assoc]

theorem takes_of_mem_children (hroot : tree source = .ok root) (hn : n ∈ root.children) :
    Takes grammar .spaced (.rule n.rule) n.start n.stop [n] := by
  obtain ⟨d, h⟩ := tree_eq_ok_iff.1 hroot
  obtain ⟨children, hb, hnode⟩ := (takes_rule_iff (by decide)).1 h
  obtain rfl := List.singleton_inj.1 hnode
  exact hb.takes_of_mem hn

/-- A pragma has one value, which no padding comes in front of and which stops in front of the
semicolon that ends the pragma. -/
theorem pragmaDirective_value
    (h : Takes grammar .spaced (.rule .pragmaDirective) n.start n.stop [n])
    (hv : v ∈ n.children) (hrule : v.rule = .pragmaValue) :
    ∃ e x xs, n.start.Passes "pragma".toList e ∧ e.char? isIdentifierChar = none ∧
      v = ⟨.pragmaValue, skip e, v.stop, []⟩ ∧ (skip e).Passes (x :: xs) v.stop ∧
      (x :: xs).all (· != ';') = true ∧ v.stop.Passes [';'] n.stop := by
  obtain ⟨e, f, x, xs, hword, hend, hvalue, hall, hsemi, hnode⟩ := takes_pragmaDirective_iff.1 h
  have hchildren : n.children = [⟨.keyword .pragmaWord, n.start, e, []⟩,
      ⟨.pragmaValue, skip e, f, []⟩] := by
    rw [List.singleton_inj.1 hnode]
  rw [hchildren] at hv
  simp only [List.mem_cons, List.not_mem_nil, or_false] at hv
  rcases hv with rfl | rfl
  · cases hrule
  · exact ⟨e, x, xs, hword, hend, rfl, hvalue, hall, hsemi⟩

theorem exists_pragma_of_mem_values (hroot : tree source = .ok root) (hv : v ∈ pragmaValues root) :
    ∃ n ∈ root.children, n.rule = .pragmaDirective ∧ v ∈ n.children ∧ v.rule = .pragmaValue ∧
      trivium? v.start = none ∧ v.start.Before v.stop ∧ n.start.offset ≤ v.start.offset ∧
      v.start.offset < n.stop.offset := by
  obtain ⟨n, hn, hpragma, hchild, hrule⟩ := mem_pragmaValues_iff.1 hv
  have htakes := takes_of_mem_children hroot hn
  rw [hpragma] at htakes
  obtain ⟨e, x, xs, hword, -, heq, hvalue, -, hsemi⟩ := pragmaDirective_value htakes hchild hrule
  have hstart : v.start = skip e := by rw [heq]
  have hpos := ';'.utf8Size_pos
  have hoff := hsemi.2
  simp only [Text.byteLength_cons, Text.byteLength_nil] at hoff
  have hbefore : v.start.Before v.stop := ⟨_, hstart ▸ hvalue⟩
  have hle := hbefore.offset_le
  have hfirst : n.start.Before v.start :=
    hstart ▸ Cursor.Before.trans ⟨_, hword⟩ (skip_passes e)
  exact ⟨n, hn, hpragma, hchild, hrule, by rw [hstart, trivium?_skip], hbefore, hfirst.offset_le,
    by omega⟩

/-- The value of a pragma starts in no other item. -/
theorem pragmaValue_apart (hroot : tree source = .ok root) (hn : n ∈ root.children)
    (hv : v ∈ pragmaValues root) :
    (n.rule = .pragmaDirective ∧ v ∈ n.children ∧ v.rule = .pragmaValue) ∨
      v.start.offset < n.start.offset ∨ n.stop.offset ≤ v.start.offset := by
  obtain ⟨n', hn', hpragma, hchild, hrule, -, -, hle, hlt⟩ := exists_pragma_of_mem_values hroot hv
  by_cases heq : n' = n
  · subst heq
    exact .inl ⟨hpragma, hchild, hrule⟩
  · obtain ⟨d, h⟩ := tree_eq_ok_iff.1 hroot
    have hchained := ((h.chained grammar_bounded.skips).of_mem (n := root) (by simp)).2.1
    have hpair : root.children.Pairwise fun a b => a.stop.Before b.start ∨ b.stop.Before a.start :=
      hchained.pairwise.imp .inl
    have hsymm : Std.Symm fun a b : Tree => a.stop.Before b.start ∨ b.stop.Before a.start :=
      ⟨fun _ _ h => h.symm⟩
    rcases hpair.forall hn' hn heq with hbefore | hbefore
    · exact .inr (.inl (Nat.lt_of_lt_of_le hlt hbefore.offset_le))
    · exact .inr (.inr (Nat.le_trans hbefore.offset_le hle))

/-- No value of a pragma starts between the two positions. -/
def FreeOfValues (root : Tree) (c d : Cursor) : Prop :=
  ∀ v ∈ pragmaValues root, v.start.offset < c.offset ∨ d.offset ≤ v.start.offset

theorem FreeOfValues.mono (h : FreeOfValues root c d) {c' d' : Cursor} (hc : c.offset ≤ c'.offset)
    (hd : d'.offset ≤ d.offset) : FreeOfValues root c' d' := by
  intro v hv
  rcases h v hv with hlt | hle
  · exact .inl (Nat.lt_of_lt_of_le hlt hc)
  · exact .inr (Nat.le_trans hd hle)

theorem piece?_of_forall_ne (h : ∀ v ∈ pragmaValues root, v.start ≠ c) :
    piece? root c = lexeme? c := by
  have hnone : (pragmaValues root).find? (·.start = c) = none := by
    rw [List.find?_eq_none]
    intro v hv
    simpa using h v hv
  rw [piece?, hnone]

theorem FreeOfValues.start_ne (h : FreeOfValues root c d) (hlt : c.offset < d.offset) :
    ∀ v ∈ pragmaValues root, v.start ≠ c := by
  rintro v hv rfl
  rcases h v hv with h | h <;> omega

theorem piece?_of_trivium (hroot : tree source = .ok root) (h : trivium? c = some d) :
    piece? root c = some d := by
  rw [piece?_of_forall_ne, lexeme?_of_trivium h]
  rintro v hv rfl
  obtain ⟨_, -, -, -, -, hclear, -⟩ := exists_pragma_of_mem_values hroot hv
  rw [hclear] at h
  cases h

theorem piece?_before (hroot : tree source = .ok root) (h : piece? root c = some d) :
    c.Before d := by
  unfold piece? at h
  cases hv : (pragmaValues root).find? (·.start = c) with
  | none =>
    simp only [hv] at h
    exact lexeme?_before h
  | some v =>
    simp only [hv, Option.some.injEq] at h
    obtain rfl : v.start = c := by simpa using List.find?_some hv
    obtain ⟨_, -, -, -, -, -, hbefore, -⟩ :=
      exists_pragma_of_mem_values hroot (List.mem_of_find?_eq_some hv)
    exact h ▸ hbefore

end Values

section Walking

variable {source : String} {root n : Tree} {c d e : Cursor} {ns : List Tree}

/-- Of two places on one walk, the walk leads from one to the other. -/
theorem Walks.total (h : Walks root c d) (h' : Walks root c e) : Walks root d e ∨ Walks root e d :=
  Relation.ReflTransGen.total_of_right_unique
    (fun _ _ _ h h' => Option.some.inj (h.symm.trans h')) h h'

variable (hroot : tree source = .ok root)

include hroot

theorem Walks.before (h : Walks root c d) : c.Before d := by
  induction h with
  | refl => exact .refl _
  | tail _ hstep ih => exact ih.trans (piece?_before hroot hstep)

/-- A place on a walk is not inside of a piece. -/
theorem Walks.apart {o : Cursor} (hc : Walks root o c) (he : Walks root o e)
    (h : piece? root c = some d) : d.offset ≤ e.offset ∨ e.offset ≤ c.offset := by
  rcases hc.total he with hce | hec
  · rcases Relation.ReflTransGen.cases_head hce with rfl | ⟨d', hstep, hrest⟩
    · exact .inr (Nat.le_refl _)
    · cases h.symm.trans hstep
      exact .inl (Walks.before hroot hrest).offset_le
  · exact .inr (hec.before hroot).offset_le

theorem walks_skip (c : Cursor) : Walks root c (skip c) := by
  induction c using skip_induction with
  | stop c h => rw [skip_of_none h]
  | step c d h ih =>
    rw [skip_of_some h]
    exact .head (piece?_of_trivium hroot h) ih

omit hroot in
theorem Scans.walks {b : Border} {p q : List Char × Cursor} (h : Scans b p q)
    (hfree : FreeOfValues root p.2 q.2) : Walks root p.2 q.2 := by
  induction h with
  | refl => exact .refl
  | @tail q r hscan hstep ih =>
    obtain ⟨x, xs, hp⟩ := advance_passes hstep
    have hlt : q.2.offset < r.2.offset := by
      have := x.utf8Size_pos
      rw [hp.2, Text.byteLength_cons]
      omega
    have hle := (Scans.before hscan).offset_le
    refine .tail (ih (hfree.mono (Nat.le_refl _) (Nat.le_of_lt hlt))) ?_
    rw [piece?_of_forall_ne ((hfree.mono hle (Nat.le_refl _)).start_ne hlt),
      lexeme?_of_advance hstep]

omit hroot in
theorem walks_of_plain {cs : List Char} (h : c.Passes cs d)
    (hcs : cs.all (fun x => x != '/' && !isSpace x && !isQuote x) = true)
    (hfree : FreeOfValues root c d) : Walks root c d := by
  induction cs generalizing c with
  | nil =>
    obtain ⟨hrest, hoff⟩ := h
    obtain rfl : d = c := by
      cases c
      cases d
      simp_all
    exact .refl
  | cons x xs ih =>
    obtain ⟨hrest, hoff⟩ := h
    simp only [List.all_cons, Bool.and_eq_true, bne_iff_ne, Bool.not_eq_true'] at hcs
    obtain ⟨⟨⟨hslash, hspace⟩, hquote⟩, hxs⟩ := hcs
    let c' : Cursor := ⟨c.offset + x.utf8Size, xs ++ d.rest⟩
    have hfirst : c.Passes [x] c' := ⟨hrest, by simp [c']⟩
    have hnext : c'.Passes xs d := ⟨rfl, by simp [c', hoff, Nat.add_assoc]⟩
    have hlt : c.offset < c'.offset := by
      have := x.utf8Size_pos
      simp only [c']
      omega
    have hle : c'.offset ≤ d.offset := Cursor.Before.offset_le ⟨_, hnext⟩
    refine .head ?_ (ih hnext hxs (hfree.mono (Nat.le_of_lt hlt) (Nat.le_refl _)))
    rw [piece?_of_forall_ne (hfree.start_ne (Nat.lt_of_lt_of_le hlt hle))]
    exact lexeme?_of_char (trivium?_eq_none hrest hslash hspace) (string?_eq_none hrest hquote)
      hfirst

end Walking

section Items

variable {source : String} {root n : Tree} {c d : Cursor} {ns : List Tree}
  (hroot : tree source = .ok root)

theorem item_flow : ∀ r ∈ itemRules, r ≠ .pragmaDirective →
    flow (borderOf r) false .spaced (.rule r) .start = some .border := by
  decide

include hroot

theorem freeOfValues_item (hn : n ∈ root.children) (hr : n.rule ≠ .pragmaDirective) :
    FreeOfValues root n.start n.stop := by
  intro v hv
  rcases pragmaValue_apart hroot hn hv with ⟨hpragma, -⟩ | h
  · exact absurd hpragma hr
  · exact h

/-- A scan from the start of an item stays inside of it and goes from piece to piece. -/
theorem item_scans (hn : n ∈ root.children) (hr : n.rule ∈ itemRules)
    (hpragma : n.rule ≠ .pragmaDirective) {q : List Char × Cursor}
    (h : Scans (borderOf n.rule) ([], n.start) q) :
    Walks root n.start q.2 ∧ q.2.offset < n.stop.offset ∧ Walks root n.start n.stop := by
  obtain ⟨closers, e, x, hscan, hstop, hpass⟩ := taskFlow_reached (t := .once (.rule n.rule))
    (takes_of_mem_children hroot hn) (item_flow _ hr hpragma) (Flow.start_holds n.start)
  have hfree := freeOfValues_item hroot hn hpragma
  have hlt : e.offset < n.stop.offset := by
    have := x.utf8Size_pos
    rw [hpass.2, Text.byteLength_cons]
    omega
  have hle : q.2.offset ≤ e.offset :=
    (Scans.before (h.to_end hscan (advance_border hpass.1 hstop))).offset_le
  have hplain : x ≠ '/' ∧ isSpace x = false ∧ isQuote x = false := by
    rcases Border.stops_head hstop with rfl | rfl | rfl <;> decide
  refine ⟨Scans.walks h (hfree.mono (Nat.le_refl _) (by omega)), by omega, ?_⟩
  refine .trans (Scans.walks hscan (hfree.mono (Nat.le_refl _) (Nat.le_of_lt hlt))) ?_
  exact walks_of_plain hpass (by simpa [and_assoc] using hplain)
    (hfree.mono hscan.before.offset_le (Nat.le_refl _))

/-- A pragma goes from piece to piece: its word, padding, its value and the semicolon. -/
theorem pragma_walks (hn : n ∈ root.children) {e f : Cursor} {x : Char} {xs : List Char}
    (hword : n.start.Passes "pragma".toList e) (hvalue : (skip e).Passes (x :: xs) f)
    (hsemi : f.Passes [';'] n.stop)
    (hnode : n = ⟨.pragmaDirective, n.start, n.stop,
      [⟨.keyword .pragmaWord, n.start, e, []⟩, ⟨.pragmaValue, skip e, f, []⟩]⟩) :
    Walks root n.start e ∧ piece? root (skip e) = some f ∧ Walks root f n.stop := by
  have hskip : e.offset ≤ (skip e).offset := Cursor.Before.offset_le (skip_passes e)
  have hlt : (skip e).offset < f.offset := by
    have := x.utf8Size_pos
    rw [hvalue.2, Text.byteLength_cons]
    omega
  have hfirst : n.start.offset ≤ e.offset := Cursor.Before.offset_le ⟨_, hword⟩
  have hlast : f.offset ≤ n.stop.offset := Cursor.Before.offset_le ⟨_, hsemi⟩
  -- the only value that starts inside of the pragma is its own
  have hown : ∀ v ∈ pragmaValues root, v = ⟨.pragmaValue, skip e, f, []⟩ ∨
      v.start.offset < n.start.offset ∨ n.stop.offset ≤ v.start.offset := by
    intro v hv
    rcases pragmaValue_apart hroot hn hv with ⟨-, hchild, hrule⟩ | h
    · rw [hnode] at hchild
      simp only [List.mem_cons, List.not_mem_nil, or_false] at hchild
      rcases hchild with rfl | rfl
      · cases hrule
      · exact .inl rfl
    · exact .inr h
  refine ⟨walks_of_plain hword (by decide) fun v hv => ?_, ?_,
    walks_of_plain hsemi (by decide) fun v hv => ?_⟩
  · rcases hown v hv with rfl | h | h
    · exact .inr hskip
    · exact .inl h
    · exact .inr (by omega)
  · have hmem : (⟨.pragmaValue, skip e, f, []⟩ : Tree) ∈ pragmaValues root := by
      refine mem_pragmaValues_iff.2 ⟨n, hn, ?_⟩
      rw [hnode]
      simp
    unfold piece?
    cases hv : (pragmaValues root).find? (·.start = skip e) with
    | none =>
      rw [List.find?_eq_none] at hv
      simpa using hv _ hmem
    | some v =>
      have hstart : v.start = skip e := by simpa using List.find?_some hv
      rcases hown v (List.mem_of_find?_eq_some hv) with rfl | h | h
      · rfl
      · rw [hstart] at h
        omega
      · rw [hstart] at h
        omega
  · rcases hown v hv with rfl | h | h
    · exact .inl hlt
    · exact .inl (by omega)
    · exact .inr h

/-- A walk leads through each item of a source. -/
theorem item_walks (hn : n ∈ root.children) (hr : n.rule ∈ itemRules) :
    Walks root n.start n.stop := by
  by_cases hpragma : n.rule = .pragmaDirective
  · have htakes := takes_of_mem_children hroot hn
    rw [hpragma] at htakes
    obtain ⟨e, f, x, xs, hword, -, hvalue, -, hsemi, hnode⟩ := takes_pragmaDirective_iff.1 htakes
    obtain ⟨hfirst, hpiece, hlast⟩ :=
      pragma_walks hroot hn hword hvalue hsemi (List.singleton_inj.1 hnode)
    exact hfirst.trans ((walks_skip hroot e).trans (.head hpiece hlast))
  · exact (item_scans hroot hn hr hpragma .refl).2.2

end Items

end SolidityStubs.Source
