import SolidityStubs.Proofs.Source.Words
import SolidityStubs.Source.Tree

/-! # Written types and parameters are read back

A type that is written with single spaces between its tokens is read as the type that it stands for,
if what follows does not belong to it. The same holds of lists of parameters.
-/
namespace SolidityStubs

open Source Peg

section Trimming

theorem toNat_of_isIdentifierChar {x : Char} (h : isIdentifierChar x = true) :
    48 ≤ x.toNat ∧ x.toNat ≤ 57 ∨ 65 ≤ x.toNat ∧ x.toNat ≤ 90 ∨ 97 ≤ x.toNat ∧ x.toNat ≤ 122 ∨
      x.toNat = 95 ∨ x.toNat = 36 := by
  delta isIdentifierChar Char.isAlphanum Char.isAlpha Char.isUpper Char.isLower Char.isDigit at h
  simp only [Bool.or_eq_true, Bool.and_eq_true, decide_eq_true_eq, ge_iff_le,
    UInt32.le_iff_toNat_le, beq_iff_eq] at h
  rcases h with (((h | h) | h) | rfl) | rfl
  · exact .inr (.inl h)
  · exact .inr (.inr (.inl h))
  · exact .inl h
  · decide
  · decide

theorem isBlank_of_isIdentifierChar {x : Char} (h : isIdentifierChar x = true) :
    Text.isBlank x = false := by
  have hn := toNat_of_isIdentifierChar h
  simp only [Text.isBlank, Bool.or_eq_false_iff, Bool.and_eq_false_iff, decide_eq_false_iff_not,
    beq_eq_false_iff_ne]
  omega

theorem isBlank_of_isSpace {x : Char} (h : isSpace x = true) : Text.isBlank x = true := by
  simp only [isSpace, Bool.or_eq_true, beq_iff_eq] at h
  rcases h with ((rfl | rfl) | rfl) | rfl <;> rfl

structure Trimmed (cs : List Char) : Prop where
  head : ∃ x xs, cs = x :: xs ∧ Text.isBlank x = false
  last : ∃ ys y, cs = ys ++ [y] ∧ Text.isBlank y = false

theorem Trimmed.append {cs ds : List Char} (hc : Trimmed cs) (hd : Trimmed ds) (es : List Char) :
    Trimmed (cs ++ es ++ ds) := by
  obtain ⟨x, xs, rfl, hx⟩ := hc.head
  obtain ⟨ys, y, rfl, hy⟩ := hd.last
  exact ⟨⟨x, xs ++ es ++ (ys ++ [y]), by simp, hx⟩, ⟨x :: xs ++ es ++ ys, y, by simp, hy⟩⟩

theorem Trimmed.trimChars_append {cs ws : List Char} (hc : Trimmed cs)
    (hws : ws.all Text.isBlank = true) : Text.trimChars (cs ++ ws) = cs := by
  obtain ⟨x, xs, hhead, hx⟩ := hc.head
  obtain ⟨ys, y, hlast, hy⟩ := hc.last
  have hleft : Text.trimLeft (cs ++ ws) = cs ++ ws := by
    simp [Text.trimLeft, hhead, hx]
  have hright : (cs ++ ws).reverse.dropWhile Text.isBlank = cs.reverse := by
    rw [List.reverse_append, List.dropWhile_append_of_pos (by simpa using hws), hlast,
      List.reverse_append, List.reverse_singleton, List.singleton_append,
      List.dropWhile_cons_of_neg (by simp [hy])]
  rw [Text.trimChars, hleft, Text.trimRight, Text.trimLeft, hright, List.reverse_reverse]

theorem Trimmed.trimChars {cs : List Char} (hc : Trimmed cs) : Text.trimChars cs = cs := by
  have h := hc.trimChars_append (List.all_nil)
  rwa [List.append_nil] at h

theorem trimmed_quoted {quote : Char} (h : isQuote quote = true) (cs : List Char) :
    Trimmed (quote :: (cs ++ [quote])) := by
  have hblank : Text.isBlank quote = false := by
    simp only [isQuote, Bool.or_eq_true, beq_iff_eq] at h
    rcases h with rfl | rfl <;> rfl
  exact ⟨⟨quote, cs ++ [quote], rfl, hblank⟩, ⟨quote :: cs, quote, rfl, hblank⟩⟩

theorem trimmed_of_isIdentifier {cs : List Char} (h : isIdentifier cs = true) : Trimmed cs := by
  have hall := List.all_eq_true.1 (all_of_isIdentifier h)
  have hne : cs ≠ [] := by
    rintro rfl
    cases h
  obtain ⟨x, xs, hhead⟩ := List.exists_cons_of_ne_nil hne
  refine ⟨⟨x, xs, hhead, isBlank_of_isIdentifierChar (hall x (by simp [hhead]))⟩,
    ⟨cs.dropLast, cs.getLast hne, (List.dropLast_concat_getLast hne).symm, ?_⟩⟩
  exact isBlank_of_isIdentifierChar (hall _ (List.getLast_mem hne))

theorem trimmed_dotted {ps : List (List Char)} (hne : ps ≠ [])
    (hps : ∀ p ∈ ps, isIdentifier p = true) : Trimmed (dotted ps) := by
  obtain ⟨p, ps, rfl⟩ := List.exists_cons_of_ne_nil hne
  have hfirst := trimmed_of_isIdentifier (hps p (by simp))
  rcases List.eq_nil_or_concat ps with rfl | ⟨qs, q, rfl⟩
  · simpa [dotted] using hfirst
  · have hlast := trimmed_of_isIdentifier (hps q (by simp))
    have h := hfirst.append hlast (qs.flatMap ('.' :: ·) ++ ['.'])
    simpa [dotted] using h

theorem trimmed_dotted_text (p : Dotted Identifier) : Trimmed p.text.toList := by
  rw [toList_dotted_text]
  refine trimmed_dotted (by simp [Dotted.parts]) fun q hq => ?_
  obtain ⟨i, -, rfl⟩ := List.mem_map.1 hq
  exact i.isIdentifier

theorem Trimmed.spread {us ts : List String} (hu : Trimmed (Source.spread us))
    (ht : Trimmed (Source.spread ts)) : Trimmed (Source.spread (us ++ ts)) := by
  cases us with
  | nil => exact ht
  | cons u us =>
    cases ts with
    | nil => simpa using hu
    | cons t ts =>
      have h := hu.append ht [' ']
      rw [spread_append _ (by simp)]
      simpa [behind, Source.spread] using h

theorem TypeForm.trimmed (t : TypeForm) : Trimmed (spread t.tokens) := by
  have hliteral : ∀ s ∈ ["mapping", "(", "=>", ")", "[", "]"], Trimmed (spread [s]) := by
    intro s hs
    simp only [List.mem_cons, List.not_mem_nil, or_false] at hs
    rcases hs with rfl | rfl | rfl | rfl | rfl | rfl
    · exact ⟨⟨'m', _, rfl, rfl⟩, ⟨"mappin".toList, 'g', rfl, rfl⟩⟩
    · exact ⟨⟨'(', _, rfl, rfl⟩, ⟨[], '(', rfl, rfl⟩⟩
    · exact ⟨⟨'=', _, rfl, rfl⟩, ⟨['='], '>', rfl, rfl⟩⟩
    · exact ⟨⟨')', _, rfl, rfl⟩, ⟨[], ')', rfl, rfl⟩⟩
    · exact ⟨⟨'[', _, rfl, rfl⟩, ⟨[], '[', rfl, rfl⟩⟩
    · exact ⟨⟨']', _, rfl, rfl⟩, ⟨[], ']', rfl, rfl⟩⟩
  induction t with
  | named path =>
    simpa [tokens, spread, behind, DottedName.text] using
      trimmed_dotted_text (path.map Name.toIdentifier)
  | mapping key value ihk ihv =>
    have hopen : Trimmed (spread ["mapping", "("]) :=
      (hliteral "mapping" (by simp)).spread (hliteral "(" (by simp))
    exact (((hopen.spread ihk).spread (hliteral "=>" (by simp))).spread
      ihv).spread (hliteral ")" (by simp))
  | array element ih =>
    exact ih.spread ((hliteral "[" (by simp)).spread (hliteral "]" (by simp)))

theorem trimChars_upTo {us ts : List String} {c d : Cursor} (hus : Trimmed (spread us))
    (hc : At (us ++ ts) c) (hd : Near ts d) (hbefore : c.Before d) :
    Text.trimChars (c.upTo d) = spread us := by
  obtain ⟨cs, hcs⟩ := hbefore
  have hne : us ≠ [] := by
    rintro rfl
    obtain ⟨x, xs, h, -⟩ := hus.head
    cases h
  have htext : cs ++ d.rest = spread us ++ behind ts := by
    rw [← hcs.1, hc.rest, spread_append _ hne]
  rw [hcs.upTo]
  have hbehind : ts ≠ [] → behind ts = [' '] ++ spread ts := by
    intro h
    obtain ⟨t, us, rfl⟩ := List.exists_cons_of_ne_nil h
    simp [behind, spread]
  rcases hd.rest with hrest | hrest
  · by_cases hts : ts = []
    · subst hts
      have h : cs = spread us := by simpa [hrest, spread, behind] using htext
      rw [h, hus.trimChars]
    · rw [hrest, hbehind hts, ← List.append_assoc, List.append_left_inj] at htext
      rw [htext, hus.trimChars_append rfl]
  · rw [hrest, List.append_left_inj] at htext
    rw [htext, hus.trimChars]

end Trimming

section Words

variable {w : String}

theorem Name.ne_of_reserved (i : Name) (hw : w ∈ reservedWords) : i.text ≠ w := by
  rintro rfl
  exact i.notReserved hw

theorem Name.wordOf_ne (i : Name) (hw : w ∈ reservedWords) : wordOf i.text ≠ w.toList := by
  rw [wordOf_identifier i.toIdentifier]
  exact fun h => i.ne_of_reserved hw (String.toList_inj.1 h)

theorem DottedName.wordOf_ne (p : DottedName) (hw : w ∈ reservedWords) :
    wordOf p.text ≠ w.toList := by
  rw [DottedName.text, wordOf_dotted]
  exact fun h => p.first.ne_of_reserved hw (String.toList_inj.1 h)

theorem Name.wordOf_not_mem {ws : List String} (i : Name) (hws : ∀ w ∈ ws, w ∈ reservedWords) :
    wordOf i.text ∉ ws.map String.toList := by
  intro h
  obtain ⟨w, hw, heq⟩ := List.mem_map.1 h
  exact i.wordOf_ne (hws w hw) heq.symm

theorem Identifier.head (i : Identifier) :
    ∃ x xs, i.text.toList = x :: xs ∧ isIdentifierStart x = true := by
  have h := i.isIdentifier
  cases hcs : i.text.toList with
  | nil => simp [hcs, SolidityStubs.isIdentifier] at h
  | cons x xs =>
    simp only [hcs, SolidityStubs.isIdentifier, Bool.and_eq_true] at h
    exact ⟨x, xs, rfl, h.1⟩

end Words

section Types

variable {t : String} {ts us : List String}

def HasRule (r : Rule) (n : Tree) : Prop := n.rule = r

theorem fails_text_of_head {m : Mode} {c : Cursor} {x y : Char} {xs cs : List Char}
    (hc : c.rest = x :: xs) (hxy : y ≠ x) : Fails grammar m (.text (y :: cs)) c := by
  obtain ⟨n, rest⟩ := c
  simp only at hc
  subst hc
  exact .textFail (by simp [Cursor.text?, hxy])

theorem refuses_filler {x : Char} {xs : List Char} (ht : t.toList = x :: xs)
    (hx : x = ']' ∨ x = '\x7d') : Refuses (.rule .filler) (t :: ts) := by
  intro c hc
  have hrest := hc.head ht
  have hstring : Fails grammar .spaced (.rule .stringLiteral) c := by
    have h := stringLiteral_yields c
    rwa [string?_eq_none hrest (by rcases hx with rfl | rfl <;> rfl)] at h
  have hchar : Fails grammar .spaced (.char (! isBracket ·)) c := by
    obtain ⟨n, rest⟩ := c
    simp only at hrest
    subst hrest
    rcases hx with rfl | rfl <;> exact .charFail rfl
  have hgroup : ∀ y closing : Char, y ≠ x → Fails grammar .spaced (group y closing) c :=
    fun y closing hy => .seqFirst (fails_text_of_head hrest hy)
  exact .ruleFail (.choiceRight (hgroup _ _ (by rcases hx with rfl | rfl <;> decide))
    (.choiceRight (hgroup _ _ (by rcases hx with rfl | rfl <;> decide))
      (.choiceRight (hgroup _ _ (by rcases hx with rfl | rfl <;> decide))
        (.choiceRight hstring hchar))))

theorem reads_arraySuffix : Reads (.rule .arraySuffix) ("[" :: "]" :: ts) ts [HasRule .arraySuffix] :=
  .rule rfl (reads_text.seq ((refuses_filler rfl (.inl rfl)).many.seq reads_text)) fun _ _ _ _ _ _ _ =>
    rfl

def EndsType (ts : List String) : Prop :=
  ∃ u us, ts = u :: us ∧ wordOf u ≠ "payable".toList ∧ u.toList.head? ≠ some '['

theorem endsType_name (i : Name) : EndsType (i.text :: us) := by
  obtain ⟨x, xs, hx, hstart⟩ := i.toIdentifier.head
  refine ⟨_, _, rfl, i.wordOf_ne (by decide), ?_⟩
  rw [hx]
  rintro ⟨rfl⟩
  cases hstart

def TypeForm.keyAndValue? : TypeForm → Option (TypeName × TypeName)
  | .named _ => none
  | .mapping key value => some (key.decl, value.decl)
  | .array element => element.keyAndValue?

theorem TypeForm.decl_eq (t : TypeForm) :
    t.decl =
      match t.keyAndValue? with
      | some (key, value) => .mapping key value t.text
      | none => .named t.text := by
  induction t with
  | named path => simp [decl, keyAndValue?, text, tokens]
  | mapping key value => rfl
  | array element ih =>
    rw [decl, ih, keyAndValue?]
    cases element.keyAndValue? <;> rfl

theorem TypeForm.keyAndValue?_base (t : TypeForm) : t.base.keyAndValue? = t.keyAndValue? := by
  induction t with
  | named path => rfl
  | mapping key value => rfl
  | array element ih => exact ih

def IsType (t : TypeForm) (n : Tree) : Prop := n.rule = .typeName ∧ TypeName.ofTree n = t.decl

def IsBase (t : TypeForm) (n : Tree) : Prop := TypeName.keyAndValue? [n] = t.keyAndValue?

theorem keyAndValue?_cons (n : Tree) (ns : List Tree) :
    TypeName.keyAndValue? (n :: ns) = TypeName.keyAndValue? [n] := by
  cases n
  rfl

/-- A type is read with all its suffixes if what it is based on is read. -/
theorem reads_typeName_of_base {t : TypeForm}
    (hbase : ∀ u us, wordOf u ≠ "payable".toList →
      Reads baseType (t.base.tokens ++ u :: us) (u :: us) [IsBase t.base])
    (hts : EndsType ts) : Reads (.rule .typeName) (t.tokens ++ ts) ts [IsType t] := by
  obtain ⟨u, us, rfl, hpayable, hbracket⟩ := hts
  have hstop : Refuses (.rule .arraySuffix) (u :: us) := by
    refine .rule rfl (.seq fun c hc => ?_)
    obtain ⟨x, xs, hx, -⟩ := solid_iff.1 (hc.solid u (by simp))
    refine fails_text_of_head (hc.head hx) ?_
    rintro rfl
    simp [hx] at hbracket
  have hsuffixes : Reads (.many (.rule .arraySuffix))
      ((t.suffixes.flatMap fun _ => ["[", "]"]) ++ u :: us) (u :: us)
      (t.suffixes.map fun _ => HasRule .arraySuffix) :=
    .many (fun _ => True) (fun _ _ _ _ => reads_arraySuffix) (fun _ _ _ => trivial) trivial
      hstop
  have hfirst : Reads baseType (t.tokens ++ u :: us)
      ((t.suffixes.flatMap fun _ => ["[", "]"]) ++ u :: us) [IsBase t.base] := by
    rw [t.tokens_eq, List.append_assoc]
    cases t.suffixes with
    | nil => exact hbase u us hpayable
    | cons _ _ => exact hbase "[" _ (by decide)
  refine .rule rfl (hfirst.seq hsuffixes) fun c d ns hc hd hbefore hns => ⟨rfl, ?_⟩
  obtain _ | @⟨n, _, ns, _, hn, -⟩ := hns
  have htext : String.ofList (Text.trimChars (c.upTo d)) = t.text := by
    rw [trimChars_upTo t.trimmed hc hd hbefore, ← toList_intercalate_space, String.ofList_toList]
    rfl
  have hkey : TypeName.keyAndValue? (n :: ns) = t.keyAndValue? := by
    rw [keyAndValue?_cons, hn, t.keyAndValue?_base]
  rw [TypeName.ofTree, hkey, htext]
  exact t.decl_eq.symm

/-- The induction is over the type, whose suffixes do not count. A mapping holds two types. -/
theorem reads_baseType (t : TypeForm) (u : String) (us : List String)
    (hu : wordOf u ≠ "payable".toList) :
    Reads baseType (t.base.tokens ++ u :: us) (u :: us) [IsBase t.base] := by
  induction t generalizing u us with
  | named path =>
    have hmapping : Refuses (.rule .mappingType) (path.text :: u :: us) :=
      .rule rfl (.seq (refuses_keyword (path.wordOf_ne (by decide))))
    have hname : Reads (.rule .userTypeName) (path.text :: u :: us) (u :: us)
        [IsLeaf .userTypeName path.text] := reads_userTypeName (path.map Name.toIdentifier)
    have hread : Reads baseType (path.text :: u :: us) (u :: us)
        [IsLeaf .userTypeName path.text] :=
      .choiceRight hmapping (.choiceRight (refuses_addressPayable _ hu) hname)
    refine hread.imp fun n hn => ?_
    obtain ⟨r, c, d, ns⟩ := n
    obtain ⟨rfl, -⟩ := hn
    rfl
  | mapping key value ihk ihv =>
    have harrow : EndsType ("=>" :: (value.tokens ++ ")" :: u :: us)) :=
      ⟨_, _, rfl, by decide, by decide⟩
    have hparen : EndsType (")" :: u :: us) := ⟨_, _, rfl, by decide, by decide⟩
    have hkey := reads_typeName_of_base ihk harrow
    have hvalue := reads_typeName_of_base ihv hparen
    have hnoName : ∀ {t : String} {vs : List String} {x : Char} {xs : List Char},
        t.toList = x :: xs → isIdentifierStart x = false →
          Reads (.maybe (.rule .identifier)) (t :: vs) (t :: vs) [] :=
      fun ht hx => (refuses_identifier ht hx).maybe
    have hbody := (reads_keyword .mappingWord).seq ((reads_text (t := "(")).seq (hkey.seq
      ((hnoName rfl rfl).seq (reads_text.seq (hvalue.seq ((hnoName rfl rfl).seq reads_text))))))
    have hread : Reads (.rule .mappingType)
        ("mapping" :: "(" :: (key.tokens ++ "=>" :: (value.tokens ++ ")" :: u :: us))) (u :: us)
        [IsBase (.mapping key value)] := by
      refine .rule rfl hbody fun c d ns _ _ _ hns => ?_
      obtain _ | ⟨hn, _ | ⟨hk, _ | ⟨hv, _ | _⟩⟩⟩ := hns
      simp [IsBase, TypeName.keyAndValue?, TypeName.ofTrees, hn.1, hk.1, hk.2, hv.1, hv.2,
        TypeForm.keyAndValue?]
    have htokens : (TypeForm.mapping key value).base.tokens ++ u :: us =
        "mapping" :: "(" :: (key.tokens ++ "=>" :: (value.tokens ++ ")" :: u :: us)) := by
      simp [TypeForm.base, TypeForm.tokens]
    rw [htokens]
    exact hread.choiceLeft
  | array element ih => exact ih u us hu

theorem reads_typeName (t : TypeForm) (hts : EndsType ts) :
    Reads (.rule .typeName) (t.tokens ++ ts) ts [IsType t] :=
  reads_typeName_of_base (reads_baseType t) hts

theorem refuses_typeName {x : Char} {xs : List Char} (ht : t.toList = x :: xs)
    (hx : isIdentifierStart x = false) : Refuses (.rule .typeName) (t :: ts) := by
  have hne : ∀ y : Char, isIdentifierStart y = true → y ≠ x := by
    rintro y hy rfl
    simp [hx] at hy
  refine .rule rfl (.seq (.choice ?_ (.choice ?_ (refuses_userTypeName ht hx))))
  · exact .rule rfl (.seq fun c hc => .ruleFail (.seqFirst
      (fails_text_of_head (hc.head ht) (hne 'm' rfl))))
  · exact fun c hc => .ruleFail (.seqFirst (fails_text_of_head (hc.head ht) (hne 'a' rfl)))

end Types

section Parameters

variable {ts : List String}

theorem reads_separated {α : Type} {e : Expr Rule} (Follow : List String → Prop)
    {group : α → List String} {kind : α → Tree → Prop} {x : α} {xs : List α}
    (hread : ∀ y ∈ x :: xs, ∀ us, Follow us → Reads e (group y ++ us) us [kind y])
    (hcomma : ∀ us, Follow ("," :: us)) (hts : Follow ts) (hend : Refuses (.text [',']) ts) :
    Reads (.separated e (.text [','])) (separateTokens ((x :: xs).map group) ++ ts) ts
      ((x :: xs).map kind) := by
  have htokens : separateTokens ((x :: xs).map group) ++ ts =
      group x ++ (xs.flatMap (fun y => "," :: group y) ++ ts) := by
    simp [separateTokens, List.flatMap_map]
  have hfollow : Follow (xs.flatMap (fun y => "," :: group y) ++ ts) := by
    cases xs with
    | nil => exact hts
    | cons y ys => exact hcomma _
  have hmore : Reads (.many (.seq (.text [',']) e)) (xs.flatMap (fun y => "," :: group y) ++ ts) ts
      (xs.map kind) :=
    .many Follow
      (fun y hy us hus => reads_text.seq (hread y (List.mem_cons_of_mem x hy) us hus))
      (fun y _ us => hcomma _) hts hend.seq
  rw [htokens]
  exact (hread x (by simp) _ hfollow).seq hmore

def IsParameter (p : ParameterForm) (n : Tree) : Prop :=
  n.rule = .parameter ∧ (Parameter.ofTree? n).map Parameter.unplaced = some p.decl

def IsParameterList (ps : List ParameterForm) (n : Tree) : Prop :=
  n.rule = .parameterList ∧ (Parameter.listOfTree n).map Parameter.unplaced = ps.map (·.decl)

def EndsParameter (ts : List String) : Prop := ∃ u us, ts = u :: us ∧ (u = "," ∨ u = ")")

theorem EndsParameter.endsType (h : EndsParameter ts) : EndsType ts := by
  obtain ⟨u, us, rfl, rfl | rfl⟩ := h <;> exact ⟨_, _, rfl, by decide, by decide⟩

theorem EndsParameter.refuses_identifier (h : EndsParameter ts) : Refuses (.rule .identifier) ts := by
  obtain ⟨u, us, rfl, rfl | rfl⟩ := h <;> exact Source.refuses_identifier rfl rfl

theorem refuses_storageLocation {t : String} (ht : wordOf t ∉ storageWords.map String.toList) :
    Refuses (.rule .storageLocation) (t :: ts) :=
  refuses_oneOfWords rfl (by decide) ht

theorem reads_parameter (p : ParameterForm) (hts : EndsParameter ts) :
    Reads (.rule .parameter) (p.tokens ++ ts) ts [IsParameter p] := by
  obtain ⟨type, name⟩ := p
  cases name with
  | none =>
    have hlocation : Refuses (.rule .storageLocation) ts := by
      obtain ⟨u, us, rfl, rfl | rfl⟩ := hts <;> exact refuses_storageLocation (by decide)
    have hbody := (reads_typeName type hts.endsType).seq
      (hlocation.many.seq hts.refuses_identifier.maybe)
    simp only [ParameterForm.tokens, Option.toList_none, List.map_nil, List.append_nil]
    refine .rule rfl hbody fun c d ns _ _ _ hns => ⟨rfl, ?_⟩
    obtain _ | ⟨hn, _ | _⟩ := hns
    simp [Parameter.ofTree?, Node.child?, hn.1, hn.2, Parameter.unplaced, ParameterForm.decl]
  | some i =>
    have hlocation : Refuses (.rule .storageLocation) (i.text :: ts) :=
      refuses_storageLocation (i.wordOf_not_mem (by decide))
    have hbody := (reads_typeName type (endsType_name i)).seq
      (hlocation.many.seq (reads_identifier i.toIdentifier).maybe)
    simp only [ParameterForm.tokens, Option.toList_some, List.map_cons, List.map_nil,
      List.append_assoc, List.singleton_append]
    refine .rule rfl hbody fun c d ns _ _ _ hns => ⟨rfl, ?_⟩
    obtain _ | ⟨hn, _ | ⟨hm, _ | _⟩⟩ := hns
    simp [Parameter.ofTree?, Node.child?, hn.1, hn.2, hm.1, hm.2, Parameter.unplaced,
      ParameterForm.decl]

theorem filter_rule_eq {α : Type} {r : Rule} {ns : List Tree} {xs : List α}
    (h : List.Forall₂ (fun n _ => n.rule = r) ns xs) : ns.filter (·.rule = r) = ns := by
  induction h with
  | nil => rfl
  | cons hn _ ih => simp [hn, ih]

theorem map_filterMap_eq {α β : Type} {read : Tree → Option α} {place : α → α} {decl : β → α}
    {ns : List Tree} {xs : List β}
    (h : List.Forall₂ (fun n x => (read n).map place = some (decl x)) ns xs) :
    (ns.filterMap read).map place = xs.map decl := by
  induction h with
  | nil => rfl
  | @cons n x ns xs hn _ ih =>
    cases hr : read n with
    | none => simp [hr] at hn
    | some a =>
      have ha : place a = decl x := by simpa [hr] using hn
      simp [hr, ha, ih]

theorem reads_parameterList (ps : List ParameterForm) :
    Reads (.rule .parameterList) (ParameterForm.listTokens ps ++ ts) ts [IsParameterList ps] := by
  have hmiddle : Reads (.maybe (.separated (.rule .parameter) (.text [','])))
      (separateTokens (ps.map ParameterForm.tokens) ++ ")" :: ts) (")" :: ts)
      (ps.map IsParameter) := by
    cases ps with
    | nil =>
      have hnone : Refuses (.rule .parameter) (")" :: ts) := .rule rfl (refuses_typeName rfl rfl).seq
      exact hnone.seq.maybe
    | cons p ps =>
      exact (reads_separated EndsParameter (fun q _ _ => reads_parameter q)
        (fun us => ⟨_, us, rfl, .inl rfl⟩)
        ⟨_, ts, rfl, .inr rfl⟩ (refuses_text rfl (by decide))).maybe
  have htokens : ParameterForm.listTokens ps ++ ts =
      "(" :: (separateTokens (ps.map ParameterForm.tokens) ++ ")" :: ts) := by
    simp [ParameterForm.listTokens]
  rw [htokens]
  refine .rule rfl (reads_text.seq (hmiddle.seq reads_text)) fun c d ns _ _ _ hns => ⟨rfl, ?_⟩
  rw [List.append_nil, List.nil_append] at hns
  have hall : List.Forall₂ (fun n p => IsParameter p n) ns ps := List.forall₂_map_right_iff.1 hns
  have hrule : ns.filter (·.rule = .parameter) = ns := filter_rule_eq (hall.imp fun _ _ h => h.1)
  simp only [Parameter.listOfTree, Node.childrenOf, hrule]
  exact map_filterMap_eq (hall.imp fun _ _ h => h.2)

end Parameters

end SolidityStubs
