import Mathlib.Data.List.Find
import SolidityStubs.Proofs.Source.Closed
import SolidityStubs.Proofs.Source.Words
import SolidityStubs.Stub.Render

/-! # Renaming enums

Where names are replaced, an identifier gives way to another identifier and everything else stays.
A word that is not one of the names stays too, unless it holds a dollar sign, which is no word
character but may stand in an identifier.
-/
namespace SolidityStubs

open Source

def primitiveChars : List Char := enumPrimitive.toList

/-- The names are replaced in a text that stands behind `before`, with `passing` characters of a name
still to be passed over. -/
abbrev renameFrom (names : List (List Char)) : Option Char → Nat → List Char → List Char :=
  Text.replaceFrom names primitiveChars

def rename (names : List (List Char)) (cs : List Char) : List Char := renameFrom names none 0 cs

def enumChars (enums : List String) : List (List Char) :=
  (enums.map String.toList).filter (! ·.isEmpty)

theorem toList_substituteEnums (enums : List String) (text : String) :
    (substituteEnums enums text).toList = rename (enumChars enums) text.toList := by
  rw [substituteEnums, Text.replaceWords, String.toList_ofList]
  rfl

variable {names : List (List Char)} {before : Option Char} {x y : Char} {xs cs rest : List Char}

section Steps

theorem renameFrom_none (h : names.find? (Text.standsAt before (x :: xs)) = none) :
    renameFrom names before 0 (x :: xs) = x :: renameFrom names (some x) 0 xs := by
  simp only [renameFrom, Text.replaceFrom, h]

theorem renameFrom_some {name : List Char}
    (h : names.find? (Text.standsAt before (x :: xs)) = some name) :
    renameFrom names before 0 (x :: xs) =
      primitiveChars ++ renameFrom names (some x) (name.length - 1) xs := by
  simp only [renameFrom, Text.replaceFrom, h]

theorem renameFrom_succ (k : Nat) :
    renameFrom names before (k + 1) (x :: xs) = renameFrom names (some x) k xs := by
  simp only [renameFrom, Text.replaceFrom]

theorem rename_nil : rename names [] = [] := by
  simp [rename, renameFrom, Text.replaceFrom]

/-- A character that is not part of a word is no neighbour that counts. -/
theorem renameFrom_before (hx : Text.isWord x = false) (cs : List Char) :
    renameFrom names (some x) 0 cs = rename names cs := by
  have hstands : ∀ cs, Text.standsAt (some x) cs = Text.standsAt none cs := by
    intro cs
    funext name
    simp [Text.standsAt, Text.isBoundary, hx]
  cases cs with
  | nil => simp [rename, renameFrom, Text.replaceFrom]
  | cons y ys => simp only [rename, renameFrom, Text.replaceFrom, hstands]

theorem cons_of_standsAt {name : List Char} (hne : name ≠ [])
    (h : Text.standsAt before (x :: xs) name = true) : ∃ tail, name = x :: tail ∧ tail <+: xs := by
  simp only [Text.standsAt, Bool.and_eq_true] at h
  have hprefix := List.isPrefixOf_iff_prefix.1 h.1.1
  cases name with
  | nil => exact absurd rfl hne
  | cons z tail =>
    obtain ⟨rfl, htail⟩ := List.cons_prefix_cons.1 hprefix
    exact ⟨tail, rfl, htail⟩

/-- No name of characters of a class starts outside of the class. -/
theorem renameFrom_outside {p : Char → Bool}
    (hnames : ∀ name ∈ names, name ≠ [] ∧ name.all p = true) (hx : p x = false) :
    renameFrom names before 0 (x :: xs) = x :: renameFrom names (some x) 0 xs := by
  refine renameFrom_none (List.find?_eq_none.2 fun name hname h => ?_)
  obtain ⟨hne, hall⟩ := hnames name hname
  obtain ⟨tail, rfl, -⟩ := cons_of_standsAt hne h
  simp [hx] at hall

theorem renameFrom_of_head {p : Char → Bool}
    (hnames : ∀ name ∈ names, name ≠ [] ∧ name.all p = true)
    (hrest : rest.head?.all (! p ·) = true) :
    renameFrom names before 0 rest = rename names rest := by
  cases rest with
  | nil => simp [rename, renameFrom, Text.replaceFrom]
  | cons y ys =>
    have hy : p y = false := by simpa using hrest
    rw [rename, renameFrom_outside hnames hy, renameFrom_outside hnames hy]

theorem rename_outside {p : Char → Bool} (hnames : ∀ name ∈ names, name ≠ [] ∧ name.all p = true)
    (ws : List Char) (hws : ∀ x ∈ ws, p x = false) (hword : ∀ x ∈ ws, Text.isWord x = false) :
    rename names (ws ++ rest) = ws ++ rename names rest := by
  induction ws with
  | nil => rfl
  | cons w ws ih =>
    rw [List.forall_mem_cons] at hws hword
    rw [List.cons_append, rename, renameFrom_outside hnames hws.1, renameFrom_before hword.1,
      ih hws.2 hword.2, List.cons_append]

variable (hnames : ∀ name ∈ names, isIdentifier name = true)

include hnames

theorem ne_nil_and_all_of_isIdentifier :
    ∀ name ∈ names, name ≠ [] ∧ name.all isIdentifierChar = true := by
  intro name hname
  refine ⟨?_, all_of_isIdentifier (hnames name hname)⟩
  rintro rfl
  cases hnames _ hname

theorem start_of_standsAt {name : List Char} (hname : name ∈ names)
    (h : Text.standsAt before (x :: xs) name = true) :
    isIdentifierStart x = true ∧ ∃ tail, name = x :: tail ∧ tail <+: xs := by
  obtain ⟨tail, rfl, htail⟩ := cons_of_standsAt (ne_nil_and_all_of_isIdentifier hnames name hname).1 h
  have hid := hnames _ hname
  simp only [isIdentifier, Bool.and_eq_true] at hid
  exact ⟨hid.1, tail, rfl, htail⟩

theorem renameFrom_of_not_start (hx : isIdentifierStart x = false) :
    renameFrom names before 0 (x :: xs) = x :: renameFrom names (some x) 0 xs := by
  refine renameFrom_none (List.find?_eq_none.2 fun name hname h => ?_)
  obtain ⟨hstart, -⟩ := start_of_standsAt hnames hname h
  rw [hx] at hstart
  cases hstart

end Steps

section Runs

theorem not_start_of_endsRun (h : EndsRun (y :: rest)) : isIdentifierStart y = false := by
  cases hy : isIdentifierStart y with
  | false => rfl
  | true =>
    have hchar := isIdentifierChar_of_start hy
    simp [EndsRun, hchar] at h

omit before in
theorem prefix_of_all {p : Char → Bool} {tail : List Char} (htail : tail.all p = true)
    (h : tail <+: xs ++ rest) (hrest : rest.head?.all (! p ·) = true) : tail <+: xs := by
  obtain ⟨ws, hws⟩ := h
  rcases List.append_eq_append_iff.1 hws with ⟨zs, rfl, -⟩ | ⟨zs, rfl, hzs⟩
  · exact List.prefix_append tail zs
  · cases zs with
    | nil => simp
    | cons z zs =>
      simp only [List.all_append, List.all_cons, Bool.and_eq_true] at htail
      simp [hzs, htail.2.1] at hrest

/-- A name does not reach beyond the identifier that it starts in. -/
theorem prefix_of_endsRun {tail : List Char} (htail : tail.all isIdentifierChar = true)
    (h : tail <+: xs ++ rest) (hrest : EndsRun rest) : tail <+: xs :=
  prefix_of_all htail h hrest

theorem renameFrom_of_endsRun (hnames : ∀ name ∈ names, isIdentifier name = true)
    (hrest : EndsRun rest) : renameFrom names before 0 rest = rename names rest :=
  renameFrom_of_head (ne_nil_and_all_of_isIdentifier hnames) hrest

/-- What has become of an identifier: it is as it was or the new type is part of it. -/
structure Renamed (run run' : List Char) : Prop where
  chars : run'.all isIdentifierChar = true
  start : isIdentifier run = true → isIdentifier run' = true
  changed : run' = run ∨ '8' ∈ run'

theorem all_primitiveChars : primitiveChars.all isIdentifierChar = true := by
  decide

/-- The induction is over the run, with the characters of a name that are still to be passed. -/
theorem renameFrom_run (hnames : ∀ name ∈ names, isIdentifier name = true) {run : List Char}
    (hrest : EndsRun rest) (hrun : run.all isIdentifierChar = true) (before : Option Char) (k : Nat)
    (hk : k ≤ run.length) :
    ∃ run', renameFrom names before k (run ++ rest) = run' ++ rename names rest ∧
      run'.all isIdentifierChar = true ∧ (k = 0 → Renamed run run') := by
  induction run generalizing before k with
  | nil =>
    obtain rfl : k = 0 := Nat.le_zero.1 hk
    refine ⟨[], renameFrom_of_endsRun hnames hrest, rfl, fun _ => ⟨rfl, id, .inl rfl⟩⟩
  | cons x xs ih =>
    simp only [List.all_cons, Bool.and_eq_true] at hrun
    cases k with
    | succ k =>
      obtain ⟨run', heq, hall, -⟩ := ih hrun.2 (some x) k (Nat.le_of_succ_le_succ hk)
      refine ⟨run', ?_, hall, by simp⟩
      rw [List.cons_append, renameFrom_succ, heq]
    | zero =>
      rw [List.cons_append]
      cases hfind : names.find? (Text.standsAt before (x :: (xs ++ rest))) with
      | none =>
        obtain ⟨run', heq, hall, hrenamed⟩ := ih hrun.2 (some x) 0 (Nat.zero_le _)
        have hall' : (x :: run').all isIdentifierChar = true := by simp [hrun.1, hall]
        refine ⟨x :: run', by rw [renameFrom_none hfind, heq]; rfl, hall', fun _ => ⟨hall', ?_, ?_⟩⟩
        · simp only [isIdentifier, Bool.and_eq_true]
          exact fun h => ⟨h.1, hall⟩
        · rcases (hrenamed rfl).changed with rfl | h
          · exact .inl rfl
          · exact .inr (List.mem_cons_of_mem x h)
      | some name =>
        have hname := List.mem_of_find?_eq_some hfind
        obtain ⟨-, tail, rfl, htail⟩ := start_of_standsAt hnames hname (List.find?_some hfind)
        have hid := all_of_isIdentifier (hnames _ hname)
        simp only [List.all_cons, Bool.and_eq_true] at hid
        have hlen := (prefix_of_endsRun hid.2 htail hrest).length_le
        obtain ⟨run', heq, hall, -⟩ := ih hrun.2 (some x) tail.length hlen
        have hall' : (primitiveChars ++ run').all isIdentifierChar = true := by
          rw [List.all_append, all_primitiveChars, hall]
          rfl
        refine ⟨primitiveChars ++ run', ?_, hall', fun _ => ⟨hall', fun _ => ?_, .inr ?_⟩⟩
        · rw [renameFrom_some hfind, List.length_cons, Nat.add_sub_cancel, heq, List.append_assoc]
        · have hstart : primitiveChars = 'u' :: primitiveChars.tail := by decide
          rw [hstart, List.cons_append] at hall' ⊢
          simp only [isIdentifier, List.all_cons, Bool.and_eq_true] at hall' ⊢
          exact ⟨rfl, hall'.2⟩
        · exact List.mem_append_left _ (by decide)

/-- An identifier is replaced by an identifier. -/
theorem rename_run (hnames : ∀ name ∈ names, isIdentifier name = true) {run : List Char}
    (hrest : EndsRun rest) (hrun : run.all isIdentifierChar = true) :
    ∃ run', rename names (run ++ rest) = run' ++ rename names rest ∧ Renamed run run' := by
  obtain ⟨run', heq, -, h⟩ := renameFrom_run hnames hrest hrun none 0 (Nat.zero_le _)
  exact ⟨run', heq, h rfl⟩

theorem renameFrom_inside (hnames : ∀ name ∈ names, isIdentifier name = true) {ws : List Char}
    (hrest : EndsRun rest) (hbefore : before.any Text.isWord = true)
    (hws : ws.all Text.isWord = true) :
    renameFrom names before 0 (ws ++ rest) = ws ++ rename names rest := by
  induction ws generalizing before with
  | nil => exact renameFrom_of_endsRun hnames hrest
  | cons w ws ih =>
    simp only [List.all_cons, Bool.and_eq_true] at hws
    have hfind : names.find? (Text.standsAt before (w :: (ws ++ rest))) = none := by
      refine List.find?_eq_none.2 fun name _ h => ?_
      simp [Text.standsAt, Text.isBoundary, hbefore, hws.1] at h
    rw [List.cons_append, renameFrom_none hfind, ih (by simp [hws.1]) hws.2, List.cons_append]

theorem rename_word (hnames : ∀ name ∈ names, isIdentifier name = true) {w : List Char}
    (hrest : EndsRun rest) (hword : w.all Text.isWord = true) (hw : w ∉ names) :
    rename names (w ++ rest) = w ++ rename names rest := by
  cases w with
  | nil => rfl
  | cons x xs =>
    simp only [List.all_cons, Bool.and_eq_true] at hword
    have hfind : names.find? (Text.standsAt none (x :: (xs ++ rest))) = none := by
      refine List.find?_eq_none.2 fun name hname h => ?_
      obtain ⟨-, tail, rfl, htail⟩ := start_of_standsAt hnames hname h
      have hid := all_of_isIdentifier (hnames _ hname)
      simp only [List.all_cons, Bool.and_eq_true] at hid
      obtain ⟨us, rfl⟩ := prefix_of_endsRun hid.2 htail hrest
      cases us with
      | nil => exact hw (by simpa using hname)
      | cons u us =>
        -- the name would have to end between two characters of the word
        simp only [List.all_append, List.all_cons, Bool.and_eq_true] at hword
        have hlast : ((x :: tail).getLast?).any Text.isWord = true := by
          rw [List.getLast?_eq_getLast_of_ne_nil (by simp), Option.any_some]
          rcases List.mem_cons.1 (List.getLast_mem (List.cons_ne_nil x tail)) with hlast | hlast
          · rw [hlast]
            exact hword.1
          · exact List.all_eq_true.1 hword.2.1 _ hlast
        have hnext : (((x :: (tail ++ u :: us ++ rest)).drop (x :: tail).length).head?).any
            Text.isWord = true := by
          simp [hword.2.2.1]
        simp only [Text.standsAt, Text.isBoundary, hlast, hnext, Bool.and_eq_true] at h
        cases h.2
    rw [List.cons_append, rename, renameFrom_none hfind,
      renameFrom_inside hnames hrest (by simp [hword.1]) hword.2, List.cons_append]

end Runs

section Marks

def isMark (x : Char) : Bool := ! isIdentifierChar x && ! Text.isWord x

theorem isMark_iff : isMark x = true ↔ isIdentifierChar x = false ∧ Text.isWord x = false := by
  simp [isMark]

theorem isMark_of_isSpace (h : isSpace x = true) : isMark x = true := by
  simp only [isSpace, Bool.or_eq_true, beq_iff_eq] at h
  rcases h with ((rfl | rfl) | rfl) | rfl <;> decide

theorem endsRun_of_padded {ws : List Char} (h : Padded ws) (hrest : ws = [] → EndsRun rest) :
    EndsRun (ws ++ rest) := by
  cases ws with
  | nil => exact hrest rfl
  | cons w ws =>
    have hmark : isMark w = true := by
      rcases h.head w rfl with hspace | rfl
      · exact isMark_of_isSpace hspace
      · decide
    simp [EndsRun, (isMark_iff.1 hmark).1]

theorem endsRun_spaces {ws : List Char} (hne : ws ≠ []) (hws : ws.all isSpace = true)
    (rest : List Char) : EndsRun (ws ++ rest) :=
  endsRun_of_padded (padded_of_spaces hws) fun hnil => absurd hnil hne

theorem ne_of_isIdentifierChar (hx : isIdentifierChar x = true) (hy : isIdentifierChar y = false) :
    x ≠ y := by
  rintro rfl
  cases hx.symm.trans hy

theorem isQuote_of_isIdentifierChar (hx : isIdentifierChar x = true) : isQuote x = false := by
  have hdouble : x ≠ '"' := ne_of_isIdentifierChar hx rfl
  have hsingle : x ≠ '\x27' := ne_of_isIdentifierChar hx rfl
  simp [isQuote, hdouble, hsingle]

theorem isBare_of_isIdentifierChar (hx : isIdentifierChar x = true) : isBare x = true := by
  have hslash : x ≠ '/' := ne_of_isIdentifierChar hx rfl
  simp [isBare, hslash, isQuote_of_isIdentifierChar hx]

theorem isIdentifierStart_of_char (h : isIdentifierChar x = false) : isIdentifierStart x = false := by
  cases hx : isIdentifierStart x with
  | false => rfl
  | true => rw [isIdentifierChar_of_start hx] at h; cases h

variable (hnames : ∀ name ∈ names, isIdentifier name = true)

include hnames

theorem rename_marks (ws : List Char) (h : ∀ x ∈ ws, isMark x = true) :
    rename names (ws ++ rest) = ws ++ rename names rest :=
  rename_outside (ne_nil_and_all_of_isIdentifier hnames) ws
    (fun x hx => (isMark_iff.1 (h x hx)).1) fun x hx => (isMark_iff.1 (h x hx)).2

theorem rename_cons_mark (hx : isMark x = true) : rename names (x :: xs) = x :: rename names xs :=
  rename_marks hnames [x] (by simpa using hx)

theorem rename_spaces {ws : List Char} (h : ws.all isSpace = true) :
    rename names (ws ++ rest) = ws ++ rename names rest :=
  rename_marks hnames ws fun x hx => isMark_of_isSpace (List.all_eq_true.1 h x hx)

/-- A text starts with the same character as before or with a letter in place of a letter. -/
theorem renameFrom_cons (before : Option Char) (x : Char) (xs : List Char) :
    (isIdentifierStart x = false ∧
      renameFrom names before 0 (x :: xs) = x :: renameFrom names (some x) 0 xs) ∨
      isIdentifierStart x = true ∧
        ∃ x' xs', renameFrom names before 0 (x :: xs) = x' :: xs' ∧ isIdentifierStart x' = true := by
  cases hx : isIdentifierStart x with
  | false => exact .inl ⟨rfl, renameFrom_of_not_start hnames hx⟩
  | true =>
    refine .inr ⟨rfl, ?_⟩
    cases hfind : names.find? (Text.standsAt before (x :: xs)) with
    | none => exact ⟨x, _, renameFrom_none hfind, hx⟩
    | some name =>
      have hstart : primitiveChars = 'u' :: primitiveChars.tail := by decide
      have heq : renameFrom names before 0 (x :: xs) =
          'u' :: (primitiveChars.tail ++ renameFrom names (some x) (name.length - 1) xs) := by
        rw [renameFrom_some hfind, hstart]
        rfl
      exact ⟨'u', _, heq, rfl⟩

theorem rename_ne_nil (h : cs ≠ []) : rename names cs ≠ [] := by
  cases cs with
  | nil => exact absurd rfl h
  | cons x xs =>
    rcases renameFrom_cons hnames none x xs with ⟨-, heq⟩ | ⟨-, y, ys, heq, -⟩ <;>
      simp [rename, heq]

theorem of_rename_eq_mark {zs : List Char} (hy : isMark y = true) (h : rename names cs = y :: zs) :
    ∃ ys, cs = y :: ys ∧ zs = rename names ys := by
  obtain ⟨hchar, hword⟩ := isMark_iff.1 hy
  cases cs with
  | nil => rw [rename_nil] at h; cases h
  | cons x xs =>
    rcases renameFrom_cons hnames none x xs with ⟨-, heq⟩ | ⟨-, x', xs', heq, hx'⟩
    · rw [rename, heq] at h
      obtain ⟨rfl, rfl⟩ := List.cons.inj h
      exact ⟨xs, rfl, renameFrom_before hword xs⟩
    · rw [rename, heq] at h
      obtain ⟨rfl, -⟩ := List.cons.inj h
      rw [isIdentifierStart_of_char hchar] at hx'
      cases hx'

theorem of_rename_eq_spaces {ws zs : List Char} (hws : ws.all isSpace = true)
    (h : rename names cs = ws ++ zs) : ∃ ys, cs = ws ++ ys ∧ zs = rename names ys := by
  induction ws generalizing cs with
  | nil => exact ⟨cs, rfl, h.symm⟩
  | cons w ws ih =>
    simp only [List.all_cons, Bool.and_eq_true] at hws
    obtain ⟨ys, rfl, hrest⟩ := of_rename_eq_mark hnames (isMark_of_isSpace hws.1) h
    obtain ⟨zs', rfl, hzs⟩ := ih hws.2 hrest.symm
    exact ⟨zs', rfl, hzs⟩

omit hnames in
/-- Whether a name stands somewhere is not changed by what follows, if that goes on with a character
which neither a name nor a word can have. -/
theorem standsAt_append {p : Char → Bool} (mid : List Char) {name : List Char} (hne : name ≠ [])
    (hname : name.all p = true) (hrest : rest.head?.all (! p ·) = true)
    (hword : rest.head?.all (! Text.isWord ·) = true) :
    Text.standsAt before (mid ++ rest) name = Text.standsAt before mid name := by
  by_cases hprefix : name <+: mid
  · obtain ⟨ws, rfl⟩ := hprefix
    cases name with
    | nil => exact absurd rfl hne
    | cons x tail =>
      have hfirst : (x :: tail).isPrefixOf (x :: tail ++ ws ++ rest) = true :=
        List.isPrefixOf_iff_prefix.2 ⟨ws ++ rest, by simp⟩
      have hsecond : (x :: tail).isPrefixOf (x :: tail ++ ws) = true :=
        List.isPrefixOf_iff_prefix.2 ⟨ws, rfl⟩
      simp only [Text.standsAt, hfirst, hsecond, Bool.true_and]
      rw [List.append_assoc, List.drop_left, List.drop_left]
      cases ws with
      | nil =>
        have hnext : rest.head?.any Text.isWord = false := by
          cases rest with
          | nil => rfl
          | cons y ys => simpa using hword
        simp [Text.isBoundary, hnext]
      | cons w ws => rfl
  · have hsecond : name.isPrefixOf mid = false := by
      rwa [← Bool.not_eq_true, List.isPrefixOf_iff_prefix]
    have hfirst : name.isPrefixOf (mid ++ rest) = false := by
      rw [← Bool.not_eq_true, List.isPrefixOf_iff_prefix]
      exact fun h => hprefix (prefix_of_all hname h hrest)
    simp [Text.standsAt, hfirst, hsecond]

omit hnames in
/-- A text is renamed up to a character that neither a name nor a word can have, and behind it. -/
theorem renameFrom_append_outside {p : Char → Bool}
    (hnames : ∀ name ∈ names, name ≠ [] ∧ name.all p = true) {mid zs : List Char} (hy : p y = false)
    (hword : Text.isWord y = false) (k : Nat) (hk : k ≤ mid.length) :
    renameFrom names before k (mid ++ y :: zs) =
      renameFrom names before k mid ++ y :: rename names zs := by
  induction mid generalizing before k with
  | nil =>
    obtain rfl : k = 0 := Nat.le_zero.1 hk
    rw [List.nil_append, renameFrom_outside hnames hy, renameFrom_before hword]
    simp [renameFrom, Text.replaceFrom]
  | cons x mid ih =>
    rw [List.cons_append]
    cases k with
    | succ k => rw [renameFrom_succ, renameFrom_succ, ih k (Nat.le_of_succ_le_succ hk)]
    | zero =>
      have hfind : names.find? (Text.standsAt before (x :: (mid ++ y :: zs))) =
          names.find? (Text.standsAt before (x :: mid)) := by
        refine List.find?_congr fun name hname => ?_
        obtain ⟨hne, hall⟩ := hnames name hname
        exact standsAt_append (x :: mid) hne hall (by simp [hy]) (by simp [hword])
      cases hcase : names.find? (Text.standsAt before (x :: mid)) with
      | none =>
        rw [renameFrom_none (hfind.trans hcase), renameFrom_none hcase, ih 0 (Nat.zero_le _)]
        rfl
      | some name =>
        have hne := (hnames name (List.mem_of_find?_eq_some hcase)).1
        obtain ⟨tail, rfl, htail⟩ := cons_of_standsAt hne (List.find?_some hcase)
        rw [renameFrom_some (hfind.trans hcase), renameFrom_some hcase, List.length_cons,
          Nat.add_sub_cancel, ih _ htail.length_le, List.append_assoc]

theorem rename_append_mark {mid zs : List Char} (hy : isMark y = true) :
    rename names (mid ++ y :: zs) = rename names mid ++ y :: rename names zs := by
  obtain ⟨hchar, hword⟩ := isMark_iff.1 hy
  exact renameFrom_append_outside (ne_nil_and_all_of_isIdentifier hnames) hchar hword 0
    (Nat.zero_le _)

end Marks

section Characters

omit before in
theorem isBracket_of_isIdentifierChar (h : isIdentifierChar x = true) : isBracket x = false := by
  cases hx : isBracket x with
  | false => rfl
  | true =>
    simp only [isBracket, Bool.or_eq_true, beq_iff_eq] at hx
    rcases hx with ((((rfl | rfl) | rfl) | rfl) | rfl) | rfl <;> cases h

/-- The characters of a renamed text are those of the text and of the new type. -/
theorem all_renameFrom {p : Char → Bool} (hnew : primitiveChars.all p = true) (k : Nat)
    (h : cs.all p = true) : (renameFrom names before k cs).all p = true := by
  induction cs generalizing before k with
  | nil => simp [renameFrom, Text.replaceFrom]
  | cons x xs ih =>
    simp only [List.all_cons, Bool.and_eq_true] at h
    cases k with
    | succ k => rw [renameFrom_succ]; exact ih k h.2
    | zero =>
      cases hfind : names.find? (Text.standsAt before (x :: xs)) with
      | none => rw [renameFrom_none hfind, List.all_cons, h.1, ih 0 h.2]; rfl
      | some name => rw [renameFrom_some hfind, List.all_append, hnew, ih _ h.2]; rfl

end Characters

section Regions

namespace Source.Region

variable {r : Region}

/-- Strings are told by quotes. -/
def isProper : Region → Bool
  | .quoted quote | .escaped quote => isQuote quote
  | _ => true

def isInside : Region → Bool
  | .code | .slash => false
  | r => r.isProper

def behindName : Region → Region
  | .code | .slash => .code
  | .line => .line
  | .block | .star => .block
  | .quoted quote | .escaped quote => .quoted quote

@[simp]
theorem behindName_behindName (r : Region) : r.behindName.behindName = r.behindName := by
  cases r <;> rfl

theorem isProper_behindName (hr : r.isProper = true) : r.behindName.isProper = true := by
  cases r <;> exact hr

theorem isInside_behindName (hr : r.isInside = true) : r.behindName.isInside = true := by
  cases r <;> exact hr

theorem isProper_of_isInside (hr : r.isInside = true) : r.isProper = true := by
  cases r <;> first | rfl | exact hr

theorem ne_code_of_isInside (hr : r.isInside = true) : r ≠ .code := by
  rintro rfl
  cases hr

theorem isProper_next (hr : r.isProper = true) (x : Char) : (r.next x).isProper = true := by
  have hcode : (nextInCode x).isProper = true := by
    unfold nextInCode
    split
    · rfl
    · split
      · assumption
      · rfl
  cases r <;> simp only [next] <;> (repeat' split) <;> first | rfl | exact hr | exact hcode

theorem isInside_next (hr : r.isInside = true) (x : Char) :
    (r.next x).isInside = true ∨ r.next x = .code ∧ isMark x = true := by
  have hquote : ∀ {quote : Char}, isQuote quote = true → isMark quote = true := by
    intro quote hquote
    simp only [isQuote, Bool.or_eq_true, beq_iff_eq] at hquote
    rcases hquote with rfl | rfl <;> decide
  cases r with
  | code | slash => cases hr
  | line =>
    cases hx : isLineEnd x with
    | true => exact .inr ⟨by simp [next, hx], isMark_of_isSpace (isSpace_of_isLineEnd hx)⟩
    | false => exact .inl (by simp [next, hx, isInside, isProper])
  | block => by_cases hx : x = '*' <;> exact .inl (by simp [next, hx, isInside, isProper])
  | star =>
    by_cases hx : x = '/'
    · subst hx
      exact .inr ⟨rfl, by decide⟩
    · by_cases hstar : x = '*' <;> exact .inl (by simp [next, hx, hstar, isInside, isProper])
  | quoted quote =>
    by_cases hx : x = quote
    · subst hx
      exact .inr ⟨by simp [next], hquote hr⟩
    · refine .inl ?_
      rw [next, if_neg hx]
      split <;> exact hr
  | escaped quote => exact .inl hr

theorem next_of_isIdentifierChar (hr : r.isProper = true) (hx : isIdentifierChar x = true) :
    r.next x = r.behindName := by
  have hslash : x ≠ '/' := ne_of_isIdentifierChar hx rfl
  have hstar : x ≠ '*' := ne_of_isIdentifierChar hx rfl
  have hbackslash : x ≠ '\\' := ne_of_isIdentifierChar hx rfl
  have hquote := isQuote_of_isIdentifierChar hx
  have hline := isLineEnd_of_isIdentifierChar hx
  have hclose : ∀ quote, isQuote quote = true → x ≠ quote := by
    rintro quote h rfl
    cases hquote.symm.trans h
  cases r with
  | code => simp [next, nextInCode, behindName, hslash, hquote]
  | slash => simp [next, nextInCode, behindName, hslash, hstar, hquote]
  | line => simp [next, behindName, hline]
  | block | star => simp [next, behindName, hslash, hstar]
  | quoted quote => simp [next, behindName, hclose quote hr, hbackslash]
  | escaped quote => rfl

theorem after_of_isIdentifierChar {run : List Char} (hr : r.isProper = true) (hne : run ≠ [])
    (hrun : run.all isIdentifierChar = true) : r.after run = r.behindName := by
  induction run generalizing r with
  | nil => exact absurd rfl hne
  | cons y ys ih =>
    simp only [List.all_cons, Bool.and_eq_true] at hrun
    rw [after_cons, next_of_isIdentifierChar hr hrun.1]
    cases ys with
    | nil => rfl
    | cons z zs =>
      rw [ih (isProper_behindName hr) (by simp) hrun.2, behindName_behindName]

theorem leave?_append_of_isIdentifierChar {run : List Char} (hr : r.isInside = true)
    (hrun : run.all isIdentifierChar = true) (rest : List Char) :
    r.leave? (run ++ rest) = if run = [] then r.leave? rest else r.behindName.leave? rest := by
  induction run generalizing r with
  | nil => rfl
  | cons y ys ih =>
    simp only [List.all_cons, Bool.and_eq_true] at hrun
    have hnext := next_of_isIdentifierChar (isProper_of_isInside hr) hrun.1
    have hinside := isInside_behindName hr
    rw [List.cons_append, leave?, hnext, if_neg (ne_code_of_isInside hinside), ih hinside hrun.2,
      behindName_behindName]
    simp

end Source.Region

variable (hnames : ∀ name ∈ names, isIdentifier name = true) {r : Region}

include hnames

theorem take_of_standsAt {name : List Char} (hname : name ∈ names)
    (h : Text.standsAt before (x :: xs) name = true) :
    isIdentifierChar x = true ∧ (xs.take (name.length - 1)).all isIdentifierChar = true := by
  obtain ⟨-, tail, rfl, htail⟩ := start_of_standsAt hnames hname h
  have hid := all_of_isIdentifier (hnames _ hname)
  simp only [List.all_cons, Bool.and_eq_true] at hid
  rw [List.length_cons, Nat.add_sub_cancel, ← List.prefix_iff_eq_take.1 htail]
  exact hid

/-- Comments and strings are where they were. The induction is over the text; while characters of a
name are passed over, the region is the one behind a name. -/
theorem after_renameFrom (k : Nat) (hk : (cs.take k).all isIdentifierChar = true)
    (hr : r.isProper = true) (hname : k = 0 ∨ r.behindName = r) :
    r.after (renameFrom names before k cs) = r.after cs := by
  induction cs generalizing before k r with
  | nil => simp [renameFrom, Text.replaceFrom]
  | cons x xs ih =>
    cases k with
    | succ k =>
      simp only [List.take_succ_cons, List.all_cons, Bool.and_eq_true] at hk
      have hfixed : r.behindName = r := hname.resolve_left (Nat.succ_ne_zero k)
      rw [renameFrom_succ, ih k hk.2 hr (.inr hfixed), Region.after_cons,
        Region.next_of_isIdentifierChar hr hk.1, hfixed]
    | zero =>
      cases hfind : names.find? (Text.standsAt before (x :: xs)) with
      | none =>
        rw [renameFrom_none hfind, Region.after_cons, Region.after_cons]
        exact ih 0 rfl (Region.isProper_next hr x) (.inl rfl)
      | some name =>
        obtain ⟨hx, htake⟩ := take_of_standsAt hnames (List.mem_of_find?_eq_some hfind)
          (List.find?_some hfind)
        rw [renameFrom_some hfind, Region.after_append,
          Region.after_of_isIdentifierChar hr (by decide) all_primitiveChars,
          ih _ htake (Region.isProper_behindName hr) (.inr (Region.behindName_behindName r)),
          Region.after_cons, Region.next_of_isIdentifierChar hr hx]

/-- A comment or a string ends where it ended. -/
theorem leave?_renameFrom (k : Nat) (hk : (cs.take k).all isIdentifierChar = true)
    (hr : r.isInside = true) (hname : k = 0 ∨ r.behindName = r) :
    r.leave? (renameFrom names before k cs) = (r.leave? cs).map (rename names) := by
  induction cs generalizing before k r with
  | nil => simp [renameFrom, Text.replaceFrom, Region.leave?]
  | cons x xs ih =>
    cases k with
    | succ k =>
      simp only [List.take_succ_cons, List.all_cons, Bool.and_eq_true] at hk
      have hfixed : r.behindName = r := hname.resolve_left (Nat.succ_ne_zero k)
      have hnext := Region.next_of_isIdentifierChar (Region.isProper_of_isInside hr) hk.1
      rw [renameFrom_succ, ih k hk.2 hr (.inr hfixed), Region.leave?, hnext, hfixed,
        if_neg (Region.ne_code_of_isInside hr)]
    | zero =>
      cases hfind : names.find? (Text.standsAt before (x :: xs)) with
      | none =>
        rw [renameFrom_none hfind, Region.leave?, Region.leave?]
        rcases Region.isInside_next hr x with hinside | ⟨hcode, hx⟩
        · rw [if_neg (Region.ne_code_of_isInside hinside),
            if_neg (Region.ne_code_of_isInside hinside)]
          exact ih 0 rfl hinside (.inl rfl)
        · rw [if_pos hcode, if_pos hcode, renameFrom_before (isMark_iff.1 hx).2]
          rfl
      | some name =>
        obtain ⟨hx, htake⟩ := take_of_standsAt hnames (List.mem_of_find?_eq_some hfind)
          (List.find?_some hfind)
        have hinside := Region.isInside_behindName hr
        have hnext := Region.next_of_isIdentifierChar (Region.isProper_of_isInside hr) hx
        rw [renameFrom_some hfind,
          Region.leave?_append_of_isIdentifierChar hr all_primitiveChars, if_neg (by decide),
          ih _ htake hinside (.inr (Region.behindName_behindName r)), Region.leave?, hnext,
          if_neg (Region.ne_code_of_isInside hinside)]

theorem closed_rename : Closed (rename names cs) ↔ Closed cs := by
  rw [Closed, rename, after_renameFrom hnames 0 rfl rfl (.inl rfl), Closed]

/-- No mark that closes a comment is new. -/
theorem infix_rename_iff : ['*', '/'] <:+: rename names cs ↔ ['*', '/'] <:+: cs := by
  rw [← not_iff_not, ← leave?_block_eq_none_iff, ← leave?_block_eq_none_iff, rename,
    leave?_renameFrom hnames 0 rfl rfl (.inl rfl), Option.map_eq_none_iff]

/-- Padding stays padding, and what follows it is renamed by itself. -/
theorem padded_rename {ws : List Char} (h : Padded ws) :
    Padded (rename names ws) ∧
      ∀ rest, rename names (ws ++ rest) = rename names ws ++ rename names rest := by
  induction h with
  | nil => exact ⟨by rw [rename_nil]; exact .nil, fun rest => by rw [rename_nil]; rfl⟩
  | space hx _ ih =>
    have hmark := isMark_of_isSpace hx
    refine ⟨?_, fun rest => ?_⟩
    · rw [rename_cons_mark hnames hmark]
      exact .space hx ih.1
    · rw [List.cons_append, rename_cons_mark hnames hmark, rename_cons_mark hnames hmark, ih.2]
      rfl
  | @line body ws x hbody hx _ ih =>
    have hmark := isMark_of_isSpace (isSpace_of_isLineEnd hx)
    have hslash : isMark '/' = true := by decide
    have hsplit : ∀ rest, rename names ('/' :: '/' :: (body ++ x :: rest)) =
        '/' :: '/' :: (rename names body ++ x :: rename names rest) := fun rest => by
      rw [rename_cons_mark hnames hslash, rename_cons_mark hnames hslash,
        rename_append_mark hnames hmark]
    have hbody' : ∀ y ∈ rename names body, isLineEnd y = false := by
      have hall : (rename names body).all (! isLineEnd ·) = true :=
        all_renameFrom (by decide) 0 (List.all_eq_true.2 fun y hy => by simp [hbody y hy])
      exact fun y hy => by simpa using List.all_eq_true.1 hall y hy
    refine ⟨?_, fun rest => ?_⟩
    · rw [hsplit]
      exact .line hbody' hx ih.1
    · have hcons : '/' :: '/' :: (body ++ x :: ws) ++ rest =
          '/' :: '/' :: (body ++ x :: (ws ++ rest)) := by simp
      rw [hcons, hsplit, hsplit, ih.2]
      simp
  | @block body ws hbody _ ih =>
    have hstar : isMark '*' = true := by decide
    have hslash : isMark '/' = true := by decide
    have hsplit : ∀ rest, rename names ('/' :: '*' :: (body ++ '*' :: '/' :: rest)) =
        '/' :: '*' :: (rename names body ++ '*' :: '/' :: rename names rest) := fun rest => by
      rw [rename_cons_mark hnames hslash, rename_cons_mark hnames hstar,
        rename_append_mark hnames hstar, rename_cons_mark hnames hslash]
    have hbody' : ¬ ['*', '/'] <:+: rename names body ++ ['*'] := by
      have happend : rename names (body ++ ['*']) = rename names body ++ ['*'] := by
        rw [rename_append_mark hnames hstar, rename_nil]
      rwa [← happend, infix_rename_iff hnames]
    refine ⟨?_, fun rest => ?_⟩
    · rw [hsplit]
      exact .block hbody' ih.1
    · have hcons : '/' :: '*' :: (body ++ '*' :: '/' :: ws) ++ rest =
          '/' :: '*' :: (body ++ '*' :: '/' :: (ws ++ rest)) := by simp
      rw [hcons, hsplit, hsplit, ih.2]
      simp

end Regions

end SolidityStubs
