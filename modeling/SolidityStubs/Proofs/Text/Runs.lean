import Mathlib.Data.List.Basic
import Mathlib.Data.List.SplitBy
import Mathlib.Data.List.TakeWhile
import SolidityStubs.Proofs.Source.Printed
import SolidityStubs.Proofs.Text.Renaming

/-! # Runs of characters

A class of characters cuts a text into maximal runs inside and outside of the class. Names that are
made of word characters are replaced exactly where they are a whole run of word characters. The
characters of identifiers are a larger class, since an identifier may hold a dollar sign, and there
the whole identifiers are replaced only if no name stands in the middle of one.
-/
namespace SolidityStubs.Text

/-- The maximal runs of characters that are all in a class or all outside of it, in order. -/
def runs (p : Char → Bool) (cs : List Char) : List (List Char) :=
  cs.splitBy fun x y => p x == p y

/-- Puts `new` in place of each run that is one of the names. -/
def replaceRuns (p : Char → Bool) (names : List (List Char)) (new cs : List Char) : List Char :=
  (runs p cs).flatMap fun run => if run ∈ names then new else run

structure StartsRun (p : Char → Bool) (side : Bool) (w rest : List Char) : Prop where
  ne_nil : w ≠ []
  all : ∀ x ∈ w, p x = side
  ends : ∀ y ∈ rest.head?, p y = !side

/-- The name stands somewhere in the run, between two word boundaries. -/
def StandsIn (name run : List Char) : Prop :=
  ∃ k < run.length, standsAt (run.take k).getLast? (run.drop k) name = true

instance (name run : List Char) : Decidable (StandsIn name run) :=
  inferInstanceAs (Decidable (∃ k < run.length, _))

variable {p : Char → Bool} {side : Bool} {w rest cs : List Char} {names names' : List (List Char)}
  {new : List Char}

section Runs

theorem StartsRun.runs_append (h : StartsRun p side w rest) :
    runs p (w ++ rest) = w :: runs p rest := by
  have hchain : w.IsChain fun x y => (p x == p y) = true := by
    refine (List.pairwise_of_forall_mem_list fun x hx y hy => ?_).isChain
    rw [h.all x hx, h.all y hy, beq_self_eq_true]
  have hcut : ∀ x ∈ w.getLast?, ∀ y ∈ rest.head?, (p x == p y) = false := by
    intro x hx y hy
    rw [h.all x (List.mem_of_mem_getLast? hx), h.ends y hy]
    cases side <;> rfl
  rw [runs, List.splitBy_append hcut, List.splitBy_of_isChain h.ne_nil hchain]
  rfl

theorem exists_startsRun (p : Char → Bool) (x : Char) (xs : List Char) :
    ∃ w rest, x :: xs = w ++ rest ∧ StartsRun p (p x) w rest := by
  refine ⟨(x :: xs).takeWhile (p · == p x), (x :: xs).dropWhile (p · == p x),
    List.takeWhile_append_dropWhile.symm, ?_, ?_, ?_⟩
  · simp
  · intro y hy
    simpa using List.mem_takeWhile_imp hy
  · intro y hy
    have hnot := List.head?_dropWhile_not (p · == p x) (x :: xs)
    rw [Option.mem_def.1 hy] at hnot
    exact Bool.eq_not.2 (by simpa using hnot)

theorem runs_induction {motive : List Char → Prop} (nil : motive [])
    (run : ∀ side w rest, StartsRun p side w rest → motive rest → motive (w ++ rest))
    (cs : List Char) : motive cs := by
  generalize hlen : cs.length = len
  induction len using Nat.strongRecOn generalizing cs with
  | ind len ih =>
    cases cs with
    | nil => exact nil
    | cons x xs =>
      obtain ⟨w, rest, heq, hrun⟩ := exists_startsRun p x xs
      have hpos := List.length_pos_of_ne_nil hrun.ne_nil
      rw [heq] at hlen ⊢
      rw [List.length_append] at hlen
      exact run _ w rest hrun (ih _ (by omega) rest rfl)

end Runs

section Replacement

theorem replaceRuns_nil : replaceRuns p names new [] = [] := by
  simp [replaceRuns, runs]

theorem StartsRun.replaceRuns_append (h : StartsRun p side w rest) :
    replaceRuns p names new (w ++ rest) =
      (if w ∈ names then new else w) ++ replaceRuns p names new rest := by
  rw [replaceRuns, h.runs_append, List.flatMap_cons]
  rfl

/-- No run is empty, so that only the names which are not empty count. -/
theorem replaceRuns_congr (h : ∀ name ≠ [], name ∈ names ↔ name ∈ names') :
    replaceRuns p names new cs = replaceRuns p names' new cs := by
  refine List.flatMap_congr fun run hrun => ?_
  have hne : run ≠ [] := by
    rintro rfl
    exact List.nil_notMem_splitBy _ _ hrun
  simp only [h run hne]

variable (hnames : ∀ name ∈ names, name.all p = true)

include hnames

theorem StartsRun.side_of_mem (h : StartsRun p side w rest) (hw : w ∈ names) : side = true := by
  obtain ⟨x, hx⟩ := List.exists_mem_of_ne_nil w h.ne_nil
  rw [← h.all x hx]
  exact List.all_eq_true.1 (hnames w hw) x hx

variable (hnew : new ≠ []) (hclass : new.all p = true)

include hnew hclass

theorem StartsRun.replaced (h : StartsRun p side w rest) {rest' : List Char}
    (hrest : ∀ y ∈ rest'.head?, p y = !side) :
    StartsRun p side (if w ∈ names then new else w) rest' := by
  split
  · next hw =>
    refine ⟨hnew, fun x hx => ?_, hrest⟩
    rw [h.side_of_mem hnames hw]
    exact List.all_eq_true.1 hclass x hx
  · exact ⟨h.ne_nil, h.all, hrest⟩

/-- A text starts on the same side of the class as before. -/
theorem head_replaceRuns (h : ∀ y ∈ cs.head?, p y = side) :
    ∀ y ∈ (replaceRuns p names new cs).head?, p y = side := by
  intro y hy
  cases cs with
  | nil => simp [replaceRuns_nil] at hy
  | cons x xs =>
    obtain ⟨w, rest, heq, hrun⟩ := exists_startsRun p x xs
    have hrun' := hrun.replaced hnames hnew hclass hrun.ends
    rw [heq, hrun.replaceRuns_append, List.head?_append_of_ne_nil _ hrun'.ne_nil] at hy
    rw [hrun'.all y (List.mem_of_mem_head? hy)]
    exact h x rfl

/-- What has been put in place of a name may be a name itself, but it is its own replacement. -/
theorem replaceRuns_replaceRuns :
    replaceRuns p names new (replaceRuns p names new cs) = replaceRuns p names new cs := by
  induction cs using runs_induction (p := p) with
  | nil => rw [replaceRuns_nil, replaceRuns_nil]
  | run side w rest hrun ih =>
    have hrest := head_replaceRuns hnames hnew hclass hrun.ends
    rw [hrun.replaceRuns_append, (hrun.replaced hnames hnew hclass hrest).replaceRuns_append, ih]
    congr 1
    by_cases hw : w ∈ names
    · simp [hw]
    · simp [hw]

end Replacement

section StandsIn

theorem any_isWord {c : Option Char} (h : ∀ x ∈ c, isWord x = true) : c.any isWord = c.isSome := by
  cases c with
  | none => rfl
  | some x => exact h x rfl

theorem standsIn_iff_of_word {name run : List Char} (hrun : run.all isWord = true)
    (hne : name ≠ []) : StandsIn name run ↔ name = run := by
  rw [List.all_eq_true] at hrun
  constructor
  · rintro ⟨k, hk, hstands⟩
    simp only [standsAt, isBoundary, Bool.and_eq_true, List.isPrefixOf_iff_prefix] at hstands
    obtain ⟨⟨hlead, hfirst⟩, hlast⟩ := hstands
    rw [any_isWord fun x hx => hrun x (List.mem_of_mem_take (List.mem_of_mem_getLast? hx)),
      any_isWord fun x hx => hrun x (List.mem_of_mem_drop (List.mem_of_mem_head? hx))] at hfirst
    obtain rfl : k = 0 := by
      have hdrop : run.drop k ≠ [] := List.drop_eq_nil_iff.not.2 (Nat.not_le.2 hk)
      have hlen : run ≠ [] := List.ne_nil_of_length_pos (Nat.zero_lt_of_lt hk)
      rw [List.isSome_head?.2 hdrop] at hfirst
      simpa [hlen] using hfirst
    rw [List.drop_zero] at hlead hlast
    obtain ⟨us, rfl⟩ := hlead
    rw [List.drop_left,
      any_isWord fun x hx => hrun x (List.mem_append_left _ (List.mem_of_mem_getLast? hx)),
      any_isWord fun x hx => hrun x (List.mem_append_right _ (List.mem_of_mem_head? hx))] at hlast
    rw [List.getLast?_isSome.2 hne] at hlast
    have hus : us = [] := by simpa using hlast
    rw [hus, List.append_nil]
  · rintro rfl
    refine ⟨0, List.length_pos_of_ne_nil hne, ?_⟩
    rw [List.take_zero, List.drop_zero]
    simp only [standsAt, isBoundary, Bool.and_eq_true, List.isPrefixOf_iff_prefix, List.drop_length]
    rw [any_isWord fun x hx => hrun x (List.mem_of_mem_getLast? hx),
      any_isWord fun x hx => hrun x (List.mem_of_mem_head? hx)]
    simp [hne]

theorem standsAt_of_standsIn_self {run : List Char} (h : StandsIn run run) :
    standsAt none run run = true := by
  obtain ⟨k, hk, hstands⟩ := h
  have hprefix := hstands
  simp only [standsAt, Bool.and_eq_true, List.isPrefixOf_iff_prefix] at hprefix
  have hlen := hprefix.1.1.length_le
  rw [List.length_drop] at hlen
  obtain rfl : k = 0 := by omega
  rwa [List.take_zero, List.drop_zero] at hstands

end StandsIn

end SolidityStubs.Text

namespace SolidityStubs

open Source Text

variable {p : Char → Bool} {names : List (List Char)} {run rest cs : List Char}

section Walk

theorem renameFrom_passed (names : List (List Char)) (ws rest : List Char) (before : Option Char) :
    ∃ before', renameFrom names before ws.length (ws ++ rest) = renameFrom names before' 0 rest := by
  induction ws generalizing before with
  | nil => exact ⟨before, rfl⟩
  | cons w ws ih =>
    obtain ⟨before', h⟩ := ih (some w)
    exact ⟨before', by rw [List.cons_append, List.length_cons, renameFrom_succ, h]⟩

-- behind the run comes a character that neither a name nor a word can have
variable (hnames : ∀ name ∈ names, name ≠ [] ∧ name.all p = true)
  (hrest : rest.head?.all (! p ·) = true) (hword : rest.head?.all (! isWord ·) = true)

include hnames hrest hword

/-- The induction is over what is left of the run, with the part that is passed already. -/
theorem renameFrom_unnamed (hrun : ∀ name ∈ names, ¬ StandsIn name run) (front back : List Char)
    (heq : run = front ++ back) :
    renameFrom names front.getLast? 0 (back ++ rest) = back ++ rename names rest := by
  induction back generalizing front with
  | nil => exact renameFrom_of_head hnames hrest
  | cons x xs ih =>
    have hfind : names.find? (standsAt front.getLast? (x :: (xs ++ rest))) = none := by
      refine List.find?_eq_none.2 fun name hname hstands => hrun name hname ?_
      obtain ⟨hne, hall⟩ := hnames name hname
      refine ⟨front.length, by simp [heq], ?_⟩
      rw [heq, List.take_left, List.drop_left, ← standsAt_append (x :: xs) hne hall hrest hword]
      exact hstands
    have hnext := ih (front ++ [x]) (by simp [heq])
    rw [List.getLast?_concat] at hnext
    rw [List.cons_append, renameFrom_none hfind, hnext, List.cons_append]

theorem rename_named (hmem : run ∈ names) (hrun : ∀ name ∈ names, StandsIn name run ↔ name = run) :
    rename names (run ++ rest) = primitiveChars ++ rename names rest := by
  have hstands : ∀ name ∈ names, standsAt none (run ++ rest) name = standsAt none run name := by
    intro name hname
    obtain ⟨hne, hall⟩ := hnames name hname
    exact standsAt_append run hne hall hrest hword
  have hpos := List.length_pos_of_ne_nil (hnames run hmem).1
  have hself := standsAt_of_standsIn_self ((hrun run hmem).2 rfl)
  obtain ⟨name, hfind⟩ : ∃ name, names.find? (standsAt none (run ++ rest)) = some name := by
    refine Option.isSome_iff_exists.1 (List.find?_isSome.2 ⟨run, hmem, ?_⟩)
    rw [hstands run hmem, hself]
  obtain rfl : name = run := by
    have hname := List.mem_of_find?_eq_some hfind
    refine (hrun name hname).1 ⟨0, hpos, ?_⟩
    rw [List.take_zero, List.drop_zero]
    exact (hstands name hname).symm.trans (List.find?_some hfind)
  cases name with
  | nil => exact absurd rfl (hnames _ hmem).1
  | cons x xs =>
    obtain ⟨before', hpassed⟩ := renameFrom_passed names xs rest (some x)
    rw [List.cons_append] at hfind ⊢
    rw [rename, renameFrom_some hfind, List.length_cons, Nat.add_sub_cancel, hpassed,
      renameFrom_of_head hnames hrest]

theorem rename_run_append (hrun : ∀ name ∈ names, StandsIn name run ↔ name = run) :
    rename names (run ++ rest) =
      (if run ∈ names then primitiveChars else run) ++ rename names rest := by
  by_cases hmem : run ∈ names
  · rw [if_pos hmem, rename_named hnames hrest hword hmem hrun]
  · rw [if_neg hmem]
    refine renameFrom_unnamed hnames hrest hword (fun name hname hstands => hmem ?_) [] run rfl
    rwa [(hrun name hname).1 hstands] at hname

end Walk

/-- If a name stands in a run exactly when it is the run, the runs that are names are replaced. -/
theorem rename_eq_replaceRuns (hnames : ∀ name ∈ names, name ≠ [] ∧ name.all p = true)
    (hword : ∀ x ∈ cs, p x = false → isWord x = false)
    (hruns : ∀ run ∈ runs p cs, run.all p = true → ∀ name ∈ names, StandsIn name run ↔ name = run) :
    rename names cs = replaceRuns p names primitiveChars cs := by
  induction cs using runs_induction (p := p) with
  | nil => rw [rename_nil, replaceRuns_nil]
  | run side w rest hstart ih =>
    rw [hstart.runs_append, List.forall_mem_cons] at hruns
    rw [List.forall_mem_append] at hword
    rw [hstart.replaceRuns_append, ← ih hword.2 hruns.2]
    cases side with
    | false =>
      have hmem : w ∉ names := by
        intro hw
        cases hstart.side_of_mem (fun name hname => (hnames name hname).2) hw
      rw [if_neg hmem]
      exact rename_outside hnames w hstart.all fun x hx => hword.1 x hx (hstart.all x hx)
    | true =>
      have hends : ∀ y ∈ rest.head?, p y = false := hstart.ends
      refine rename_run_append hnames ?_ ?_ (hruns.1 (List.all_eq_true.2 hstart.all))
      · rw [Option.all_eq_true]
        intro y hy
        rw [hends y hy]
        rfl
      · rw [Option.all_eq_true]
        intro y hy
        rw [hword.2 y (List.mem_of_mem_head? hy) (hends y hy)]
        rfl

section Enums

variable {enums : List String} {text : String}

theorem mem_map_toList {name : List Char} :
    name ∈ enums.map String.toList ↔ String.ofList name ∈ enums := by
  rw [List.mem_map]
  constructor
  · rintro ⟨enum, henum, rfl⟩
    rwa [String.ofList_toList]
  · intro h
    exact ⟨_, h, String.toList_ofList⟩

theorem mem_enumChars {name : List Char} :
    name ∈ enumChars enums ↔ String.ofList name ∈ enums ∧ name ≠ [] := by
  rw [enumChars, List.mem_filter, mem_map_toList]
  simp

theorem ne_nil_and_all_of_mem_enumChars (henums : ∀ enum ∈ enums, enum.toList.all p = true) :
    ∀ name ∈ enumChars enums, name ≠ [] ∧ name.all p = true := by
  intro name hname
  obtain ⟨hmem, hne⟩ := mem_enumChars.1 hname
  refine ⟨hne, ?_⟩
  simpa using henums _ hmem

def replaceEnums (p : Char → Bool) (enums : List String) (text : String) : String :=
  String.ofList (replaceRuns p (enums.map String.toList) enumPrimitive.toList text.toList)

theorem replaceEnums_congr {enums' : List String} (h : ∀ enum ≠ "", enum ∈ enums' ↔ enum ∈ enums) :
    replaceEnums p enums' text = replaceEnums p enums text := by
  refine congrArg String.ofList (replaceRuns_congr fun name hne => ?_)
  rw [mem_map_toList, mem_map_toList]
  exact h _ (by simpa using hne)

theorem substituteEnums_eq_replaceEnums (henums : ∀ enum ∈ enums, enum.toList.all p = true)
    (hword : ∀ x ∈ text.toList, p x = false → isWord x = false)
    (hruns : ∀ run ∈ runs p text.toList, run.all p = true → ∀ enum ∈ enums, enum ≠ "" →
      (StandsIn enum.toList run ↔ enum.toList = run)) :
    substituteEnums enums text = replaceEnums p enums text := by
  have hrename : rename (enumChars enums) text.toList =
      replaceRuns p (enumChars enums) primitiveChars text.toList := by
    refine rename_eq_replaceRuns (ne_nil_and_all_of_mem_enumChars henums) hword ?_
    intro run hrun hall name hname
    obtain ⟨hmem, hne⟩ := mem_enumChars.1 hname
    simpa using hruns run hrun hall _ hmem (by simpa using hne)
  have hcongr : replaceRuns p (enumChars enums) primitiveChars text.toList =
      replaceRuns p (enums.map String.toList) primitiveChars text.toList := by
    refine replaceRuns_congr fun name hne => ?_
    rw [mem_enumChars, mem_map_toList, and_iff_left hne]
  rw [← String.toList_inj, toList_substituteEnums, hrename, hcongr, replaceEnums,
    String.toList_ofList, primitiveChars]

end Enums

def FunctionDecl.keptTexts (f : FunctionDecl) (source : String) (keep : List String) : List String :=
  (f.modifiers.filter (keep.contains ·.name)).map fun m => Text.trim (m.span.slice source)

theorem FunctionDecl.keptModifiers_eq_map (f : FunctionDecl) (source : String)
    (keep enums : List String) :
    f.keptModifiers source keep enums = (f.keptTexts source keep).map (substituteEnums enums) := by
  rw [keptModifiers, keptTexts, List.map_map]
  rfl

section Words

variable {enums : List String} (henums : ∀ enum ∈ enums, enum.toList.all isWord = true)

include henums

theorem substituteEnums_eq_of_word (text : String) :
    substituteEnums enums text = replaceEnums isWord enums text := by
  refine substituteEnums_eq_replaceEnums henums (fun x _ h => h) ?_
  intro run _ hall enum _ hne
  exact standsIn_iff_of_word hall (by simpa using hne)

theorem substituteEnums_substituteEnums (text : String) :
    substituteEnums enums (substituteEnums enums text) = substituteEnums enums text := by
  have hnames : ∀ name ∈ enums.map String.toList, name.all isWord = true := by
    rw [List.forall_mem_map]
    exact henums
  rw [substituteEnums_eq_of_word henums, substituteEnums_eq_of_word henums, replaceEnums,
    replaceEnums, String.toList_ofList, replaceRuns_replaceRuns hnames (by decide) (by decide)]

/-- What stands on the two sides of a character between words is replaced apart. -/
theorem substituteEnums_append (a b : String) {c : Char} (hc : isWord c = false) :
    substituteEnums enums (a ++ String.singleton c ++ b) =
      substituteEnums enums a ++ String.singleton c ++ substituteEnums enums b := by
  rw [← String.toList_inj]
  simp only [String.toList_append, toList_substituteEnums, String.toList_singleton, List.append_assoc,
    List.cons_append, List.nil_append]
  exact renameFrom_append_outside (ne_nil_and_all_of_mem_enumChars henums) hc hc 0 (Nat.zero_le _)

theorem intercalate_substituteEnums (parts : List String) :
    " ".intercalate (parts.map (substituteEnums enums)) =
      substituteEnums enums (" ".intercalate parts) := by
  have hspace : " " = String.singleton ' ' := rfl
  have hword : isWord ' ' = false := by decide
  induction parts with
  | nil =>
    rw [← String.toList_inj, toList_substituteEnums]
    simp [rename_nil]
  | cons part parts ih =>
    cases parts with
    | nil => simp
    | cons next parts =>
      rw [List.map_cons, List.map_cons, String.intercalate_cons_cons, String.intercalate_cons_cons,
        ← List.map_cons, ih, hspace, substituteEnums_append henums _ _ hword]

theorem intercalate_keptModifiers (f : FunctionDecl) (source : String) (keep : List String) :
    " ".intercalate (f.keptModifiers source keep enums) =
      substituteEnums enums (" ".intercalate (f.keptTexts source keep)) := by
  rw [FunctionDecl.keptModifiers_eq_map, intercalate_substituteEnums henums]

theorem stub_of_keptTexts (f : FunctionDecl) (source : String) (keep : List String)
    (h : f.keptTexts source keep ≠ []) :
    f.stub source keep enums = "  " ++ f.head source enums ++ " " ++
      substituteEnums enums (" ".intercalate (f.keptTexts source keep)) ++ ";" := by
  rw [← intercalate_keptModifiers henums, FunctionDecl.stub, FunctionDecl.keptModifiers_eq_map]
  cases hkept : f.keptTexts source keep with
  | nil => exact absurd hkept h
  | cons text texts =>
    rw [List.map_cons, String.intercalate_cons_cons]
    simp only [String.append_assoc]

end Words

/-- Names that are words are replaced where they are whole words. Therefore only the set of the names
counts, nothing is left to replace afterwards, and what stands apart is replaced apart. -/
theorem substituteEnums_words (enums : List String)
    (henums : ∀ enum ∈ enums, enum.toList.all isWord = true) :
    (∀ text, substituteEnums enums text = replaceEnums isWord enums text) ∧
    (∀ enums' : List String, (∀ enum ≠ "", enum ∈ enums' ↔ enum ∈ enums) →
      ∀ text, substituteEnums enums' text = substituteEnums enums text) ∧
    (∀ text, substituteEnums enums (substituteEnums enums text) = substituteEnums enums text) ∧
    (∀ (a b : String) (c : Char), isWord c = false →
      substituteEnums enums (a ++ String.singleton c ++ b) =
        substituteEnums enums a ++ String.singleton c ++ substituteEnums enums b) ∧
    ∀ (f : FunctionDecl) (source : String) (keep : List String),
      " ".intercalate (f.keptModifiers source keep enums) =
          substituteEnums enums (" ".intercalate (f.keptTexts source keep)) ∧
        (f.keptTexts source keep ≠ [] →
          f.stub source keep enums = "  " ++ f.head source enums ++ " " ++
            substituteEnums enums (" ".intercalate (f.keptTexts source keep)) ++ ";") := by
  refine ⟨substituteEnums_eq_of_word henums, ?_, substituteEnums_substituteEnums henums, ?_, ?_⟩
  · intro enums' hsame text
    have henums' : ∀ enum ∈ enums', enum.toList.all isWord = true := by
      intro enum henum
      by_cases hne : enum = ""
      · rw [hne]
        rfl
      · exact henums enum ((hsame enum hne).1 henum)
    rw [substituteEnums_eq_of_word henums', substituteEnums_eq_of_word henums,
      replaceEnums_congr hsame]
  · intro a b c hc
    exact substituteEnums_append henums a b hc
  · intro f source keep
    exact ⟨intercalate_keptModifiers henums f source keep, stub_of_keptTexts henums f source keep⟩

/-- The new type may be a name itself, and a longer word stays. -/
theorem substituteEnums_words_primitive :
    (∀ enum ∈ ["State", "uint8"], enum.toList.all isWord = true) ∧
      substituteEnums ["State", "uint8"] "State s, StateMachine m" = "uint8 s, StateMachine m" := by
  have henums : ∀ enum ∈ ["State", "uint8"], enum.toList.all isWord = true := by decide +kernel
  refine ⟨henums, ?_⟩
  rw [(substituteEnums_words _ henums).1]
  decide +kernel

section Identifiers

variable {c : Char}

theorem isWord_of_isIdentifierChar (h : isIdentifierChar c = true) (hc : c ≠ '$') :
    isWord c = true := by
  have hascii : c.toNat < 0x80 := by
    have hrange := toNat_of_isIdentifierChar h
    omega
  simpa [isIdentifierChar, isWord, hascii, hc] using h

theorem isWord_of_ascii (h : isIdentifierChar c = false) (hascii : c.toNat < 0x80) :
    isWord c = false := by
  simp only [isIdentifierChar, Bool.or_eq_false_iff] at h
  simp [isWord, hascii, h.1]

theorem standsIn_iff_of_identifier {name run : List Char} (hname : isIdentifier name = true)
    (hrun : run.all isIdentifierChar = true) (hdollar : '$' ∉ run) :
    StandsIn name run ↔ name = run := by
  have hword : run.all isWord = true := by
    rw [List.all_eq_true] at hrun ⊢
    intro c hc
    refine isWord_of_isIdentifierChar (hrun c hc) ?_
    rintro rfl
    exact hdollar hc
  refine standsIn_iff_of_word hword ?_
  rintro rfl
  cases hname

end Identifiers

/-- Identifiers are replaced as a whole, if each identifier of the text that holds a dollar sign
either has no name between two word boundaries in it or is that name. -/
theorem substituteEnums_identifiers (enums : List String) (text : String)
    (henums : ∀ enum ∈ enums, isIdentifier enum.toList = true)
    (hascii : text.toList.all (·.toNat < 0x80) = true)
    (hdollar : ∀ run ∈ runs isIdentifierChar text.toList, '$' ∈ run →
      ∀ enum ∈ enums, StandsIn enum.toList run ↔ enum.toList = run) :
    substituteEnums enums text = replaceEnums isIdentifierChar enums text ∧
      ∀ enums' : List String, (∀ enum, enum ∈ enums' ↔ enum ∈ enums) →
        substituteEnums enums' text = substituteEnums enums text := by
  have hreplace : ∀ enums' : List String, (∀ enum, enum ∈ enums' ↔ enum ∈ enums) →
      substituteEnums enums' text = replaceEnums isIdentifierChar enums' text := by
    intro enums' hsame
    refine substituteEnums_eq_replaceEnums ?_ ?_ ?_
    · intro enum henum
      exact all_of_isIdentifier (henums enum ((hsame enum).1 henum))
    · intro x hx hchar
      exact isWord_of_ascii hchar (by simpa using List.all_eq_true.1 hascii x hx)
    · intro run hrun hall enum henum _
      rw [hsame] at henum
      by_cases hmem : '$' ∈ run
      · exact hdollar run hrun hmem enum henum
      · exact standsIn_iff_of_identifier (henums enum henum) hall hmem
  have hown := hreplace enums fun _ => Iff.rfl
  refine ⟨hown, fun enums' hsame => ?_⟩
  rw [hreplace enums' hsame, hown, replaceEnums_congr fun enum _ => hsame enum]

/-- A dollar sign inside of a name or of another identifier does no harm. -/
theorem substituteEnums_identifiers_inner_dollar :
    substituteEnums ["State", "A$B"] "State s, $x y, A$B z" = "uint8 s, $x y, uint8 z" := by
  rw [(substituteEnums_identifiers ["State", "A$B"] "State s, $x y, A$B z" (by decide +kernel)
    (by decide +kernel) (by decide +kernel)).1]
  decide +kernel

/-- A name that starts with a dollar sign has no word boundary in front of it and stays, and if a
name goes on with a dollar sign behind another name, it counts which of them is listed first. -/
theorem substituteEnums_identifiers_outer_dollar :
    (isIdentifier "$S".toList = true ∧ substituteEnums ["$S"] "$S x" = "$S x" ∧
      replaceEnums isIdentifierChar ["$S"] "$S x" = "uint8 x") ∧
    (substituteEnums ["S", "S$T"] "S$T x" = "uint8$T x" ∧
      substituteEnums ["S$T", "S"] "S$T x" = "uint8 x") := by
  decide +kernel

end SolidityStubs
