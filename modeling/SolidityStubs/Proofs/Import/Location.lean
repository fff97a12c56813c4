import Mathlib.Data.List.Basic
import SolidityStubs.Generate

/-! # Locations

A location is where a path leads if nothing but its text is looked at: some levels up and then into
names, or into names from the root, which has nothing above it. Normalization takes back any step
with the next upward one, also an upward step, so two steps out of the start are lost.
-/
namespace SolidityStubs

structure Location where
  rooted : Bool
  /-- How many levels above the start the names begin. -/
  above : Nat
  names : List String
deriving DecidableEq, Repr

namespace Location

def here : Location := ⟨false, 0, []⟩

def top : Location := ⟨true, 0, []⟩

/-- One level up: out of the last name, or above the start. Nothing is above the root. -/
def leave (l : Location) : Location :=
  if l.names ≠ [] then { l with names := l.names.dropLast }
  else if l.rooted then l
  else { l with above := l.above + 1 }

def enter (l : Location) (piece : List Char) : Location :=
  if piece = [] ∨ piece = ['.'] then l
  else if piece = ['.', '.'] then l.leave
  else { l with names := l.names ++ [String.ofList piece] }

def follow (l : Location) (text : String) : Location :=
  (text.toList.splitOn '/').foldl enter (if text.toList.head? = some '/' then top else l)

def ofText (text : String) : Location := here.follow text

def path (l : Location) : Path :=
  ⟨l.rooted, List.replicate l.above .up ++ l.names.map .name⟩

end Location

namespace Path

/-- How many upward steps find nothing to take back, from `depth` names deep on. -/
def climbs : Nat → List Step → Nat
  | _, [] => 0
  | 0, .up :: steps => climbs 0 steps + 1
  | depth + 1, .up :: steps => climbs depth steps
  | depth, .name _ :: steps => climbs (depth + 1) steps

/-- The path climbs out at most once, or from the root an even number of times. -/
def KeepsPlace (p : Path) : Prop :=
  if p.rooted then climbs 0 p.steps % 2 = 0 else climbs 0 p.steps ≤ 1

instance (p : Path) : Decidable p.KeepsPlace :=
  inferInstanceAs (Decidable (if p.rooted then climbs 0 p.steps % 2 = 0 else climbs 0 p.steps ≤ 1))

end Path

section Reading

theorem pieces_eq_splitOn (cs : List Char) : Path.pieces cs = cs.splitOn '/' := by
  induction cs with
  | nil => rfl
  | cons c cs ih =>
    rw [Path.pieces, List.splitOn_cons_eq_if_modifyHead, ih]
    by_cases hc : c = '/'
    · simp [hc]
    · rw [if_neg hc, if_neg (by simpa using hc)]
      cases h : cs.splitOn '/' with
      | nil => exact absurd h (List.splitOn_ne_nil _ _)
      | cons p ps => rfl

def Location.go (l : Location) : Step → Location
  | .up => l.leave
  | .name text => { l with names := l.names ++ [text] }

theorem Location.follow_eq (l : Location) (text : String) :
    l.follow text = (Path.ofString text).steps.foldl go
      (if (Path.ofString text).rooted then top else l) := by
  simp only [follow, Path.ofString, pieces_eq_splitOn, List.foldl_filterMap, beq_iff_eq]
  congr
  funext l piece
  unfold enter Step.ofPiece?
  split
  · rfl
  · split <;> rfl

end Reading

section Walk

namespace Path

def taken (names : List String) (ups : Nat) : List Step :=
  (names.map .name).reverse ++ List.replicate (ups % 2) .up

theorem advance_taken_name (names : List String) (ups : Nat) (text : String) :
    advance (taken names ups) (.name text) = taken (names ++ [text]) ups := by
  have hstep : ∀ steps, advance steps (.name text) = .name text :: steps := by
    intro steps
    cases steps <;> rfl
  rw [hstep, taken, taken, List.map_append, List.reverse_append]
  rfl

theorem advance_taken_up (names : List String) (ups : Nat) :
    advance (taken names ups) .up =
      taken names.dropLast (ups + if names = [] then 1 else 0) := by
  rcases List.eq_nil_or_concat names with rfl | ⟨front, text, rfl⟩
  · rw [taken, taken, if_pos rfl]
    rcases Nat.mod_two_eq_zero_or_one ups with h | h
    · have hnext : (ups + 1) % 2 = 1 := by omega
      rw [h, hnext]
      rfl
    · have hnext : (ups + 1) % 2 = 0 := by omega
      rw [h, hnext]
      rfl
  · rw [List.concat_eq_append, List.dropLast_concat, if_neg (by simp), taken, List.map_append,
      List.reverse_append]
    rfl

theorem climbs_up (depth : Nat) (steps : List Step) :
    climbs depth (.up :: steps) = (if depth = 0 then 1 else 0) + climbs (depth - 1) steps := by
  cases depth with
  | zero => exact Nat.add_comm _ _
  | succ depth => exact (Nat.zero_add _).symm

end Path

namespace Location

theorem rooted_leave (l : Location) : l.leave.rooted = l.rooted := by
  unfold leave
  split
  · rfl
  · split <;> rfl

theorem names_leave (l : Location) : l.leave.names = l.names.dropLast := by
  unfold leave
  split
  · rfl
  · next h =>
    have hnil : l.names = [] := by simpa using h
    split <;> simp [hnil]

theorem above_leave (l : Location) :
    l.leave.above = l.above + (if l.rooted = false ∧ l.names = [] then 1 else 0) := by
  unfold leave
  split
  · next h => simp [h]
  · next h =>
    have hnil : l.names = [] := by simpa using h
    split <;> simp_all

theorem rooted_foldl (l : Location) (steps : List Step) : (steps.foldl go l).rooted = l.rooted := by
  induction steps generalizing l with
  | nil => rfl
  | cons step steps ih =>
    rw [List.foldl_cons, ih]
    cases step with
    | up => exact l.rooted_leave
    | name text => rfl

/-- The levels above the start are the climbs, and there are none above the root. -/
theorem above_foldl (l : Location) (steps : List Step) :
    (steps.foldl go l).above =
      l.above + (if l.rooted then 0 else Path.climbs l.names.length steps) := by
  induction steps generalizing l with
  | nil => simp [Path.climbs]
  | cons step steps ih =>
    rw [List.foldl_cons, ih]
    cases step with
    | name text => simp [go, Path.climbs]
    | up =>
      simp only [go, rooted_leave, names_leave, above_leave, List.length_dropLast, Path.climbs_up,
        List.length_eq_zero_iff]
      cases l.rooted <;> simp [Nat.add_assoc]

/-- The induction is over the steps that are left, with the climbs so far. -/
theorem foldl_advance (l : Location) (steps : List Step) (ups : Nat) :
    steps.foldl Path.advance (Path.taken l.names ups) =
      Path.taken (steps.foldl go l).names (ups + Path.climbs l.names.length steps) := by
  induction steps generalizing l ups with
  | nil => rfl
  | cons step steps ih =>
    rw [List.foldl_cons, List.foldl_cons]
    cases step with
    | name text =>
      have hrest := ih (l.go (.name text)) ups
      rw [go, List.length_append] at hrest
      rw [Path.advance_taken_name, hrest]
      rfl
    | up =>
      have hrest := ih l.leave (ups + if l.names = [] then 1 else 0)
      rw [names_leave, List.length_dropLast] at hrest
      rw [Path.advance_taken_up, hrest, Path.climbs_up, Nat.add_assoc]
      simp only [List.length_eq_zero_iff]
      rfl

end Location

end Walk

section Places

def Path.location (p : Path) : Location := p.steps.foldl Location.go ⟨p.rooted, 0, []⟩

theorem Path.rooted_location (p : Path) : p.location.rooted = p.rooted := Location.rooted_foldl _ _

theorem Path.above_location (p : Path) :
    p.location.above = if p.rooted then 0 else climbs 0 p.steps := by
  have h := Location.above_foldl ⟨p.rooted, 0, []⟩ p.steps
  rwa [Nat.zero_add] at h

theorem Path.normalize_eq (p : Path) :
    p.normalize =
      ⟨p.rooted, List.replicate (climbs 0 p.steps % 2) .up ++ p.location.names.map .name⟩ := by
  have h := Location.foldl_advance ⟨p.rooted, 0, []⟩ p.steps 0
  have hstart : taken [] 0 = [] := rfl
  rw [hstart, Nat.zero_add] at h
  rw [normalize, h, taken, List.reverse_append, List.reverse_reverse, List.reverse_replicate]
  rfl

/-- Normalization keeps the location exactly as far as it does not take back a step out. -/
theorem Path.normalize_eq_path_iff (p : Path) : p.normalize = p.location.path ↔ p.KeepsPlace := by
  rw [normalize_eq, Location.path, rooted_location, above_location, KeepsPlace]
  have hcount : ∀ m n : Nat, List.replicate m Step.up = List.replicate n Step.up ↔ m = n := by
    intro m n
    constructor
    · intro h
      simpa using congrArg List.length h
    · rintro rfl
      rfl
  simp only [Path.mk.injEq, true_and, List.append_cancel_right_eq, hcount]
  split <;> omega

theorem Location.ofText_eq (text : String) : ofText text = (Path.ofString text).location := by
  rw [ofText, follow_eq, Path.location]
  cases (Path.ofString text).rooted <;> rfl

theorem Location.follow_ofText (root text : String) :
    (ofText root).follow text = ((Path.ofString root).join (.ofString text)).location := by
  rw [follow_eq, ofText_eq, Path.join]
  cases hrooted : (Path.ofString text).rooted with
  | true =>
    rw [if_pos rfl, if_pos rfl, Path.location, hrooted]
    rfl
  | false =>
    rw [if_neg Bool.false_ne_true, if_neg Bool.false_ne_true, Path.location, Path.location,
      List.foldl_append]

theorem Location.path_inj {l m : Location} : l.path = m.path ↔ l = m := by
  constructor
  · intro h
    have hups : ∀ l : Location, l.path.steps.count .up = l.above := by
      intro l
      have hnames : (l.names.map Step.name).count .up = 0 := List.count_eq_zero.2 (by simp)
      rw [path, List.count_append, List.count_replicate_self, hnames, Nat.add_zero]
    have habove : l.above = m.above := by rw [← hups l, h, hups]
    obtain ⟨hrooted, hsteps⟩ := Path.mk.inj h
    rw [habove, List.append_cancel_left_eq] at hsteps
    have hnames := (List.map_inj_right fun a b => Step.name.inj).1 hsteps
    cases l
    cases m
    simp_all
  · rintro rfl
    rfl

end Places

section Texts

def Path.Legible (p : Path) : Prop :=
  ∀ step ∈ p.steps, Step.ofPiece? step.text.toList = some step ∧ '/' ∉ step.text.toList

theorem text_of_ofPiece? {piece : List Char} {step : Step} (h : Step.ofPiece? piece = some step) :
    step.text.toList = piece := by
  unfold Step.ofPiece? at h
  split at h
  · cases h
  · split at h
    · next hdots =>
      cases h
      rw [hdots]
      rfl
    · cases h
      exact String.toList_ofList

theorem slash_not_mem_of_mem_pieces {cs piece : List Char} (h : piece ∈ Path.pieces cs) :
    '/' ∉ piece := by
  induction cs generalizing piece with
  | nil =>
    rw [Path.pieces, List.mem_singleton] at h
    simp [h]
  | cons c cs ih =>
    rw [Path.pieces] at h
    split at h
    · rcases List.mem_cons.1 h with rfl | h
      · simp
      · exact ih h
    · next hc =>
      cases hpieces : Path.pieces cs with
      | nil =>
        rw [hpieces, List.mem_singleton] at h
        simpa [h] using Ne.symm hc
      | cons p ps =>
        rw [hpieces] at h ih
        rcases List.mem_cons.1 h with rfl | h
        · have hp := ih List.mem_cons_self
          simpa [hp] using Ne.symm hc
        · exact ih (List.mem_cons_of_mem p h)

namespace Path

theorem legible_ofString (text : String) : (ofString text).Legible := by
  intro step hstep
  obtain ⟨piece, hpiece, hread⟩ := List.mem_filterMap.1 hstep
  rw [text_of_ofPiece? hread]
  exact ⟨hread, slash_not_mem_of_mem_pieces hpiece⟩

theorem Legible.join {p q : Path} (hp : p.Legible) (hq : q.Legible) : (p.join q).Legible := by
  unfold Path.join
  split
  · exact hq
  · intro step hstep
    rcases List.mem_append.1 hstep with h | h
    · exact hp step h
    · exact hq step h

theorem mem_of_mem_advance {taken : List Step} {next step : Step} (h : step ∈ advance taken next) :
    step ∈ taken ∨ step = next := by
  unfold advance at h
  split at h
  · exact .inr (List.mem_singleton.1 h)
  · exact .inl (List.mem_cons_of_mem _ h)
  · exact (List.mem_cons.1 h).symm

theorem mem_of_mem_foldl_advance {steps taken : List Step} {step : Step}
    (h : step ∈ steps.foldl advance taken) : step ∈ taken ∨ step ∈ steps := by
  induction steps generalizing taken with
  | nil => exact .inl h
  | cons next steps ih =>
    rcases ih h with h | h
    · rcases mem_of_mem_advance h with h | rfl
      · exact .inl h
      · exact .inr List.mem_cons_self
    · exact .inr (List.mem_cons_of_mem next h)

theorem Legible.normalize {p : Path} (hp : p.Legible) : p.normalize.Legible := by
  intro step hstep
  rcases mem_of_mem_foldl_advance (List.mem_reverse.1 hstep) with h | h
  · cases h
  · exact hp step h

theorem toList_render (p : Path) :
    p.render.toList = (if p.rooted then ['/'] else []) ++
      ['/'].intercalate (p.steps.map (·.text.toList)) := by
  rw [render, String.toList_append, String.toList_intercalate, List.map_map]
  cases p.rooted <;> rfl

theorem Legible.pieces_intercalate {p : Path} (hp : p.Legible) (hne : p.steps ≠ []) :
    pieces (['/'].intercalate (p.steps.map (·.text.toList))) = p.steps.map (·.text.toList) := by
  have hslash : ∀ piece ∈ p.steps.map (·.text.toList), '/' ∉ piece := by
    rw [List.forall_mem_map]
    intro step hstep
    exact (hp step hstep).2
  rw [pieces_eq_splitOn, List.splitOn_intercalate '/' hslash (by simpa using hne)]

theorem Legible.steps_of_intercalate {p : Path} (hp : p.Legible) :
    (pieces (['/'].intercalate (p.steps.map (·.text.toList)))).filterMap Step.ofPiece? = p.steps := by
  by_cases hnil : p.steps = []
  · rw [hnil]
    rfl
  · rw [hp.pieces_intercalate hnil, List.filterMap_map]
    exact (List.filterMap_congr fun step hstep => (hp step hstep).1).trans List.filterMap_some

theorem Legible.head_intercalate {p : Path} (hp : p.Legible) :
    (['/'].intercalate (p.steps.map (·.text.toList))).head? ≠ some '/' := by
  intro hhead
  obtain ⟨cs, hcs⟩ := List.head?_eq_some_iff.1 hhead
  have hne : p.steps ≠ [] := by
    intro hnil
    rw [hnil] at hcs
    cases hcs
  -- a slash in front would mean an empty piece, which is no step
  have hpieces := hp.pieces_intercalate hne
  rw [hcs, pieces, if_pos rfl] at hpieces
  have hmem : [] ∈ p.steps.map (·.text.toList) := hpieces ▸ List.mem_cons_self
  obtain ⟨step, hstep, htext⟩ := List.mem_map.1 hmem
  have hread := (hp step hstep).1
  rw [htext] at hread
  cases hread

theorem Legible.ofString_render {p : Path} (hp : p.Legible) : ofString p.render = p := by
  have hsteps := hp.steps_of_intercalate
  have hhead := hp.head_intercalate
  obtain ⟨rooted, steps⟩ := p
  rw [ofString, toList_render]
  cases rooted with
  | false =>
    rw [if_neg Bool.false_ne_true, List.nil_append, hsteps, beq_eq_false_iff_ne.2 hhead]
  | true =>
    rw [if_pos rfl, List.singleton_append, pieces, if_pos rfl, List.filterMap_cons_none rfl, hsteps]
    rfl

end Path

theorem Import.target_eq_iff (root : String) (i j : Import) :
    i.target (.ofString root) = j.target (.ofString root) ↔
      ((Path.ofString root).join (.ofString i.path)).normalize =
        ((Path.ofString root).join (.ofString j.path)).normalize := by
  have hlegible : ∀ text : String,
      ((Path.ofString root).join (.ofString text)).normalize.Legible :=
    fun text => ((Path.legible_ofString root).join (Path.legible_ofString text)).normalize
  constructor
  · intro h
    rw [← (hlegible i.path).ofString_render, ← (hlegible j.path).ofString_render]
    exact congrArg Path.ofString h
  · intro h
    rw [target, target, h]

end Texts

/-- The normal form of a path is the shortest path to its location exactly if at most one step leads
out of the start, or an even number of steps out of the root. Imports with such paths ask for the
same file exactly if they lead to the same location. -/
theorem normalize_keeps_location (text root : String) (i j : Import) :
    ((Path.ofString text).normalize = (Location.ofText text).path ↔
      (Path.ofString text).KeepsPlace) ∧
    (((Path.ofString root).join (.ofString i.path)).KeepsPlace →
      ((Path.ofString root).join (.ofString j.path)).KeepsPlace →
      (i.target (.ofString root) = j.target (.ofString root) ↔
        (Location.ofText root).follow i.path = (Location.ofText root).follow j.path)) := by
  constructor
  · rw [Location.ofText_eq]
    exact Path.normalize_eq_path_iff _
  · intro hi hj
    rw [Import.target_eq_iff, (Path.normalize_eq_path_iff _).2 hi,
      (Path.normalize_eq_path_iff _).2 hj, Location.path_inj, Location.follow_ofText,
      Location.follow_ofText]

/-- A detour leads to the same file. -/
theorem normalize_keeps_location_detour :
    Import.target ⟨"../lib/A.sol", ⟨0, 0⟩⟩ (.ofString ".") =
      Import.target ⟨"src/../.././lib//A.sol", ⟨0, 0⟩⟩ (.ofString ".") :=
  ((normalize_keeps_location "." "." _ _).2 (by decide +kernel) (by decide +kernel)).2
    (by decide +kernel)

/-- Two steps out of the start are lost, so that different files are taken for one. A step above the
root stays, so that one file is taken for two. -/
theorem normalize_keeps_location_climb :
    (Import.target ⟨"../../A.sol", ⟨0, 0⟩⟩ (.ofString ".") =
        Import.target ⟨"A.sol", ⟨0, 0⟩⟩ (.ofString ".") ∧
      (Location.ofText ".").follow "../../A.sol" ≠ (Location.ofText ".").follow "A.sol") ∧
    (Import.target ⟨"../../A.sol", ⟨0, 0⟩⟩ (.ofString "/contracts") ≠
        Import.target ⟨"../A.sol", ⟨0, 0⟩⟩ (.ofString "/contracts") ∧
      (Location.ofText "/contracts").follow "../../A.sol" =
        (Location.ofText "/contracts").follow "../A.sol") := by
  decide +kernel

end SolidityStubs
