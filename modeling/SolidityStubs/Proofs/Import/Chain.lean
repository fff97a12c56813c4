import Mathlib.Data.Finset.Card
import Mathlib.Data.List.Chain
import SolidityStubs.Proofs.Import.Walk
import SolidityStubs.Proofs.Source.Termination

/-! # The files in work

A walk keeps the files in work on a stack, from which it refuses to import. So no file is on it
twice, each file was asked for by the one below it, and the sources that wait are as many as the
files. There are only so many files, which bounds how deep a walk goes whatever cycles there are.
-/
namespace SolidityStubs

namespace Library

def paths (lib : Library) : Finset String := (lib.files.map (·.1)).toFinset

theorem mem_paths {lib : Library} {path : String} :
    path ∈ lib.paths ↔ ∃ text, lib.read path = .ok text := by
  rw [paths, List.mem_toFinset, List.mem_map]
  constructor
  · rintro ⟨f, hf, rfl⟩
    have hsome : (lib.files.lookup f.1).isSome := List.lookup_isSome_iff.2 ⟨f, hf, by simp⟩
    obtain ⟨text, htext⟩ := Option.isSome_iff_exists.1 hsome
    exact ⟨text, by rw [read, htext]⟩
  · rintro ⟨text, htext⟩
    exact ⟨(path, text), mem_files_of_read htext, rfl⟩

end Library

namespace Walk

variable {lib : Library} {root : Path} {source : String}

structure Frame.Fits (f : Frame) : Prop where
  surface : Surface.ofSource f.source = .ok f.surface
  pending : f.pending ⊆ f.surface.imports

theorem Frame.Fits.takeOver {f : Frame} (h : f.Fits) (base : Draft) : (f.takeOver base).Fits :=
  ⟨h.surface, h.pending⟩

def Phase.Concerns (text : String) : Phase → Prop
  | .enter source => source = text
  | .work frame => frame.source = text ∧ frame.Fits
  | .leave _ => True

inductive Nested (lib : Library) (root : Path) (source : String) :
    List String → List Frame → String → Prop
  | start : Nested lib root source [] [] source
  | descend {stack : List String} {callers : List Frame} {frame : Frame} {path text : String}
      (h : Nested lib root source stack callers frame.source) (hfits : frame.Fits)
      (hasks : Asks root frame.source path) (hnew : path ∉ stack) (hr : lib.read path = .ok text) :
      Nested lib root source (path :: stack) (frame :: callers) text

/-- The state is one of a walk from `source`: it is at a text to which the files in work lead, and
has asked for these files. -/
structure Linked (lib : Library) (root : Path) (source : String) (s : State) : Prop where
  nested : ∃ text, Nested lib root source s.stack s.callers text ∧ s.phase.Concerns text
  loaded : s.stack ⊆ s.loads

theorem linked_start : Linked lib root source (.start source) :=
  ⟨⟨source, .start, rfl⟩, List.nil_subset _⟩

/-- One step: only a file that is not on the stack comes onto it, and it leaves together with the
source that waits for it. -/
theorem linked_of_step {s t : State} (h : step lib root s = some t)
    (hs : Linked lib root source s) : Linked lib root source t := by
  obtain ⟨stack, loads, callers, phase⟩ := s
  obtain ⟨⟨text, hnested, hconcerns⟩, hloaded⟩ := hs
  cases phase with
  | enter _ =>
    cases hconcerns
    cases hsurface : Surface.ofSource text with
    | error f =>
      rw [step_unfit hsurface] at h
      cases h
      exact ⟨⟨text, hnested, trivial⟩, hloaded⟩
    | ok surface =>
      rw [step_enter hsurface] at h
      cases h
      exact ⟨⟨text, hnested, rfl, hsurface, List.Subset.refl _⟩, hloaded⟩
  | work frame =>
    obtain ⟨rfl, hfits⟩ := hconcerns
    cases hpending : frame.pending with
    | nil =>
      rw [step_finish hpending] at h
      cases h
      exact ⟨⟨frame.source, hnested, trivial⟩, hloaded⟩
    | cons i is =>
      obtain ⟨himport, hrest⟩ := List.cons_subset.1 (hpending ▸ hfits.pending)
      have hfits' : Frame.Fits { frame with pending := is } := ⟨hfits.surface, hrest⟩
      cases hi : i.isBase frame.surface.contract.bases with
      | false =>
        rw [step_skip hpending hi] at h
        cases h
        exact ⟨⟨frame.source, hnested, rfl, hfits'⟩, hloaded⟩
      | true =>
        by_cases hp : i.target root ∈ stack
        · rw [step_refuse hpending hi hp] at h
          cases h
          exact ⟨⟨frame.source, hnested, trivial⟩, hloaded⟩
        · have hgrown : stack ⊆ loads ++ [i.target root] := List.subset_append_of_subset_left _ hloaded
          cases hr : lib.read (i.target root) with
          | error cause =>
            rw [step_miss hpending hi hp hr] at h
            cases h
            exact ⟨⟨frame.source, hnested, trivial⟩, hgrown⟩
          | ok text =>
            rw [step_descend hpending hi hp hr] at h
            cases h
            have hasks : Asks root frame.source (i.target root) :=
              (asks_iff hfits.surface).2 ⟨i, himport, hi, rfl⟩
            exact ⟨⟨text, .descend hnested hfits' hasks hp hr, rfl⟩,
              List.cons_subset.2 ⟨by simp, hgrown⟩⟩
  | leave result =>
    -- the way to the present text tells what is popped and who goes on
    cases hnested with
    | start => cases h
    | @descend stack callers frame path _ hnested hfits =>
      have hbelow : stack ⊆ loads := (List.cons_subset.1 hloaded).2
      cases result with
      | error f =>
        rw [step_handOn] at h
        cases h
        exact ⟨⟨frame.source, hnested, trivial⟩, hbelow⟩
      | ok base =>
        rw [step_takeOver] at h
        cases h
        exact ⟨⟨frame.source, hnested, rfl, hfits.takeOver base⟩, hbelow⟩

theorem Runs.linked {s t : State} (h : Runs lib root s t) (hs : Linked lib root source s) :
    Linked lib root source t := by
  induction h with
  | refl => exact hs
  | tail _ hstep ih => exact linked_of_step hstep ih

namespace Nested

variable {stack : List String} {callers : List Frame} {text : String}

theorem length_callers (h : Nested lib root source stack callers text) :
    callers.length = stack.length := by
  induction h with
  | start => rfl
  | descend _ _ _ _ _ ih => rw [List.length_cons, List.length_cons, ih]

theorem nodup (h : Nested lib root source stack callers text) : stack.Nodup := by
  induction h with
  | start => exact List.nodup_nil
  | descend _ _ _ hnew _ ih => exact List.nodup_cons.2 ⟨hnew, ih⟩

theorem served (h : Nested lib root source stack callers text) :
    ∀ p ∈ stack, ∃ text, lib.read p = .ok text := by
  induction h with
  | start => simp
  | descend _ _ _ _ hr ih => exact List.forall_mem_cons.2 ⟨⟨_, hr⟩, ih⟩

theorem length_le (h : Nested lib root source stack callers text) :
    stack.length ≤ lib.paths.card := by
  have hsub : stack.toFinset ⊆ lib.paths := by
    intro p hp
    exact Library.mem_paths.2 (h.served p (List.mem_toFinset.1 hp))
  calc stack.length = stack.toFinset.card := (List.toFinset_card_of_nodup h.nodup).symm
    _ ≤ lib.paths.card := Finset.card_le_card hsub

theorem top (h : Nested lib root source stack callers text) :
    stack.head?.elim (text = source) fun p => lib.read p = .ok text := by
  cases h with
  | start => rfl
  | descend _ _ _ _ hr => exact hr

theorem isChain (h : Nested lib root source stack callers text) :
    stack.IsChain fun q p => Edge lib root p q := by
  induction h with
  | start => exact .nil
  | @descend stack callers frame path _ h _ hasks _ _ ih =>
    refine ih.cons ?_
    intro p hp
    -- the frame that waits works on the text of the file below
    have hread := h.top
    rw [Option.mem_def.1 hp] at hread
    exact ⟨frame.source, hread, hasks⟩

theorem bottom (h : Nested lib root source stack callers text) :
    ∀ p ∈ stack.getLast?, Asks root source p := by
  induction h with
  | start => simp
  | @descend stack callers frame path _ h _ hasks _ _ ih =>
    intro p hp
    cases h with
    | start =>
      cases hp
      exact hasks
    | descend => exact ih p (by simpa using hp)

end Nested

/-- The files in work lead from `source` to `text` and are all different: each was asked for and can
be read, the latest one holds the text, and each is a base of the one below it. -/
structure SimpleChain (lib : Library) (root : Path) (source : String) (s : State) (text : String) :
    Prop where
  nodup : s.stack.Nodup
  served : ∀ p ∈ s.stack, p ∈ s.loads ∧ ∃ text, lib.read p = .ok text
  top : s.stack.head?.elim (text = source) fun p => lib.read p = .ok text
  isChain : s.stack.IsChain fun q p => Edge lib root p q
  bottom : ∀ p ∈ s.stack.getLast?, Asks root source p

theorem Linked.simpleChain {s : State} {text : String} (h : Linked lib root source s)
    (hphase : s.phase = .enter text) : SimpleChain lib root source s text := by
  obtain ⟨text', hnested, hconcerns⟩ := h.nested
  rw [hphase] at hconcerns
  cases hconcerns
  exact
    { nodup := hnested.nodup
      served := fun p hp => ⟨h.loaded hp, hnested.served p hp⟩
      top := hnested.top
      isChain := hnested.isChain
      bottom := hnested.bottom }

end Walk

/-- Resolution ends: from wherever the walk is, it comes to its end, with the same result past the same
files. Wherever it is, no more sources wait than there are files. Wherever it enters a text, as many
sources wait as there are files in work, these are a simple chain that leads to the text, and it
leaves the text with its draft and the same files in work. -/
theorem generate_walks_simple_chains (lib : Library) (options : Options) (source : String) :
    ∃ result : Except Failure Draft,
      (generate lib options source).result =
        result.map (fun d => if options.stubsOnly then d.stubs else d.interface) ∧
      Walk.step lib options.importRoot (.ended (generate lib options source).loads result) = none ∧
      ∀ s, Walk.Runs lib options.importRoot (.start source) s →
        Walk.Runs lib options.importRoot s (.ended (generate lib options source).loads result) ∧
        s.callers.length ≤ lib.paths.card ∧
        ∀ text, s.phase = .enter text →
          s.callers.length = s.stack.length ∧
          Walk.SimpleChain lib options.importRoot source s text ∧
          Walk.Runs lib options.importRoot s
            { s with
              loads := s.loads ++ (draft lib options.importRoot s.stack text).loads
              phase := .leave (draft lib options.importRoot s.stack text).result } := by
  have hrun : generate lib options source = ⟨(draft lib options.importRoot [] source).loads,
      (draft lib options.importRoot [] source).result.map fun d =>
        if options.stubsOnly then d.stubs else d.interface⟩ :=
    Loading.bind_pure_map ..
  refine ⟨(draft lib options.importRoot [] source).result, by rw [hrun], Walk.step_ended _, ?_⟩
  intro s hs
  have hlinked := hs.linked Walk.linked_start
  obtain ⟨text, hnested, -⟩ := hlinked.nested
  refine ⟨?_, ?_, ?_⟩
  · rw [hrun]
    exact (Walk.runs_draft lib options.importRoot [] source [] []).to_end (Walk.step_ended _) hs
  · rw [hnested.length_callers]
    exact hnested.length_le
  · intro text hphase
    refine ⟨hnested.length_callers, hlinked.simpleChain hphase, ?_⟩
    obtain ⟨stack, loads, callers, phase⟩ := s
    cases hphase
    exact Walk.runs_draft lib options.importRoot stack text loads callers

/-- The only file is a base of its own contract. The walk enters it, is then as deep as it can be, and
refuses to enter it again. -/
theorem generate_walks_simple_chains_self_import :
    let source := "import\"B.sol\";contract A is B\x7b\x7d"
    let text := "import\"B.sol\";contract B is B\x7b\x7d"
    let lib := Library.ofFiles [("B.sol", text)]
    ∃ s, Walk.Runs lib (.ofString ".") (.start source) s ∧ s.stack = ["B.sol"] ∧
      s.callers.length = lib.paths.card ∧ Walk.SimpleChain lib (.ofString ".") source s text ∧
      Walk.Runs lib (.ofString ".") s { s with phase := .leave (.error (.cyclicImport "B.sol")) } := by
  intro source text lib
  let i : Import := ⟨"B.sol", ⟨0, 14⟩⟩
  let surface (name : String) : Surface := ⟨"", ⟨.contract, name, ["B"], [], ⟨14, 31⟩⟩, [i]⟩
  have htarget : i.target (.ofString ".") = "B.sol" := by decide +kernel
  have hs : Surface.ofSource source = .ok (surface "A") := by
    have hparse := Source.parse_eq_ok_of_parseWithin 12 source
      ⟨[.importing i, .contract (surface "A").contract]⟩ (by decide +kernel)
    exact Surface.ofSource_eq_ok_iff.2 ⟨_, hparse, by decide +kernel⟩
  have hsBase : Surface.ofSource text = .ok (surface "B") := by
    have hparse := Source.parse_eq_ok_of_parseWithin 12 text
      ⟨[.importing i, .contract (surface "B").contract]⟩ (by decide +kernel)
    exact Surface.ofSource_eq_ok_iff.2 ⟨_, hparse, by decide +kernel⟩
  have hread : lib.read "B.sol" = .ok text := rfl
  let s : Walk.State :=
    ⟨["B.sol"], ["B.sol"], [{ Walk.Frame.ofSurface source (surface "A") with pending := [] }],
      .enter text⟩
  have hruns : Walk.Runs lib (.ofString ".") (.start source) s := by
    refine .head (Walk.step_enter hs) (.single ?_)
    rw [Walk.step_descend rfl (by decide +kernel) (by simp) (htarget ▸ hread), htarget]
    rfl
  have hrefuse : Walk.Runs lib (.ofString ".") s
      { s with phase := .leave (.error (.cyclicImport "B.sol")) } := by
    refine .head (Walk.step_enter hsBase) (.single ?_)
    rw [Walk.step_refuse rfl (by decide +kernel) (by simp [htarget]), htarget]
  obtain ⟨_, -, -, hwalk⟩ := generate_walks_simple_chains lib ⟨.ofString ".", true⟩ source
  obtain ⟨-, -, henter⟩ := hwalk s hruns
  exact ⟨s, hruns, rfl, rfl, (henter text rfl).2.1, hrefuse⟩

end SolidityStubs
