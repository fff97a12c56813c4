import SolidityStubs.Proofs.Import.Resolution

/-! # Resolution as a walk

A walk resolves imports step by step, with the sources that wait for another one on a list of their
own. Nothing in a walk bounds how deep it goes or how long it takes. It comes to what the recursion
gives, past the same files.
-/
namespace SolidityStubs.Walk

open Relation (ReflTransGen)

/-- A source in work: the imports of its surface that are yet to be looked at, and the blocks that
were taken over so far. -/
structure Frame where
  source : String
  surface : Surface
  pending : List Import
  blocks : List String

namespace Frame

def ofSurface (source : String) (surface : Surface) : Frame := ⟨source, surface, surface.imports, []⟩

def draftWith (f : Frame) (more : List String) : Draft := f.surface.draft f.source (f.blocks ++ more)

def takeOver (f : Frame) (base : Draft) : Frame :=
  { f with blocks := f.blocks ++ if base.stubs.isEmpty then [] else [base.stubs] }

theorem map_draftWith_takeOver (f : Frame) (base : Draft) (rest : Except Failure (List String)) :
    rest.map (f.takeOver base).draftWith =
      (rest.map fun more => if base.stubs.isEmpty then more else base.stubs :: more).map
        f.draftWith := by
  cases rest with
  | error e => rfl
  | ok more =>
    simp only [Except.map, draftWith, takeOver, List.append_assoc]
    split <;> simp

end Frame

inductive Phase
  | enter (source : String)
  | work (frame : Frame)
  | leave (result : Except Failure Draft)

structure State where
  /-- The files in work, latest first. -/
  stack : List String
  /-- The files asked for so far. -/
  loads : List String
  /-- The sources that wait for the present one, latest first. -/
  callers : List Frame
  phase : Phase

def State.start (source : String) : State := ⟨[], [], [], .enter source⟩

def State.ended (loads : List String) (result : Except Failure Draft) : State :=
  ⟨[], loads, [], .leave result⟩

/-- The next state, if there is one. A file is put on the stack when its text is entered and comes
off when the text is left, whatever came of it; a failure is handed on to all that wait. -/
def step (lib : Library) (root : Path) (s : State) : Option State :=
  match s.phase with
  | .enter source =>
    match Surface.ofSource source with
    | .error f => some { s with phase := .leave (.error f) }
    | .ok surface => some { s with phase := .work (.ofSurface source surface) }
  | .work frame =>
    match frame.pending with
    | [] => some { s with phase := .leave (.ok (frame.draftWith [])) }
    | i :: rest =>
      let path := i.target root
      if i.isBase frame.surface.contract.bases then
        if path ∈ s.stack then some { s with phase := .leave (.error (.cyclicImport path)) }
        else
          match lib.read path with
          | .error cause =>
            some { s with
              loads := s.loads ++ [path]
              phase := .leave (.error (.importRead path cause)) }
          | .ok text =>
            some
              { stack := path :: s.stack
                loads := s.loads ++ [path]
                callers := { frame with pending := rest } :: s.callers
                phase := .enter text }
      else some { s with phase := .work { frame with pending := rest } }
  | .leave result =>
    match s.callers with
    | [] => none
    | frame :: callers =>
      let phase := match result with
        | .ok base => .work (frame.takeOver base)
        | .error f => .leave (.error f)
      some { s with stack := s.stack.tail, callers, phase }

abbrev Runs (lib : Library) (root : Path) : State → State → Prop :=
  ReflTransGen fun s t => step lib root s = some t

variable {lib : Library} {root : Path}

/-- There is one way to go, so a walk that can come to an end comes to it from wherever it is. -/
theorem Runs.to_end {s t u : State} (hs : Runs lib root s u) (hu : step lib root u = none)
    (ht : Runs lib root s t) : Runs lib root t u := by
  have hunique : Relator.RightUnique fun s t => step lib root s = some t := by
    intro a b c hb hc
    exact Option.some.inj (hb.symm.trans hc)
  rcases ReflTransGen.total_of_right_unique hunique ht hs with h | h
  · exact h
  · rcases ReflTransGen.cases_head h with rfl | ⟨v, hv, -⟩
    · exact .refl
    · rw [hu] at hv
      cases hv

section Steps

variable {stack loads : List String} {callers : List Frame} {frame : Frame} {i : Import}
  {is : List Import}

theorem step_unfit {source : String} {f : Failure} (hs : Surface.ofSource source = .error f) :
    step lib root ⟨stack, loads, callers, .enter source⟩ =
      some ⟨stack, loads, callers, .leave (.error f)⟩ := by
  simp [step, hs]

theorem step_enter {source : String} {surface : Surface}
    (hs : Surface.ofSource source = .ok surface) :
    step lib root ⟨stack, loads, callers, .enter source⟩ =
      some ⟨stack, loads, callers, .work (.ofSurface source surface)⟩ := by
  simp [step, hs]

theorem step_finish (h : frame.pending = []) :
    step lib root ⟨stack, loads, callers, .work frame⟩ =
      some ⟨stack, loads, callers, .leave (.ok (frame.draftWith []))⟩ := by
  simp [step, h]

theorem step_skip (h : frame.pending = i :: is)
    (hi : i.isBase frame.surface.contract.bases = false) :
    step lib root ⟨stack, loads, callers, .work frame⟩ =
      some ⟨stack, loads, callers, .work { frame with pending := is }⟩ := by
  simp [step, h, hi]

theorem step_refuse (h : frame.pending = i :: is)
    (hi : i.isBase frame.surface.contract.bases = true) (hp : i.target root ∈ stack) :
    step lib root ⟨stack, loads, callers, .work frame⟩ =
      some ⟨stack, loads, callers, .leave (.error (.cyclicImport (i.target root)))⟩ := by
  simp [step, h, hi, hp]

theorem step_miss (h : frame.pending = i :: is)
    (hi : i.isBase frame.surface.contract.bases = true) (hp : i.target root ∉ stack)
    {cause : ReadError} (hr : lib.read (i.target root) = .error cause) :
    step lib root ⟨stack, loads, callers, .work frame⟩ =
      some ⟨stack, loads ++ [i.target root], callers,
        .leave (.error (.importRead (i.target root) cause))⟩ := by
  simp [step, h, hi, hp, hr]

theorem step_descend (h : frame.pending = i :: is)
    (hi : i.isBase frame.surface.contract.bases = true) (hp : i.target root ∉ stack)
    {text : String} (hr : lib.read (i.target root) = .ok text) :
    step lib root ⟨stack, loads, callers, .work frame⟩ =
      some ⟨i.target root :: stack, loads ++ [i.target root],
        { frame with pending := is } :: callers, .enter text⟩ := by
  simp [step, h, hi, hp, hr]

theorem step_takeOver (path : String) (base : Draft) :
    step lib root ⟨path :: stack, loads, frame :: callers, .leave (.ok base)⟩ =
      some ⟨stack, loads, callers, .work (frame.takeOver base)⟩ := rfl

theorem step_handOn (path : String) (f : Failure) :
    step lib root ⟨path :: stack, loads, frame :: callers, .leave (.error f)⟩ =
      some ⟨stack, loads, callers, .leave (.error f)⟩ := rfl

theorem step_ended (result : Except Failure Draft) :
    step lib root (.ended loads result) = none := rfl

end Steps

/-- Whatever is in work and whoever waits, a walk leaves a source with the draft that the recursion
gives, and with the stack as it was. -/
theorem runs_draft (lib : Library) (root : Path) (stack : List String) (source : String) :
    ∀ loads callers, Runs lib root ⟨stack, loads, callers, .enter source⟩
      ⟨stack, loads ++ (draft lib root stack source).loads, callers,
        .leave (draft lib root stack source).result⟩ := by
  -- a frame may have taken over blocks before, so the claim on its pending imports is about all
  -- frames that wait for the same imports of the same bases
  refine draft.induct lib root
    (fun stack source => ∀ loads callers, Runs lib root ⟨stack, loads, callers, .enter source⟩
      ⟨stack, loads ++ (draft lib root stack source).loads, callers,
        .leave (draft lib root stack source).result⟩)
    (fun stack bases is => ∀ frame loads callers,
      frame.surface.contract.bases = bases → frame.pending = is →
      Runs lib root ⟨stack, loads, callers, .work frame⟩
        ⟨stack, loads ++ (inheritedBlocks lib root stack bases is).loads, callers,
          .leave ((inheritedBlocks lib root stack bases is).result.map frame.draftWith)⟩)
    ?_ ?_ ?_ ?_ ?_ ?_ ?_ stack source
  · intro stack source f hs loads callers
    apply ReflTransGen.single
    rw [draft, hs, step_unfit hs]
    simp [Loading.fail]
  · intro stack source s hs ih loads callers
    rw [draft, hs]
    dsimp only
    rw [Loading.bind_pure_map]
    exact .head (step_enter hs) (ih (.ofSurface source s) loads callers rfl rfl)
  · intro stack bases frame loads callers hbases hpending
    apply ReflTransGen.single
    rw [inheritedBlocks, step_finish hpending, Loading.loads_pure, List.append_nil]
    rfl
  · rintro stack _ i is hi path hp frame loads callers rfl hpending
    apply ReflTransGen.single
    rw [inheritedBlocks_cons_of_isBase hi, if_pos hp, step_refuse hpending hi hp]
    simp [Loading.fail, Except.map]
  · rintro stack _ i is hi path hp cause hr frame loads callers rfl hpending
    apply ReflTransGen.single
    rw [inheritedBlocks_cons_of_isBase hi, if_neg hp, hr, step_miss hpending hi hp hr]
    rfl
  · rintro stack _ i is hi path hp text hr - ihd ihs frame loads callers rfl hpending
    rw [inheritedBlocks_cons_of_isBase hi, if_neg hp, hr, Loading.load_bind, List.append_cons]
    simp only [Loading.bind_pure_map]
    let waiting : Frame := { frame with pending := is }
    have hbase : Runs lib root ⟨stack, loads, callers, .work frame⟩ _ :=
      .head (step_descend hpending hi hp hr) (ihd (loads ++ [path]) (waiting :: callers))
    cases hd : (draft lib root (path :: stack) text).result with
    | error f =>
      rw [hd] at hbase
      rw [Loading.bind_of_error hd]
      exact hbase.trans (.single (step_handOn path f))
    | ok base =>
      rw [hd] at hbase
      rw [Loading.bind_of_ok hd]
      have hrest := ihs (waiting.takeOver base)
        (loads ++ [path] ++ (draft lib root (path :: stack) text).loads) callers rfl rfl
      rw [Frame.map_draftWith_takeOver] at hrest
      dsimp only
      rw [← List.append_assoc]
      exact hbase.trans (.head (step_takeOver path base) hrest)
  · rintro stack _ i is hi ih frame loads callers rfl hpending
    have hi' : i.isBase frame.surface.contract.bases = false := by simpa using hi
    rw [inheritedBlocks_cons_of_not_isBase hi']
    exact .head (step_skip hpending hi') (ih { frame with pending := is } loads callers rfl rfl)

end SolidityStubs.Walk
