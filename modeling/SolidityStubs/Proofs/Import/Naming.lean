import SolidityStubs.Proofs.Import.Canonical

/-! # Names of imported files

An import counts as a base by the stem of its path as it is written. The file that is asked for has
the same stem, because normalization never takes back a name at the end. So each file that a run
asks for goes by the name of a base of the contract in work at that moment.
-/
namespace SolidityStubs

namespace Path

variable {p q : Path} {s : String}

theorem stem?_eq_some_iff :
    p.stem? = some s ↔ ∃ front name, p.steps = front ++ [.name name] ∧
      s = String.ofList (stemOfName name.toList) := by
  unfold stem?
  constructor
  · intro h
    split at h
    · next name hlast =>
      obtain ⟨front, hfront⟩ := List.getLast?_eq_some_iff.1 hlast
      exact ⟨front, name, hfront, (Option.some.inj h).symm⟩
    · cases h
  · rintro ⟨front, name, hsteps, rfl⟩
    rw [hsteps, List.getLast?_concat]

theorem stem?_join (h : q.stem? = some s) : (p.join q).stem? = some s := by
  obtain ⟨front, name, hsteps, rfl⟩ := stem?_eq_some_iff.1 h
  unfold join
  split
  · exact h
  · exact stem?_eq_some_iff.2 ⟨p.steps ++ front, name, by simp [hsteps], rfl⟩

theorem stem?_normalize (h : p.stem? = some s) : p.normalize.stem? = some s := by
  obtain ⟨front, name, hsteps, rfl⟩ := stem?_eq_some_iff.1 h
  have hlast : ∀ taken, advance taken (.name name) = .name name :: taken := by
    intro taken
    cases taken <;> rfl
  refine stem?_eq_some_iff.2 ⟨(front.foldl advance []).reverse, name, ?_, rfl⟩
  rw [normalize, hsteps, List.foldl_append, List.foldl_cons, List.foldl_nil, hlast,
    List.reverse_cons]

end Path

theorem Import.stem?_target {i : Import} {s : String} (h : i.stem? = some s) (root : String) :
    (Path.ofString (i.target (.ofString root))).stem? = some s := by
  have hlegible :=
    ((Path.legible_ofString root).join (Path.legible_ofString i.path)).normalize
  rw [target, hlegible.ofString_render]
  exact Path.stem?_normalize (Path.stem?_join h)

namespace Walk

variable {lib : Library} {root : Path} {source : String} {s t : State}

/-- The walk works on a source, and the next of its imports is a base that leads to the path. -/
structure AsksFor (root : Path) (s : State) (frame : Frame) (path : String) : Prop where
  working : s.phase = .work frame
  next : ∃ i rest, frame.pending = i :: rest ∧ i.isBase frame.surface.contract.bases = true ∧
    path = i.target root

theorem loads_of_step (h : step lib root s = some t) :
    t.loads = s.loads ∨ ∃ frame path, AsksFor root s frame path ∧ t.loads = s.loads ++ [path] := by
  obtain ⟨stack, loads, callers, phase⟩ := s
  cases phase with
  | enter source =>
    cases hsurface : Surface.ofSource source with
    | error f =>
      rw [step_unfit hsurface] at h
      cases h
      exact .inl rfl
    | ok surface =>
      rw [step_enter hsurface] at h
      cases h
      exact .inl rfl
  | work frame =>
    cases hpending : frame.pending with
    | nil =>
      rw [step_finish hpending] at h
      cases h
      exact .inl rfl
    | cons i rest =>
      cases hi : i.isBase frame.surface.contract.bases with
      | false =>
        rw [step_skip hpending hi] at h
        cases h
        exact .inl rfl
      | true =>
        have hasks : AsksFor root ⟨stack, loads, callers, .work frame⟩ frame (i.target root) :=
          ⟨rfl, i, rest, hpending, hi, rfl⟩
        by_cases hp : i.target root ∈ stack
        · rw [step_refuse hpending hi hp] at h
          cases h
          exact .inl rfl
        · cases hr : lib.read (i.target root) with
          | error cause =>
            rw [step_miss hpending hi hp hr] at h
            cases h
            exact .inr ⟨frame, _, hasks, rfl⟩
          | ok text =>
            rw [step_descend hpending hi hp hr] at h
            cases h
            exact .inr ⟨frame, _, hasks, rfl⟩
  | leave result =>
    cases callers with
    | nil => cases h
    | cons frame callers =>
      cases h
      exact .inl rfl

/-- Every file of the log of a walk was asked for in a state that had asked for the files before
it. -/
theorem Runs.exists_asksFor (h : Runs lib root (.start source) t) {before after : List String}
    {path : String} (hloads : t.loads = before ++ path :: after) :
    ∃ s frame, Runs lib root (.start source) s ∧ s.loads = before ∧ AsksFor root s frame path := by
  induction h generalizing after with
  | refl => simp [State.start] at hloads
  | @tail s t hruns hstep ih =>
    rcases loads_of_step hstep with hsame | ⟨frame, asked, hasks, hmore⟩
    · exact ih (hsame ▸ hloads)
    · rw [hmore] at hloads
      rcases List.eq_nil_or_concat after with rfl | ⟨front, last, rfl⟩
      · obtain ⟨hbefore, hpath⟩ := List.append_inj' hloads rfl
        cases hpath
        exact ⟨s, frame, hruns, hbefore, hasks⟩
      · rw [List.concat_eq_append, ← List.cons_append, ← List.append_assoc] at hloads
        exact ih (List.append_inj' hloads rfl).1

theorem Linked.surface_of_work {frame : Frame} (h : Linked lib root source s)
    (hphase : s.phase = .work frame) :
    Surface.ofSource frame.source = .ok frame.surface ∧
      s.stack.head?.elim (frame.source = source) fun p => lib.read p = .ok frame.source := by
  obtain ⟨text, hnested, hconcerns⟩ := h.nested
  rw [hphase] at hconcerns
  obtain ⟨rfl, hfits⟩ := hconcerns
  exact ⟨hfits.surface, hnested.top⟩

end Walk

/-- The stem of an import is the stem of the normal form of its path, from whatever root it is read.
So when a run asks for a file, it does so by a path in normal form, and the stem of the path is one
of the bases of the contract whose imports are in work: that of the source, or of the latest file on
the stack. -/
theorem loads_named_for_bases (root : String) :
    (∀ path stem, (Path.ofString path).stem? = some stem →
      ((Path.ofString root).join (.ofString path)).normalize.stem? = some stem) ∧
    ∀ lib stubsOnly source before path after,
      (generate lib ⟨.ofString root, stubsOnly⟩ source).loads = before ++ path :: after →
      Path.normalText path = path ∧
      ∃ s frame, Walk.Runs lib (.ofString root) (.start source) s ∧ s.loads = before ∧
        Walk.AsksFor (.ofString root) s frame path ∧
        Surface.ofSource frame.source = .ok frame.surface ∧
        (s.stack.head?.elim (frame.source = source) fun p => lib.read p = .ok frame.source) ∧
        ∃ base ∈ frame.surface.contract.bases, (Path.ofString path).stem? = some base := by
  refine ⟨fun path stem h => Path.stem?_normalize (Path.stem?_join h), ?_⟩
  intro lib stubsOnly source before path after hloads
  have hrun : (generate lib ⟨.ofString root, stubsOnly⟩ source).loads =
      (draft lib (.ofString root) [] source).loads :=
    congrArg Loading.loads (Loading.bind_pure_map ..)
  rw [hrun, ← List.nil_append (Loading.loads _)] at hloads
  obtain ⟨s, frame, hs, hbefore, hasks⟩ :=
    (Walk.runs_draft lib (.ofString root) [] source [] []).exists_asksFor hloads
  obtain ⟨hsurface, htop⟩ := (hs.linked Walk.linked_start).surface_of_work hasks.working
  obtain ⟨i, rest, -, hbase, rfl⟩ := hasks.next
  obtain ⟨base, hstem, hmem⟩ := (Option.any_eq_true _ _).1 hbase
  exact ⟨isCanonical_iff.1 (i.isCanonical_target root), s, frame, hs, hbefore, hasks, hsurface,
    htop, base, by simpa using hmem, i.stem?_target hstem root⟩

/-- A name with two dots, behind a detour and in front of a dot, read from above. -/
theorem loads_named_for_bases_dotted :
    let source := "import\"x/../B.v2.sol/.\";contract A is B.v2\x7b\x7d"
    let lib := Library.ofFiles []
    (generate lib ⟨.ofString "..", true⟩ source).loads = ["../B.v2.sol"] ∧
      ((Path.ofString "..").join (.ofString "x/../B.v2.sol/.")).normalize.stem? = some "B.v2" ∧
      ∃ s frame, Walk.Runs lib (.ofString "..") (.start source) s ∧ s.phase = .work frame ∧
        frame.source = source ∧ ∃ base ∈ frame.surface.contract.bases,
          (Path.ofString "../B.v2.sol").stem? = some base := by
  intro source lib
  let i : Import := ⟨"x/../B.v2.sol/.", ⟨0, 24⟩⟩
  let surface : Surface := ⟨"", ⟨.contract, "A", ["B.v2"], [], ⟨24, 44⟩⟩, [i]⟩
  have hs : Surface.ofSource source = .ok surface := by
    have hparse := Source.parse_eq_ok_of_parseWithin 12 source
      ⟨[.importing i, .contract surface.contract]⟩ (by decide +kernel)
    exact Surface.ofSource_eq_ok_iff.2 ⟨_, hparse, by decide +kernel⟩
  have htarget : i.target (.ofString "..") = "../B.v2.sol" := by decide +kernel
  have hloads : (generate lib ⟨.ofString "..", true⟩ source).loads = ["../B.v2.sol"] := by
    have hread : lib.read "../B.v2.sol" = .error .notFound := rfl
    have hblocks : inheritedBlocks lib (.ofString "..") [] ["B.v2"] [i] =
        ⟨["../B.v2.sol"], .error (.importRead "../B.v2.sol" .notFound)⟩ := by
      rw [inheritedBlocks_cons_of_isBase (by decide +kernel), htarget, if_neg (by simp), hread]
      rfl
    rw [generate, generateAmid, draft, hs]
    dsimp only
    rw [hblocks, Loading.bind_of_error rfl, Loading.bind_of_error rfl]
  obtain ⟨hstem, hrun⟩ := loads_named_for_bases ".."
  obtain ⟨-, s, frame, hruns, -, hasks, -, htop, hbase⟩ :=
    hrun lib true source [] "../B.v2.sol" [] hloads
  refine ⟨hloads, hstem _ _ (by decide +kernel), s, frame, hruns, hasks.working, ?_, hbase⟩
  cases htop' : s.stack.head? with
  | none => simpa [htop'] using htop
  | some p => simp [htop', lib, Library.ofFiles, Library.read] at htop

end SolidityStubs
