import Mathlib.Data.List.Forall2
import SolidityStubs.Proofs.Import.Resolution

/-! # Files in work

The files in work only ever refuse imports. A run with more files in work goes on exactly like the
run without them, or it stops at an import of one of them. So what a file contributes to an
interface is what it gives on its own.
-/
namespace SolidityStubs

/-- The run `l'` is `l`, or it was refused an import of one of the files. -/
def RefusedOr {α : Type} (files : List String) (l' l : Loading α) : Prop :=
  l' = l ∨ ∃ p ∈ files, l'.result = .error (.cyclicImport p)

namespace RefusedOr

variable {α β : Type} {files : List String} {l l' : Loading α}

theorem refl (l : Loading α) : RefusedOr files l l := .inl rfl

theorem bind {next next' : α → Loading β} (h : RefusedOr files l' l)
    (hnext : ∀ a, RefusedOr files (next' a) (next a)) :
    RefusedOr files (l' >>= next') (l >>= next) := by
  rcases h with rfl | ⟨p, hp, hl⟩
  · cases hr : l'.result with
    | error f =>
      rw [Loading.bind_of_error hr, Loading.bind_of_error hr]
      exact .refl _
    | ok a =>
      rw [Loading.bind_of_ok hr, Loading.bind_of_ok hr]
      rcases hnext a with ha | ⟨p, hp, ha⟩
      · rw [ha]
        exact .refl _
      · exact .inr ⟨p, hp, ha⟩
  · rw [Loading.bind_of_error hl]
    exact .inr ⟨p, hp, rfl⟩

theorem eq_of_ok {a : α} (h : RefusedOr files l' l) (ha : l'.result = .ok a) : l' = l := by
  rcases h with h | ⟨p, -, hl⟩
  · exact h
  · cases ha.symm.trans hl

end RefusedOr

/-- More files in work make no difference but to refuse imports of them. -/
theorem draft_refusedOr (lib : Library) (root : Path) (extra stack : List String) (source : String) :
    RefusedOr extra (draft lib root (stack ++ extra) source) (draft lib root stack source) := by
  -- the two runs go on side by side; the files that they add to those in work are the same
  refine draft.induct lib root
    (fun stack source =>
      RefusedOr extra (draft lib root (stack ++ extra) source) (draft lib root stack source))
    (fun stack bases is =>
      RefusedOr extra (inheritedBlocks lib root (stack ++ extra) bases is)
        (inheritedBlocks lib root stack bases is))
    ?_ ?_ ?_ ?_ ?_ ?_ ?_ stack source
  · intro stack source f hs
    rw [draft, draft, hs]
    exact .refl _
  · intro stack source s hs ih
    rw [draft, draft, hs]
    exact ih.bind fun _ => .refl _
  · intro stack bases
    rw [inheritedBlocks, inheritedBlocks]
    exact .refl _
  · intro stack bases i is hi path hp
    rw [inheritedBlocks_cons_of_isBase hi, inheritedBlocks_cons_of_isBase hi, if_pos hp,
      if_pos (List.mem_append_left extra hp)]
    exact .refl _
  · intro stack bases i is hi path hp cause hr
    rw [inheritedBlocks_cons_of_isBase hi, inheritedBlocks_cons_of_isBase hi, if_neg hp]
    by_cases hextra : path ∈ extra
    · rw [if_pos (List.mem_append_right stack hextra)]
      exact .inr ⟨path, hextra, rfl⟩
    · rw [if_neg (by simpa using ⟨hp, hextra⟩), hr]
      exact .refl _
  · intro stack bases i is hi path hp text hr _ ihd ihs
    rw [inheritedBlocks_cons_of_isBase hi, inheritedBlocks_cons_of_isBase hi, if_neg hp]
    by_cases hextra : path ∈ extra
    · rw [if_pos (List.mem_append_right stack hextra)]
      exact .inr ⟨path, hextra, rfl⟩
    · rw [if_neg (by simpa using ⟨hp, hextra⟩), hr]
      refine RefusedOr.bind (.refl _) fun _ => ?_
      exact ihd.bind fun _ => ihs.bind fun _ => .refl _
  · intro stack bases i is hi ih
    have hi' : i.isBase bases = false := by simpa using hi
    rw [inheritedBlocks_cons_of_not_isBase hi', inheritedBlocks_cons_of_not_isBase hi']
    exact ih

theorem generateAmid_refusedOr (lib : Library) (options : Options) (stack : List String)
    (source : String) :
    RefusedOr stack (generateAmid lib options stack source) (generate lib options source) := by
  have hdraft := draft_refusedOr lib options.importRoot stack [] source
  rw [List.nil_append] at hdraft
  exact hdraft.bind fun _ => .refl _

/-- The imports that are bases, each with the stubs that its file gives on its own. -/
def BlocksAlone (lib : Library) (root : Path) : List Import → List String → Prop :=
  List.Forall₂ fun i block => ∃ text, lib.read (i.target root) = .ok text ∧
    (generate lib ⟨root, true⟩ text).result = .ok block

/-- The blocks that a run takes over are those that the files give on their own, less the empty
ones. -/
theorem inheritedBlocks_alone {lib : Library} {root : Path} {stack bases : List String}
    {is : List Import} {blocks : List String}
    (h : (inheritedBlocks lib root stack bases is).result = .ok blocks) :
    ∃ all, BlocksAlone lib root (is.filter (·.isBase bases)) all ∧ blocks = all.filter (· ≠ "") := by
  induction is generalizing blocks with
  | nil =>
    rw [inheritedBlocks_nil] at h
    cases h
    exact ⟨[], List.Forall₂.nil, rfl⟩
  | cons i is ih =>
    by_cases hi : i.isBase bases = true
    · obtain ⟨-, text, hr, d, hd, rest, hrest, rfl⟩ := (inheritedBlocks_cons_ok_iff hi).1 h
      obtain ⟨all, hall, rfl⟩ := ih hrest
      have hamid : (generateAmid lib ⟨root, true⟩ (i.target root :: stack) text).result =
          .ok d.stubs := by
        rw [generateAmid, Loading.result_bind_eq_ok_iff]
        exact ⟨d, hd, rfl⟩
      rw [(generateAmid_refusedOr _ _ _ _).eq_of_ok hamid] at hamid
      refine ⟨d.stubs :: all, ?_, ?_⟩
      · simp only [hi, List.filter_cons_of_pos]
        exact List.Forall₂.cons ⟨text, hr, hamid⟩ hall
      · by_cases he : d.stubs = "" <;> simp [he]
    · have hi' : i.isBase bases = false := by simpa using hi
      rw [inheritedBlocks_cons_of_not_isBase hi'] at h
      simpa [hi'] using ih h

/-- Files in work can only refuse an import of one of them as cyclic. A run that succeeds is the run
without them, and each import that it resolves contributes what its file gives on its own. -/
theorem generateAmid_compositional (lib : Library) (options : Options) (stack : List String)
    (source : String) :
    (∀ t, (generateAmid lib options stack source).result = .ok t →
      (generate lib options source).result = .ok t ∧
      (generate lib options source).loads = (generateAmid lib options stack source).loads) ∧
    (∀ t, (generate lib options source).result = .ok t →
      (generateAmid lib options stack source).result = .ok t ∨
      ∃ p ∈ stack, (generateAmid lib options stack source).result = .error (.cyclicImport p)) ∧
    (∀ t, (generateAmid lib options stack source).result = .ok t →
      ∃ s blocks, Surface.ofSource source = .ok s ∧
        BlocksAlone lib options.importRoot (s.imports.filter (·.isBase s.contract.bases)) blocks ∧
        t = if options.stubsOnly then (s.draft source (blocks.filter (· ≠ ""))).stubs
          else (s.draft source (blocks.filter (· ≠ ""))).interface) := by
  have hrefused := generateAmid_refusedOr lib options stack source
  refine ⟨?_, ?_, ?_⟩
  · intro t ht
    rw [← hrefused.eq_of_ok ht]
    exact ⟨ht, rfl⟩
  · intro t ht
    rcases hrefused with heq | hcyclic
    · exact .inl (heq ▸ ht)
    · exact .inr hcyclic
  · intro t ht
    rw [hrefused.eq_of_ok ht] at ht
    obtain ⟨d, hd, rfl⟩ := generate_ok_iff.1 ht
    obtain ⟨s, taken, hs, htaken, rfl⟩ := draft_ok_iff.1 hd
    obtain ⟨blocks, hblocks, rfl⟩ := inheritedBlocks_alone htaken
    exact ⟨s, blocks, hs, hblocks, rfl⟩

end SolidityStubs
