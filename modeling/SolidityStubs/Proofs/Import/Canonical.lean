import SolidityStubs.Proofs.Import.Chain
import SolidityStubs.Proofs.Import.Location

/-! # Canonical paths

A canonical path goes up at most once, before all of its names, and is written with single slashes.
Normalization leads to such a path and leaves it as it is. So files in work that are told apart by
their texts are told apart as paths.
-/
namespace SolidityStubs

def IsFileName (name : String) : Prop :=
  name ≠ "" ∧ name ≠ "." ∧ name ≠ ".." ∧ '/' ∉ name.toList

/-- The text of a canonical path: a slash if it starts at the root, and then pieces with single
slashes between them, at most one that leads up and names behind it. -/
def IsCanonical (text : String) : Prop :=
  ∃ (rooted : Bool) (ups : Nat) (names : List String), ups ≤ 1 ∧
    (∀ name ∈ names, IsFileName name) ∧
    text = (if rooted then "/" else "") ++ "/".intercalate (List.replicate ups ".." ++ names)

theorem isFileName_iff {name : String} :
    IsFileName name ↔ Step.ofPiece? name.toList = some (.name name) ∧ '/' ∉ name.toList := by
  have hempty : name.toList = [] ↔ name = "" := by rw [← String.toList_inj]; rfl
  have hdot : name.toList = ['.'] ↔ name = "." := by rw [← String.toList_inj]; rfl
  have hdots : name.toList = ['.', '.'] ↔ name = ".." := by rw [← String.toList_inj]; rfl
  simp only [IsFileName, Step.ofPiece?, hempty, hdot, hdots, String.ofList_toList]
  by_cases hnone : name = "" ∨ name = "."
  · rcases hnone with rfl | rfl <;> simp
  · by_cases hup : name = ".."
    · simp [hup]
    · simp_all

section Slashes

variable {cs : List Char} {pieces : List (List Char)}

theorem slashes_infix_of_append (hcs : '/' ∉ cs) {ds : List Char}
    (h : ['/', '/'] <:+: cs ++ ds) : ['/', '/'] <:+: ds := by
  induction cs with
  | nil => exact h
  | cons c cs ih =>
    rw [List.mem_cons, not_or] at hcs
    rw [List.cons_append, List.infix_cons_iff] at h
    rcases h with h | h
    · exact absurd (List.cons_prefix_cons.1 h).1 hcs.1
    · exact ih hcs.2 h

/-- Pieces that are not empty and have no slash inside keep the slashes between them apart, and the
text of them has no slash at its ends. -/
theorem slashes_intercalate (hpieces : ∀ p ∈ pieces, p ≠ [] ∧ '/' ∉ p) :
    (['/'].intercalate pieces).head? ≠ some '/' ∧ (['/'].intercalate pieces).getLast? ≠ some '/' ∧
      ¬ ['/', '/'] <:+: ['/'].intercalate pieces := by
  induction pieces with
  | nil => decide
  | cons p ps ih =>
    obtain ⟨⟨hne, hp⟩, hps⟩ := List.forall_mem_cons.1 hpieces
    obtain ⟨hhead, hlast, hinfix⟩ := ih hps
    obtain ⟨x, xs, rfl⟩ := List.exists_cons_of_ne_nil hne
    have hx : x ≠ '/' := fun h => hp (h ▸ List.mem_cons_self)
    cases ps with
    | nil =>
      rw [List.intercalate_singleton]
      exact ⟨by simpa using hx, fun h => hp (List.mem_of_mem_getLast? h),
        fun h => hp (h.subset (by simp))⟩
    | cons q qs =>
      rw [List.intercalate_cons_cons, List.append_assoc, List.singleton_append]
      obtain ⟨y, ys, hrest⟩ : ∃ y ys, ['/'].intercalate (q :: qs) = y :: ys := by
        obtain ⟨y, ys, rfl⟩ := List.exists_cons_of_ne_nil (hps q List.mem_cons_self).1
        cases qs <;> simp [List.intercalate_cons_cons]
      rw [hrest] at hhead hlast hinfix ⊢
      refine ⟨by simpa using hx, by simpa [List.getLast?_cons, List.getLast?_append] using hlast,
        fun h => ?_⟩
      have hslash := slashes_infix_of_append hp h
      rw [List.infix_cons_iff] at hslash
      rcases hslash with hslash | hslash
      · obtain ⟨-, hslash⟩ := List.cons_prefix_cons.1 hslash
        exact hhead (by rw [(List.cons_prefix_cons.1 hslash).1]; rfl)
      · exact hinfix hslash

end Slashes

namespace IsCanonical

variable {text : String}

theorem exists_pieces (h : IsCanonical text) :
    ∃ pieces : List (List Char), (∀ p ∈ pieces, p ≠ [] ∧ '/' ∉ p) ∧
      (text.toList = '/' :: ['/'].intercalate pieces ∨ text.toList = ['/'].intercalate pieces) := by
  obtain ⟨rooted, ups, names, -, hnames, rfl⟩ := h
  refine ⟨(List.replicate ups ".." ++ names).map String.toList, ?_, ?_⟩
  · rw [List.forall_mem_map, List.forall_mem_append]
    refine ⟨fun name hname => ?_, fun name hname => ?_⟩
    · rw [List.eq_of_mem_replicate hname]
      decide
    · obtain ⟨hne, -, -, hslash⟩ := hnames name hname
      exact ⟨by simpa using hne, hslash⟩
  · rw [String.toList_append, String.toList_intercalate]
    cases rooted with
    | false => exact .inr rfl
    | true => exact .inl rfl

theorem not_slashes_infix (h : IsCanonical text) : ¬ ['/', '/'] <:+: text.toList := by
  obtain ⟨pieces, hpieces, htext⟩ := h.exists_pieces
  obtain ⟨hhead, -, hinfix⟩ := slashes_intercalate hpieces
  rcases htext with htext | htext
  · rw [htext, List.infix_cons_iff]
    rintro (hslash | hslash)
    · obtain ⟨-, more, hmore⟩ := List.cons_prefix_cons.1 hslash
      exact hhead (by rw [← hmore]; rfl)
    · exact hinfix hslash
  · rwa [htext]

theorem eq_of_getLast? (h : IsCanonical text) (hlast : text.toList.getLast? = some '/') :
    text = "/" := by
  obtain ⟨pieces, hpieces, htext⟩ := h.exists_pieces
  obtain ⟨-, hend, -⟩ := slashes_intercalate hpieces
  rcases htext with htext | htext
  · cases hcs : ['/'].intercalate pieces with
    | nil =>
      rw [hcs] at htext
      exact String.toList_inj.1 htext
    | cons x xs =>
      rw [htext, hcs, List.getLast?_cons_cons, ← hcs] at hlast
      exact absurd hlast hend
  · rw [htext] at hlast
    exact absurd hlast hend

end IsCanonical

namespace Path

def normalText (text : String) : String := (ofString text).normalize.render

def Settled (p : Path) : Prop :=
  ∃ (ups : Nat) (names : List String), ups ≤ 1 ∧
    p.steps = List.replicate ups .up ++ names.map .name

theorem settled_normalize (p : Path) : p.normalize.Settled := by
  rw [normalize_eq]
  exact ⟨_, _, by omega, rfl⟩

theorem foldl_advance_names (taken : List Step) (names : List String) :
    (names.map .name).foldl advance taken = (names.map .name).reverse ++ taken := by
  induction names generalizing taken with
  | nil => rfl
  | cons name names ih =>
    have hstep : advance taken (.name name) = .name name :: taken := by cases taken <;> rfl
    rw [List.map_cons, List.foldl_cons, hstep, ih, List.reverse_cons, List.append_assoc]
    rfl

theorem Settled.normalize_eq {p : Path} (h : p.Settled) : p.normalize = p := by
  obtain ⟨ups, names, hups, hsteps⟩ := h
  have hups' : (List.replicate ups Step.up).foldl advance [] = List.replicate ups .up := by
    rcases Nat.le_one_iff_eq_zero_or_eq_one.1 hups with rfl | rfl <;> rfl
  rw [normalize, hsteps, List.foldl_append, hups', foldl_advance_names, List.reverse_append,
    List.reverse_reverse, List.reverse_replicate, ← hsteps]

theorem render_settled (rooted : Bool) (ups : Nat) (names : List String) :
    render ⟨rooted, List.replicate ups .up ++ names.map .name⟩ =
      (if rooted then "/" else "") ++ "/".intercalate (List.replicate ups ".." ++ names) := by
  have hnames : (names.map Step.name).map Step.text = names := by
    rw [List.map_map]
    exact List.map_id names
  rw [render, List.map_append, List.map_replicate, hnames]
  rfl

theorem Legible.isCanonical_render {p : Path} (hp : p.Legible) (h : p.Settled) :
    IsCanonical p.render := by
  obtain ⟨ups, names, hups, hsteps⟩ := h
  refine ⟨p.rooted, ups, names, hups, fun name hname => ?_, ?_⟩
  · exact isFileName_iff.2 (hp (.name name) (by simp [hsteps, hname]))
  · obtain ⟨rooted, steps⟩ := p
    cases hsteps
    exact render_settled rooted ups names

theorem isCanonical_normalText (text : String) : IsCanonical (normalText text) :=
  (legible_ofString text).normalize.isCanonical_render (settled_normalize _)

end Path

theorem IsCanonical.exists_path {text : String} (h : IsCanonical text) :
    ∃ p : Path, p.Legible ∧ p.Settled ∧ p.render = text := by
  obtain ⟨rooted, ups, names, hups, hnames, rfl⟩ := h
  refine ⟨⟨rooted, List.replicate ups .up ++ names.map .name⟩, ?_, ⟨ups, names, hups, rfl⟩, ?_⟩
  · intro step hstep
    rcases List.mem_append.1 hstep with hstep | hstep
    · rw [List.eq_of_mem_replicate hstep]
      decide
    · obtain ⟨name, hname, rfl⟩ := List.mem_map.1 hstep
      exact isFileName_iff.1 (hnames name hname)
  · exact Path.render_settled rooted ups names

/-- Canonical texts are those that normalization leaves as they are. -/
theorem isCanonical_iff {text : String} : IsCanonical text ↔ Path.normalText text = text := by
  constructor
  · intro h
    obtain ⟨p, hlegible, hsettled, rfl⟩ := h.exists_path
    rw [Path.normalText, hlegible.ofString_render, hsettled.normalize_eq]
  · intro h
    rw [← h]
    exact Path.isCanonical_normalText text

/-- Canonical texts are the same if they are the same as paths. -/
theorem IsCanonical.ofString_inj {text other : String} (h : IsCanonical text)
    (h' : IsCanonical other) :
    Path.ofString text = Path.ofString other ↔ text = other := by
  constructor
  · intro heq
    obtain ⟨p, hp, -, rfl⟩ := h.exists_path
    obtain ⟨q, hq, -, rfl⟩ := h'.exists_path
    rw [hp.ofString_render, hq.ofString_render] at heq
    rw [heq]
  · rintro rfl
    rfl

theorem Import.isCanonical_target (i : Import) (root : String) :
    IsCanonical (i.target (.ofString root)) :=
  ((Path.legible_ofString root).join (Path.legible_ofString i.path)).normalize.isCanonical_render
    (Path.settled_normalize _)

theorem Walk.Nested.isCanonical {lib : Library} {root source text : String} {stack : List String}
    {callers : List Walk.Frame}
    (h : Walk.Nested lib (.ofString root) source stack callers text) :
    ∀ p ∈ stack, IsCanonical p := by
  induction h with
  | start => simp
  | descend _ _ hasks _ _ ih =>
    obtain ⟨_, _, -, -, i, -, -, rfl⟩ := hasks
    exact List.forall_mem_cons.2 ⟨i.isCanonical_target root, ih⟩

/-- The normal form of a path is canonical: no slash in it follows another one, it ends with a slash
only if it is the root, and it is its own normal form. The files in work and the file of an import
are canonical, so that the import finds its file among them exactly if it finds it as a path. -/
theorem normalize_canonical (text : String) :
    IsCanonical (Path.normalText text) ∧
    ¬ ['/', '/'] <:+: (Path.normalText text).toList ∧
    ((Path.normalText text).toList.getLast? = some '/' → Path.normalText text = "/") ∧
    (Path.ofString text).normalize.normalize = (Path.ofString text).normalize ∧
    Path.normalText (Path.normalText text) = Path.normalText text ∧
    (IsCanonical text ↔ Path.normalText text = text) ∧
    ∀ lib root source s, Walk.Runs lib (.ofString root) (.start source) s → ∀ i : Import,
      (∀ p ∈ i.target (.ofString root) :: s.stack, IsCanonical p) ∧
      (i.target (.ofString root) ∈ s.stack ↔
        Path.ofString (i.target (.ofString root)) ∈ s.stack.map Path.ofString) := by
  have hcanonical := Path.isCanonical_normalText text
  refine ⟨hcanonical, hcanonical.not_slashes_infix, hcanonical.eq_of_getLast?,
    (Path.settled_normalize _).normalize_eq, isCanonical_iff.1 hcanonical, isCanonical_iff, ?_⟩
  intro lib root source s hs i
  obtain ⟨_, hnested, -⟩ := (hs.linked Walk.linked_start).nested
  have htarget := i.isCanonical_target root
  refine ⟨List.forall_mem_cons.2 ⟨htarget, hnested.isCanonical⟩, ?_⟩
  rw [List.mem_map]
  constructor
  · intro hmem
    exact ⟨_, hmem, rfl⟩
  · rintro ⟨p, hp, heq⟩
    rwa [← ((hnested.isCanonical p hp).ofString_inj htarget).1 heq]

/-- A way up that stays, and a file in work that another spelling of its path leads to. -/
theorem normalize_canonical_spellings :
    IsCanonical "../x/y.sol" ∧
    let source := "import\"B.sol\";contract A is B\x7b\x7d"
    let lib := Library.ofFiles [("../B.sol", "contract B\x7b\x7d")]
    let i : Import := ⟨"./b//../B.sol", ⟨0, 0⟩⟩
    ∃ s, Walk.Runs lib (.ofString "..") (.start source) s ∧ s.stack = ["../B.sol"] ∧
      i.target (.ofString "..") ∈ s.stack := by
  constructor
  · have hshape := (normalize_canonical "a/../..//x/./y.sol/").1
    have htext : Path.normalText "a/../..//x/./y.sol/" = "../x/y.sol" := by decide +kernel
    rwa [htext] at hshape
  · intro source lib i
    let b : Import := ⟨"B.sol", ⟨0, 14⟩⟩
    let surface : Surface := ⟨"", ⟨.contract, "A", ["B"], [], ⟨14, 31⟩⟩, [b]⟩
    have hs : Surface.ofSource source = .ok surface := by
      have hparse := Source.parse_eq_ok_of_parseWithin 12 source
        ⟨[.importing b, .contract surface.contract]⟩ (by decide +kernel)
      exact Surface.ofSource_eq_ok_iff.2 ⟨_, hparse, by decide +kernel⟩
    have htarget : b.target (.ofString "..") = "../B.sol" := by decide +kernel
    have hread : lib.read (b.target (.ofString "..")) = .ok "contract B\x7b\x7d" := by
      rw [htarget]
      rfl
    have hruns : Walk.Runs lib (.ofString "..") (.start source) _ :=
      .head (Walk.step_enter hs)
        (.single (Walk.step_descend rfl (by decide +kernel) (by simp) hread))
    have hpath :
        Path.ofString (i.target (.ofString "..")) = Path.ofString (b.target (.ofString "..")) := by
      decide +kernel
    refine ⟨_, hruns, by rw [htarget], ?_⟩
    obtain ⟨-, -, -, -, -, -, hwork⟩ := normalize_canonical ""
    refine (hwork lib ".." source _ hruns i).2.2 (List.mem_map.2 ⟨_, List.mem_singleton_self _, ?_⟩)
    exact hpath.symm

end SolidityStubs
