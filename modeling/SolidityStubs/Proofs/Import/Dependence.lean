import SolidityStubs.Proofs.Import.Resolution
import SolidityStubs.Proofs.Source.Termination

/-! # What a run depends on

A run learns nothing of a library but the answers to what it asks for. So it goes the same way with
any library that gives the same answers there, whatever else the library holds.
-/
namespace SolidityStubs

namespace Library

/-- The library with another answer for one path: a text that was added or changed, or the reason why
there is none any more. -/
def put (lib : Library) (path : String) (content : Except ReadError String) : Library :=
  match content with
  | .ok text => { lib with files := (path, text) :: lib.files }
  | .error cause =>
    { files := lib.files.filter (·.1 ≠ path)
      fault := fun q => if q = path then cause else lib.fault q }

theorem lookup_filter_ne (files : List (String × String)) (path q : String) :
    (files.filter (·.1 ≠ path)).lookup q = if q = path then none else files.lookup q := by
  induction files with
  | nil => simp
  | cons f fs ih =>
    obtain ⟨p, text⟩ := f
    by_cases hp : p = path
    · subst hp
      rw [List.filter_cons_of_neg (by simp), ih]
      by_cases hq : q = p
      · rw [if_pos hq, if_pos hq]
      · have hne : (q == p) = false := by simpa using hq
        rw [if_neg hq, if_neg hq, List.lookup_cons, hne]
    · rw [List.filter_cons_of_pos (by simpa using hp), List.lookup_cons, List.lookup_cons, ih]
      by_cases hq : q = path
      · have hne : (q == p) = false := by simpa [hq] using Ne.symm hp
        rw [hne, if_pos hq]
      · rw [if_neg hq, if_neg hq]

theorem read_put (lib : Library) (path q : String) (content : Except ReadError String) :
    (lib.put path content).read q = if q = path then content else lib.read q := by
  cases content with
  | ok text =>
    by_cases hq : q = path
    · simp [put, read, hq]
    · have hne : (q == path) = false := by simpa using hq
      simp [put, read, List.lookup_cons, hq, hne]
  | error cause =>
    simp only [put, read, lookup_filter_ne]
    by_cases hq : q = path
    · simp [hq]
    · simp [hq]

end Library

/-- The run `l'` is `l`, as far as all files that `l` asks for are known. -/
def Repeats {α : Type} (known : String → Prop) (l' l : Loading α) : Prop :=
  (∀ p ∈ l.loads, known p) → l' = l

namespace Repeats

variable {α β : Type} {known : String → Prop} {l l' : Loading α}

theorem refl (l : Loading α) : Repeats known l l := fun _ => rfl

theorem bind {next next' : α → Loading β} (h : Repeats known l' l)
    (hnext : ∀ a, Repeats known (next' a) (next a)) :
    Repeats known (l' >>= next') (l >>= next) := by
  intro hknown
  cases hr : l.result with
  | error f =>
    rw [Loading.bind_of_error hr] at hknown
    rw [h hknown, Loading.bind_of_error hr, Loading.bind_of_error hr]
  | ok a =>
    rw [Loading.bind_of_ok hr] at hknown
    have hfirst : l' = l := by
      apply h
      intro p hp
      exact hknown p (List.mem_append_left _ hp)
    have hsecond : next' a = next a := by
      apply hnext a
      intro p hp
      exact hknown p (List.mem_append_right _ hp)
    rw [hfirst, Loading.bind_of_ok hr, Loading.bind_of_ok hr, hsecond]

theorem load {path : String} {next next' : Unit → Loading β}
    (h : known path → Repeats known (next' ()) (next ())) :
    Repeats known (Loading.load path >>= next') (Loading.load path >>= next) := by
  intro hknown
  rw [Loading.load_bind] at hknown
  have hnext : next' () = next () := by
    apply h (hknown path (by simp))
    intro p hp
    exact hknown p (List.mem_cons_of_mem _ hp)
  rw [Loading.load_bind, Loading.load_bind, hnext]

end Repeats

/-- A draft is the same in a library that answers the same on all files that the draft asks for. -/
theorem draft_repeats (lib lib' : Library) (root : Path) (stack : List String) (source : String) :
    Repeats (fun p => lib'.read p = lib.read p) (draft lib' root stack source)
      (draft lib root stack source) := by
  -- the recursion of `draft lib` carries the proof; `draft lib'` is only unfolded along with it
  refine draft.induct lib root
    (fun stack source => Repeats (fun p => lib'.read p = lib.read p) (draft lib' root stack source)
      (draft lib root stack source))
    (fun stack bases is => Repeats (fun p => lib'.read p = lib.read p)
      (inheritedBlocks lib' root stack bases is) (inheritedBlocks lib root stack bases is))
    ?_ ?_ ?_ ?_ ?_ ?_ ?_ stack source
  · intro stack source f hs
    rw [draft, draft, hs]
    exact .refl _
  · intro stack source s hs ih
    rw [draft, draft, hs]
    exact ih.bind fun _ => .refl _
  · intro stack bases
    rw [inheritedBlocks, inheritedBlocks]
    exact .refl _
  · intro stack bases i is hi path hp
    rw [inheritedBlocks_cons_of_isBase hi, inheritedBlocks_cons_of_isBase hi, if_pos hp, if_pos hp]
    exact .refl _
  · intro stack bases i is hi path hp cause hr
    rw [inheritedBlocks_cons_of_isBase hi, inheritedBlocks_cons_of_isBase hi, if_neg hp, if_neg hp]
    apply Repeats.load
    intro hknown
    rw [hknown, hr]
    exact .refl _
  · intro stack bases i is hi path hp text hr _ ihd ihs
    rw [inheritedBlocks_cons_of_isBase hi, inheritedBlocks_cons_of_isBase hi, if_neg hp, if_neg hp]
    apply Repeats.load
    intro hknown
    rw [hknown, hr]
    exact ihd.bind fun _ => ihs.bind fun _ => .refl _
  · intro stack bases i is hi ih
    have hi' : i.isBase bases = false := by simpa using hi
    rw [inheritedBlocks_cons_of_not_isBase hi', inheritedBlocks_cons_of_not_isBase hi']
    exact ih

theorem generate_repeats (lib lib' : Library) (options : Options) (source : String) :
    Repeats (fun p => lib'.read p = lib.read p) (generate lib' options source)
      (generate lib options source) :=
  (draft_repeats lib lib' options.importRoot [] source).bind fun _ => .refl _

/-- A run comes to the same result past the same files in any library that answers the same on the
files that it asked for. So a file that it did not ask for may be added, removed or changed. -/
theorem generate_depends_on_loads (lib : Library) (options : Options) (source : String) :
    (∀ lib' : Library,
      (∀ p ∈ (generate lib options source).loads, lib'.read p = lib.read p) →
        (generate lib' options source).result = (generate lib options source).result ∧
        (generate lib' options source).loads = (generate lib options source).loads) ∧
    ∀ path content, path ∉ (generate lib options source).loads →
      generate (lib.put path content) options source = generate lib options source := by
  constructor
  · intro lib' h
    rw [generate_repeats lib lib' options source h]
    exact ⟨rfl, rfl⟩
  · intro path content hpath
    apply generate_repeats
    intro p hp
    have hne : p ≠ path := fun heq => hpath (heq ▸ hp)
    rw [Library.read_put, if_neg hne]

/-- An import that is no base leads to a file that only one of the two libraries has. -/
theorem generate_depends_on_loads_stray :
    let source := "import\"B.sol\";import\"C.sol\";contract A is B\x7b\x7d"
    let lib := Library.ofFiles [("B.sol", "contract B\x7bfunction g()\x7b\x7d\x7d")]
    let lib' := lib.put "C.sol" (.ok "\x7d")
    (generate lib ⟨.ofString ".", true⟩ source).loads = ["B.sol"] ∧
      lib.read "C.sol" = .error .notFound ∧ lib'.read "C.sol" = .ok "\x7d" ∧
      (generate lib' ⟨.ofString ".", true⟩ source).result =
        .ok "  // inherited\n  function g();" := by
  intro source lib lib'
  let text := "contract B\x7bfunction g()\x7b\x7d\x7d"
  let b : Contract := ⟨.contract, "B", [], [.function ⟨.function, some "g", [], ⟨21, 23⟩, [],
    ⟨11, 25⟩⟩], ⟨0, 26⟩⟩
  let a : Contract := ⟨.contract, "A", ["B"], [], ⟨28, 45⟩⟩
  let is : List Import := [⟨"B.sol", ⟨0, 14⟩⟩, ⟨"C.sol", ⟨14, 28⟩⟩]
  have hparse := Source.parse_eq_ok_of_parseWithin 12 source
    ⟨[.importing ⟨"B.sol", ⟨0, 14⟩⟩, .importing ⟨"C.sol", ⟨14, 28⟩⟩, .contract a]⟩
    (by decide +kernel)
  have hparseBase := Source.parse_eq_ok_of_parseWithin 12 text ⟨[.contract b]⟩ (by decide +kernel)
  have hs : Surface.ofSource source = .ok ⟨"", a, is⟩ :=
    Surface.ofSource_eq_ok_iff.2 ⟨_, hparse, by decide +kernel⟩
  have hsBase : Surface.ofSource text = .ok ⟨"", b, []⟩ :=
    Surface.ofSource_eq_ok_iff.2 ⟨_, hparseBase, by decide +kernel⟩
  have hrun : generate lib ⟨.ofString ".", true⟩ source =
      ⟨["B.sol"], .ok "  // inherited\n  function g();"⟩ := by
    have htarget : Import.target ⟨"B.sol", ⟨0, 14⟩⟩ (.ofString ".") = "B.sol" := by decide +kernel
    have hread : lib.read "B.sol" = .ok text := rfl
    have hbase : draft lib (.ofString ".") ["B.sol"] text =
        ⟨[], .ok (Surface.draft ⟨"", b, []⟩ text [])⟩ := by
      rw [draft, hsBase]
      dsimp only
      rw [inheritedBlocks]
      rfl
    have hstubs : (Surface.draft ⟨"", b, []⟩ text []).stubs = "  function g();" := by decide +kernel
    have hblocks : inheritedBlocks lib (.ofString ".") [] ["B"] is =
        ⟨["B.sol"], .ok ["  function g();"]⟩ := by
      rw [inheritedBlocks_cons_of_isBase (by decide +kernel), htarget, if_neg (by simp), hread]
      dsimp only
      rw [hbase, inheritedBlocks_cons_of_not_isBase (by decide +kernel), inheritedBlocks,
        Loading.load_bind, Loading.bind_of_ok rfl, hstubs]
      rfl
    have htext : (Surface.draft ⟨"", a, is⟩ source ["  function g();"]).stubs =
        "  // inherited\n  function g();" := by decide +kernel
    rw [generate, generateAmid, draft, hs]
    dsimp only
    rw [hblocks, Loading.bind_of_ok rfl, Loading.bind_of_ok rfl, htext]
    rfl
  have hstray : "C.sol" ∉ (generate lib ⟨.ofString ".", true⟩ source).loads := by
    rw [hrun]
    decide
  refine ⟨by rw [hrun], rfl, rfl, ?_⟩
  rw [(generate_depends_on_loads lib ⟨.ofString ".", true⟩ source).2 "C.sol" _ hstray, hrun]

end SolidityStubs
