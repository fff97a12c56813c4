import Mathlib.Logic.Relation
import SolidityStubs.Proofs.Import.Unfolding

/-! # When imports can be resolved

A source asks for the files that its contract inherits from, and so does each of these files. The
files in work are a path through this graph, so they refuse exactly the files that lie on a cycle.
-/
namespace SolidityStubs

open Relation (ReflTransGen TransGen)

def HasContract (source : String) : Prop :=
  ∃ u, Source.parse source = .ok u ∧ ∃ c ∈ u.contracts, c.kind = .contract

/-- The source can be read, and an import of it that leads to `q` goes by the name of a base of its
first contract. -/
def Asks (root : Path) (source q : String) : Prop :=
  ∃ u c, Source.parse source = .ok u ∧ u.contracts.find? (·.kind == .contract) = some c ∧
    ∃ i ∈ u.imports, (∃ base ∈ c.bases, i.stem? = some base) ∧ q = i.target root

def Edge (lib : Library) (root : Path) (p q : String) : Prop :=
  ∃ text, lib.read p = .ok text ∧ Asks root text q

def Reaches (lib : Library) (root : Path) (source q : String) : Prop :=
  ∃ p, Asks root source p ∧ ReflTransGen (Edge lib root) p q

/-- The source and all files that it reaches have a contract, and none of these files reaches
itself. -/
structure Resolvable (lib : Library) (root : Path) (source : String) : Prop where
  hasContract : HasContract source
  served : ∀ q, Reaches lib root source q → ∃ text, lib.read q = .ok text ∧ HasContract text
  acyclic : ∀ q, Reaches lib root source q → ¬ TransGen (Edge lib root) q q

variable {lib : Library} {root : Path} {source : String}

theorem Surface.ofSource_eq_ok_iff {s : Surface} :
    Surface.ofSource source = .ok s ↔
      ∃ u, Source.parse source = .ok u ∧ Surface.locate? u source = some s := by
  unfold Surface.ofSource
  cases Source.parse source with
  | error e => simp
  | ok u => cases h : Surface.locate? u source <;> simp [h]

theorem hasContract_iff : HasContract source ↔ ∃ s, Surface.ofSource source = .ok s := by
  simp only [HasContract, Surface.ofSource_eq_ok_iff]
  rw [exists_comm]
  refine exists_congr fun u => ?_
  rw [exists_and_left]
  refine and_congr_right fun _ => ?_
  rw [← Option.isSome_iff_exists, Surface.locate?, Option.isSome_map, List.find?_isSome]
  simp

theorem asks_iff {s : Surface} (hs : Surface.ofSource source = .ok s) {q : String} :
    Asks root source q ↔
      ∃ i ∈ s.imports, i.isBase s.contract.bases = true ∧ q = i.target root := by
  obtain ⟨u, hu, hlocate⟩ := Surface.ofSource_eq_ok_iff.1 hs
  obtain ⟨c, hc, rfl⟩ := Option.map_eq_some_iff.1 hlocate
  simp only [Asks, hu, Except.ok.injEq, exists_and_left, exists_eq_left', hc, Option.some.injEq,
    Import.isBase, Option.any_eq_true, List.contains_iff_mem, and_comm]

theorem transGen_iff_reaches {p q text : String} (hp : lib.read p = .ok text) :
    TransGen (Edge lib root) p q ↔ Reaches lib root text q := by
  rw [Relation.TransGen.head'_iff]
  refine exists_congr fun r => and_congr_left fun _ => ?_
  simp [Edge, hp]

/-- The file `q` can be taken over while the files in `stack` are in work, and so can all that it
leads to, as far as this shows at `q`. -/
structure Admits (lib : Library) (root : Path) (stack : List String) (q : String) : Prop where
  notInWork : q ∉ stack
  served : ∃ text, lib.read q = .ok text ∧ HasContract text
  acyclic : ¬ TransGen (Edge lib root) q q

/-- A file and all that it reaches are admitted if its text has a contract and all that the text
reaches is admitted while the file is in work. -/
theorem admits_cons_iff {stack : List String} {p text : String} (hp : p ∉ stack)
    (hr : lib.read p = .ok text) :
    (HasContract text ∧ ∀ q, Reaches lib root text q → Admits lib root (p :: stack) q) ↔
      ∀ q, ReflTransGen (Edge lib root) p q → Admits lib root stack q := by
  constructor
  · rintro ⟨hcontract, hall⟩ q hq
    rcases Relation.reflTransGen_iff_eq_or_transGen.1 hq with rfl | hq
    · refine ⟨hp, ⟨text, hr, hcontract⟩, fun hcycle => ?_⟩
      exact (hall q ((transGen_iff_reaches hr).1 hcycle)).notInWork (by simp)
    · have hadmits := hall q ((transGen_iff_reaches hr).1 hq)
      exact ⟨fun h => hadmits.notInWork (List.mem_cons_of_mem _ h), hadmits.served,
        hadmits.acyclic⟩
  · intro hall
    have hself := hall p .refl
    obtain ⟨text', hr', hcontract⟩ := hself.served
    cases hr.symm.trans hr'
    refine ⟨hcontract, fun q hq => ?_⟩
    have htrans := (transGen_iff_reaches hr).2 hq
    have hadmits := hall q htrans.to_reflTransGen
    refine ⟨fun h => ?_, hadmits.served, hadmits.acyclic⟩
    rcases List.mem_cons.1 h with rfl | h
    · exact hself.acyclic htrans
    · exact hadmits.notInWork h

/-- There is a draft exactly if the source has a contract and all files that it reaches are
admitted. -/
theorem draft_succeeds_iff (stack : List String) (source : String) :
    (∃ d, (draft lib root stack source).result = .ok d) ↔
      HasContract source ∧ ∀ q, Reaches lib root source q → Admits lib root stack q := by
  refine draft.induct lib root
    (fun stack source => (∃ d, (draft lib root stack source).result = .ok d) ↔
      HasContract source ∧ ∀ q, Reaches lib root source q → Admits lib root stack q)
    (fun stack bases is => (∃ blocks, (inheritedBlocks lib root stack bases is).result = .ok blocks) ↔
      ∀ i ∈ is, i.isBase bases = true →
        ∀ q, ReflTransGen (Edge lib root) (i.target root) q → Admits lib root stack q)
    ?_ ?_ ?_ ?_ ?_ ?_ ?_ stack source
  · intro stack source f hs
    simp [draft_ok_iff, hasContract_iff, hs]
  · intro stack source s hs ih
    have hreaches : (∀ q, Reaches lib root source q → Admits lib root stack q) ↔
        ∀ i ∈ s.imports, i.isBase s.contract.bases = true →
          ∀ q, ReflTransGen (Edge lib root) (i.target root) q → Admits lib root stack q := by
      simp only [Reaches, asks_iff hs]
      grind
    rw [hreaches, ← ih]
    simp only [draft_ok_iff, hasContract_iff, hs]
    constructor
    · rintro ⟨_, s', blocks, hs', hblocks, -⟩
      cases hs'
      exact ⟨⟨s, rfl⟩, blocks, hblocks⟩
    · rintro ⟨-, blocks, hblocks⟩
      exact ⟨_, s, blocks, rfl, hblocks, rfl⟩
  · intro stack bases
    simp [inheritedBlocks_nil]
  · intro stack bases i is hi path hp
    simp only [inheritedBlocks_cons_ok_iff hi, List.forall_mem_cons]
    constructor
    · rintro ⟨_, hp', -⟩
      exact absurd hp hp'
    · rintro ⟨h, -⟩
      exact absurd hp (h hi path .refl).notInWork
  · intro stack bases i is hi path hp cause hr
    simp only [inheritedBlocks_cons_ok_iff hi, List.forall_mem_cons]
    constructor
    · rintro ⟨_, -, text, hr', -⟩
      cases hr.symm.trans hr'
    · rintro ⟨h, -⟩
      obtain ⟨text, hr', -⟩ := (h hi path .refl).served
      cases hr.symm.trans hr'
  · intro stack bases i is hi path hp text hr _ ihd ihs
    rw [List.forall_mem_cons, ← ihs, forall_prop_of_true hi, ← admits_cons_iff hp hr, ← ihd]
    simp only [inheritedBlocks_cons_ok_iff hi]
    constructor
    · rintro ⟨_, -, text', hr', d, hd, rest, hrest, -⟩
      cases hr.symm.trans hr'
      exact ⟨⟨d, hd⟩, rest, hrest⟩
    · rintro ⟨⟨d, hd⟩, rest, hrest⟩
      exact ⟨_, hp, text, hr, d, hd, rest, hrest, rfl⟩
  · intro stack bases i is hi ih
    have hi' : i.isBase bases = false := by simpa using hi
    rw [inheritedBlocks_cons_of_not_isBase hi', List.forall_mem_cons, ih]
    simp [hi']

theorem resolvable_iff :
    Resolvable lib root source ↔
      HasContract source ∧ ∀ q, Reaches lib root source q → Admits lib root [] q := by
  constructor
  · intro h
    exact ⟨h.hasContract, fun q hq => ⟨by simp, h.served q hq, h.acyclic q hq⟩⟩
  · rintro ⟨hcontract, h⟩
    exact ⟨hcontract, fun q hq => (h q hq).served, fun q hq => (h q hq).acyclic⟩

theorem generate_ok_iff {options : Options} {t : String} :
    (generate lib options source).result = .ok t ↔
      ∃ d, (draft lib options.importRoot [] source).result = .ok d ∧
        t = if options.stubsOnly then d.stubs else d.interface := by
  unfold generate generateAmid
  rw [Loading.result_bind_eq_ok_iff]
  refine exists_congr fun d => and_congr_right fun _ => ?_
  rw [Loading.result_pure, Except.ok.injEq, eq_comm]

/-- There is an interface exactly if the source and all files that it reaches have a contract and none
of these files reaches itself. Its stubs are then those of the outline of the source, of which there
is one. -/
theorem generate_resolves (lib : Library) (root : Path) (source : String) :
    (∀ stubsOnly, (∃ t, (generate lib ⟨root, stubsOnly⟩ source).result = .ok t) ↔
      Resolvable lib root source) ∧
    (Resolvable lib root source → ∃ o : Outline, o.Unfolds lib root source ∧
      (∀ o' : Outline, o'.Unfolds lib root source → o' = o) ∧
      (generate lib ⟨root, true⟩ source).result = .ok o.text) := by
  constructor
  · intro stubsOnly
    rw [resolvable_iff, ← draft_succeeds_iff]
    constructor
    · rintro ⟨t, ht⟩
      obtain ⟨d, hd, -⟩ := generate_ok_iff.1 ht
      exact ⟨d, hd⟩
    · rintro ⟨d, hd⟩
      exact ⟨_, generate_ok_iff.2 ⟨d, hd, rfl⟩⟩
  · intro h
    obtain ⟨d, hd⟩ := (draft_succeeds_iff [] source).2 (resolvable_iff.1 h)
    obtain ⟨o, ho, hblock⟩ := outline_of_draft [] source hd
    refine ⟨o, ho, fun o' ho' => ho'.unique ho, generate_ok_iff.2 ⟨d, hd, ?_⟩⟩
    rw [if_pos rfl, Draft.stubs, hblock, o.render_block]

end SolidityStubs
