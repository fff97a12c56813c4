import SolidityStubs.Proofs.Import.Resolution

/-! # Which file is to blame

A run asks for files one after the other and stops at the first that is at fault. So all files that
it asked for before are in order, and the failure is about the last one.
-/
namespace SolidityStubs

def InOrder (lib : Library) (path : String) : Prop :=
  ∃ text, lib.read path = .ok text ∧ HasContract text

/-- The file cannot be read, or there is no surface of its text, as the failure says. -/
inductive AtFault (lib : Library) (path : String) : Failure → Prop
  | unread {cause : ReadError} (h : lib.read path = .error cause) :
      AtFault lib path (.importRead path cause)
  | unfit {text : String} {f : Failure} (h : lib.read path = .ok text)
      (hf : Surface.ofSource text = .error f) : AtFault lib path f

/-- How a run that has asked for the files `loads` can end when the files in `stack` are in work:
well, at the last file, or at a file that is in work or was already asked for. -/
inductive Ends {α : Type} (lib : Library) (stack loads : List String) : Except Failure α → Prop
  | well {a : α} (h : ∀ p ∈ loads, InOrder lib p) : Ends lib stack loads (.ok a)
  | atLast {before : List String} {path : String} {f : Failure} (hloads : loads = before ++ [path])
      (h : ∀ p ∈ before, InOrder lib p) (hf : AtFault lib path f) : Ends lib stack loads (.error f)
  | inWork {path : String} (h : ∀ p ∈ loads, InOrder lib p) (hpath : path ∈ stack ∨ path ∈ loads) :
      Ends lib stack loads (.error (.cyclicImport path))

namespace Ends

variable {α β : Type} {lib : Library} {stack before loads : List String}

theorem prepend {r : Except Failure α} (h : Ends lib stack loads r)
    (hbefore : ∀ p ∈ before, InOrder lib p) : Ends lib stack (before ++ loads) r := by
  have hall : ∀ {ps : List String}, (∀ p ∈ ps, InOrder lib p) →
      ∀ p ∈ before ++ ps, InOrder lib p := fun hps p hp =>
    (List.mem_append.1 hp).elim (hbefore p) (hps p)
  cases h with
  | well h => exact .well (hall h)
  | atLast hloads h hf => exact .atLast (by rw [hloads, List.append_assoc]) (hall h) hf
  | inWork h hpath => exact .inWork (hall h) (hpath.imp_right (List.mem_append_right before))

theorem of_cons {path : String} {r : Except Failure α} (h : Ends lib (path :: stack) loads r)
    (hpath : InOrder lib path) : Ends lib stack (path :: loads) r := by
  have hone : ∀ p ∈ [path], InOrder lib p := by simpa using hpath
  cases h with
  | well h => exact prepend (.well h) hone
  | atLast hloads h hf => exact prepend (.atLast hloads h hf) hone
  | inWork h hmem =>
    refine .inWork (by simpa using ⟨hpath, h⟩) ?_
    rcases hmem with hmem | hmem
    · exact (List.mem_cons.1 hmem).elim (fun heq => .inr (by simp [heq])) .inl
    · exact .inr (List.mem_cons_of_mem _ hmem)

theorem bind {l : Loading α} {next : α → Loading β} (h : Ends lib stack l.loads l.result)
    (hnext : ∀ a, l.result = .ok a → Ends lib stack (next a).loads (next a).result) :
    Ends lib stack (l >>= next).loads (l >>= next).result := by
  cases hl : l.result with
  | error f =>
    rw [Loading.bind_of_error hl]
    rw [hl] at h
    cases h with
    | atLast hloads h hf => exact .atLast hloads h hf
    | inWork h hpath => exact .inWork h hpath
  | ok a =>
    rw [Loading.bind_of_ok hl]
    rw [hl] at h
    cases h with
    | well h => exact (hnext a hl).prepend h

/-- A file that is in order is asked for and worked on, and then the run goes on without it. -/
theorem load_bind {path : String} {l : Loading α} {next : α → Loading β}
    (h : Ends lib (path :: stack) l.loads l.result) (hpath : InOrder lib path)
    (hnext : ∀ a, Ends lib stack (next a).loads (next a).result) :
    Ends lib stack (Loading.load path >>= fun _ => l >>= next).loads
      (Loading.load path >>= fun _ => l >>= next).result := by
  have hassoc : (Loading.load path >>= fun _ => l >>= next) =
      (⟨path :: l.loads, l.result⟩ : Loading α) >>= next := by
    obtain ⟨loads, _ | _⟩ := l <;> rfl
  rw [hassoc]
  exact bind (h.of_cons hpath) fun a _ => hnext a

theorem pure (a : α) :
    Ends lib stack (Pure.pure a : Loading α).loads (Pure.pure a : Loading α).result :=
  .well (by simp)

end Ends

/-- A draft of a source without surface fails at once. Any other draft ends at the file at fault. -/
theorem draft_ends (lib : Library) (root : Path) (stack : List String) (source : String) :
    (∃ f, Surface.ofSource source = .error f ∧ draft lib root stack source = .fail f) ∨
    (HasContract source ∧
      Ends lib stack (draft lib root stack source).loads (draft lib root stack source).result) := by
  refine draft.induct lib root
    (fun stack source =>
      (∃ f, Surface.ofSource source = .error f ∧ draft lib root stack source = .fail f) ∨
      (HasContract source ∧
        Ends lib stack (draft lib root stack source).loads (draft lib root stack source).result))
    (fun stack bases is => Ends lib stack (inheritedBlocks lib root stack bases is).loads
      (inheritedBlocks lib root stack bases is).result)
    ?_ ?_ ?_ ?_ ?_ ?_ ?_ stack source
  · intro stack source f hs
    refine .inl ⟨f, hs, ?_⟩
    rw [draft, hs]
  · intro stack source s hs ih
    refine .inr ⟨hasContract_iff.2 ⟨s, hs⟩, ?_⟩
    rw [draft, hs]
    exact ih.bind fun _ _ => .pure _
  · intro stack bases
    rw [inheritedBlocks]
    exact .pure _
  · intro stack bases i is hi path hp
    rw [inheritedBlocks_cons_of_isBase hi, if_pos hp]
    exact .inWork (by simp [Loading.fail]) (.inl hp)
  · intro stack bases i is hi path hp cause hr
    rw [inheritedBlocks_cons_of_isBase hi, if_neg hp, hr]
    exact .atLast (List.nil_append [path]).symm (by simp) (.unread hr)
  · intro stack bases i is hi path hp text hr _ ihd ihs
    rw [inheritedBlocks_cons_of_isBase hi, if_neg hp, hr]
    rcases ihd with ⟨f, hf, hd⟩ | ⟨hcontract, hd⟩
    · have hfail : (draft lib root (i.target root :: stack) text).result = .error f := by
        rw [hd]
        rfl
      have hloads : (draft lib root (i.target root :: stack) text).loads = [] := by
        rw [hd]
        rfl
      simp only [Loading.load_bind, Loading.bind_of_error hfail, hloads]
      exact .atLast (List.nil_append [path]).symm (by simp) (.unfit hr hf)
    · exact Ends.load_bind hd ⟨text, hr, hcontract⟩ fun _ => ihs.bind fun _ _ => .pure _
  · intro stack bases i is hi ih
    have hi' : i.isBase bases = false := by simpa using hi
    rw [inheritedBlocks_cons_of_not_isBase hi']
    exact ih

theorem Surface.locate?_eq_none_iff {u : SourceUnit} (source : String) :
    Surface.locate? u source = none ↔ ∀ c ∈ u.contracts, c.kind ≠ .contract := by
  simp [Surface.locate?]

theorem Surface.ofSource_eq_error_iff {source : String} {f : Failure} :
    Surface.ofSource source = .error f ↔
      (∃ e, Source.parse source = .error e ∧ f = .malformed e) ∨
      (∃ u, Source.parse source = .ok u ∧ (∀ c ∈ u.contracts, c.kind ≠ .contract) ∧
        f = .missingContract) := by
  unfold Surface.ofSource
  cases Source.parse source with
  | error e => simp [eq_comm]
  | ok u =>
    simp only [reduceCtorEq, false_and, exists_false, false_or, Except.ok.injEq, exists_eq_left',
      ← Surface.locate?_eq_none_iff source]
    cases Surface.locate? u source <;> simp [eq_comm]

theorem Surface.not_import_of_ofSource {source : String} {f : Failure}
    (h : Surface.ofSource source = .error f) :
    (∀ path cause, f ≠ .importRead path cause) ∧ ∀ path, f ≠ .cyclicImport path := by
  rcases Surface.ofSource_eq_error_iff.1 h with ⟨e, -, rfl⟩ | ⟨u, -, -, rfl⟩ <;> simp

/-- The text is that of the last file asked for, or the source where no file was. All others have a
contract. -/
def IsLastText (lib : Library) (source : String) (loads : List String) (text : String) : Prop :=
  (loads = [] ∧ text = source) ∨
  (HasContract source ∧ ∃ before path, loads = before ++ [path] ∧ (∀ p ∈ before, InOrder lib p) ∧
    lib.read path = .ok text)

theorem generate_eq_of_draft (lib : Library) (options : Options) (source : String) :
    (generate lib options source).loads = (draft lib options.importRoot [] source).loads ∧
    ∀ f, (generate lib options source).result = .error f ↔
      (draft lib options.importRoot [] source).result = .error f := by
  unfold generate generateAmid
  cases h : (draft lib options.importRoot [] source).result with
  | error g => simp [Loading.bind_of_error h]
  | ok d => simp [Loading.bind_of_ok h]

/-- A failure of a run is about the last file that it asked for. -/
theorem generate_error_ends {lib : Library} {options : Options} {source : String} {f : Failure}
    (h : (generate lib options source).result = .error f) :
    (Surface.ofSource source = .error f ∧ (generate lib options source).loads = []) ∨
    (HasContract source ∧
      Ends (α := Draft) lib [] (generate lib options source).loads (.error f)) := by
  obtain ⟨hloads, herror⟩ := generate_eq_of_draft lib options source
  have hresult := (herror f).1 h
  rw [hloads]
  rcases draft_ends lib options.importRoot [] source with
    ⟨g, hg, hd⟩ | ⟨hcontract, hd⟩
  · rw [hd] at hresult ⊢
    cases hresult
    exact .inl ⟨hg, rfl⟩
  · exact .inr ⟨hcontract, hresult ▸ hd⟩

theorem isLastText_of_error {lib : Library} {options : Options} {source : String} {f : Failure}
    (h : (generate lib options source).result = .error f)
    (hread : ∀ path cause, f ≠ .importRead path cause) (hcyclic : ∀ path, f ≠ .cyclicImport path) :
    ∃ text, IsLastText lib source (generate lib options source).loads text ∧
      Surface.ofSource text = .error f := by
  rcases generate_error_ends h with ⟨hsource, hloads⟩ | ⟨hcontract, hends⟩
  · exact ⟨source, .inl ⟨hloads, rfl⟩, hsource⟩
  · cases hends with
    | inWork => exact absurd rfl (hcyclic _)
    | atLast hloads hbefore hfault =>
      cases hfault with
      | unread => exact absurd rfl (hread _ _)
      | unfit hr hf => exact ⟨_, .inr ⟨hcontract, _, _, hloads, hbefore, hr⟩, hf⟩

/-- A run stops at the first file at fault. If it succeeds, all files that it asked for are in order.
If it fails to read a file, that is the last one. If a text cannot be parsed or has no contract, that
is the text of the last file, or the source if there is none. If an import is cyclic, its file was
asked for before. All other files are in order. -/
theorem generate_stops_at_fault (lib : Library) (options : Options) (source : String) :
    (∀ t, (generate lib options source).result = .ok t →
      HasContract source ∧ ∀ p ∈ (generate lib options source).loads, InOrder lib p) ∧
    (∀ path cause, (generate lib options source).result = .error (.importRead path cause) →
      HasContract source ∧ lib.read path = .error cause ∧
      ∃ before, (generate lib options source).loads = before ++ [path] ∧
        ∀ p ∈ before, InOrder lib p) ∧
    (∀ e, (generate lib options source).result = .error (.malformed e) →
      ∃ text, IsLastText lib source (generate lib options source).loads text ∧
        Source.parse text = .error e) ∧
    ((generate lib options source).result = .error .missingContract →
      ∃ text, IsLastText lib source (generate lib options source).loads text ∧
        ∃ u, Source.parse text = .ok u ∧ ∀ c ∈ u.contracts, c.kind ≠ .contract) ∧
    (∀ path, (generate lib options source).result = .error (.cyclicImport path) →
      HasContract source ∧ (∀ p ∈ (generate lib options source).loads, InOrder lib p) ∧
      path ∈ (generate lib options source).loads) := by
  refine ⟨?_, ?_, ?_, ?_, ?_⟩
  · intro t ht
    obtain ⟨d, hd, -⟩ := generate_ok_iff.1 ht
    rw [(generate_eq_of_draft lib options source).1]
    rcases draft_ends lib options.importRoot [] source with
      ⟨f, -, hfail⟩ | ⟨hcontract, hends⟩
    · rw [hfail] at hd
      cases hd
    · rw [hd] at hends
      cases hends with
      | well hall => exact ⟨hcontract, hall⟩
  · intro path cause h
    rcases generate_error_ends h with ⟨hsource, -⟩ | ⟨hcontract, hends⟩
    · exact absurd rfl ((Surface.not_import_of_ofSource hsource).1 path cause)
    · cases hends with
      | atLast hloads hbefore hfault =>
        cases hfault with
        | unread hr => exact ⟨hcontract, hr, _, hloads, hbefore⟩
        | unfit _ hf => exact absurd rfl ((Surface.not_import_of_ofSource hf).1 path cause)
  · intro e h
    obtain ⟨text, hlast, hf⟩ := isLastText_of_error h (by simp) (by simp)
    rcases Surface.ofSource_eq_error_iff.1 hf with ⟨_, hparse, hf⟩ | ⟨_, -, -, hf⟩
    · cases hf
      exact ⟨text, hlast, hparse⟩
    · cases hf
  · intro h
    obtain ⟨text, hlast, hf⟩ := isLastText_of_error h (by simp) (by simp)
    rcases Surface.ofSource_eq_error_iff.1 hf with ⟨_, -, hf⟩ | ⟨u, hparse, hkind, -⟩
    · cases hf
    · exact ⟨text, hlast, u, hparse, hkind⟩
  · intro path h
    rcases generate_error_ends h with ⟨hsource, -⟩ | ⟨hcontract, hends⟩
    · exact absurd rfl ((Surface.not_import_of_ofSource hsource).2 path)
    · cases hends with
      | inWork hall hpath => exact ⟨hcontract, hall, by simpa using hpath⟩
      | atLast _ _ hfault =>
        cases hfault with
        | unfit _ hf => exact absurd rfl ((Surface.not_import_of_ofSource hf).2 path)

end SolidityStubs
