import SolidityStubs.Proofs.Peg.Progress
import SolidityStubs.Source.Trivia

/-! # Padding

`trivium?` passes at least one character and `skip` passes pieces of padding until none is left.
-/
namespace SolidityStubs.Source

open Peg (Cursor)

theorem isSpace_of_isLineEnd {x : Char} (h : isLineEnd x = true) : isSpace x = true := by
  simp only [isLineEnd, Bool.or_eq_true, beq_iff_eq] at h
  rcases h with rfl | rfl <;> decide

theorem lineEnd_passes (n : Nat) (cs : List Char) :
    ∃ as, Cursor.Passes ⟨n, cs⟩ as (lineEnd n cs) := by
  induction cs generalizing n with
  | nil => exact ⟨[], .refl _⟩
  | cons c cs ih =>
    by_cases hc : isLineEnd c = true
    · exact ⟨[], by simpa [lineEnd, hc] using Cursor.Passes.refl ⟨n, c :: cs⟩⟩
    · obtain ⟨as, has⟩ := ih (n + c.utf8Size)
      have hone : Cursor.Passes ⟨n, c :: cs⟩ [c] ⟨n + c.utf8Size, cs⟩ := ⟨rfl, by simp⟩
      exact ⟨_, by simpa [lineEnd, hc] using hone.trans has⟩

theorem blockEnd?_passes {n : Nat} {cs : List Char} {d : Cursor} (h : blockEnd? n cs = some d) :
    ∃ as, Cursor.Passes ⟨n, cs⟩ as d := by
  fun_induction blockEnd? n cs with
  | case1 => simp at h
  | case2 n cs =>
    cases h
    exact ⟨['*', '/'], rfl, by simp; rfl⟩
  | case3 n c cs _ ih =>
    obtain ⟨as, has⟩ := ih h
    have hone : Cursor.Passes ⟨n, c :: cs⟩ [c] ⟨n + c.utf8Size, cs⟩ := ⟨rfl, by simp⟩
    exact ⟨_, hone.trans has⟩

theorem utf8Size_of_isSpace {c : Char} (h : isSpace c = true) : c.utf8Size = 1 := by
  simp only [isSpace, Bool.or_eq_true, beq_iff_eq] at h
  rcases h with ((rfl | rfl) | rfl) | rfl <;> rfl

theorem trivium?_passes {c d : Cursor} (h : trivium? c = some d) :
    ∃ x xs, c.Passes (x :: xs) d := by
  fun_cases trivium? c with
  | case1 => simp [trivium?] at h
  | case2 n cs =>
    simp only [trivium?, Option.some.injEq] at h
    obtain ⟨as, has⟩ := lineEnd_passes (n + 2) cs
    have hopen : Cursor.Passes ⟨n, '/' :: '/' :: cs⟩ ['/', '/'] ⟨n + 2, cs⟩ := ⟨rfl, by simp; rfl⟩
    exact ⟨'/', '/' :: as, h ▸ hopen.trans has⟩
  | case3 n cs =>
    simp only [trivium?] at h
    obtain ⟨as, has⟩ := blockEnd?_passes h
    have hopen : Cursor.Passes ⟨n, '/' :: '*' :: cs⟩ ['/', '*'] ⟨n + 2, cs⟩ := ⟨rfl, by simp; rfl⟩
    exact ⟨'/', '*' :: as, hopen.trans has⟩
  | case4 n c cs _ _ hc =>
    simp only [trivium?, hc, ↓reduceIte, Option.some.injEq] at h
    exact ⟨c, [], h ▸ ⟨rfl, by simp [utf8Size_of_isSpace hc]⟩⟩
  | case5 n c cs _ _ hc => simp [trivium?, hc] at h

theorem trivium?_length_lt {c d : Cursor} (h : trivium? c = some d) :
    d.rest.length < c.rest.length := by
  obtain ⟨x, xs, hp⟩ := trivium?_passes h
  simp only [hp.1, List.length_append, List.length_cons]
  omega

theorem skipWithin_of_none {budget : List Char} {c : Cursor} (h : trivium? c = none) :
    skipWithin budget c = c := by
  cases budget <;> simp [skipWithin, h]

/-- Passing padding does not depend on how large a sufficient budget is. -/
theorem skipWithin_eq {budget budget' : List Char} {c : Cursor} (h : c.rest.length ≤ budget.length)
    (h' : c.rest.length ≤ budget'.length) : skipWithin budget c = skipWithin budget' c := by
  cases hc : trivium? c with
  | none => rw [skipWithin_of_none hc, skipWithin_of_none hc]
  | some d =>
    have hlt := trivium?_length_lt hc
    induction budget generalizing budget' c d with
    | nil =>
      simp only [List.length_nil] at h
      omega
    | cons _ budget ih =>
      cases budget' with
      | nil =>
        simp only [List.length_nil] at h'
        omega
      | cons _ budget' =>
        simp only [List.length_cons] at h h'
        simp only [skipWithin, hc]
        cases hd : trivium? d with
        | none => rw [skipWithin_of_none hd, skipWithin_of_none hd]
        | some e => exact ih (by omega) (by omega) e hd (trivium?_length_lt hd)

theorem skip_of_none {c : Cursor} (h : trivium? c = none) : skip c = c :=
  skipWithin_of_none h

theorem skip_of_some {c d : Cursor} (h : trivium? c = some d) : skip c = skip d := by
  have hlt := trivium?_length_lt h
  obtain ⟨n, cs⟩ := c
  cases cs with
  | nil => simp at hlt
  | cons x xs =>
    simp only [List.length_cons] at hlt
    simp only [skip, skipWithin, h]
    exact skipWithin_eq (by omega) (Nat.le_refl _)

theorem skip_induction {P : Cursor → Prop} (stop : ∀ c, trivium? c = none → P c)
    (step : ∀ c d, trivium? c = some d → P d → P c) (c : Cursor) : P c := by
  generalize hn : c.rest.length = n
  induction n using Nat.strongRecOn generalizing c with
  | ind n ih =>
    cases hc : trivium? c with
    | none => exact stop c hc
    | some d =>
      have hlt := trivium?_length_lt hc
      exact step c d hc (ih _ (by omega) d rfl)

theorem skip_passes (c : Cursor) : ∃ cs, c.Passes cs (skip c) := by
  induction c using skip_induction with
  | stop c h => exact ⟨[], by rw [skip_of_none h]; exact .refl c⟩
  | step c d h ih =>
    obtain ⟨x, xs, hp⟩ := trivium?_passes h
    obtain ⟨cs, hcs⟩ := ih
    rw [skip_of_some h]
    exact ⟨_, hp.trans hcs⟩

@[simp]
theorem trivium?_skip (c : Cursor) : trivium? (skip c) = none := by
  induction c using skip_induction with
  | stop c h => rw [skip_of_none h, h]
  | step c d h ih => rw [skip_of_some h, ih]

@[simp]
theorem skip_skip (c : Cursor) : skip (skip c) = skip c :=
  skip_of_none (trivium?_skip c)

end SolidityStubs.Source
