/-! # Libraries of sources

A library holds the texts that imports can find, each under its path, and says why any other path
cannot be read.
-/
namespace SolidityStubs

inductive ReadError
  | notFound
  | notADirectory
  | isADirectory
  | permissionDenied
  | nameTooLong
  | nulInName
  | invalidText
  | other (text : String)
deriving DecidableEq, Repr

namespace ReadError

def message : ReadError → String
  | .notFound => "No such file or directory (os error 2)"
  | .notADirectory => "Not a directory (os error 20)"
  | .isADirectory => "Is a directory (os error 21)"
  | .permissionDenied => "Permission denied (os error 13)"
  | .nameTooLong => "File name too long (os error 36)"
  | .nulInName => "file name contained an unexpected NUL byte"
  | .invalidText => "stream did not contain valid UTF-8"
  | .other text => text

end ReadError

structure Library where
  /-- Texts by path. The first text of a path counts. -/
  files : List (String × String)
  fault : String → ReadError

namespace Library

/-- A library in which every other path is absent. -/
def ofFiles (files : List (String × String)) : Library := ⟨files, fun _ => .notFound⟩

def read (lib : Library) (path : String) : Except ReadError String :=
  match lib.files.lookup path with
  | some text => .ok text
  | none => .error (lib.fault path)

def countOutside (lib : Library) (paths : List String) : Nat :=
  (lib.files.filter (! paths.contains ·.1)).length

theorem mem_files_of_read {lib : Library} {path text : String} (h : lib.read path = .ok text) :
    (path, text) ∈ lib.files := by
  unfold read at h
  split at h
  · rename_i found hfound
    cases h
    generalize lib.files = files at hfound
    induction files with
    | nil => simp at hfound
    | cons f fs ih =>
      obtain ⟨p, t⟩ := f
      by_cases hp : path = p
      · subst hp
        simp at hfound
        simp [hfound]
      · have hb : (path == p) = false := by simpa using hp
        rw [List.lookup_cons, hb] at hfound
        exact List.mem_cons_of_mem _ (ih hfound)
  · cases h

/-- Each file that is read for the first time leaves fewer to be read. -/
theorem countOutside_cons_lt {lib : Library} {path text : String} {paths : List String}
    (hp : path ∉ paths) (h : lib.read path = .ok text) :
    lib.countOutside (path :: paths) < lib.countOutside paths := by
  have hsplit : lib.files.filter (! (path :: paths).contains ·.1) =
      (lib.files.filter (! paths.contains ·.1)).filter (fun f => ! decide (f.1 = path)) := by
    rw [List.filter_filter]
    refine List.filter_congr fun f _ => ?_
    simp [Bool.not_or]
  rw [countOutside, countOutside, hsplit]
  refine List.length_filter_lt_length_iff_exists.2 ⟨(path, text), ?_, by simp⟩
  exact List.mem_filter.2 ⟨mem_files_of_read h, by simpa using hp⟩

end Library

end SolidityStubs
