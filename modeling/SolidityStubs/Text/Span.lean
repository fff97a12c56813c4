/-! # Byte spans of a text

A position in a text is counted in bytes of its UTF-8 form, so a position may fall inside a
character. Cutting at such a position, or past the end, is refused.
-/
namespace SolidityStubs.Text

def byteLength : List Char → Nat
  | [] => 0
  | c :: cs => c.utf8Size + byteLength cs

def takeBytes : Nat → List Char → List Char
  | _, [] => []
  | n, c :: cs => if c.utf8Size ≤ n then c :: takeBytes (n - c.utf8Size) cs else []

def dropBytes? : Nat → List Char → Option (List Char)
  | 0, cs => some cs
  | _ + 1, [] => none
  | n + 1, c :: cs => if c.utf8Size ≤ n + 1 then dropBytes? (n + 1 - c.utf8Size) cs else none

@[simp]
theorem byteLength_nil : byteLength [] = 0 := rfl

@[simp]
theorem byteLength_cons (c : Char) (cs : List Char) :
    byteLength (c :: cs) = c.utf8Size + byteLength cs := rfl

@[simp]
theorem byteLength_append (a b : List Char) :
    byteLength (a ++ b) = byteLength a + byteLength b := by
  induction a with
  | nil => simp
  | cons c cs ih => simp [ih]; omega

theorem takeBytes_append (a b : List Char) : takeBytes (byteLength a) (a ++ b) = a := by
  induction a with
  | nil =>
    cases b with
    | nil => rfl
    | cons c cs => simp [takeBytes, Nat.not_le.2 c.utf8Size_pos]
  | cons c cs ih => simp [takeBytes, ih]

theorem dropBytes?_append (a b : List Char) : dropBytes? (byteLength a) (a ++ b) = some b := by
  induction a with
  | nil => cases b <;> rfl
  | cons c cs ih =>
    obtain ⟨n, hn⟩ : ∃ n, byteLength (c :: cs) = n + 1 :=
      Nat.exists_eq_add_one.2 (by have := c.utf8Size_pos; simp; omega)
    have hle : c.utf8Size ≤ n + 1 := by rw [← hn]; simp
    have hsub : n + 1 - c.utf8Size = byteLength cs := by rw [← hn]; simp
    rw [hn, List.cons_append, dropBytes?, if_pos hle, hsub, ih]

theorem dropBytes?_eq_some_iff {n : Nat} {cs rest : List Char} :
    dropBytes? n cs = some rest ↔ ∃ a, cs = a ++ rest ∧ n = byteLength a := by
  constructor
  · intro h
    fun_induction dropBytes? n cs with
    | case1 cs => exact ⟨[], by simpa using h, rfl⟩
    | case2 => simp at h
    | case3 n c cs hle ih =>
      obtain ⟨a, rfl, ha⟩ := ih h
      exact ⟨c :: a, rfl, by simp; omega⟩
    | case4 => simp at h
  · rintro ⟨a, rfl, rfl⟩
    exact dropBytes?_append a rest

end SolidityStubs.Text

namespace SolidityStubs

/-- The bytes from `start` up to, not including, `stop`. -/
structure Span where
  start : Nat
  stop : Nat
deriving DecidableEq, Repr

namespace Span

/-- The text that the span covers. There is none if the span runs backwards, ends past the text or
has an end inside a character. -/
def slice? (span : Span) (source : String) : Option String :=
  if span.start ≤ span.stop then
    (Text.dropBytes? span.start source.toList).bind fun rest =>
      (Text.dropBytes? (span.stop - span.start) rest).map fun _ =>
        String.ofList (Text.takeBytes (span.stop - span.start) rest)
  else
    none

def slice (span : Span) (source : String) : String :=
  (span.slice? source).getD ""

/-- A span has a text exactly if the source splits in three where the span starts and stops. -/
theorem slice?_eq_some_iff {span : Span} {source text : String} :
    span.slice? source = some text ↔
      ∃ before after : List Char, source.toList = before ++ (text.toList ++ after) ∧
        span.start = Text.byteLength before ∧
        span.stop = Text.byteLength before + Text.byteLength text.toList := by
  obtain ⟨start, stop⟩ := span
  constructor
  · intro h
    by_cases hle : start ≤ stop
    · rw [slice?, if_pos hle, Option.bind_eq_some_iff] at h
      obtain ⟨rest, hrest, h⟩ := h
      obtain ⟨after, hafter, rfl⟩ := Option.map_eq_some_iff.1 h
      obtain ⟨before, hsource, hbefore⟩ := Text.dropBytes?_eq_some_iff.1 hrest
      obtain ⟨middle, rfl, hmiddle⟩ := Text.dropBytes?_eq_some_iff.1 hafter
      have hstop : stop - start = Text.byteLength middle := hmiddle
      refine ⟨before, after, ?_, hbefore, ?_⟩
      · simp only [hstop, Text.takeBytes_append, String.toList_ofList, hsource]
      · simp only [hstop, Text.takeBytes_append, String.toList_ofList] at hbefore ⊢
        omega
    · simp [slice?, hle] at h
  · rintro ⟨before, after, hsource, hstart, hstop⟩
    simp only at hstart hstop
    simp [slice?, hsource, hstart, hstop, Text.dropBytes?_append, Text.takeBytes_append]

end Span

end SolidityStubs
