import SolidityStubs.Proofs.Peg.Progress

/-! # Nesting of nodes

The nodes of a reading lie one behind the other between its start and its stop, and so do the
children of each node between the start and the stop of the node. Every node is itself the reading of
its rule.
-/
namespace SolidityStubs.Peg

variable {ρ : Type} {g : Grammar ρ}

namespace Cursor

def Before (c d : Cursor) : Prop := ∃ cs, c.Passes cs d

theorem Before.refl (c : Cursor) : c.Before c := ⟨[], .refl c⟩

theorem Before.trans {c d e : Cursor} (h : c.Before d) (h' : d.Before e) : c.Before e := by
  obtain ⟨cs, hcs⟩ := h
  obtain ⟨ds, hds⟩ := h'
  exact ⟨_, hcs.trans hds⟩

theorem Before.length_le {c d : Cursor} (h : c.Before d) : d.rest.length ≤ c.rest.length := by
  obtain ⟨cs, hcs⟩ := h
  exact hcs.length_le

theorem Before.offset_le {c d : Cursor} (h : c.Before d) : c.offset ≤ d.offset := by
  obtain ⟨cs, -, hoff⟩ := h
  omega

theorem Before.eq_of_offset_eq {c d e : Cursor} (hd : c.Before d) (he : c.Before e)
    (h : d.offset = e.offset) : d = e := by
  obtain ⟨as, hrest, hoff⟩ := hd
  obtain ⟨bs, hrest', hoff'⟩ := he
  have hlen : Text.byteLength as = Text.byteLength bs := by omega
  have hnil : ∀ cs : List Char, Text.byteLength cs = 0 → cs = [] := by
    intro cs hcs
    cases cs with
    | nil => rfl
    | cons x xs =>
      have := x.utf8Size_pos
      simp only [Text.byteLength_cons] at hcs
      omega
  have hrests : d.rest = e.rest := by
    rcases List.append_eq_append_iff.1 (hrest.symm.trans hrest') with ⟨cs, rfl, hcs⟩ | ⟨cs, rfl, hcs⟩
    · simp only [Text.byteLength_append] at hlen
      rw [hcs, hnil cs (by omega), List.nil_append]
    · simp only [Text.byteLength_append] at hlen
      rw [hcs, hnil cs (by omega), List.nil_append]
  obtain ⟨n, ds⟩ := d
  obtain ⟨m, es⟩ := e
  simp only at h hrests
  rw [h, hrests]

theorem Before.of_offset_le {c d e : Cursor} (hd : c.Before d) (he : c.Before e)
    (h : d.offset ≤ e.offset) : d.Before e := by
  obtain ⟨as, hrest, hoff⟩ := hd
  obtain ⟨bs, hrest', hoff'⟩ := he
  rcases List.append_eq_append_iff.1 (hrest.symm.trans hrest') with ⟨cs, rfl, hcs⟩ | ⟨cs, rfl, hcs⟩
  · refine ⟨cs, hcs, ?_⟩
    rw [hoff', hoff, Text.byteLength_append, Nat.add_assoc]
  · have hlen : d.offset = e.offset := by
      rw [Text.byteLength_append] at hoff
      omega
    rw [Before.eq_of_offset_eq ⟨_, hrest, hoff⟩ ⟨_, hrest', hoff'⟩ hlen]
    exact .refl e

end Cursor

/-- The nodes follow each other between two positions, and so do the children of each. -/
inductive Chained : Cursor → List (Node ρ) → Cursor → Prop
  | nil {c d} (h : c.Before d) : Chained c [] d
  | cons {c n ns d} (hstart : c.Before n.start) (hn : Chained n.start n.children n.stop)
      (hns : Chained n.stop ns d) : Chained c (n :: ns) d

namespace Chained

variable {c d e : Cursor} {n : Node ρ} {ns ns' : List (Node ρ)}

theorem before (h : Chained c ns d) : c.Before d := by
  induction h with
  | nil h => exact h
  | cons hstart _ _ ihn ihns => exact (hstart.trans ihn).trans ihns

theorem of_before (hc : c.Before d) (h : Chained d ns e) : Chained c ns e := by
  cases h with
  | nil h => exact .nil (hc.trans h)
  | cons hstart hn hns => exact .cons (hc.trans hstart) hn hns

theorem append (h : Chained c ns d) (h' : Chained d ns' e) : Chained c (ns ++ ns') e := by
  induction h with
  | nil hc => exact h'.of_before hc
  | cons hstart hn _ _ ihns => exact .cons hstart hn (ihns h')

/-- Each node lies between the two positions, with its children inside it. -/
theorem of_mem (h : Chained c ns d) (hn : n ∈ ns) :
    c.Before n.start ∧ Chained n.start n.children n.stop ∧ n.stop.Before d := by
  induction ns generalizing c with
  | nil => simp at hn
  | cons n' ns ih =>
    cases h with
    | cons hstart hn' hns =>
      rcases List.mem_cons.1 hn with rfl | hn
      · exact ⟨hstart, hn', hns.before⟩
      · obtain ⟨hc, hchildren, hd⟩ := ih hns hn
        exact ⟨(hstart.trans hn'.before).trans hc, hchildren, hd⟩

theorem pairwise (h : Chained c ns d) : ns.Pairwise fun a b => a.stop.Before b.start := by
  induction ns generalizing c with
  | nil => exact .nil
  | cons n ns ih =>
    cases h with
    | cons _ _ hns => exact .cons (fun b hb => (hns.of_mem hb).1) (ih hns)

end Chained

theorem Yields.chained (hg : g.SkipsForward) {m : Mode} {t : Task ρ} {c d : Cursor}
    {ns : List (Node ρ)} (h : Yields g m t c (some (d, ns))) : Chained c ns d := by
  generalize hx : some (d, ns) = x at h
  induction h generalizing d ns with
  | char h =>
    cases hx
    obtain ⟨x, -, hp⟩ := Cursor.char?_passes h
    exact .nil ⟨_, hp⟩
  | text h =>
    cases hx
    exact .nil ⟨_, Cursor.text?_passes h⟩
  | @seq m a b c e f _ _ _ _ iha ihb =>
    cases hx
    exact (iha rfl).append ((ihb rfl).of_before (hg.mode m e))
  | choiceLeft _ ih => exact ih hx
  | choiceRight _ _ _ ih => exact ih hx
  | maybe _ ih => exact ih hx
  | many _ _ iha ihs =>
    cases hx
    exact (iha rfl).append (ihs rfl)
  | @again m a c e f _ _ _ _ iha ihs =>
    cases hx
    exact ((iha rfl).of_before (hg.mode m c)).append (ihs rfl)
  | maybeNot | manyNot | againNot | never =>
    cases hx
    exact .nil (.refl _)
  | ruleShown _ _ ih =>
    cases hx
    exact .cons (.refl _) (ih rfl) (.nil (.refl _))
  | ruleHidden _ _ ih => exact ih hx
  | charFail | textFail | seqFirst | seqSecond | neverFail | ruleFail => cases hx

theorem Yields.takes_of_mem {m : Mode} {t : Task ρ} {c d : Cursor} {n : Node ρ} {ns : List (Node ρ)}
    (h : Yields g m t c (some (d, ns))) (hn : n ∈ ns) :
    Takes g .spaced (.rule n.rule) n.start n.stop [n] := by
  generalize hx : some (d, ns) = x at h
  induction h generalizing d ns with
  | seq _ _ iha ihb | many _ _ iha ihb | again _ _ iha ihb =>
    cases hx
    rcases List.mem_append.1 hn with hn | hn
    · exact iha hn rfl
    · exact ihb hn rfl
  | choiceLeft _ ih | choiceRight _ _ _ ih | maybe _ ih | ruleHidden _ _ ih => exact ih hn hx
  | @ruleShown m r c d ns hs hb ih =>
    cases hx
    cases List.mem_singleton.1 hn
    cases m with
    | spaced => exact .ruleShown hs hb
    | tight => simp [Mode.shows] at hs
  | char | text | maybeNot | manyNot | againNot | never =>
    cases hx
    simp at hn
  | charFail | textFail | seqFirst | seqSecond | neverFail | ruleFail => cases hx

theorem Takes.children {n : Node ρ} {c d : Cursor}
    (h : Takes g .spaced (.rule n.rule) c d [n]) (hs : (g.production n.rule).shape ≠ .silent) :
    Takes g (Mode.spaced.enter (g.production n.rule).shape) (g.production n.rule).body n.start n.stop
      n.children := by
  obtain ⟨r, start, stop, children⟩ := n
  obtain ⟨children', hb, hn⟩ := (takes_rule_iff hs).1 h
  cases hn
  exact hb

end SolidityStubs.Peg
