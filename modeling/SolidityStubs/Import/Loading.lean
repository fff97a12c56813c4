import SolidityStubs.Import.Failure

/-! # Results with the files they asked for

A loading is a result together with the paths that were asked for on the way to it, in order. After
a failure nothing more is asked for.
-/
namespace SolidityStubs

structure Loading (α : Type) where
  loads : List String
  result : Except Failure α

namespace Loading

variable {α β : Type}

def pure (a : α) : Loading α := ⟨[], .ok a⟩

def fail (f : Failure) : Loading α := ⟨[], .error f⟩

def load (path : String) : Loading Unit := ⟨[path], .ok ()⟩

def bind (l : Loading α) (next : α → Loading β) : Loading β :=
  match l.result with
  | .ok a => ⟨l.loads ++ (next a).loads, (next a).result⟩
  | .error f => ⟨l.loads, .error f⟩

instance : Monad Loading where
  pure := pure
  bind := bind

@[simp]
theorem loads_pure (a : α) : (Pure.pure a : Loading α).loads = [] := rfl

@[simp]
theorem result_pure (a : α) : (Pure.pure a : Loading α).result = .ok a := rfl

theorem bind_of_ok {l : Loading α} {a : α} (h : l.result = .ok a) (next : α → Loading β) :
    l >>= next = ⟨l.loads ++ (next a).loads, (next a).result⟩ := by
  change bind l next = _
  rw [bind, h]

theorem bind_of_error {l : Loading α} {f : Failure} (h : l.result = .error f)
    (next : α → Loading β) : l >>= next = ⟨l.loads, .error f⟩ := by
  change bind l next = _
  rw [bind, h]

theorem load_bind (path : String) (next : Unit → Loading β) :
    load path >>= next = ⟨path :: (next ()).loads, (next ()).result⟩ := rfl

theorem bind_pure_map (l : Loading α) (g : α → β) :
    (l >>= fun a => Pure.pure (g a)) = ⟨l.loads, l.result.map g⟩ := by
  cases h : l.result with
  | ok a => simp [bind_of_ok h, Except.map]
  | error f => simp [bind_of_error h, Except.map]

theorem result_bind_eq_ok_iff {l : Loading α} {next : α → Loading β} {b : β} :
    (l >>= next).result = .ok b ↔ ∃ a, l.result = .ok a ∧ (next a).result = .ok b := by
  cases h : l.result with
  | ok a => simp [bind_of_ok h]
  | error f => simp [bind_of_error h]

end Loading

end SolidityStubs
