import Mathlib.Tactic.Common
import DiscoveryGrpc.Fault

/-!
# Results that may be faults

A computation in steps has a result just if every step has one (`Except.bind_eq_ok_iff`). That a
fixed computation has a result that passes a test is decided by running it (`exists_eq_ok`).
-/

namespace DiscoveryGrpc

theorem Except.bind_eq_ok_iff {α β : Type} {x : Except Fault α} {f : α → Except Fault β} {b : β} :
    x >>= f = .ok b ↔ ∃ a, x = .ok a ∧ f a = .ok b := by
  cases x <;> simp [bind, Except.bind]

theorem Except.map_eq_ok_iff {α β : Type} {x : Except Fault α} {f : α → β} {b : β} :
    f <$> x = .ok b ↔ ∃ a, x = .ok a ∧ f a = b := by
  cases x <;> simp

theorem exists_eq_ok {α : Type} {x : Except Fault α} {p : α → Bool}
    (h : x.toOption.any p = true) : ∃ a, x = .ok a ∧ p a = true := by
  cases x with
  | error fault => cases h
  | ok a => exact ⟨a, rfl, h⟩

/-- A computation is decided by running another one that comes to the same. -/
theorem exists_eq_ok_of_eq {α : Type} {x y : Except Fault α} {p : α → Bool} (hxy : x = y)
    (h : y.toOption.any p = true) : ∃ a, x = .ok a ∧ p a = true :=
  hxy ▸ exists_eq_ok h

theorem eq_ok_of_toOption {α : Type} [BEq α] [LawfulBEq α] {x : Except Fault α} {a : α}
    (h : (x.toOption == some a) = true) : x = .ok a := by
  cases x with
  | error fault => cases h
  | ok b => exact congrArg Except.ok (Option.some.inj (eq_of_beq h))

/-- The cause of a failure. -/
def Except.fault? {α : Type} : Except Fault α → Option Fault
  | .ok _ => none
  | .error fault => some fault

theorem Except.fault?_eq_some_iff {α : Type} {x : Except Fault α} {fault : Fault} :
    Except.fault? x = some fault ↔ x = .error fault := by
  cases x <;> simp [Except.fault?]

end DiscoveryGrpc
