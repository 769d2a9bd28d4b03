import DiscoveryGrpc.Fault

/-!
# Results of which the same is seen

A function that leaves part of a value out shows what can be seen of it. Where the same is seen of
two results, there are two values of which the same is seen, or no value in either (`none` or the
same failure). A computation that looks at nothing else keeps this up (`map_bind_eq`).

If what is left out can be left out before a computation already, the result is the same: leaving
out goes through a computation from its parts to the whole (`bind_eq_map`, `mapM_eq_map`).
-/

namespace DiscoveryGrpc

variable {α α' β β' : Type}

/-- Where the same is seen of two values that may be missing, they are both missing or both
there. -/
theorem none_or_some_of_map_eq {see : α → β} {x x' : Option α} (h : x.map see = x'.map see) :
    (x = none ∧ x' = none) ∨ ∃ a a', x = some a ∧ x' = some a' ∧ see a = see a' := by
  cases x with
  | none => exact .inl ⟨rfl, Option.map_eq_none_iff.1 h.symm⟩
  | some a =>
    obtain ⟨a', hx', ha⟩ := Option.map_eq_some_iff.1 h.symm
    exact .inr ⟨a, a', rfl, hx', ha.symm⟩

namespace Except

/-- Where the same is seen of two results, both are there or both failed for the same cause. -/
theorem ok_or_error_of_map_eq {see : α → β} {x x' : Except Fault α} (h : x.map see = x'.map see) :
    (∃ a a', x = .ok a ∧ x' = .ok a' ∧ see a = see a') ∨
      ∃ fault, x = .error fault ∧ x' = .error fault := by
  cases x with
  | error fault =>
    cases x' with
    | error fault' => exact .inr ⟨fault, rfl, congrArg Except.error (Except.error.inj h).symm⟩
    | ok a' => cases h
  | ok a =>
    cases x' with
    | error fault' => cases h
    | ok a' => exact .inl ⟨a, a', rfl, rfl, Except.ok.inj h⟩

/-! ## Seeing the same after every step -/

section

variable {see : α → α'} {see' : β → β'} {x y : Except Fault α} {f g : α → Except Fault β}

theorem map_bind_eq (h : x.map see = y.map see)
    (hf : ∀ a b, see a = see b → (f a).map see' = (g b).map see') :
    (x >>= f).map see' = (y >>= g).map see' := by
  rcases ok_or_error_of_map_eq h with ⟨a, b, rfl, rfl, hab⟩ | ⟨fault, rfl, rfl⟩
  · exact hf a b hab
  · rfl

theorem map_bind_congr (hf : ∀ a, (f a).map see' = (g a).map see') :
    (x >>= f).map see' = (x >>= g).map see' :=
  @map_bind_eq _ _ _ _ id _ x x f g rfl fun a b hab => by
    obtain rfl : a = b := hab
    exact hf a

end

/-! ## Leaving out before or after -/

section

variable {g : α → α'} {k : β → β'} {f : α → Except Fault β} {f' : α' → Except Fault β'}

theorem bind_eq_map {x : Except Fault α} {x' : Except Fault α'} (hx : x' = x.map g)
    (hf : ∀ a, f' (g a) = (f a).map k) : (x' >>= f') = (x >>= f).map k := by
  subst hx
  cases x with
  | error fault => rfl
  | ok a => exact hf a

theorem bind_same {f' : α → Except Fault β'} {x : Except Fault α} (hf : ∀ a, f' a = (f a).map k) :
    (x >>= f') = (x >>= f).map k := by
  cases x with
  | error fault => rfl
  | ok a => exact hf a

theorem mapM_eq_map {xs : List α} (hf : ∀ x ∈ xs, f' (g x) = (f x).map k) :
    (xs.map g).mapM f' = (xs.mapM f).map (List.map k) := by
  induction xs with
  | nil => rfl
  | cons x xs ih =>
    obtain ⟨hx, hxs⟩ := List.forall_mem_cons.1 hf
    rw [List.map_cons, List.mapM_cons, List.mapM_cons]
    exact bind_eq_map hx fun y => bind_eq_map (ih hxs) fun ys => rfl

end

end Except

end DiscoveryGrpc
