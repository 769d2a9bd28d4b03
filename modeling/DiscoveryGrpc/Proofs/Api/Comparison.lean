import DiscoveryGrpc.Api.Document

/-!
# Comparing documents as they are written

Equality of declarations can be decided: of schemas and resources by going down both trees at once,
of methods and documents member by member.
-/

namespace DiscoveryGrpc.Api

/-! ## Schemas -/

namespace Declaration

mutual

/-- Equality of schemas can be decided. -/
def decEq : (a b : Declaration) → Decidable (a = b)
  | ⟨a, properties, items, additional⟩, ⟨b, properties', items', additional'⟩ =>
    have := decEqOptionTable properties properties'
    have := decEqOption items items'
    have := decEqOption additional additional'
    decidable_of_iff (a = b ∧ properties = properties' ∧ items = items' ∧ additional = additional')
      (by rw [mk.injEq])

/-- Equality of schemas that may be missing can be decided. -/
def decEqOption : (a b : Option Declaration) → Decidable (a = b)
  | none, none => isTrue rfl
  | none, some _ => isFalse nofun
  | some _, none => isFalse nofun
  | some a, some b =>
    have := decEq a b
    decidable_of_iff (a = b) (by rw [Option.some.injEq])

/-- Equality of tables that may be missing can be decided. -/
def decEqOptionTable : (s t : Option (List (String × Declaration))) → Decidable (s = t)
  | none, none => isTrue rfl
  | none, some _ => isFalse nofun
  | some _, none => isFalse nofun
  | some s, some t =>
    have := decEqTable s t
    decidable_of_iff (s = t) (by rw [Option.some.injEq])

/-- Equality of tables of schemas can be decided. -/
def decEqTable : (s t : List (String × Declaration)) → Decidable (s = t)
  | [], [] => isTrue rfl
  | [], _ :: _ => isFalse nofun
  | _ :: _, [] => isFalse nofun
  | (k, a) :: s, (l, b) :: t =>
    have := decEq a b
    have := decEqTable s t
    decidable_of_iff ((k = l ∧ a = b) ∧ s = t) (by rw [List.cons.injEq, Prod.mk.injEq])

end

instance : DecidableEq Declaration := decEq

end Declaration

deriving instance DecidableEq for MethodDeclaration

/-! ## Resources -/

namespace ResourceDeclaration

mutual

/-- Equality of resources can be decided. -/
def decEq : (a b : ResourceDeclaration) → Decidable (a = b)
  | ⟨methods, resources⟩, ⟨methods', resources'⟩ =>
    have := decEqOptionTable resources resources'
    decidable_of_iff (methods = methods' ∧ resources = resources') (by rw [mk.injEq])

/-- Equality of tables that may be missing can be decided. -/
def decEqOptionTable : (s t : Option (List (String × ResourceDeclaration))) → Decidable (s = t)
  | none, none => isTrue rfl
  | none, some _ => isFalse nofun
  | some _, none => isFalse nofun
  | some s, some t =>
    have := decEqTable s t
    decidable_of_iff (s = t) (by rw [Option.some.injEq])

/-- Equality of tables of resources can be decided. -/
def decEqTable : (s t : List (String × ResourceDeclaration)) → Decidable (s = t)
  | [], [] => isTrue rfl
  | [], _ :: _ => isFalse nofun
  | _ :: _, [] => isFalse nofun
  | (k, a) :: s, (l, b) :: t =>
    have := decEq a b
    have := decEqTable s t
    decidable_of_iff ((k = l ∧ a = b) ∧ s = t) (by rw [List.cons.injEq, Prod.mk.injEq])

end

instance : DecidableEq ResourceDeclaration := decEq

end ResourceDeclaration

deriving instance DecidableEq for DocumentDeclaration

end DiscoveryGrpc.Api
