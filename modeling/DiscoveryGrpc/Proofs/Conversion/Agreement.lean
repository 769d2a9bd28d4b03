import DiscoveryGrpc.Conversion.Workspace
import DiscoveryGrpc.Proofs.Proto.Undocumented

/-!
# Computations that cannot be told apart

A conversion carries descriptions along and takes notes, and looks at neither. `Agree see x y` says
of two computations that from workspaces that differ in descriptions and notes only they come to the
same failure, or to results that look the same to `see` and to workspaces that differ in
descriptions and notes only. There is one rule for each way to put computations together.
-/

namespace DiscoveryGrpc

open Proto

namespace Conversion

/-- A workspace without descriptions and without notes. -/
def Workspace.undocumented (w : Workspace) : Workspace :=
  { w with messages := w.messages.mapValues Message.undocumented, log := [] }

variable {α β γ δ : Type} {w w' : Workspace}

theorem Workspace.undocumented_eq_iff : w.undocumented = w'.undocumented ↔
    w.registry = w'.registry ∧
      w.messages.mapValues Message.undocumented = w'.messages.mapValues Message.undocumented ∧
      w.resources = w'.resources := by
  simp [undocumented]

/-- Outcomes that cannot be told apart by those who do not see all of a result, nor descriptions and
notes. -/
inductive Alike (see : α → β) :
    EStateM.Result Fault Workspace α → EStateM.Result Fault Workspace α → Prop
  | ok {a a' : α} {w w' : Workspace} (ha : see a = see a')
      (hw : w.undocumented = w'.undocumented) : Alike see (.ok a w) (.ok a' w')
  | error (fault : Fault) (w w' : Workspace) : Alike see (.error fault w) (.error fault w')

/-- Computations whose outcomes cannot be told apart if their workspaces cannot. -/
structure Agree (see : α → β) (x y : Build α) : Prop where
  run : ∀ {w w'}, w.undocumented = w'.undocumented → Alike see (x w) (y w')

theorem Alike.symm {see : α → β} {r r' : EStateM.Result Fault Workspace α} (h : Alike see r r') :
    Alike see r' r := by
  cases h with
  | ok ha hw => exact .ok ha.symm hw.symm
  | error fault w w' => exact .error fault w' w

theorem Alike.trans {see : α → β} {r₁ r₂ r₃ : EStateM.Result Fault Workspace α}
    (h : Alike see r₁ r₂) (h' : Alike see r₂ r₃) : Alike see r₁ r₃ := by
  cases h with
  | ok ha hw =>
    cases h' with
    | ok ha' hw' => exact .ok (ha.trans ha') (hw.trans hw')
  | error fault w =>
    cases h' with
    | error => exact .error ..

namespace Agree

variable {see : α → β} {see' : γ → δ} {x y z : Build α} {f g : α → Build γ}

theorem symm (h : Agree see x y) : Agree see y x := ⟨fun hw => (h.run hw.symm).symm⟩

theorem trans (h : Agree see x y) (h' : Agree see y z) : Agree see x z :=
  ⟨fun hw => (h.run rfl).trans (h'.run hw)⟩

theorem pure {a a' : α} (h : see a = see a') : Agree see (pure a) (pure a') :=
  ⟨fun hw => .ok h hw⟩

theorem throw (fault : Fault) : Agree see (throw fault) (throw fault) := ⟨fun _ => .error ..⟩

theorem lift {x y : Except Fault α} (h : x.map see = y.map see) :
    Agree see (liftM x) (liftM y) := by
  rcases Except.ok_or_error_of_map_eq h with ⟨a, b, rfl, rfl, hab⟩ | ⟨fault, rfl, rfl⟩
  · exact pure hab
  · exact throw fault

theorem bind (hx : Agree see x y) (hf : ∀ a a', see a = see a' → Agree see' (f a) (g a')) :
    Agree see' (x >>= f) (y >>= g) where
  run {w w'} hw := by
    change Alike see' (EStateM.bind x f w) (EStateM.bind y g w')
    have hxy := hx.run hw
    rw [EStateM.bind, EStateM.bind]
    revert hxy
    generalize x w = r, y w' = r'
    intro hxy
    cases hxy with
    | ok ha hw => exact (hf _ _ ha).run hw
    | error fault w w' => exact .error fault w w'

/-- What is seen of the first result is all of it. -/
theorem same_bind {x y : Build α} (hx : Agree id x y) (hf : ∀ a, Agree see' (f a) (g a)) :
    Agree see' (x >>= f) (y >>= g) :=
  hx.bind fun a a' ha => by
    obtain rfl : a = a' := ha
    exact hf a

/-- A result that depends on nothing. -/
theorem lift_bind (x : Except Fault α) (hf : ∀ a, Agree see' (f a) (g a)) :
    Agree see' (liftM x >>= f) (liftM x >>= g) :=
  same_bind (lift rfl) hf

theorem ite {c : Prop} [Decidable c] {x' y' : Build α} (h : c → Agree see x y)
    (h' : ¬c → Agree see x' y') : Agree see (if c then x else x') (if c then y else y') := by
  split
  · exact h ‹c›
  · exact h' ‹¬c›

theorem get_bind {f g : Workspace → Build γ}
    (hf : ∀ w w' : Workspace, w.undocumented = w'.undocumented → Agree see' (f w) (g w')) :
    Agree see' (get >>= f) (get >>= g) :=
  ⟨fun {w w'} hw => (hf w w' hw).run hw⟩

theorem modify {change change' : Workspace → Workspace} (h : ∀ w w' : Workspace,
    w.undocumented = w'.undocumented → (change w).undocumented = (change' w').undocumented) :
    Agree id (modify change : Build PUnit) (modify change') :=
  ⟨fun hw => .ok rfl (h _ _ hw)⟩

theorem set {w w' : Workspace} (h : w.undocumented = w'.undocumented) :
    Agree id (set w : Build PUnit) (set w') :=
  ⟨fun _ => .ok rfl h⟩

theorem forM {xs : List α} {change : α → γ} {f : α → Build PUnit} {g : γ → Build PUnit}
    (h : ∀ x ∈ xs, Agree id (f x) (g (change x))) :
    Agree id (xs.forM f) ((xs.map change).forM g) := by
  induction xs with
  | nil => exact pure rfl
  | cons x xs ih =>
    obtain ⟨hx, hxs⟩ := List.forall_mem_cons.1 h
    exact hx.same_bind fun _ => ih hxs

theorem foldlM {xs : List α} {change : α → γ} {f : δ → α → Build δ} {g : δ → γ → Build δ}
    {see : δ → β} (h : ∀ x ∈ xs, ∀ a a', see a = see a' → Agree see (f a x) (g a' (change x)))
    {a a' : δ} (ha : see a = see a') : Agree see (xs.foldlM f a) ((xs.map change).foldlM g a') := by
  induction xs generalizing a a' with
  | nil => exact pure ha
  | cons x xs ih =>
    obtain ⟨hx, hxs⟩ := List.forall_mem_cons.1 h
    rw [List.foldlM_cons, List.map_cons, List.foldlM_cons]
    exact (hx a a' ha).bind fun b b' hb => ih hxs hb

theorem mapM {xs : List α} {f g : α → Build γ} (h : ∀ x ∈ xs, Agree id (f x) (g x)) :
    Agree id (xs.mapM f) (xs.mapM g) := by
  induction xs with
  | nil => exact pure rfl
  | cons x xs ih =>
    obtain ⟨hx, hxs⟩ := List.forall_mem_cons.1 h
    rw [List.mapM_cons, List.mapM_cons]
    exact hx.same_bind fun y => (ih hxs).same_bind fun ys => pure rfl

end Agree

theorem agree_note (e e' : Event) : Agree id (note e) (note e') :=
  .modify fun _ _ hw => Workspace.undocumented_eq_iff.2 (Workspace.undocumented_eq_iff.1 hw)

end Conversion

end DiscoveryGrpc
