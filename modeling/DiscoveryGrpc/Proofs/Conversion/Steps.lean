import DiscoveryGrpc.Proofs.Config.Export
import DiscoveryGrpc.Proofs.Conversion.Draft

/-!
# What a conversion does to its workspace

Until references are resolved, a conversion changes its workspace in four ways only: it takes a
note, adds a message of a new name, registers an inline schema, or adds a resource. `Step` has one
constructor for each, with everything that is known when it happens, and `Steps` is any number of
them, so an invariant of the workspace is proved for the four steps and holds of whole runs.

`Leads N x w Q` says of a computation that it gets from `w` to its last workspace by steps, whether
it succeeds or fails, and that `Q` holds of its result if it succeeds. There is one rule for each
way to put computations together.
-/

namespace DiscoveryGrpc

open Proto

/-- The names in a registry are allowed. -/
structure Registry.Allowed (N : Naming) (r : Registry) : Prop where
  configured : ∀ n ∈ r.configured.values, N.type n
  firstNames : ∀ n ∈ r.firstNames.values, N.type n

namespace Conversion

/-! ## Steps -/

/-- One change of a workspace. -/
inductive Step (N : Naming) : Workspace → Workspace → Prop
  | note (w : Workspace) (e : Event) : Step N w { w with log := w.log ++ [e] }
  | addMessage (w : Workspace) (m : Message) (hnew : w.messages.has m.name = false)
      (hm : m.Drafted N w.messages) :
      Step N w { w with messages := w.messages.insert m.name m }
  | register (w : Workspace) (path name schema : String) (hname : N.type name)
      (hconfigured : ∀ n ∈ w.registry.configured.get? path, name = n)
      (hmessage : w.messages.has name = true) :
      Step N w { w with registry := w.registry.register path name schema }
  | addResource (w : Workspace) (s : Setting) (hs : s.Drafted []) :
      Step N w { w with resources := w.resources ++ [s] }

/-- Any number of changes. -/
abbrev Steps (N : Naming) : Workspace → Workspace → Prop := Relation.ReflTransGen (Step N)

variable {N : Naming} {w w' : Workspace}

theorem has_insert_of_has {t : Table Message} {m : Message} {n : String} (h : t.has n = true) :
    (t.insert m.name m).has n = true := by
  rw [Table.has_insert, h, Bool.or_true]

/-- Messages stay. -/
theorem Steps.has (h : Steps N w w') {n : String} (hn : w.messages.has n = true) :
    w'.messages.has n = true := by
  induction h with
  | refl => exact hn
  | tail _ hstep ih =>
    cases hstep with
    | addMessage m => exact has_insert_of_has ih
    | _ => exact ih

/-- What was configured stays as it is. -/
theorem Steps.configured (h : Steps N w w') :
    w'.registry.configured = w.registry.configured := by
  induction h with
  | refl => rfl
  | tail _ hstep ih =>
    cases hstep with
    | register path name schema => exact (Registry.configured_register ..).trans ih
    | _ => exact ih

theorem Registry.Allowed.register {r : Registry} (h : r.Allowed N) (path : String) {name : String}
    (hname : N.type name) (schema : String) : (r.register path name schema).Allowed N := by
  unfold Registry.register
  split
  · exact ⟨h.configured, h.firstNames⟩
  · refine ⟨h.configured, ?_⟩
    dsimp only
    split
    · exact h.firstNames
    · intro n hn
      rcases Table.mem_values_insert hn with rfl | hn
      · exact hname
      · exact h.firstNames n hn

theorem Steps.allowed (h : Steps N w w') (hw : w.registry.Allowed N) :
    w'.registry.Allowed N := by
  induction h with
  | refl => exact hw
  | tail _ hstep ih =>
    cases hstep with
    | register path name schema hname => exact Registry.Allowed.register ih path hname schema
    | _ => exact ih

/-! ## Computations made of steps -/

/-- From a workspace with allowed names a computation goes by steps, and its result has a
property. -/
structure Leads (N : Naming) {α : Type} (x : Build α) (w : Workspace)
    (Q : α → Workspace → Prop) : Prop where
  run : w.registry.Allowed N → match x w with
    | .ok a w' => Steps N w w' ∧ Q a w'
    | .error _ w' => Steps N w w'

namespace Leads

variable {α β : Type} {Q : α → Workspace → Prop} {R : β → Workspace → Prop}

/-- The names in the registry are allowed at any time. -/
theorem of_allowed {x : Build α} (h : w.registry.Allowed N → Leads N x w Q) : Leads N x w Q :=
  ⟨fun hw => (h hw).run hw⟩

theorem pure {a : α} (h : Q a w) : Leads N (pure a : Build α) w Q := ⟨fun _ => ⟨.refl, h⟩⟩

theorem throw (fault : Fault) : Leads N (throw fault : Build α) w Q := ⟨fun _ => .refl⟩

theorem bind {x : Build α} {f : α → Build β} (hx : Leads N x w Q)
    (hf : ∀ a w', Steps N w w' → Q a w' → Leads N (f a) w' R) : Leads N (x >>= f) w R := by
  refine ⟨fun hw => ?_⟩
  have hx := hx.run hw
  change match EStateM.bind x f w with
    | .ok a w' => Steps N w w' ∧ R a w'
    | .error _ w' => Steps N w w'
  rw [EStateM.bind]
  cases hr : x w with
  | error e w' => simpa [hr] using hx
  | ok a w' =>
    rw [hr] at hx
    have hf := (hf a w' hx.1 hx.2).run (hx.1.allowed hw)
    dsimp only
    cases hr' : f a w' with
    | error e w'' =>
      rw [hr'] at hf
      exact hx.1.trans hf
    | ok b w'' =>
      rw [hr'] at hf
      exact ⟨hx.1.trans hf.1, hf.2⟩

/-- A computation that needs no workspace. -/
theorem lift {x : Except Fault α} (h : ∀ a, x = .ok a → Q a w) :
    Leads N (liftM x : Build α) w Q := by
  cases x with
  | error fault => exact throw fault
  | ok a => exact pure (h a rfl)

/-- A computation that looks at the workspace first. -/
theorem get_bind {f : Workspace → Build β} (h : Leads N (f w) w R) :
    Leads N (get >>= f) w R := ⟨h.run⟩

/-- Putting down the workspace after one step. -/
theorem set {Q : PUnit → Workspace → Prop} (hs : Step N w w') (h : Q ⟨⟩ w') :
    Leads N (set w' : Build PUnit) w Q :=
  ⟨fun _ => ⟨.single hs, h⟩⟩

theorem modify {change : Workspace → Workspace} {Q : PUnit → Workspace → Prop}
    (hs : Step N w (change w)) (h : Q ⟨⟩ (change w)) :
    Leads N (modify change : Build PUnit) w Q :=
  ⟨fun _ => ⟨.single hs, h⟩⟩

/-- Going through a list for its results, of which nothing is needed. -/
theorem mapM {xs : List α} {f : α → Build β}
    (hf : ∀ x ∈ xs, ∀ w', Steps N w w' → Leads N (f x) w' fun _ _ => True) :
    Leads N (xs.mapM f) w fun _ _ => True := by
  induction xs generalizing w with
  | nil => exact pure trivial
  | cons x xs ih =>
    rw [List.mapM_cons]
    refine bind (hf x List.mem_cons_self w .refl) fun _ w₁ h₁ _ => ?_
    refine bind (ih fun y hy w₂ h₂ => hf y (List.mem_cons_of_mem _ hy) w₂ (h₁.trans h₂))
      fun _ _ _ _ => pure trivial

/-- Going through a list for its effects alone. -/
theorem forM {xs : List α} {f : α → Build PUnit}
    (hf : ∀ x ∈ xs, ∀ w', Steps N w w' → Leads N (f x) w' fun _ _ => True) :
    Leads N (xs.forM f) w fun _ _ => True := by
  induction xs generalizing w with
  | nil => exact pure trivial
  | cons x xs ih =>
    refine bind (hf x List.mem_cons_self w .refl) fun _ w₁ h₁ _ => ?_
    exact ih fun y hy w₂ h₂ => hf y (List.mem_cons_of_mem _ hy) w₂ (h₁.trans h₂)

/-- Going through a list keeps what each of its elements keeps. -/
theorem foldlM {xs : List α} {f : β → α → Build β} {b : β}
    (hf : ∀ x ∈ xs, ∀ b w', Steps N w w' → R b w' → Leads N (f b x) w' R) (hb : R b w) :
    Leads N (xs.foldlM f b) w R := by
  induction xs generalizing b w with
  | nil => exact pure hb
  | cons x xs ih =>
    rw [List.foldlM_cons]
    refine bind (hf x List.mem_cons_self b w .refl hb) fun b w' hs hb => ?_
    exact ih (fun y hy b w'' hs' => hf y (List.mem_cons_of_mem _ hy) b w'' (hs.trans hs')) hb

end Leads

end Conversion

end DiscoveryGrpc
