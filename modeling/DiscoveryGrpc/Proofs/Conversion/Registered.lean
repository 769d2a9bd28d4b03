import DiscoveryGrpc.Proofs.Conversion.Settled

/-!
# What a conversion registers

A conversion registers an inline schema when its message is there, and under the configured name if
its location has one. So every name that is registered at the end is that of a message of the file
(`registered_of_fileOf`). This holds whatever the names of the document look like.
-/

namespace DiscoveryGrpc

open Proto Api

/-- Names of any form. -/
def Naming.any : Naming where
  type _ := True
  field _ := True

theorem Naming.admitsDocument_any (d : Document) : Naming.any.AdmitsDocument d := by
  have hall : ∀ h : SchemaHead, Naming.any.Admits h := fun h => ⟨fun _ _ => trivial, fun _ _ => trivial⟩
  exact {
    schemas := Schema.AllTable.intro hall _
    resources := fun resource _ => {
      service := fun _ _ => trivial
      methods := fun m _ => {
        parameters := Schema.AllTable.intro hall _
        rpc := fun _ _ => ⟨trivial, fun _ _ => trivial⟩
        body := fun _ _ _ _ _ _ => trivial } } }

/-- What is registered has the name that its location was configured for, if it was, and this is
the name of a message. -/
structure Registry.Registered (r : Registry) (messages : Table Message) : Prop where
  sorted : r.registrations.Sorted
  has : ∀ p g, r.registrations.get? p = some g → messages.has g.name = true
  configured : ∀ p g, r.registrations.get? p = some g → ∀ n ∈ r.configured.get? p, g.name = n

theorem Registry.Registered.register {r : Registry} {messages : Table Message}
    (h : r.Registered messages) {p name : String} (schema : String)
    (hname : ∀ n ∈ r.configured.get? p, name = n) (hmessage : messages.has name = true) :
    (r.register p name schema).Registered messages := by
  cases hp : r.registrations.get? p with
  | some existing =>
    rw [Registry.register_of_registered hp]
    exact ⟨h.sorted, h.has, h.configured⟩
  | none =>
    have hget : ∀ q g, (r.register p name schema).registrations.get? q = some g →
        (q = p ∧ g.name = name) ∨ r.registrations.get? q = some g := fun q g hg => by
      rw [Registry.register_of_new hp, Table.get?_insert] at hg
      split at hg
      · rename_i hq
        exact .inl ⟨hq, by rw [← Option.some.inj hg]⟩
      · exact .inr hg
    refine ⟨?_, fun q g hg => ?_, fun q g hg => ?_⟩
    · rw [Registry.register_of_new hp]
      exact Table.sorted_insert h.sorted
    · rcases hget q g hg with ⟨rfl, hgn⟩ | hg
      · exact hgn ▸ hmessage
      · exact h.has q g hg
    · rw [Registry.configured_register]
      rcases hget q g hg with ⟨rfl, hgn⟩ | hg
      · exact hgn ▸ hname
      · exact h.configured q g hg

namespace Conversion

variable {N : Naming} {w w' : Workspace}

theorem registered_start (configured : Table String) :
    Registry.Registered { configured } [] :=
  ⟨List.Pairwise.nil, fun _ _ => nofun, fun _ _ => nofun⟩

theorem Step.registered (h : Step N w w') (hw : w.registry.Registered w.messages) :
    w'.registry.Registered w'.messages := by
  cases h with
  | note e => exact hw
  | addMessage m hnew hm =>
    exact ⟨hw.sorted, fun p g hg => has_insert_of_has (hw.has p g hg), hw.configured⟩
  | register path name schema hname hconfigured hmessage =>
    exact hw.register schema hconfigured hmessage
  | addResource s hs => exact hw

theorem Steps.registered (h : Steps N w w') (hw : w.registry.Registered w.messages) :
    w'.registry.Registered w'.messages := by
  induction h with
  | refl => exact hw
  | tail _ hstep ih => exact hstep.registered ih

/-- A conversion that succeeds leaves a registry whose names are those of messages of the file. -/
theorem registered_of_fileOf {opts : Options} {d : Document} {configured : Table String} {f : File}
    (h : fileOf opts d { registry := { configured } } = .ok f w') :
    w'.registry.Registered f.messages ∧ w'.registry.configured = configured := by
  obtain ⟨services, w₁, hbuild, -, -, hregistry, rfl⟩ := fileOf_eq_ok h
  have hled := (leads_buildAll (N := .any) opts (Naming.admitsDocument_any d)
    { registry := { configured } }).run ⟨fun _ _ => trivial, fun _ _ => trivial⟩
  rw [hbuild] at hled
  have hregistered := Steps.registered hled.1 (registered_start configured)
  rw [hregistry]
  refine ⟨⟨hregistered.sorted, fun p g hg => ?_, hregistered.configured⟩, Steps.configured hled.1⟩
  rw [has_finalMessages]
  exact hregistered.has p g hg

end Conversion

end DiscoveryGrpc
