import DiscoveryGrpc.Proofs.Conversion.Made

/-!
# Where messages come from

A conversion makes messages for four reasons only: a schema at the top level, an object nested in
one or in a parameter, a method whose request it is, and a method without a response. `Source` lists
them, and `sourced_of_buildAll` says that there is one for every name in the last workspace. The
functions of a conversion keep this one by one, since `Source` speaks of what has been made so far
and this only grows.
-/

namespace DiscoveryGrpc

open Proto Api

namespace Conversion

variable {opts : Options} {d : Document} {w w' start final : Workspace}

/-- A reason for which a message with a name has been made. -/
inductive Source (opts : Options) (d : Document) (start final : Workspace) : String → Prop
  | schema {e : String × Schema} {n : String} (he : e ∈ d.schemas)
      (hconverts : opts.converts e = true) (hn : messageName e.2.identifier = .ok n) :
      Source opts d start final n
  | object {v : Schema} {n : String} (hv : Nested opts d v)
      (hn : Gives opts start final v n) : Source opts d start final n
  | request {resource : String × List Method} {m : Method} (hresource : resource ∈ d.resources)
      (hserves : opts.serves resource.1 = true) (hm : m ∈ resource.2)
      (hkeeps : opts.keeps m = true) : Source opts d start final (requestName m)
  | response {resource : String × List Method} {m : Method} (hresource : resource ∈ d.resources)
      (hserves : opts.serves resource.1 = true) (hm : m ∈ resource.2)
      (hkeeps : opts.keeps m = true) (hnone : m.response = none) :
      Source opts d start final (responseName m)

theorem Gives.mono {v : Schema} {n : String} (h : Gives opts start w v n) (hw : Grows w w') :
    Gives opts start w' v n :=
  have ⟨r, kept, hname, w₁, m, w₂, w₃, hstart, hr, hmake, hkept, hfinal⟩ := h
  ⟨r, kept, hname, w₁, m, w₂, w₃, hstart, hr, hmake, hkept, hfinal.trans hw⟩

theorem Source.mono {n : String} (h : Source opts d start w n) (hw : Grows w w') :
    Source opts d start w' n := by
  cases h with
  | schema he hconverts hn => exact .schema he hconverts hn
  | object hv hn => exact .object hv (hn.mono hw)
  | request hresource hserves hm hkeeps => exact .request hresource hserves hm hkeeps
  | response hresource hserves hm hkeeps hnone => exact .response hresource hserves hm hkeeps hnone

/-- There is a reason for every message that has been made. -/
structure Sourced (opts : Options) (d : Document) (start w : Workspace) : Prop where
  grows : Grows start w
  source : ∀ n, w.messages.has n = true → Source opts d start w n

theorem Sourced.of_eq (h : Sourced opts d start w) (hw : w'.messages = w.messages) :
    Sourced opts d start w' where
  grows := h.grows.trans (.of_eq hw)
  source n hn := (h.source n (hw ▸ hn)).mono (.of_eq hw)

/-- Adding a message for a reason. -/
theorem Sourced.addMessage {m : Message} {kept : Bool} (hw : Sourced opts d start w)
    (h : addMessage m w = .ok kept w') (hm : Source opts d start w' m.name) :
    Sourced opts d start w' := by
  have hgrows := grows_of_addMessage h
  refine ⟨hw.grows.trans hgrows, fun n hn => ?_⟩
  rcases addMessage_eq_ok h with ⟨-, -, rfl⟩ | ⟨_, -, -, -, rfl⟩ | ⟨_, -, -, -, -, hsame⟩
  · rw [Table.has_insert, Bool.or_eq_true] at hn
    rcases hn with hn | hn
    · exact beq_iff_eq.1 hn ▸ hm
    · exact (hw.source n hn).mono hgrows
  · exact hw.source n hn
  · exact (hw.source n (hsame ▸ hn)).mono hgrows

/-- The objects nested in the values of properties are nested in the document. -/
def NestedValues (opts : Options) (d : Document) (ps : List (String × Schema)) : Prop :=
  ∀ p ∈ ps, ∀ v, p.2.value? = some v → v.isNested = true → Nested opts d v

theorem Sourced.filled {ps : List (String × Schema)} {m m' : Message}
    (hw : Sourced opts d start w) (h : Filled opts ps m w m' w')
    (hps : NestedValues opts d ps) : Sourced opts d start w' := by
  induction h with
  | nil => exact hw
  | plain _ hplain _ _ _ ih =>
    exact ih (hw.of_eq hplain.messages) fun p hp => hps p (List.mem_cons_of_mem _ hp)
  | @nested key name s v rest x kept m m₂ m' made w w₁ w₂ w₃ w' hvalue hnested hname hmake hmade
      hkept hmessages hfield hadd hrest ihmade ihrest =>
    have hv : Nested opts d v := hps _ List.mem_cons_self v hvalue hnested
    have hmadeSourced := ihmade hw fun p hp u hu hu' => .object hv hp hu hu'
    have hgives : Gives opts start w₂ v name :=
      ⟨_, kept, hname, w, made, w₁, w₂, hw.grows, rfl, hmake, hkept, .refl w₂⟩
    have hadded := hmadeSourced.addMessage hkept (.object hv (hmade.name ▸ hgives))
    exact ihrest (hadded.of_eq hmessages) fun p hp => hps p (List.mem_cons_of_mem _ hp)

theorem Sourced.addSchema {e : String × Schema} {u : Unit} (hw : Sourced opts d start w)
    (he : e ∈ d.schemas) (h : addSchema opts e w = .ok u w') : Sourced opts d start w' := by
  rcases addSchema_eq_ok h with ⟨-, hsame⟩ | ⟨hconverts, name, kept, m, w₁, hname, hmake, hkept⟩
  · exact hw.of_eq hsame
  · have hfilled := filled_of_messageOf hmake
    refine (hw.filled hfilled fun p hp v hv hnested =>
      .schema he hconverts hp hv hnested).addMessage hkept ?_
    exact .schema he hconverts (hfilled.name ▸ hname)

section Methods

variable {resource : String × List Method}

theorem Sourced.addMethod {service : String} {m : Method} {draft draft' : Draft}
    (hw : Sourced opts d start w) (hresource : resource ∈ d.resources)
    (hserves : opts.serves resource.1 = true) (hm : m ∈ resource.2)
    (h : addMethod opts d service draft m w = .ok draft' w') : Sourced opts d start w' := by
  rcases addMethod_eq_ok h with ⟨-, hsame, -⟩ | ⟨hkeeps, r, hr, -⟩
  · exact hw.of_eq hsame
  · obtain ⟨-, -, hrequest, hbody, hkept, houtput, -, -, -, hsame⟩ := rpcMade_of_rpcOf hr
    have hfilled := filled_of_addProperties _ _ _ _ _ hrequest
    have hrequested := (hw.filled hfilled fun p hp v hv hnested =>
      .parameter hresource hserves hm hkeeps hp hv hnested).addMessage hkept (by
        rw [(addBody_eq_ok hbody).2.1, hfilled.name]
        exact .request hresource hserves hm hkeeps)
    refine Sourced.of_eq ?_ hsame
    cases hresponse : m.response with
    | none =>
      rw [hresponse] at houtput
      obtain ⟨_, _, hempty, houtput⟩ := bind_eq_ok_iff.1 houtput
      obtain ⟨-, rfl⟩ := pure_eq_ok_iff.1 houtput
      exact hrequested.addMessage hempty (.response hresource hserves hm hkeeps hresponse)
    | some s =>
      rw [hresponse] at houtput
      exact (lift_eq_ok_iff.1 houtput).2 ▸ hrequested

theorem Sourced.addService {services services' : Table Service} (hw : Sourced opts d start w)
    (hresource : resource ∈ d.resources)
    (h : addService opts d services resource w = .ok services' w') :
    Sourced opts d start w' := by
  rcases addService_eq_ok h with ⟨-, -, hsame⟩ | ⟨hserves, name, draft, settings, -, hdraft, -⟩
  · exact hw.of_eq hsame
  · exact foldlM_keeps (fun _ m hm _ _ _ h hw => hw.addMethod hresource hserves hm h) hdraft hw

end Methods

/-- There is a reason for every message of a conversion. -/
theorem sourced_of_buildAll {registry : Registry} {services : Table Service}
    (h : buildAll opts d { registry } = .ok services final) :
    Sourced opts d { registry } final := by
  obtain ⟨_, w, hschemas, hresources⟩ := bind_eq_ok_iff.1 h
  have hstart : Sourced opts d { registry } { registry } := ⟨.refl _, nofun⟩
  have hw := forM_keeps (fun e he _ _ _ h hw => hw.addSchema he h) hschemas hstart
  exact foldlM_keeps (fun _ resource hresource _ _ _ h hw => hw.addService hresource h) hresources
    hw

end Conversion

end DiscoveryGrpc
