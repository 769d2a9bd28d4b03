import DiscoveryGrpc.Proofs.Conversion.Replay
import DiscoveryGrpc.Proofs.Run.EnumCleanup
import DiscoveryGrpc.Proofs.Run.Requests

/-!
# What is dropped and what dangles

When the messages and services of a document are made, a field may refer to a message that was not
generated. If the message is one to be left out the field is dropped (`isOmitted`), and otherwise it
dangles, as does an rpc whose request or response is not there (`missing`). Nothing else decides
whether there is a file: `resolution_of_buildAll` says that there is one if and only if nothing
dangles, that the fields of its messages are then those that were made without the ones that are
dropped, and that what dangles is reported otherwise, line by line.
-/

namespace DiscoveryGrpc

open Proto Api

namespace Proto

/-- The message that a field refers to, whether it is known to be there or not. -/
def Field.target? (f : Field) : Option String :=
  match f.type with
  | .reference name | .message name => some name
  | _ => none

/-- A field as it comes into a file: it has the message that it refers to for its type, or the type
that it had, or it is a string instead of an enum. -/
structure Field.Settles (x y : Field) : Prop where
  rest : y = { x with type := y.type }
  target : ∀ n, x.target? = some n → y.type = .message n
  other : x.target? = none → y.type = x.type ∨ (∃ n, x.type = .enum n) ∧ y.type = .primitive .string

end Proto

namespace Conversion

variable {opts : Options} {d : Document} {registry : Registry} {ignored : NameSet}
  {messages : Table Message} {services : Table Service} {m : Message} {x : Field} {w : Workspace}

/-- Whether a field refers to a message to be left out that was not generated. -/
def isOmitted (ignored : NameSet) (messages : Table Message) (x : Field) : Bool :=
  x.target?.any fun n => !messages.has n && ignored.contains n

/-- What dangles in a field of a message. -/
def missingField? (ignored : NameSet) (messages : Table Message) (m : Message) (x : Field) :
    Option Dangling :=
  (x.target?.filter fun n => !messages.has n && !ignored.contains n).map (.field m.name x.name)

/-- What dangles in an rpc of a service. -/
def missingRpc (messages : Table Message) (s : Service) (r : Rpc) : List Dangling :=
  ([r.input, r.output].filter fun n => !messages.has n).map (.rpc s.name r.name)

/-- Everything that dangles in messages and services. -/
def missing (ignored : NameSet) (messages : Table Message) (services : Table Service) :
    List Dangling :=
  (messages.values.flatMap fun m => m.fields.filterMap (missingField? ignored messages m)) ++
    services.values.flatMap fun s => s.rpcs.values.flatMap (missingRpc messages s)

/-- Every message that is referred to was generated, or it is to be left out and a field refers to
it. -/
structure Complete (ignored : NameSet) (messages : Table Message) (services : Table Service) :
    Prop where
  fields : ∀ m ∈ messages.values, ∀ x ∈ m.fields, ∀ n, x.target? = some n →
    messages.has n = true ∨ n ∈ ignored
  rpcs : ∀ s ∈ services.values, ∀ r ∈ s.rpcs.values,
    messages.has r.input = true ∧ messages.has r.output = true

theorem missingField?_eq_none : missingField? ignored messages m x = none ↔
    ∀ n, x.target? = some n → messages.has n = true ∨ n ∈ ignored := by
  rw [missingField?, Option.map_eq_none_iff, Option.filter_eq_none_iff]
  refine forall₂_congr fun n _ => ?_
  cases messages.has n <;> simp

theorem missingRpc_eq_nil {s : Service} {r : Rpc} : missingRpc messages s r = [] ↔
    messages.has r.input = true ∧ messages.has r.output = true := by
  rw [missingRpc, List.map_eq_nil_iff, List.filter_eq_nil_iff]
  simp

/-- Nothing dangles if and only if all that is referred to is there or to be left out. -/
theorem missing_eq_nil : missing ignored messages services = [] ↔
    Complete ignored messages services := by
  simp only [missing, List.append_eq_nil_iff, List.flatMap_eq_nil_iff, List.filterMap_eq_nil_iff,
    missingField?_eq_none, missingRpc_eq_nil]
  exact ⟨fun h => ⟨h.1, h.2⟩, fun h => ⟨h.1, h.2⟩⟩

/-! ## Messages -/

/-- A field with its reference resolved. -/
def resolvedField (known : NameSet) (f : Field) : Field :=
  { f with type := resolveType known f.type, keyType := f.keyType.map (resolveType known) }

/-- Messages that are made inline are there, so that only references are dropped. -/
theorem isDropped_eq (h : x.type.Drafted messages m) :
    isDropped messages.names ignored x = isOmitted ignored messages x := by
  unfold isDropped isOmitted Field.target?
  cases htype : x.type with
  | reference n =>
    simp only [contains_names]
    rfl
  | message n =>
    rw [htype] at h
    have hhas : messages.has n = true := h
    simp [hhas]
  | _ => rfl

theorem fields_resolveMessage (h : m.Drafted .any messages) :
    (resolveMessage messages.names ignored m).fields
      = (m.fields.filter (!isOmitted ignored messages ·)).map (resolvedField messages.names) := by
  have hkeep : m.fields.filter (!isDropped messages.names ignored ·)
      = m.fields.filter (!isOmitted ignored messages ·) :=
    List.filter_congr fun x hx => congrArg not (isDropped_eq (h.fields x hx).type)
  have hdistinct := (h.retainFields (!isOmitted ignored messages ·)).distinct
  rw [resolveMessage, Message.retainFields, hkeep]
  exact hdistinct.sort_map (resolvedField _) (fun _ => rfl) fun _ => rfl

/-- What dangles in a field that stays is what dangled in it before. -/
theorem dangling_resolvedField (h : x.type.Drafted messages m) :
    (if isOmitted ignored messages x then none else
      match (resolvedField messages.names x).type with
      | .reference n => some (Dangling.field m.name x.name n)
      | _ => none) = missingField? ignored messages m x := by
  unfold isOmitted missingField? Field.target? resolvedField resolveType
  cases htype : x.type with
  | reference n =>
    simp only [contains_names, Option.any_some, Option.filter_some]
    cases messages.has n <;> cases ignored.contains n <;> rfl
  | message n =>
    rw [htype] at h
    have hhas : messages.has n = true := h
    simp [hhas]
  | _ => rfl

theorem danglingFields_resolveMessage (h : m.Drafted .any messages) :
    danglingFields (resolveMessage messages.names ignored m)
      = m.fields.filterMap (missingField? ignored messages m) := by
  rw [danglingFields, fields_resolveMessage h, List.filterMap_map, List.filterMap_filter]
  refine List.filterMap_congr fun x hx => ?_
  rw [← dangling_resolvedField (h.fields x hx).type]
  cases isOmitted ignored messages x <;> rfl

/-- What is reported when references are resolved is what dangles. -/
theorem dangling_eq_missing (h : ∀ m ∈ w.messages.values, m.Drafted .any w.messages) :
    (resolvedMessages ignored w).values.flatMap danglingFields
        ++ services.values.flatMap (danglingRpcs w.messages.names)
      = missing ignored w.messages services := by
  refine congrArg₂ _ ?_ ?_
  · rw [resolvedMessages, Table.values_mapValues, List.flatMap_map]
    exact List.flatMap_congr fun m hm => danglingFields_resolveMessage (h m hm)
  · refine List.flatMap_congr fun s _ => ?_
    unfold danglingRpcs missingRpc
    simp only [contains_names]

/-- A field that stays, when all that it refers to is there, and conflicting enums are gone. -/
theorem settles_of_complete (h : x.Drafted .any messages m) (removed : NameSet)
    (hx : ∀ n, x.target? = some n → messages.has n = true) :
    x.Settles (stripEnums removed (resolvedField messages.names x)) := by
  have hkey : x.keyType.map (resolveType messages.names) = x.keyType := by
    cases hkey : x.keyType with
    | none => rfl
    | some key =>
      rw [h.keyType key hkey]
      rfl
  have htarget : ∀ n, x.target? = some n →
      (stripEnums removed (resolvedField messages.names x)).type = .message n := by
    intro n hn
    have hhas := hx n hn
    unfold Field.target? at hn
    split at hn
    · rename_i htype
      cases hn
      rw [stripEnums, resolvedField, htype, resolveType, contains_names, if_pos hhas]
      rfl
    · rename_i htype
      cases hn
      rw [stripEnums, resolvedField, htype]
      rfl
    · cases hn
  refine ⟨?_, htarget, fun hnone => ?_⟩
  · rw [stripEnums, resolvedField, hkey]
  · unfold Field.target? at hnone
    cases htype : x.type with
    | reference n => rw [htype] at hnone; cases hnone
    | message n => rw [htype] at hnone; cases hnone
    | primitive p =>
      left
      rw [stripEnums, resolvedField, htype]
      rfl
    | enum n =>
      rw [stripEnums, resolvedField, htype]
      by_cases hn : removed.contains n = true
      · exact .inr ⟨⟨n, rfl⟩, if_pos hn⟩
      · exact .inl (if_neg hn)

/-- The fields of a message of a file are those that were made, but for those that are left out. -/
theorem settles_of_drafted (h : m.Drafted .any messages)
    (hm : ∀ x ∈ m.fields, ∀ n, x.target? = some n → messages.has n = true ∨ n ∈ ignored) :
    List.Forall₂ Field.Settles (m.fields.filter (!isOmitted ignored messages ·))
      (removeConflicts (resolveMessage messages.names ignored m)).fields := by
  rw [fields_removeConflicts (drafted_resolveMessage h ignored).distinct, fields_resolveMessage h,
    List.map_map, List.forall₂_map_right_iff]
  refine List.forall₂_same.2 fun x hx => ?_
  obtain ⟨hx, hstays⟩ := List.mem_filter.1 hx
  refine settles_of_complete (h.fields x hx) _ fun n hn => ?_
  rcases hm x hx n hn with hhas | hignored
  · exact hhas
  · simpa [isOmitted, hn, hignored] using hstays

/-! ## Conversions -/

/-- When messages and services are made, resolving references succeeds unless something dangles, and
this is what it fails with. -/
theorem resolveAll_of_buildAll (h : buildAll opts d { registry } = .ok services w) :
    resolveAll opts d { registry } =
      match missing opts.ignoredNames w.messages services with
      | [] => .ok services (resolvedWorkspace opts.ignoredNames w)
      | uses => .error (.danglingReferences uses) (resolvedWorkspace opts.ignoredNames w) := by
  have hresolve := resolveReferences_apply opts.ignoredNames services w
  rw [dangling_eq_missing (drafted_of_buildAll h)] at hresolve
  rw [resolveAll, bind_apply_of_ok _ h]
  change EStateM.bind _ _ w = _
  rw [EStateM.bind, hresolve]
  cases missing opts.ignoredNames w.messages services <;> rfl

/-- When messages and services are made and nothing dangles, there is a file. -/
theorem result_of_missing_eq_nil (h : buildAll opts d { registry } = .ok services w)
    (hmissing : missing opts.ignoredNames w.messages services = []) :
    (run opts d registry).result = .ok {
      package := packageName opts d
      messages := finalMessages opts.ignoredNames w
      services := addOperations (finalMessages opts.ignoredNames w) services
      settings := w.resources
      source := sourceOf d } := by
  have hresolve := resolveAll_of_buildAll h
  rw [hmissing] at hresolve
  rw [run, EStateM.run, fileOf_eq_resolveAll, bind_apply_of_ok _ hresolve]
  rfl

/-- What dangles is what the conversion fails with. -/
theorem result_of_missing_ne_nil (h : buildAll opts d { registry } = .ok services w)
    (hmissing : missing opts.ignoredNames w.messages services ≠ []) :
    (run opts d registry).result =
      .error (.danglingReferences (missing opts.ignoredNames w.messages services)) := by
  have hresolve := resolveAll_of_buildAll h
  obtain ⟨use, uses, huses⟩ := List.exists_cons_of_ne_nil hmissing
  rw [huses] at hresolve ⊢
  have hfile : fileOf opts d { registry } =
      .error (.danglingReferences (use :: uses)) (resolvedWorkspace opts.ignoredNames w) := by
    rw [fileOf_eq_resolveAll]
    change EStateM.bind (resolveAll opts d) _ { registry } = _
    rw [EStateM.bind, hresolve]
  rw [run, EStateM.run, hfile]

/-- When messages and services are made, there is a file if and only if nothing dangles. Then its
messages are those that were made, and their fields are those that were made and are not left out.
Otherwise the report has one line for each field that dangles, and one for each request or response
that is not there. Keys of maps refer to nothing. -/
theorem resolution_of_buildAll (h : buildAll opts d { registry } = .ok services w) :
    ((∃ f, (run opts d registry).result = .ok f) ↔
      Complete opts.ignoredNames w.messages services) ∧
    (∀ f, (run opts d registry).result = .ok f →
      List.Forall₂ (fun e e' => e'.1 = e.1 ∧
        List.Forall₂ Field.Settles
          (e.2.fields.filter (!isOmitted opts.ignoredNames w.messages ·)) e'.2.fields)
        w.messages f.messages) ∧
    (¬Complete opts.ignoredNames w.messages services →
      ∃ fault, (run opts d registry).result = .error fault ∧ fault.report = {
        kind := .invalidArgument
        text := "references could not be resolved"
        details := (missing opts.ignoredNames w.messages services).map Dangling.text }) ∧
    ∀ m ∈ w.messages.values, ∀ x ∈ m.fields, ∀ key ∈ x.keyType, key = .primitive .string := by
  have hdrafted := drafted_of_buildAll h
  have hkeys : ∀ m ∈ w.messages.values, ∀ x ∈ m.fields, ∀ key ∈ x.keyType,
      key = .primitive .string := fun m hm x hx => ((hdrafted m hm).fields x hx).keyType
  rw [← missing_eq_nil]
  by_cases hmissing : missing opts.ignoredNames w.messages services = []
  · have hresult := result_of_missing_eq_nil h hmissing
    have hcomplete := missing_eq_nil.1 hmissing
    refine ⟨⟨fun _ => hmissing, fun _ => ⟨_, hresult⟩⟩, fun f hf => ?_,
      fun hne => absurd hmissing hne, hkeys⟩
    cases Except.ok.inj (hresult.symm.trans hf)
    simp only [finalMessages, resolvedMessages, Table.mapValues, List.forall₂_map_right_iff]
    refine List.forall₂_same.2 fun e he => ⟨rfl, ?_⟩
    have hm := Table.mem_values_of_mem he
    exact settles_of_drafted (hdrafted e.2 hm) (hcomplete.fields e.2 hm)
  · have hresult := result_of_missing_ne_nil h hmissing
    have hnone (f : File) : (run opts d registry).result ≠ .ok f := fun hf => by
      cases hresult.symm.trans hf
    refine ⟨⟨fun hf => ?_, fun hnil => absurd hnil hmissing⟩, fun f hf => absurd hf (hnone f),
      fun _ => ⟨_, hresult, rfl⟩, hkeys⟩
    obtain ⟨f, hf⟩ := hf
    exact absurd hf (hnone f)

/-- A document without regions, bays and shores, in which a lake has a region and a bay and a method
gives a shore. -/
def shoreLakes : String :=
  lakesApi
    [("Lake", objectSchema [
      ("bay", .object [("$ref", .string "Bay")]),
      ("depth", .object [("type", .string "integer")]),
      ("region", .object [("$ref", .string "Region")])])]
    [("lakes", methodResource "get"
      [("path", .string "lakes"), ("response", .object [("$ref", .string "Shore")])])]

/-- Regions are left out here, so that bays and shores dangle. -/
theorem resolution_of_buildAll_shoreLakes : ∃ d services w,
    Document.ofText shoreLakes = .ok d ∧
    buildAll { ignoredMessages := ["Region"] } d { registry := .empty } = .ok services w ∧
    missing (Options.ignoredNames { ignoredMessages := ["Region"] }) w.messages services
      = [.field "Lake" "bay" "Bay", .rpc "Lakes" "Get" "Shore"] ∧
    ((∃ f, (run { ignoredMessages := ["Region"] } d .empty).result = .ok f) ↔
      Complete (Options.ignoredNames { ignoredMessages := ["Region"] }) w.messages services) ∧
    (∀ f, (run { ignoredMessages := ["Region"] } d .empty).result = .ok f →
      List.Forall₂ (fun e e' => e'.1 = e.1 ∧
        List.Forall₂ Field.Settles
          (e.2.fields.filter
            (!isOmitted (Options.ignoredNames { ignoredMessages := ["Region"] }) w.messages ·))
          e'.2.fields)
        w.messages f.messages) ∧
    (¬Complete (Options.ignoredNames { ignoredMessages := ["Region"] }) w.messages services →
      ∃ fault, (run { ignoredMessages := ["Region"] } d .empty).result = .error fault ∧
        fault.report = {
          kind := .invalidArgument
          text := "references could not be resolved"
          details := (missing (Options.ignoredNames { ignoredMessages := ["Region"] }) w.messages
            services).map Dangling.text }) ∧
    ∀ m ∈ w.messages.values, ∀ x ∈ m.fields, ∀ key ∈ x.keyType, key = .primitive .string := by
  have hspells : Json.Spells shoreLakes _ := Json.spells_compact (by
    simp [Json.Printable, Json.PrintableMembers, objectSchema, methodResource])
  obtain ⟨d, hd, hpasses⟩ : ∃ d, Document.ofText shoreLakes = .ok d ∧
      passes (buildAll { ignoredMessages := ["Region"] } d) { registry := .empty }
        (fun services w => missing
          (Options.ignoredNames { ignoredMessages := ["Region"] }) w.messages services
            = [.field "Lake" "bay" "Bay", .rpc "Lakes" "Get" "Shore"]) = true :=
    exists_eq_ok_of_eq (Document.ofText_of_spells hspells) (by decide +kernel)
  obtain ⟨services, w, h, hmissing⟩ := exists_eq_ok_of_passes hpasses
  have hresolution := resolution_of_buildAll h
  exact ⟨d, services, w, hd, h, of_decide_eq_true hmissing, hresolution⟩

end Conversion

end DiscoveryGrpc
