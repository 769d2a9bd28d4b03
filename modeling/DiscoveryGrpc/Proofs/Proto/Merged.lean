import DiscoveryGrpc.Proofs.Proto.Merge
import DiscoveryGrpc.Proofs.Proto.Signatures

/-!
# What merging promises

A merged file has the messages, enums, services and rpcs of the new file. Within a message or an
enum that the old file has too, `Message.FieldsMerged` says field by field what comes back, in which
shape, and what stays as it was. Within such an rpc, `SettingsMerged` says where the old signatures
go. Everything else is as in the new file: `Message.Merged`, `Rpc.Merged`, `Service.Merged` and
`File.Merged` say so part by part, and `File.merged_merge` that merging keeps this promise for all
files.
-/

namespace DiscoveryGrpc.Proto

/-! ## Messages -/

/-- The fields of a merged message. -/
structure Message.FieldsMerged (known : NameSet) (new old result : Message) : Prop where
  /-- No field is there twice. -/
  distinct : Field.Distinct result.fields
  /-- A missing field is back, in its old shape, if there is what its types name. -/
  restored : ∀ f ∈ old.fields, new.field? f.name = none → f.Available known new →
    f.unreferenced ∈ result.fields
  /-- A missing field of which a type is gone stays away. -/
  gone : ∀ f ∈ old.fields, new.field? f.name = none → ¬f.Available known new →
    result.field? f.name = none
  /-- A field that had more options or another optionality has its old shape again, but its new
  description. -/
  superseded : ∀ f ∈ old.fields, ∀ g ∈ new.fields, g.name = f.name → f.Supersedes g →
    f.Available known new → { f.unreferenced with description := g.description } ∈ result.fields
  /-- Any other field that is in both messages is the new one. -/
  untouched : ∀ f ∈ old.fields, ∀ g ∈ new.fields, g.name = f.name →
    ¬(f.Supersedes g ∧ f.Available known new) → g ∈ result.fields
  /-- Under a name that the old message does not have, nothing appears, changes or disappears. -/
  others : ∀ name, (∀ f ∈ old.fields, f.name ≠ name) → result.field? name = new.field? name

/-- A merged message, or a merged enum, in a file of which the message names are known. -/
inductive Message.Merged (known : NameSet) : Message → Message → Message → Prop
  | intro {new old result : Message}
      (rest : result = { new with fields := result.fields, enums := result.enums })
      (fields : new.FieldsMerged known old result)
      (names : Table.names result.enums = Table.names new.enums)
      (kept : ∀ name, old.enum? name = none → result.enum? name = new.enum? name)
      (both : ∀ name x y z, new.enum? name = some x → old.enum? name = some y →
        result.enum? name = some z → Merged known x y z) :
      Merged known new old result

/-! ## Services -/

/-- Merged options: the old signatures, then the new ones that are not among them, each once, stand
where the first new one stood, or at the end. -/
structure SettingsMerged (new old result : List Setting) : Prop where
  unchanged : (∀ s ∈ old, Merge.isSignature s = false) → result = new
  spliced : (∃ s ∈ old, Merge.isSignature s = true) → ∃ front back,
    new = front ++ back ∧
    (∀ s ∈ front, Merge.isSignature s = false) ∧
    (∀ s ∈ back.head?, Merge.isSignature s = true) ∧
    result = front
      ++ old.filter Merge.isSignature
      ++ (new.filter fun s => Merge.isSignature s && !old.contains s).eraseDups
      ++ back.filter (!Merge.isSignature ·)

/-- A merged rpc. -/
structure Rpc.Merged (new old result : Rpc) : Prop where
  rest : result = { new with settings := result.settings }
  settings : SettingsMerged new.settings old.settings result.settings

/-- A merged service. -/
structure Service.Merged (new old result : Service) : Prop where
  rest : result = { new with rpcs := result.rpcs }
  rpcs : Table.Overlaid Rpc.Merged new.rpcs old.rpcs result.rpcs

/-- A merged file. -/
structure File.Merged (new old result : File) : Prop where
  rest : result = { new with messages := result.messages, services := result.services }
  messages : Table.Overlaid (Message.Merged new.messages.names) new.messages old.messages
    result.messages
  services : Table.Overlaid Service.Merged new.services old.services result.services

namespace Merge

/-! ## Fields, enums and messages -/

theorem fieldsMerged {known : NameSet} {new old : Message} (hn : new.WellFormed)
    (ho : old.WellFormed) : new.FieldsMerged known old (merged known new old) := by
  have hfield : ∀ f ∈ old.fields, (merged known new old).field? f.name
      = mergedField? known new (new.field? f.name) (some f) := by
    intro f hf
    rw [field?_merged hn ho, (Message.field?_eq_some_iff ho.fields.nodup).2 ⟨hf, rfl⟩]
  have hmem : ∀ {f : Field} {name : String}, (merged known new old).field? name = some f →
      f ∈ (merged known new old).fields :=
    fun h => List.mem_of_find?_eq_some h
  have hboth : ∀ f ∈ old.fields, ∀ g ∈ new.fields, g.name = f.name →
      (merged known new old).field? f.name = mergedField? known new (some g) (some f) := by
    intro f hf g hg hname
    rw [hfield f hf, (Message.field?_eq_some_iff hn.fields.nodup).2 ⟨hg, hname⟩]
  constructor
  case distinct => exact distinct_merged hn old
  case restored =>
    intro f hf hnone ha
    refine hmem ((hfield f hf).trans ?_)
    rw [hnone, mergedField?_restored ha]
  case gone =>
    intro f hf hnone ha
    rw [hfield f hf, hnone, mergedField?_gone ha]
  case superseded =>
    intro f hf g hg hname hs ha
    exact hmem ((hboth f hf g hg hname).trans (mergedField?_superseded hs ha))
  case untouched =>
    intro f hf g hg hname h
    exact hmem ((hboth f hf g hg hname).trans (mergedField?_untouched h))
  case others =>
    intro name hname
    rw [field?_merged hn ho, Message.field?_eq_none.2 hname, mergedField?_none]

theorem message_merged {known : NameSet} {new old : Message} (hn : new.WellFormed)
    (ho : old.WellFormed) : new.Merged known old (merged known new old) := by
  induction ho generalizing new with
  | @intro old hfields hnamed henums ih =>
    have hover := (overlaid_enums known hn.named.sorted hnamed).imp
      (S := Message.Merged known) <| by
        rintro x hx y hy _ rfl
        exact ih y hy (hn.enums x hx)
    refine .intro (merged_rest hn.named.sorted old)
      (fieldsMerged hn (.intro hfields hnamed henums)) hover.names ?_ ?_
    · exact fun _ => hover.kept
    · exact fun _ _ _ _ => hover.both

/-! ## Options, rpcs and services -/

theorem settingsMerged (new old : List Setting) :
    SettingsMerged new old (mergeSignatures old new) where
  unchanged h := mergeSignatures_of_eq_nil
    (List.filter_eq_nil_iff.2 fun s hs => by simp [h s hs]) new
  spliced h := by
    obtain ⟨s, hs, hsig⟩ := h
    have hne : signatures old ≠ [] := List.ne_nil_of_mem (List.mem_filter.2 ⟨hs, hsig⟩)
    refine ⟨before new, new.dropWhile (!isSignature ·), ?_, not_isSignature_of_mem_before, ?_, ?_⟩
    · exact List.takeWhile_append_dropWhile.symm
    · intro s hs
      have hhead := List.head?_dropWhile_not (!isSignature ·) new
      simpa [Option.mem_def.1 hs] using hhead
    · rw [mergeSignatures_eq hne, ← List.append_assoc, addedSignatures_eq]
      rfl

theorem service_merged {old : Service} (ho : old.rpcs.Named Rpc.name) (new : Service) :
    Service.Merged new old (mergedService new old) where
  rest := rfl
  rpcs := (overlaid_rpcs ho new).imp fun x _ y _ _ h =>
    h ▸ ⟨rfl, settingsMerged x.settings y.settings⟩

end Merge

/-! ## Files -/

/-- Merging does what it promises, and nothing else. -/
theorem File.merged_merge {new old : File} (hn : new.WellFormed) (ho : old.WellFormed) :
    File.Merged new old (new.merge old).1 where
  rest := rfl
  messages := (Merge.overlaid_messages hn.messages.sorted ho.messages).imp fun x hx y hy _ h =>
    h ▸ Merge.message_merged (hn.wellFormed x hx) (ho.wellFormed y hy)
  services := (Merge.overlaid_services new ho.services).imp fun x _ y hy _ h =>
    h ▸ Merge.service_merged (ho.rpcs y hy) x

/-- Lakes with a state, and a method with one signature. -/
def File.newLakes : File where
  package := "lakes.v1"
  messages := [("Lake", {
    name := "Lake"
    fields := [
      { name := "depth", type := .primitive .double, description := "In metres." },
      { name := "state", type := .enum "State", optional := true }]
    enums := [("State", {
      name := "State"
      isEnum := true
      fields := [
        { name := "UNDEFINED_STATE", type := .primitive .unformatted, first := true }] })] })]
  services := [("Lakes", {
    name := "Lakes"
    rpcs := [("Get", {
      name := "Get"
      input := "Lake"
      output := "Lake"
      settings := [
        Setting.group Setting.http [("get", .string "/lakes")],
        Setting.string Setting.methodSignature "lake"] })] })]

/-- Lakes of which the depth was required, which flowed into lakes and were in regions, and which
had one more state and another signature. -/
def File.oldLakes : File where
  package := "lakes.v1"
  messages := [("Lake", {
    name := "Lake"
    fields := [
      { name := "depth", type := .primitive .double, settings := [Setting.required] },
      { name := "outflow", type := .reference "Lake", keyType := some (.primitive .string) },
      { name := "region", type := .message "Region" },
      { name := "state", type := .enum "State", optional := true, description := "Now." }]
    enums := [("State", {
      name := "State"
      isEnum := true
      fields := [
        { name := "UNDEFINED_STATE", type := .primitive .unformatted, first := true },
        { name := "ICE", type := .primitive .unformatted }] })] }),
    ("Region", { name := "Region" })]
  services := [("Lakes", {
    name := "Lakes"
    rpcs := [("Get", {
      name := "Get"
      input := "Lake"
      output := "Lake"
      settings := [Setting.string Setting.methodSignature "name"] })] })]

theorem File.merged_merge_lakes :
    newLakes.WellFormed ∧ oldLakes.WellFormed ∧
      File.Merged newLakes oldLakes (newLakes.merge oldLakes).1 :=
  have hn : newLakes.WellFormed := by decide +kernel
  have ho : oldLakes.WellFormed := by decide +kernel
  ⟨hn, ho, merged_merge hn ho⟩

end DiscoveryGrpc.Proto
