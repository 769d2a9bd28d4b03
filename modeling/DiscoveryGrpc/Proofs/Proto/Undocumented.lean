import DiscoveryGrpc.Proofs.Seen
import DiscoveryGrpc.Proofs.Table
import DiscoveryGrpc.Proofs.Proto.Field
import DiscoveryGrpc.Proto.Merge

/-!
# Descriptions of messages do not matter

Descriptions of messages and fields are carried along and never looked at: what can be done with a
message can be done with the message without descriptions, and gives the same without descriptions.
So merging an earlier file into two files that differ in descriptions only gives two files that
differ in descriptions only (`File.undocumented_merge`).
-/

namespace DiscoveryGrpc

namespace Proto

/-! ## Fields -/

namespace Field

theorem insert_undocumented (f : Field) (fs : List Field) :
    f.undocumented.insert (fs.map undocumented) = (f.insert fs).map undocumented :=
  insert_map undocumented (fun _ => rfl) (fun _ => rfl) f fs

theorem sort_undocumented (fs : List Field) :
    sort (fs.map undocumented) = (sort fs).map undocumented :=
  sort_map undocumented (fun _ => rfl) (fun _ => rfl) fs

end Field

/-! ## Messages -/

namespace Message

theorem undocumented_name (m : Message) : m.undocumented.name = m.name := by
  rw [undocumented_eq]

theorem undocumented_fields (m : Message) :
    m.undocumented.fields = m.fields.map Field.undocumented := by
  rw [undocumented_eq]

theorem undocumented_enums (m : Message) :
    m.undocumented.enums = Table.mapValues undocumented m.enums := by
  rw [undocumented_eq]

theorem undocumented_withFields (m : Message) (fs : List Field) :
    ({ m with fields := fs } : Message).undocumented =
      { m.undocumented with fields := fs.map Field.undocumented } := by
  rw [undocumented_eq, undocumented_eq]

theorem undocumented_withEnums (m : Message) (es : Table Message) :
    ({ m with enums := es } : Message).undocumented =
      { m.undocumented with enums := es.mapValues undocumented } := by
  rw [undocumented_eq, undocumented_eq]

theorem field?_undocumented (m : Message) (name : String) :
    m.undocumented.field? name = (m.field? name).map Field.undocumented := by
  rw [field?, undocumented_fields, List.find?_map]
  rfl

theorem addField?_undocumented (m : Message) (f : Field) :
    m.undocumented.addField? f.undocumented = (m.addField? f).map undocumented := by
  rw [addField?, addField?, field?_undocumented, Option.isSome_map]
  change (if (m.field? f.name).isSome then _ else _) = _
  split
  · rfl
  · rw [Option.map_some, undocumented_withFields, undocumented_fields, Field.insert_undocumented]

theorem addField_undocumented (m : Message) (f : Field) :
    m.undocumented.addField f.undocumented = (m.addField f).undocumented := by
  rw [addField, addField, addField?_undocumented]
  cases m.addField? f <;> rfl

theorem putField_undocumented (m : Message) (f : Field) :
    m.undocumented.putField f.undocumented = (m.putField f).undocumented := by
  have hfilter : (m.fields.map Field.undocumented).filter (·.name != f.undocumented.name) =
      (m.fields.filter (·.name != f.name)).map Field.undocumented := by
    rw [List.filter_map]
    rfl
  rw [putField, putField, undocumented_withFields, undocumented_fields, hfilter,
    Field.insert_undocumented]

theorem updateFields_undocumented {change : Field → Field}
    (h : ∀ f, change f.undocumented = (change f).undocumented) (m : Message) :
    m.undocumented.updateFields change = (m.updateFields change).undocumented := by
  have hmap : (m.fields.map Field.undocumented).map change =
      (m.fields.map change).map Field.undocumented := by
    rw [List.map_map, List.map_map]
    exact List.map_congr_left fun f _ => h f
  rw [updateFields, updateFields, undocumented_withFields, undocumented_fields, hmap,
    Field.sort_undocumented]

theorem retainFields_undocumented {keep : Field → Bool} (h : ∀ f, keep f.undocumented = keep f)
    (m : Message) : m.undocumented.retainFields keep = (m.retainFields keep).undocumented := by
  rw [retainFields, retainFields, undocumented_withFields, undocumented_fields, Field.filter_map h]

theorem addEnum_undocumented (m e : Message) :
    m.undocumented.addEnum e.undocumented = (m.addEnum e).undocumented := by
  rw [addEnum, addEnum, undocumented_withEnums, undocumented_enums, undocumented_name e,
    Table.mapValues_insert]

theorem removeEnum_undocumented (m : Message) (name : String) :
    m.undocumented.removeEnum name = (m.removeEnum name).undocumented := by
  rw [removeEnum, removeEnum, undocumented_withEnums, undocumented_enums, Table.erase_mapValues]

theorem enum?_undocumented (m : Message) (name : String) :
    m.undocumented.enum? name = (m.enum? name).map undocumented := by
  rw [enum?, undocumented_enums, Table.get?_mapValues]
  rfl

theorem hasEnum_undocumented (m : Message) (name : String) :
    m.undocumented.hasEnum name = m.hasEnum name := by
  rw [hasEnum, undocumented_enums, Table.has_mapValues]
  rfl

end Message

/-! ## Merging -/

namespace Merge

variable {m m' : Message} {o o' : Outcome}

theorem remapType?_undocumented (known : NameSet) (owner : Message) (t : FieldType) :
    remapType? known owner.undocumented t = remapType? known owner t := by
  cases t <;> simp only [remapType?, Message.hasEnum_undocumented]

theorem remapField?_undocumented (known : NameSet) (owner : Message) (f : Field) :
    remapField? known owner.undocumented f = remapField? known owner f := by
  simp only [remapField?, remapType?_undocumented]

/-- One field of the old message is merged. -/
theorem mergeField_agree (known : NameSet) (oldName : String) (old : Field)
    (h : o.message.undocumented = o'.message.undocumented) :
    (mergeField known oldName o old).message.undocumented =
      (mergeField known oldName o' old).message.undocumented := by
  have hfield : (o.message.field? old.name).map Field.undocumented =
      (o'.message.field? old.name).map Field.undocumented := by
    rw [← Message.field?_undocumented, h, Message.field?_undocumented]
  have hremap : remapField? known o.message old = remapField? known o'.message old := by
    rw [← remapField?_undocumented, h, remapField?_undocumented]
  rw [mergeField, mergeField, hremap]
  rcases none_or_some_of_map_eq hfield with ⟨hf, hf'⟩ | ⟨new, new', hf, hf', hnew⟩
  · rw [hf, hf']
    cases remapField? known o'.message old with
    | none => exact h
    | some f =>
      change (o.message.addField f).undocumented = (o'.message.addField f).undocumented
      rw [← Message.addField_undocumented, h, Message.addField_undocumented]
  · rw [hf, hf']
    cases remapField? known o'.message old with
    | none => exact h
    | some f =>
      have hsupersedes : supersedes old new = supersedes old new' := by
        change supersedes old new.undocumented = supersedes old new'.undocumented
        rw [hnew]
      dsimp only
      rw [hsupersedes]
      split
      · change (o.message.putField { f with description := new.description }).undocumented =
          (o'.message.putField { f with description := new'.description }).undocumented
        rw [← Message.putField_undocumented, h, ← Message.putField_undocumented]
        rfl
      · exact h

theorem foldl_mergeField_agree (known : NameSet) (oldName : String) (fs : List Field)
    (h : o.message.undocumented = o'.message.undocumented) :
    (fs.foldl (mergeField known oldName) o).message.undocumented =
      (fs.foldl (mergeField known oldName) o').message.undocumented := by
  induction fs generalizing o o' with
  | nil => exact h
  | cons f fs ih => exact ih (mergeField_agree known oldName f h)

mutual

/-- An old message is merged. -/
theorem mergeMessage_agree (known : NameSet) : (old : Message) → (o o' : Outcome) →
    o.message.undocumented = o'.message.undocumented →
    (mergeMessage known o old).message.undocumented =
      (mergeMessage known o' old).message.undocumented
  | ⟨name, _, _, fields, enums⟩, o, o', h => by
    rw [mergeMessage, mergeMessage]
    exact foldl_mergeField_agree known name fields (mergeEnums_agree known enums o o' h)

theorem mergeEnums_agree (known : NameSet) : (olds : List (String × Message)) → (o o' : Outcome) →
    o.message.undocumented = o'.message.undocumented →
    (mergeEnums known o olds).message.undocumented =
      (mergeEnums known o' olds).message.undocumented
  | [], _, _, h => h
  | (_, old) :: rest, o, o', h => by
    have henum : (o.message.enum? old.name).map Message.undocumented =
        (o'.message.enum? old.name).map Message.undocumented := by
      rw [← Message.enum?_undocumented, h, Message.enum?_undocumented]
    rw [mergeEnums, mergeEnums]
    rcases none_or_some_of_map_eq henum with ⟨he, he'⟩ | ⟨new, new', he, he', hnew⟩
    · rw [he, he']
      exact mergeEnums_agree known rest o o' h
    · rw [he, he']
      refine mergeEnums_agree known rest _ _ ?_
      have hmerged := mergeMessage_agree known old { o with message := new }
        { o' with message := new' } hnew
      have henums : Table.mapValues Message.undocumented o.message.enums =
          Table.mapValues Message.undocumented o'.message.enums := by
        rw [← Message.undocumented_enums, h, Message.undocumented_enums]
      rw [Message.undocumented_withEnums, Message.undocumented_withEnums, h, Table.mapValues_insert,
        Table.mapValues_insert, henums, hmerged]

end

/-- An old message is merged into those of a file. -/
theorem mergeInto_agree (known : NameSet) (old : Message) {p p' : Progress}
    (h : p.messages.mapValues Message.undocumented = p'.messages.mapValues Message.undocumented) :
    (mergeInto known p old).messages.mapValues Message.undocumented =
      (mergeInto known p' old).messages.mapValues Message.undocumented := by
  have hget : (p.messages.get? old.name).map Message.undocumented =
      (p'.messages.get? old.name).map Message.undocumented := by
    rw [← Table.get?_mapValues, h, Table.get?_mapValues]
  rw [mergeInto, mergeInto]
  rcases none_or_some_of_map_eq hget with ⟨hp, hp'⟩ | ⟨new, new', hp, hp', hnew⟩
  · rw [hp, hp']
    exact h
  · rw [hp, hp']
    have hmerged := mergeMessage_agree known old ⟨new, p.restored, p.log⟩
      ⟨new', p'.restored, p'.log⟩ hnew
    dsimp only
    rw [Table.mapValues_insert, Table.mapValues_insert, h, hmerged]

theorem foldl_mergeInto_agree (known : NameSet) (olds : List Message) {p p' : Progress}
    (h : p.messages.mapValues Message.undocumented = p'.messages.mapValues Message.undocumented) :
    (olds.foldl (mergeInto known) p).messages.mapValues Message.undocumented =
      (olds.foldl (mergeInto known) p').messages.mapValues Message.undocumented := by
  induction olds generalizing p p' with
  | nil => exact h
  | cons old olds ih => exact ih (mergeInto_agree known old h)

theorem foldl_mergeRpc_undocumented (olds : List Rpc) (rpcs : Table Rpc) :
    olds.foldl mergeRpc (rpcs.mapValues Rpc.undocumented) =
      (olds.foldl mergeRpc rpcs).mapValues Rpc.undocumented := by
  induction olds generalizing rpcs with
  | nil => rfl
  | cons old olds ih =>
    have hone : mergeRpc (rpcs.mapValues Rpc.undocumented) old =
        (mergeRpc rpcs old).mapValues Rpc.undocumented := by
      refine Table.modify_mapValues (fun r => ?_) rpcs old.name
      rfl
    rw [List.foldl_cons, hone, ih, List.foldl_cons]

theorem foldl_mergeService_undocumented (olds : List Service) (services : Table Service) :
    olds.foldl mergeService (services.mapValues Service.undocumented) =
      (olds.foldl mergeService services).mapValues Service.undocumented := by
  induction olds generalizing services with
  | nil => rfl
  | cons old olds ih =>
    have hone : mergeService (services.mapValues Service.undocumented) old =
        (mergeService services old).mapValues Service.undocumented :=
      Table.modify_mapValues (fun s => congrArg (fun rpcs => { s with description := "", rpcs })
        (foldl_mergeRpc_undocumented old.rpcs.values s.rpcs)) services old.name
    rw [List.foldl_cons, hone, ih, List.foldl_cons]

end Merge

/-- Merging the same file into two that differ in descriptions only gives two that differ in
descriptions only. -/
theorem File.undocumented_merge {f f' : File} (h : f.undocumented = f'.undocumented) (old : File) :
    (f.merge old).1.undocumented = (f'.merge old).1.undocumented := by
  have hmessages : f.messages.mapValues Message.undocumented =
      f'.messages.mapValues Message.undocumented := congrArg (·.messages) h
  have hservices : f.services.mapValues Service.undocumented =
      f'.services.mapValues Service.undocumented := congrArg (·.services) h
  have hnames : f.messages.names = f'.messages.names := by
    rw [← Table.names_mapValues Message.undocumented, hmessages, Table.names_mapValues]
  have hpackage : f.package = f'.package := congrArg (·.package) h
  have hsettings : f.settings = f'.settings := congrArg (·.settings) h
  have hmerged := @Merge.foldl_mergeInto_agree f.messages.names old.messages.values
    { messages := f.messages } { messages := f'.messages } hmessages
  simp only [merge, undocumented, hpackage, hsettings]
  rw [← Merge.foldl_mergeService_undocumented, hservices, Merge.foldl_mergeService_undocumented,
    hmerged, hnames]

end Proto

end DiscoveryGrpc
