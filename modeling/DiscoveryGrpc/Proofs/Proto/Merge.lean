import DiscoveryGrpc.Proofs.Overlay
import DiscoveryGrpc.Proofs.Proto.WellFormed
import DiscoveryGrpc.Proto.Merge

/-!
# What merging computes

Merging goes through the old fields one after another and changes the new message as it goes. What
becomes of a field depends on the old and the new field of that name alone: `mergedField?` is that
function, and `field?_merged` says that the message has what it gives. The enums of a message, the
messages of a file and its services are overlaid by the old ones (`overlaid_enums`,
`overlaid_messages`, `overlaid_services`).

`merged` is the message that comes of merging. What has been counted and noted before does not
matter to it (`mergeMessage_congr`).
-/

namespace DiscoveryGrpc.Proto

/-! ## Types that exist -/

/-- Whether there is what a type names: a message among the known ones, an enum nested in the
message of the field. A reference can only mean a message. -/
def FieldType.Available (known : NameSet) (owner : Message) : FieldType → Prop
  | .primitive _ => True
  | .message name | .reference name => name ∈ known
  | .enum name => owner.hasEnum name = true

/-- The type with a reference taken for a message. -/
def FieldType.unreferenced : FieldType → FieldType
  | .reference name => .message name
  | t => t

/-- Whether there is what the types of a field name. -/
def Field.Available (known : NameSet) (owner : Message) (f : Field) : Prop :=
  f.type.Available known owner ∧ ∀ key ∈ f.keyType, key.Available known owner

/-- The field with references taken for messages. -/
def Field.unreferenced (f : Field) : Field :=
  { f with type := f.type.unreferenced, keyType := f.keyType.map FieldType.unreferenced }

/-- Whether an old field has more options than a new one, or another optionality. -/
def Field.Supersedes (old new : Field) : Prop :=
  new.settings.length < old.settings.length ∨ old.optional ≠ new.optional

section Available

variable {known : NameSet} {owner : Message}

@[simp]
theorem FieldType.available_unreferenced {t : FieldType} :
    t.unreferenced.Available known owner ↔ t.Available known owner := by
  cases t <;> rfl

@[simp]
theorem FieldType.unreferenced_unreferenced (t : FieldType) :
    t.unreferenced.unreferenced = t.unreferenced := by
  cases t <;> rfl

theorem Field.Available.unreferenced {f : Field} (h : f.Available known owner) :
    f.unreferenced.Available known owner := by
  refine ⟨FieldType.available_unreferenced.2 h.1, fun key hkey => ?_⟩
  obtain ⟨k, hk, rfl⟩ := Option.map_eq_some_iff.1 hkey
  exact FieldType.available_unreferenced.2 (h.2 k hk)

@[simp]
theorem Field.unreferenced_unreferenced (f : Field) :
    f.unreferenced.unreferenced = f.unreferenced := by
  simp [Field.unreferenced, Function.comp_def]

end Available

/-- A field does not supersede one that has its options and its optionality. -/
theorem Field.not_supersedes {f g : Field} (hsettings : f.settings = g.settings)
    (hoptional : f.optional = g.optional) : ¬f.Supersedes g := by
  rintro (h | h)
  · rw [hsettings] at h
    exact Nat.lt_irrefl _ h
  · exact h hoptional

namespace Merge

variable {known : NameSet} {owner : Message}

theorem remapType?_of_available {t : FieldType} (h : t.Available known owner) :
    remapType? known owner t = some t.unreferenced := by
  cases t with
  | primitive p => rfl
  | reference name => exact if_pos (List.contains_iff_mem.2 h)
  | message name => exact if_pos (List.contains_iff_mem.2 h)
  | enum name => exact if_pos h

theorem remapType?_of_not_available {t : FieldType} (h : ¬t.Available known owner) :
    remapType? known owner t = none := by
  cases t with
  | primitive p => exact absurd trivial h
  | reference name => exact if_neg fun hc => h (List.contains_iff_mem.1 hc)
  | message name => exact if_neg fun hc => h (List.contains_iff_mem.1 hc)
  | enum name => exact if_neg h

theorem remapField?_of_available {f : Field} (h : f.Available known owner) :
    remapField? known owner f = some f.unreferenced := by
  rw [remapField?, remapType?_of_available h.1, Field.unreferenced]
  cases hkey : f.keyType with
  | none => rfl
  | some key =>
    have hk := remapType?_of_available (h.2 key hkey)
    simp only [hk]
    rfl

theorem remapField?_of_not_available {f : Field} (h : ¬f.Available known owner) :
    remapField? known owner f = none := by
  rw [remapField?]
  by_cases ht : f.type.Available known owner
  · rw [remapType?_of_available ht]
    cases hkey : f.keyType with
    | none => exact absurd ⟨ht, by simp [hkey]⟩ h
    | some key =>
      have hk : ¬key.Available known owner := fun hk => h ⟨ht, by simpa [hkey] using hk⟩
      simp only [remapType?_of_not_available hk]
      rfl
  · rw [remapType?_of_not_available ht]
    rfl

theorem supersedes_iff {old new : Field} : supersedes old new = true ↔ old.Supersedes new := by
  simp [supersedes, Field.Supersedes]

theorem remapType?_congr {owner' : Message} (h : ∀ n, owner.hasEnum n = owner'.hasEnum n)
    (t : FieldType) : remapType? known owner t = remapType? known owner' t := by
  cases t with
  | enum name => simp only [remapType?, h]
  | _ => rfl

theorem remapField?_congr {owner' : Message} (h : ∀ n, owner.hasEnum n = owner'.hasEnum n)
    (f : Field) : remapField? known owner f = remapField? known owner' f := by
  simp only [remapField?, remapType?_congr h]

theorem name_of_remapField? {old f : Field} (h : remapField? known owner old = some f) :
    f.name = old.name := by
  by_cases ha : old.Available known owner
  · rw [remapField?_of_available ha] at h
    exact Option.some.inj h ▸ rfl
  · rw [remapField?_of_not_available ha] at h
    cases h

/-! ## Fields -/

/-- The old field as it comes back into a message that has this field under its name, if it comes
back. -/
def comeback? (known : NameSet) (owner : Message) (new : Option Field) (old : Field) :
    Option Field :=
  match new with
  | none => remapField? known owner old
  | some new =>
    if supersedes old new then
      (remapField? known owner old).map ({ · with description := new.description })
    else none

/-- What merging makes of the fields of one name. -/
def mergedField? (known : NameSet) (owner : Message) (new old : Option Field) : Option Field :=
  (old.bind (comeback? known owner new)).or new

@[simp]
theorem mergedField?_none (new : Option Field) : mergedField? known owner new none = new := rfl

section MergedField

variable {f g : Field}

theorem mergedField?_restored (h : f.Available known owner) :
    mergedField? known owner none (some f) = some f.unreferenced := by
  rw [mergedField?, Option.bind_some, comeback?, remapField?_of_available h]
  rfl

theorem mergedField?_gone (h : ¬f.Available known owner) :
    mergedField? known owner none (some f) = none := by
  rw [mergedField?, Option.bind_some, comeback?, remapField?_of_not_available h]
  rfl

theorem mergedField?_superseded (hs : f.Supersedes g) (h : f.Available known owner) :
    mergedField? known owner (some g) (some f)
      = some { f.unreferenced with description := g.description } := by
  rw [mergedField?, Option.bind_some, comeback?, if_pos (supersedes_iff.2 hs),
    remapField?_of_available h]
  rfl

theorem mergedField?_untouched (h : ¬(f.Supersedes g ∧ f.Available known owner)) :
    mergedField? known owner (some g) (some f) = some g := by
  rw [mergedField?, Option.bind_some, comeback?]
  by_cases hs : f.Supersedes g
  · rw [if_pos (supersedes_iff.2 hs), remapField?_of_not_available fun ha => h ⟨hs, ha⟩]
    rfl
  · rw [if_neg fun hsup => hs (supersedes_iff.1 hsup)]
    rfl

/-- A field is a new one, or an old one of which the types are there. -/
theorem mergedField?_cases {new old : Option Field} {x : Field}
    (h : mergedField? known owner new old = some x) : new = some x ∨ ∃ f ∈ old,
      f.Available known owner ∧ ∃ description, x = { f.unreferenced with description } := by
  cases old with
  | none => exact .inl h
  | some f =>
    cases new with
    | none =>
      by_cases ha : f.Available known owner
      · rw [mergedField?_restored ha] at h
        exact .inr ⟨f, rfl, ha, f.description, (Option.some.inj h).symm⟩
      · rw [mergedField?_gone ha] at h
        cases h
    | some g =>
      by_cases hf : f.Supersedes g ∧ f.Available known owner
      · rw [mergedField?_superseded hf.1 hf.2] at h
        exact .inr ⟨f, rfl, hf.2, g.description, (Option.some.inj h).symm⟩
      · rw [mergedField?_untouched hf] at h
        exact .inl h

end MergedField

theorem name_of_comeback? {new : Option Field} {old f : Field}
    (h : comeback? known owner new old = some f) : f.name = old.name := by
  unfold comeback? at h
  split at h
  · exact name_of_remapField? h
  · split at h
    · obtain ⟨g, hg, rfl⟩ := Option.map_eq_some_iff.1 h
      exact (name_of_remapField? hg : g.name = old.name)
    · cases h

theorem mergedField?_congr {owner' : Message} (h : ∀ n, owner.hasEnum n = owner'.hasEnum n)
    (new old : Option Field) :
    mergedField? known owner new old = mergedField? known owner' new old := by
  have hcomeback : comeback? known owner new = comeback? known owner' new := by
    funext f
    simp only [comeback?, remapField?_congr h]
  rw [mergedField?, mergedField?, hcomeback]

/-- What comes back goes in the place of the field of its name. -/
theorem mergeField_message (known : NameSet) (oldName : String) (o : Outcome) (old : Field) :
    (mergeField known oldName o old).message
      = (comeback? known o.message (o.message.field? old.name) old).elim o.message
          o.message.putField := by
  unfold mergeField comeback?
  cases hnew : o.message.field? old.name with
  | none =>
    cases hf : remapField? known o.message old with
    | none => rfl
    | some f =>
      -- no field gives way
      have hfresh : ∀ g ∈ o.message.fields, g.name ≠ f.name := by
        rw [name_of_remapField? hf]
        exact Message.field?_eq_none.1 hnew
      have hfilter : o.message.fields.filter (·.name != f.name) = o.message.fields :=
        List.filter_eq_self.2 fun g hg => by simpa using hfresh g hg
      show o.message.addField f = o.message.putField f
      rw [Message.addField, Message.addField?_of_new hfresh, Message.putField, hfilter]
      rfl
  | some new =>
    cases hf : remapField? known o.message old with
    | none => simp
    | some f =>
      by_cases hs : supersedes old new = true
      · simp only [hs, if_true]
        rfl
      · simp only [hs]
        rfl

theorem field?_mergeField {o : Outcome} (h : Field.Distinct o.message.fields) (oldName : String)
    (old : Field) (name : String) :
    (mergeField known oldName o old).message.field? name
      = if name = old.name then mergedField? known o.message (o.message.field? name) (some old)
        else o.message.field? name := by
  rw [mergeField_message, mergedField?, Option.bind_some]
  cases hf : comeback? known o.message (o.message.field? old.name) old with
  | none =>
    by_cases hn : name = old.name
    · rw [if_pos hn, hn, hf]
      rfl
    · rw [if_neg hn]
      rfl
  | some f =>
    rw [Option.elim_some, Message.field?_putField h, name_of_comeback? hf]
    by_cases hn : name = old.name
    · rw [if_pos hn, if_pos hn, hn, hf]
      rfl
    · rw [if_neg hn, if_neg hn]

theorem distinct_mergeField {o : Outcome} (h : Field.Distinct o.message.fields) (oldName : String)
    (old : Field) : Field.Distinct (mergeField known oldName o old).message.fields := by
  rw [mergeField_message]
  cases comeback? known o.message (o.message.field? old.name) old with
  | none => exact h
  | some f => exact Message.distinct_putField h f

/-- Merging a field changes nothing but fields. -/
theorem mergeField_rest (known : NameSet) (oldName : String) (o : Outcome) (old : Field) :
    (mergeField known oldName o old).message
      = { o.message with fields := (mergeField known oldName o old).message.fields } := by
  rw [mergeField_message]
  cases comeback? known o.message (o.message.field? old.name) old with
  | none => exact o.message.eta.symm
  | some f => rfl

section Fold

variable {oldName : String} {fs : List Field}

theorem foldl_mergeField_rest (o : Outcome) :
    (fs.foldl (mergeField known oldName) o).message
      = { o.message with fields := (fs.foldl (mergeField known oldName) o).message.fields } := by
  induction fs generalizing o with
  | nil => exact o.message.eta.symm
  | cons f fs ih => rw [List.foldl_cons, ih, mergeField_rest]

theorem distinct_foldl_mergeField {o : Outcome} (h : Field.Distinct o.message.fields) :
    Field.Distinct (fs.foldl (mergeField known oldName) o).message.fields := by
  induction fs generalizing o with
  | nil => exact h
  | cons f fs ih => exact ih (distinct_mergeField h oldName f)

/-- What becomes of the fields of one name does not depend on the other old fields. -/
theorem field?_foldl_mergeField {o : Outcome} (h : Field.Distinct o.message.fields)
    (hfs : (fs.map (·.name)).Nodup) (name : String) :
    (fs.foldl (mergeField known oldName) o).message.field? name
      = mergedField? known o.message (o.message.field? name) (fs.find? (·.name == name)) := by
  induction fs generalizing o with
  | nil => rfl
  | cons f fs ih =>
    obtain ⟨hf, hfs⟩ := List.nodup_cons.1 hfs
    have henums : ∀ n, (mergeField known oldName o f).message.hasEnum n = o.message.hasEnum n := by
      intro n
      rw [mergeField_rest]
      rfl
    rw [List.foldl_cons, ih (distinct_mergeField h oldName f) hfs, field?_mergeField h,
      mergedField?_congr henums]
    by_cases hn : name = f.name
    · -- the name does not come again
      have hnone : fs.find? (·.name == name) = none := by
        rw [List.find?_eq_none]
        intro g hg hname
        exact hf (List.mem_map.2 ⟨g, hg, (beq_iff_eq.1 hname).trans hn⟩)
      rw [hnone, if_pos hn, List.find?_cons_of_pos (by simp [hn])]
      rfl
    · rw [if_neg hn, List.find?_cons_of_neg (by simpa using Ne.symm hn)]

end Fold

/-! ## Messages -/

theorem mergeField_congr {o o' : Outcome} (h : o.message = o'.message) (oldName : String)
    (old : Field) :
    (mergeField known oldName o old).message = (mergeField known oldName o' old).message := by
  rw [mergeField_message, mergeField_message, h]

theorem foldl_mergeField_congr {o o' : Outcome} (h : o.message = o'.message) (oldName : String)
    (fs : List Field) :
    (fs.foldl (mergeField known oldName) o).message
      = (fs.foldl (mergeField known oldName) o').message := by
  induction fs generalizing o o' with
  | nil => exact h
  | cons f fs ih => exact ih (mergeField_congr h oldName f)

mutual

/-- The message that comes of merging depends on the messages alone. -/
theorem mergeMessage_congr {o o' : Outcome} (h : o.message = o'.message) : (old : Message) →
    (mergeMessage known o old).message = (mergeMessage known o' old).message
  | ⟨name, _, _, fields, enums⟩ => by
    rw [mergeMessage, mergeMessage]
    exact foldl_mergeField_congr (mergeEnums_congr h enums) name fields

theorem mergeEnums_congr {o o' : Outcome} (h : o.message = o'.message) :
    (enums : List (String × Message)) →
    (mergeEnums known o enums).message = (mergeEnums known o' enums).message
  | [] => h
  | (_, old) :: rest => by
    rw [mergeEnums, mergeEnums, ← h]
    cases o.message.enum? old.name with
    | none => exact mergeEnums_congr h rest
    | some new =>
      have hnew : ({ o with message := new } : Outcome).message
          = ({ o' with message := new } : Outcome).message := rfl
      refine mergeEnums_congr ?_ rest
      simp only [mergeMessage_congr hnew old, h]

end

/-- The message that comes of merging an old message into a new one. -/
def merged (known : NameSet) (new old : Message) : Message :=
  (mergeMessage known (.start new) old).message

theorem mergeMessage_message (known : NameSet) (o : Outcome) (old : Message) :
    (mergeMessage known o old).message = merged known o.message old := by
  have hstart : o.message = (Outcome.start o.message).message := rfl
  exact mergeMessage_congr hstart old

theorem mergeEnums_message (known : NameSet) {o : Outcome}
    (h : Table.Sorted o.message.enums) (enums : Table Message) :
    (mergeEnums known o enums).message
      = { o.message with
          enums := enums.values.foldl
            (fun t old => Table.modify t old.name (merged known · old)) o.message.enums } := by
  induction enums generalizing o with
  | nil => exact o.message.eta.symm
  | cons e rest ih =>
    obtain ⟨k, old⟩ := e
    rw [mergeEnums, Table.values, List.map_cons, List.foldl_cons, ← Table.values]
    cases hnew : o.message.enum? old.name with
    | none => exact (ih h).trans (by rw [Table.modify_of_get?_eq_none _ hnew])
    | some new =>
      have hinsert := Table.insert_eq_modify h (merged known · old) hnew
      have hsorted := h.of_names (Table.names_modify o.message.enums old.name (merged known · old))
      simp only [mergeMessage_message, hinsert]
      exact ih hsorted

section Merged

variable {new old : Message}

theorem merged_eq (known : NameSet) (new old : Message) :
    merged known new old
      = (old.fields.foldl (mergeField known old.name)
          (mergeEnums known (.start new) old.enums)).message := by
  cases old
  rw [merged, mergeMessage]

/-- The new message has new fields and enums at most. -/
theorem merged_rest (hn : Table.Sorted new.enums) (old : Message) :
    merged known new old = { new with
      fields := (merged known new old).fields
      enums := (merged known new old).enums } := by
  rw [merged_eq, foldl_mergeField_rest, mergeEnums_message known hn]
  rfl

/-- The enums are those of the new message, the old ones merged into them. -/
theorem overlaid_enums (known : NameSet) (hn : Table.Sorted new.enums)
    (ho : Table.Named Message.name old.enums) :
    Table.Overlaid (fun x y z => merged known x y = z) new.enums old.enums
      (merged known new old).enums := by
  rw [merged_eq, foldl_mergeField_rest, mergeEnums_message known hn]
  exact Table.overlaid_foldl_modify ho fun _ _ _ _ => rfl

theorem hasEnum_merged (known : NameSet) (hn : Table.Sorted new.enums)
    (ho : Table.Named Message.name old.enums) (name : String) :
    (merged known new old).hasEnum name = new.hasEnum name :=
  Table.has_of_names (overlaid_enums known hn ho).names name

theorem distinct_merged (hn : new.WellFormed) (old : Message) :
    Field.Distinct (merged known new old).fields := by
  rw [merged_eq]
  refine distinct_foldl_mergeField ?_
  rw [mergeEnums_message known hn.named.sorted]
  exact hn.fields

/-- What becomes of the fields of one name. -/
theorem field?_merged (hn : new.WellFormed) (ho : old.WellFormed) (name : String) :
    (merged known new old).field? name
      = mergedField? known new (new.field? name) (old.field? name) := by
  have hmessage := mergeEnums_message known (o := .start new) hn.named.sorted old.enums
  have hfield :
      (mergeEnums known (.start new) old.enums).message.field? name = new.field? name := by
    rw [hmessage]
    rfl
  have hdistinct : Field.Distinct (mergeEnums known (.start new) old.enums).message.fields := by
    rw [hmessage]
    exact hn.fields
  have hhas : ∀ n, (mergeEnums known (.start new) old.enums).message.hasEnum n = new.hasEnum n := by
    intro n
    rw [hmessage]
    exact Table.has_of_names (Table.names_foldl_modify _ _ _ _) n
  rw [merged_eq, field?_foldl_mergeField hdistinct ho.fields.nodup, hfield, mergedField?_congr hhas]
  rfl

theorem field_cases (hn : new.WellFormed) (ho : old.WellFormed) {x : Field}
    (hx : x ∈ (merged known new old).fields) : x ∈ new.fields ∨ ∃ f ∈ old.fields,
      f.Available known new ∧ ∃ description, x = { f.unreferenced with description } := by
  have hfield := (Message.field?_eq_some_iff (distinct_merged hn old).nodup).2 ⟨hx, rfl⟩
  rw [field?_merged hn ho] at hfield
  rcases mergedField?_cases hfield with hnew | ⟨f, hf, ha, hx⟩
  · exact .inl (List.mem_of_find?_eq_some hnew)
  · exact .inr ⟨f, List.mem_of_find?_eq_some hf, ha, hx⟩

theorem wellFormed_merged (hn : new.WellFormed) (ho : old.WellFormed) :
    (merged known new old).WellFormed := by
  induction ho generalizing new with
  | @intro old hfields hnamed henums ih =>
    have hold : old.WellFormed := .intro hfields hnamed henums
    have hover := overlaid_enums known hn.named.sorted hnamed
    refine .intro (distinct_merged hn old) (hover.named hn.named ?_) ?_
    · rintro x hx y _ rfl
      rw [merged_rest (hn.enums x hx).named.sorted]
    · refine hover.forall_values hn.named.sorted hn.enums ?_
      rintro x hx y hy _ rfl
      exact ih y hy (hn.enums x hx)

end Merged

/-! ## Files -/

/-- A new service with the signatures of the rpcs of an old one. -/
def mergedService (new old : Service) : Service :=
  { new with rpcs := old.rpcs.values.foldl mergeRpc new.rpcs }

theorem overlaid_rpcs {old : Service} (ho : old.rpcs.Named Rpc.name) (new : Service) :
    Table.Overlaid (fun x y z => { x with settings := mergeSignatures y.settings x.settings } = z)
      new.rpcs old.rpcs (mergedService new old).rpcs :=
  Table.overlaid_foldl_modify ho fun _ _ _ _ => rfl

theorem foldl_mergeInto_messages (known : NameSet) (olds : List Message) {p : Progress}
    (h : p.messages.Sorted) :
    (olds.foldl (mergeInto known) p).messages
      = olds.foldl (fun t old => t.modify old.name (merged known · old)) p.messages := by
  induction olds generalizing p with
  | nil => rfl
  | cons old olds ih =>
    have hstep : (mergeInto known p old).messages
        = p.messages.modify old.name (merged known · old) := by
      unfold mergeInto
      cases hnew : p.messages.get? old.name with
      | none => exact (Table.modify_of_get?_eq_none _ hnew).symm
      | some new =>
        rw [← Table.insert_eq_modify h _ hnew]
        simp only [mergeMessage_message]
    have hsorted : (mergeInto known p old).messages.Sorted := by
      rw [hstep]
      exact h.of_names (Table.names_modify ..)
    rw [List.foldl_cons, List.foldl_cons, ih hsorted, hstep]

variable {new old : File}

theorem overlaid_messages (hn : new.messages.Sorted) (ho : old.messages.Named Message.name) :
    Table.Overlaid (fun x y z => merged new.messages.names x y = z) new.messages old.messages
      (new.merge old).1.messages := by
  let start : Progress := { messages := new.messages }
  show Table.Overlaid _ _ _ (old.messages.values.foldl (mergeInto _) start).messages
  rw [foldl_mergeInto_messages _ _ hn]
  exact Table.overlaid_foldl_modify ho fun _ _ _ _ => rfl

theorem overlaid_services (new : File) (ho : old.services.Named Service.name) :
    Table.Overlaid (fun x y z => mergedService x y = z) new.services old.services
      (new.merge old).1.services :=
  Table.overlaid_foldl_modify ho fun _ _ _ _ => rfl

theorem wellFormed_merge (hn : new.WellFormed) (ho : old.WellFormed) :
    (new.merge old).1.WellFormed := by
  have hmessages := overlaid_messages hn.messages.sorted ho.messages
  have hservices := overlaid_services new ho.services
  refine ⟨hmessages.named hn.messages ?_, ?_, hservices.named hn.services ?_, ?_⟩
  · rintro x hx y _ rfl
    rw [merged_rest (hn.wellFormed x hx).named.sorted]
  · refine hmessages.forall_values hn.messages.sorted hn.wellFormed ?_
    rintro x hx y hy _ rfl
    exact wellFormed_merged (hn.wellFormed x hx) (ho.wellFormed y hy)
  · rintro x - y _ rfl
    rfl
  · refine hservices.forall_values hn.services.sorted hn.rpcs ?_
    rintro x hx y hy _ rfl
    refine (overlaid_rpcs (ho.rpcs y hy) x).named (hn.rpcs x hx) ?_
    rintro r - r' _ rfl
    rfl

end Merge

end DiscoveryGrpc.Proto
