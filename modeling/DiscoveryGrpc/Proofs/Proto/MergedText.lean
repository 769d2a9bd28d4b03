import DiscoveryGrpc.Proofs.Proto.Faithful
import DiscoveryGrpc.Proofs.Proto.Merge
import DiscoveryGrpc.Proofs.Proto.Signatures

/-!
# The texts of merged files

Whatever the text of an earlier file was, merging it into a legible file gives a legible file
(`File.Legible.merge`): what comes back was spelled in that text. It need not give a file that is
read back, even if the new file is. Its methods are as good as before, but a field or a member of an
enum that comes back was read in a text that can say more than is ever written: a map that is
optional, an enum with no first member or with several. So the merged file is read back just if all
its messages are faithful (`File.exists_ofText_merge_iff`).
-/

namespace DiscoveryGrpc.Proto

open Merge (merged)

/-! ## Merged files are legible -/

@[simp]
theorem FieldType.name_unreferenced (t : FieldType) : t.unreferenced.name = t.name := by
  cases t <;> rfl

theorem Field.Legible.unreferenced {x : Field} (hx : x.Legible) (description : String) :
    Field.Legible { x.unreferenced with description } where
  name := hx.name
  type := by simpa [Field.unreferenced] using hx.type
  keyType key hkey := by
    obtain ⟨key, hk, rfl⟩ := Option.map_eq_some_iff.1 hkey
    simpa using hx.keyType key hk
  map_repeated hmap := hx.map_repeated (by simpa [isMap, Field.unreferenced] using hmap)
  not_first := hx.not_first
  settings := hx.settings

theorem Field.LegibleMember.unreferenced {x : Field} (hx : x.LegibleMember) (description : String) :
    Field.LegibleMember { x.unreferenced with description } where
  name := hx.name
  not_keyword := hx.not_keyword
  type := by simp [Field.unreferenced, hx.type, FieldType.unreferenced]
  keyType := by simp [Field.unreferenced, hx.keyType]
  not_repeated := hx.not_repeated
  not_optional := hx.not_optional
  settings := hx.settings

namespace Message

variable {new old : Message}

theorem LegibleEnum.merged (hn : new.LegibleEnum) (ho : old.LegibleEnum) (known : NameSet) :
    (merged known new old).LegibleEnum := by
  have hnew := hn.parsed.wellFormed
  have hold := ho.parsed.wellFormed
  constructor
  case name => rw [Merge.merged_rest hnew.named.sorted]; exact hn.name
  case isEnum => rw [Merge.merged_rest hnew.named.sorted]; exact hn.isEnum
  case no_enums =>
    have hnames := (Merge.overlaid_enums known hnew.named.sorted hold.named).names
    simpa [hn.no_enums, Table.names] using hnames
  case members =>
    intro x hx
    rcases Merge.field_cases hnew hold hx with hx | ⟨y, hy, -, description, rfl⟩
    · exact hn.members x hx
    · exact (ho.members y hy).unreferenced description
  case distinct => exact Merge.distinct_merged hnew old

theorem Legible.merged (hn : new.Legible) (ho : old.Legible) (known : NameSet) :
    (merged known new old).Legible := by
  have hnew := hn.parsed.wellFormed
  have hold := ho.parsed.wellFormed
  have hover := Merge.overlaid_enums known hn.named.sorted ho.named
  constructor
  case not_enum => rw [Merge.merged_rest hn.named.sorted]; exact hn.not_enum
  case name => rw [Merge.merged_rest hn.named.sorted]; exact hn.name
  case fields =>
    intro x hx
    rcases Merge.field_cases hnew hold hx with hx | ⟨y, hy, -, description, rfl⟩
    · exact hn.fields x hx
    · exact (ho.fields y hy).unreferenced description
  case distinct => exact Merge.distinct_merged hnew old
  case named => exact (Merge.wellFormed_merged hnew hold).named
  case enums =>
    refine hover.forall_values hn.named.sorted hn.enums ?_
    rintro x hx y hy _ rfl
    exact (hn.enums x hx).merged (ho.enums y hy) known

end Message

theorem Service.Legible.merged {new old : Service} (hn : new.Legible) (ho : old.Legible) :
    (Merge.mergedService new old).Legible := by
  have hover := Merge.overlaid_rpcs ho.named new
  refine { hn with named := ?_, rpcs := ?_ }
  · refine hover.named hn.named ?_
    rintro x - y _ rfl
    rfl
  · refine hover.forall_values hn.named.sorted hn.rpcs ?_
    rintro x hx y hy _ rfl
    refine { hn.rpcs x hx with settings := fun s hs => ?_ }
    rcases Merge.mem_or_mem_of_mem_mergeSignatures hs with hs | hs
    · exact (hn.rpcs x hx).settings s hs
    · exact (ho.rpcs y hy).settings s (List.mem_of_mem_filter hs)

/-- Merging legible files gives a legible file. -/
theorem File.Legible.merge {new old : File} (hn : new.Legible) (ho : old.Legible) :
    (new.merge old).1.Legible := by
  have hwell := Merge.wellFormed_merge hn.parsed.wellFormed ho.parsed.wellFormed
  have hmessages := Merge.overlaid_messages hn.namedMessages.sorted ho.namedMessages
  have hservices := Merge.overlaid_services new ho.namedServices
  constructor
  case package => exact hn.package
  case settings => exact hn.settings
  case namedMessages => exact hwell.messages
  case messages =>
    refine hmessages.forall_values hn.namedMessages.sorted hn.messages ?_
    rintro x hx y hy _ rfl
    exact (hn.messages x hx).merged (ho.messages y hy) _
  case namedServices => exact hwell.services
  case services =>
    refine hservices.forall_values hn.namedServices.sorted hn.services ?_
    rintro x hx y hy _ rfl
    exact (hn.services x hx).merged (ho.services y hy)

/-! ## When they are read back -/

namespace File

variable {new old : File}

/-- Merging changes neither the package nor the names of the messages. -/
theorem finds_merge (hn : new.Legible) (ho : old.Legible) (name : String) :
    (new.merge old).1.Finds name ↔ new.Finds name := by
  have hnames := (Merge.overlaid_messages hn.namedMessages.sorted ho.namedMessages).names
  rw [Finds, Finds, Table.has_of_names hnames]
  rfl

/-- The methods of a faithful file are faithful in the merged one. -/
theorem Faithful.rpcs_merge (hn : new.Legible) (ho : old.Legible) (h : new.Faithful) :
    ∀ s ∈ (new.merge old).1.services.values, ∀ r ∈ s.rpcs.values,
      r.Faithful (new.merge old).1 := by
  have hnew : ∀ s ∈ new.services.values, ∀ r ∈ s.rpcs.values, r.Faithful (new.merge old).1 := by
    intro s hs r hr
    have hr := h.rpcs s hs r hr
    exact ⟨hr.not_stuck, (finds_merge hn ho _).2 hr.input, (finds_merge hn ho _).2 hr.output⟩
  refine (Merge.overlaid_services new ho.namedServices).forall_values hn.namedServices.sorted
    hnew ?_
  rintro x hx y hy _ rfl
  refine (Merge.overlaid_rpcs (ho.services y hy).named x).forall_values
    (hn.services x hx).named.sorted (hnew x hx) ?_
  rintro r hr r' - _ rfl
  exact { hnew x hx r hr with }

/-- If a file is read back from its text, the file merged with what an earlier text spells is read
back just if every message of it is faithful. -/
theorem exists_ofText_merge_iff {text : String}
    (hheader : Lexeme.tokens? new.source.text.toList = some [])
    (hnew : ∃ g, ofText new.toText = .ok g ∧ g.same new = true)
    (hold : ofText text = .ok old) :
    (∃ g, ofText (new.merge old).1.toText = .ok g ∧ g.same (new.merge old).1 = true)
      ↔ ∀ m ∈ (new.merge old).1.messages.values, m.Faithful (new.merge old).1 := by
  obtain ⟨g, hg, hsame⟩ := hnew
  have ho := legible_of_ofText hold
  have hn : new.Legible := (legible_of_ofText hg).of_same hsame
  have hfaithful := (exists_ofText_toText_iff hn hheader).1 ⟨g, hg, hsame⟩
  rw [exists_ofText_toText_iff (hn.merge ho) hheader]
  exact ⟨fun h => h.messages, fun h => ⟨h, hfaithful.rpcs_merge hn ho⟩⟩

end File

end DiscoveryGrpc.Proto
