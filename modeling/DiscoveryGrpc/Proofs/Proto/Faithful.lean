import DiscoveryGrpc.Proofs.Proto.Parsed
import DiscoveryGrpc.Proofs.Proto.Resolution

/-!
# Faithful files

A legible file is faithful if its text stands for it and for no other: every part is taken for what
was written (`File.Clear`), and the name of every type is looked up as this type again. Then the
file is read back from its text, and only then (`File.exists_ofText_toText_iff`).

A file that is not clear may still be read, as `File.asRead`. If that is resolved as the file itself,
then nothing was lost of any part.
-/

namespace DiscoveryGrpc.Proto

open Resolution (lookup? resolveType resolveField resolveMessage resolveTable resolveRpc
  resolveService)

/-- A field that is read back: its text is taken for it, and its types have names that mean them. -/
@[mk_iff]
structure Field.Faithful (f : File) (m : Message) (x : Field) : Prop extends x.Clear where
  type : lookup? f m x.type.name = some x.type
  keyType : ∀ key ∈ x.keyType, lookup? f m key.name = some key

/-- A message that is read back. -/
@[mk_iff]
structure Message.Faithful (f : File) (m : Message) : Prop where
  fields : ∀ x ∈ m.fields, x.Faithful f m
  enums : ∀ e ∈ Table.values m.enums, e.OneFirst

/-- A method that is read back. -/
structure Rpc.Faithful (f : File) (r : Rpc) : Prop where
  not_stuck : r.isStuck = false
  input : f.Finds r.input
  output : f.Finds r.output

/-- A file that is read back. -/
structure File.Faithful (f : File) : Prop where
  messages : ∀ m ∈ f.messages.values, m.Faithful f
  rpcs : ∀ s ∈ f.services.values, ∀ r ∈ s.rpcs.values, r.Faithful f

instance (x : Field) : Decidable x.Clear := decidable_of_iff' _ (Field.clear_iff x)

instance (e : Message) : Decidable e.OneFirst :=
  inferInstanceAs (Decidable (e.fields ≠ [] → (e.fields.filter (·.first)).length = 1))

instance (f : File) (m : Message) (x : Field) : Decidable (x.Faithful f m) :=
  decidable_of_iff' _ (Field.faithful_iff f m x)

instance (f : File) (m : Message) : Decidable (m.Faithful f) :=
  decidable_of_iff' _ (Message.faithful_iff f m)

/-! ## Faithful files are read back -/

theorem Message.Faithful.clear {f : File} {m : Message} (h : m.Faithful f) : m.Clear where
  fields x hx := (h.fields x hx).toClear
  enums := h.enums

theorem Message.Faithful.means {f : File} {m : Message} (h : m.Faithful f) : m.Means f id where
  type x hx := (h.fields x hx).type
  keyType x hx := (h.fields x hx).keyType

theorem Message.retyped_id (m : Message) : m.retyped id = m.undocumented := by
  have hfield (x : Field) : x.retyped id = x.undocumented := by
    simp [Field.retyped, Field.undocumented]
  simp [retyped, undocumented_eq, hfield]

theorem File.Faithful.clear {f : File} (h : f.Faithful) : f.Clear where
  messages m hm := (h.messages m hm).clear
  services s hs := by simpa [Service.isStuck] using fun r hr => (h.rpcs s hs r hr).not_stuck

/-- A faithful file is resolved as itself. -/
theorem File.Faithful.resolved_eq {f : File} (hf : f.Legible) (h : f.Faithful) :
    f.unresolved.resolved = .ok f.undocumented := by
  have hresolved := resolved_unresolved_of_means (g := fun _ => id)
    (fun m hm => (hf.messages m hm).distinct) (fun m hm => (h.messages m hm).means)
    fun s hs r hr => ⟨(h.rpcs s hs r hr).input, (h.rpcs s hs r hr).output⟩
  simpa [Message.retyped_id, undocumented] using hresolved

/-! ## Fields -/

theorem Message.hasEnum_asRead (m : Message) (n : String) : m.asRead.hasEnum n = m.hasEnum n :=
  Table.has_mapValues ..

theorem File.has_asRead (f : File) (n : String) :
    f.asRead.messages.has n = f.messages.has n := Table.has_mapValues ..

theorem lookup?_asRead (f : File) (m : Message) (name : String) :
    lookup? f.asRead m.asRead name = lookup? f m name := by
  refine lookup?_congr ?_ f.has_asRead ?_ m.hasEnum_asRead name <;> rfl

theorem lookup?_of_resolveType {f : File} {m : Message} {name : String} {t t' : FieldType}
    (h : resolveType f.asRead m.asRead name t.unresolved = .ok t') :
    lookup? f m t.name = some t' := by
  rw [FieldType.unresolved, resolveType, lookup?_asRead] at h
  cases hlookup : lookup? f m t.name with
  | none => simp [hlookup] at h
  | some t' => simpa [hlookup] using h

/-- A field that is resolved as itself has one label at most, and types with names that mean
them. -/
theorem of_resolveField_asRead {f : File} {m : Message} {x y : Field}
    (h : resolveField f.asRead m.asRead x.asRead = .ok y)
    (hsame : y.undocumented = x.undocumented) :
    lookup? f m x.type.name = some x.type ∧ (∀ key ∈ x.keyType, lookup? f m key.name = some key)
      ∧ ¬(x.repeated = true ∧ x.optional = true) := by
  obtain ⟨hy, htype, hkey⟩ := Resolution.of_resolveField h
  have htypes : y.type = x.type := (congrArg Field.type hsame :)
  have hkeys : y.keyType = x.keyType := (congrArg Field.keyType hsame :)
  have hoptional : y.optional = x.optional := (congrArg Field.optional hsame :)
  refine ⟨lookup?_of_resolveType (htypes ▸ htype), fun key hk => ?_, ?_⟩
  · have hasRead : x.asRead.keyType = x.keyType.map (·.unresolved) := rfl
    rw [hkeys, hasRead, Option.mem_def.1 hk] at hkey
    cases hkey with
    | some hkey => exact lookup?_of_resolveType hkey
  · have hread : y.optional = (x.optional && !x.repeated) := by rw [hy]; rfl
    rw [hread] at hoptional
    rintro ⟨hrepeated, hopt⟩
    simp [hrepeated, hopt] at hoptional

/-- If what becomes of the elements of a list looks like the list, each element becomes something
that looks like it. -/
theorem exists_of_forall₂_map {α β γ : Type} {R : α → β → Prop} {u : β → γ} {v : α → γ}
    {xs : List α} {ys : List β} (h : List.Forall₂ R xs ys) (hmap : ys.map u = xs.map v) :
    ∀ x ∈ xs, ∃ y, R x y ∧ u y = v x := by
  induction h with
  | nil => simp
  | cons hxy _ ih =>
    rw [List.map_cons, List.map_cons, List.cons.injEq] at hmap
    intro x hx
    rcases List.mem_cons.1 hx with rfl | hx
    · exact ⟨_, hxy, hmap.1⟩
    · exact ih hmap.2 x hx

theorem exists_of_resolveTable_mapValues {α β : Type} {resolve : β → Except Fault β}
    {a v : α → β} {u : β → β} {t : Table α} {t' : Table β}
    (h : resolveTable resolve (t.mapValues a) = .ok t') (hmap : t'.mapValues u = t.mapValues v) :
    ∀ x ∈ t.values, ∃ y, resolve (a x) = .ok y ∧ u y = v x := by
  intro x hx
  obtain ⟨e, he, rfl⟩ := List.mem_map.1 hx
  have hall := Resolution.forall₂_of_resolveTable h
  rw [Table.mapValues, List.forall₂_map_left_iff] at hall
  obtain ⟨e', ⟨-, hr⟩, he'⟩ := exists_of_forall₂_map hall hmap e he
  exact ⟨e'.2, hr, (Prod.mk.inj he').2⟩

/-! ## Messages -/

theorem Field.length_filter_marked {fs : List Field} (h : fs ≠ []) :
    ((marked fs).filter (·.first)).length = 1 := by
  cases fs with
  | nil => exact absurd rfl h
  | cons x fs => simp [marked, List.filter_map, Function.comp_def]

/-- An enum is read as itself only if one of its members is the first. -/
theorem Message.oneFirst_of_enumAsRead {e : Message}
    (h : e.enumAsRead.undocumented = e.undocumented) : e.OneFirst := by
  intro hne
  have hcount (fs : List Field) : ((fs.map Field.undocumented).filter (·.first)).length
      = (fs.filter (·.first)).length := by
    simp [List.filter_map, Function.comp_def, Field.undocumented]
  have hfields : e.enumAsRead.fields.map Field.undocumented = e.fields.map Field.undocumented := by
    simpa [undocumented_eq] using congrArg Message.fields h
  calc (e.fields.filter (·.first)).length
      = ((e.enumAsRead.fields.map Field.undocumented).filter (·.first)).length := by
        rw [← hcount, ← hfields]
    _ = (((Field.marked e.fields).map Field.undocumented).filter (·.first)).length := by
        rw [hcount]
        exact ((Field.sort_perm _).filter _).length_eq
    _ = 1 := by rw [hcount, Field.length_filter_marked hne]

/-- A field that is found again among the resolved ones was not skipped, and it is resolved as
itself. -/
theorem exists_resolveField_of_mem {f : File} {m : Message} (hm : m.Legible) {fields : List Field}
    (hfields : m.asRead.fields.mapM (resolveField f.asRead m.asRead) = .ok fields)
    (hsame : (Field.sort fields).map Field.undocumented = m.fields.map Field.undocumented)
    {x : Field} (hx : x ∈ m.fields) : x.isSkipped = false ∧
      ∃ y, resolveField f.asRead m.asRead x.asRead = .ok y ∧ y.undocumented = x.undocumented := by
  obtain ⟨y, hy, hyx⟩ := List.mem_map.1 (hsame ▸ List.mem_map_of_mem hx)
  obtain ⟨x', hx', hr⟩ := Resolution.exists_mem_of_forall₂ (Resolution.forall₂_of_mapM hfields) y
    ((Field.sort_perm fields).subset hy)
  obtain ⟨z, hz, rfl⟩ := List.mem_map.1 hx'
  obtain ⟨hz, hskip⟩ := List.mem_filter.1 hz
  have hname : z.name = x.name := by
    have hyname : y.name = z.asRead.name := Resolution.name_of_resolveField hr
    have hundocumented : y.undocumented.name = x.undocumented.name := congrArg Field.name hyx
    exact hyname.symm.trans hundocumented
  obtain rfl := List.inj_on_of_nodup_map hm.distinct.nodup hz hx hname
  exact ⟨by simpa using hskip, y, hr, hyx⟩

/-- A message that was read and is resolved as itself is faithful. -/
theorem Message.faithful_of_resolveMessage {f : File} {m m' : Message} (hm : m.Legible)
    (hstuck : m.isStuck = false) (h : resolveMessage f.asRead m.asRead = .ok m')
    (hsame : m'.undocumented = m.undocumented) : m.Faithful f := by
  obtain ⟨fields, hfields, h⟩ := Except.bind_eq_ok_iff.1 h
  obtain rfl := Except.ok.inj h
  rw [Message.undocumented_eq, Message.undocumented_eq, Message.mk.injEq] at hsame
  obtain ⟨-, -, -, hmap, henums⟩ := hsame
  refine ⟨fun x hx => ?_, fun e he => Message.oneFirst_of_enumAsRead ?_⟩
  · obtain ⟨hskip, y, hy, hyx⟩ := exists_resolveField_of_mem hm hfields hmap hx
    obtain ⟨htype, hkey, hboth⟩ := of_resolveField_asRead hy hyx
    have hstuck : x.isStuck = false := by simpa using List.any_eq_false.1 hstuck x hx
    exact ⟨⟨Field.type_name_of_eq_false hstuck hskip, hboth⟩, htype, hkey⟩
  · rw [Message.asRead, Table.mapValues_mapValues] at henums
    exact Table.mapValues_inj.1 henums e he

/-! ## Services -/

theorem File.finds_asRead (f : File) (name : String) : f.asRead.Finds name ↔ f.Finds name := by
  rw [Finds, has_asRead]
  rfl

theorem finds_of_resolveRpc {f : File} {r r' : Rpc} {service : String}
    (h : resolveRpc f service r.undocumented = .ok r')
    (hsame : r'.undocumented = r.undocumented) : f.Finds r.input ∧ f.Finds r.output := by
  obtain ⟨input, hinput, h⟩ := Except.bind_eq_ok_iff.1 h
  obtain ⟨output, houtput, h⟩ := Except.bind_eq_ok_iff.1 h
  obtain rfl := Except.ok.inj h
  have hin : input = r.input := congrArg Rpc.input hsame
  have hout : output = r.output := congrArg Rpc.output hsame
  exact ⟨Resolution.resolveRpcMessage_eq_ok_iff.1 (hin ▸ hinput),
    Resolution.resolveRpcMessage_eq_ok_iff.1 (hout ▸ houtput)⟩

theorem finds_of_resolveService {f : File} {s s' : Service}
    (h : resolveService f s.undocumented = .ok s') (hsame : s'.undocumented = s.undocumented) :
    ∀ r ∈ s.rpcs.values, f.Finds r.input ∧ f.Finds r.output := by
  intro r hr
  obtain ⟨rpcs, hrpcs, h⟩ := Except.bind_eq_ok_iff.1 h
  obtain rfl := Except.ok.inj h
  have hmap : rpcs.mapValues Rpc.undocumented = s.rpcs.mapValues Rpc.undocumented :=
    congrArg Service.rpcs hsame
  obtain ⟨r', hr', hsame⟩ := exists_of_resolveTable_mapValues hrpcs hmap r hr
  exact finds_of_resolveRpc hr' hsame

/-! ## Files -/

namespace File

variable {f : File}

/-- A file that was read and is resolved as itself is faithful. -/
theorem faithful_of_resolved {g : File} (hf : f.Legible) (hstuck : f.isStuck = false)
    (h : f.asRead.resolved = .ok g) (hsame : g.same f = true) : f.Faithful := by
  obtain ⟨hstuck, hservices⟩ := Bool.or_eq_false_iff.1 hstuck
  have hrpcs : ∀ s ∈ f.services.values, ∀ r ∈ s.rpcs.values, r.isStuck = false := by
    simpa [Service.isStuck] using hservices
  obtain ⟨messages, hm, h⟩ := Except.bind_eq_ok_iff.1 h
  obtain ⟨services, hs, h⟩ := Except.bind_eq_ok_iff.1 h
  obtain rfl := Except.ok.inj h
  have hsame := beq_iff_eq.1 hsame
  have hmmap : messages.mapValues Message.undocumented
      = f.messages.mapValues Message.undocumented := congrArg File.messages hsame
  have hsmap : services.mapValues Service.undocumented
      = f.services.mapValues Service.undocumented := congrArg File.services hsame
  constructor
  · intro m hmem
    obtain ⟨m', hm', hsame⟩ := exists_of_resolveTable_mapValues hm hmmap m hmem
    have hstuck : m.isStuck = false := by simpa using List.any_eq_false.1 hstuck m hmem
    exact Message.faithful_of_resolveMessage (hf.messages m hmem) hstuck hm' hsame
  · intro s hmem r hr
    obtain ⟨s', hs', hsame⟩ := exists_of_resolveTable_mapValues hs hsmap s hmem
    obtain ⟨hinput, houtput⟩ := finds_of_resolveService hs' hsame r hr
    exact ⟨hrpcs s hmem r hr, (f.finds_asRead _).1 hinput, (f.finds_asRead _).1 houtput⟩

/-- Of a legible file under a header of comments, the text gives this file again just if the file is
faithful. -/
theorem exists_ofText_toText_iff (hf : f.Legible)
    (hheader : Lexeme.tokens? f.source.text.toList = some []) :
    (∃ g, ofText f.toText = .ok g ∧ g.same f = true) ↔ f.Faithful := by
  obtain ⟨located, hlocated, htokens⟩ := hf.exists_tokens hheader
  have htext : ofText f.toText = ofTokens located >>= fun f => f.resolved := by
    rw [ofText, hlocated]
    rfl
  constructor
  · rintro ⟨g, hg, hsame⟩
    rw [htext, ofTokens, htokens] at hg
    cases hstuck : f.isStuck with
    | true =>
      obtain ⟨stuck, hfile⟩ := Reading.exists_file_error hf hstuck
      rw [hfile] at hg
      cases hg
    | false =>
      rw [Reading.file_tokens_asRead hf hstuck] at hg
      exact faithful_of_resolved hf hstuck hg hsame
  · intro h
    refine ⟨f.undocumented, ?_, beq_iff_eq.2 f.undocumented_undocumented⟩
    rw [htext, ofTokens, htokens, Reading.file_tokens hf h.clear]
    exact h.resolved_eq hf

end File

end DiscoveryGrpc.Proto
