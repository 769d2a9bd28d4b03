import DiscoveryGrpc.Proofs.Run.Basic
import DiscoveryGrpc.Proofs.Proto.RoundTrip

/-!
# Reading back what a run wrote

The identifiers of a document may hold any characters, and its names are made of their letters and
digits. If the first of these is always a letter, all names in the file of a run have the form that
the language asks for. The file is then writable, so its text is read back, and it is read back as
it was if and only if no enum shadows a message (`exists_ofText_of_convert`).

Nothing keeps a run from shadowing: `exists_not_same_shadowingLakes` is a document that has a message
with the name of an enum, both used side by side.
-/

namespace DiscoveryGrpc

open Proto Api

/-! ## Identifiers that begin with letters -/

namespace Api

/-- All identifiers in the head of a schema begin with letters. -/
@[mk_iff]
structure SchemaHead.Lettered (h : SchemaHead) : Prop where
  key : BeginsWithLetter h.key
  id : BeginsWithLetter h.id
  reference : BeginsWithLetter h.reference

/-- All identifiers of a method and of its schemas begin with letters. -/
@[mk_iff]
structure Method.Lettered (m : Method) : Prop where
  segments : ∀ segment ∈ m.idSegments, BeginsWithLetter segment
  parameters : Schema.AllTable SchemaHead.Lettered m.parameters
  request : Schema.AllOption SchemaHead.Lettered m.request
  response : Schema.AllOption SchemaHead.Lettered m.response

/-- All identifiers of a document begin with letters. -/
@[mk_iff]
structure Document.Lettered (d : Document) : Prop where
  schemas : Schema.AllTable SchemaHead.Lettered d.schemas
  resources : ∀ resource ∈ d.resources, BeginsWithLetter resource.1
  methods : ∀ resource ∈ d.resources, ∀ m ∈ resource.2, m.Lettered

instance (h : SchemaHead) : Decidable h.Lettered := decidable_of_iff' _ h.lettered_iff

instance (m : Method) : Decidable m.Lettered := decidable_of_iff' _ m.lettered_iff

instance (d : Document) : Decidable d.Lettered := decidable_of_iff' _ d.lettered_iff

end Api

/-- The names that the language of proto files allows. -/
def Naming.proto : Naming where
  type n := isTypeName n = true
  field n := isName n = true

theorem Api.SchemaHead.Lettered.identifier {h : SchemaHead} (hh : h.Lettered) :
    BeginsWithLetter h.identifier := by
  unfold SchemaHead.identifier
  split
  · exact hh.key
  · exact hh.id

theorem admits_of_lettered {h : SchemaHead} (hh : h.Lettered) : Naming.proto.Admits h where
  type _ hn := isTypeName_messageName hn hh.identifier
  field _ hn := isName_fieldName hn hh.key

/-- The name of a message begins with a letter. -/
theorem beginsWithLetter_of_isTypeName {s : String} (h : isTypeName s = true) :
    BeginsWithLetter s := by
  intro c hc
  unfold isTypeName at h
  split at h
  · cases h
  · rename_i first rest hs
    have hupper := (Bool.and_eq_true_iff.1 h).1
    have halpha : first.isAlpha = true := by simp [Char.isAlpha, hupper]
    rw [hs, List.find?_cons_of_pos (by simp [Char.isAlphanum, halpha])] at hc
    exact Option.some.inj hc ▸ halpha

theorem beginsWithLetter_bodyMessage {s : Schema} (hs : s.toSchemaHead.Lettered) {type : String}
    (h : Conversion.bodyMessage s = .ok type) : BeginsWithLetter type := by
  refine beginsWithLetter_of_isTypeName (isTypeName_messageName h ?_)
  split
  · exact hs.reference
  · exact hs.identifier

theorem beginsWithLetter_verb {m : Method} (hm : m.Lettered) : BeginsWithLetter m.verb := by
  unfold Method.verb
  cases h : m.idSegments with
  | nil => nofun
  | cons verb segments => exact hm.segments verb (h ▸ List.mem_cons_self)

theorem admitsMethod_of_lettered {m : Method} (hm : m.Lettered) : Naming.proto.AdmitsMethod m where
  parameters := Schema.AllTable.imp (fun _ => admits_of_lettered) _ hm.parameters
  rpc verb hverb := by
    have hclean := Name.clean_of_ofIdentifier? hverb
    have hletter := Name.beginsWithLetter_of_ofIdentifier? hverb (beginsWithLetter_verb hm)
    exact ⟨Name.isTypeName_upperCamel hclean hletter,
      fun more hmore => Name.isTypeName_upperCamel (hclean.append hmore) (hletter.append more)⟩
  body s hs type name htype hname := by
    have hall : Schema.All SchemaHead.Lettered s := by
      have hrequest := hm.request
      rwa [hs] at hrequest
    have hletter := Name.beginsWithLetter_of_ofIdentifier? hname
      (beginsWithLetter_bodyMessage hall.head htype)
    exact Name.isName_lowerUnderscore ((Name.clean_of_ofIdentifier? hname).append
      (Name.clean_ofWord (by decide) (by decide))) (hletter.append _)

theorem admitsDocument_of_lettered {d : Document} (hd : d.Lettered) :
    Naming.proto.AdmitsDocument d where
  schemas := Schema.AllTable.imp (fun _ => admits_of_lettered) _ hd.schemas
  resources resource hresource :=
    { service := fun _ hname => isTypeName_serviceName hname (hd.resources resource hresource)
      methods := fun m hm => admitsMethod_of_lettered (hd.methods resource hresource m hm) }

/-! ## The file of a run -/

theorem isWord_append {s t : String} (hs : Lexeme.isWord s = true)
    (ht : ∀ c ∈ t.toList, Lexeme.isWordPart c = true) : Lexeme.isWord (s ++ t) = true := by
  unfold Lexeme.isWord at hs ⊢
  rw [String.toList_append]
  split at hs
  · cases hs
  · rename_i c cs hcs
    obtain ⟨hc, hcs'⟩ := Bool.and_eq_true_iff.1 hs
    rw [hcs, List.cons_append]
    refine Bool.and_eq_true_iff.2 ⟨hc, List.all_eq_true.2 fun x hx => ?_⟩
    exact (List.mem_append.1 hx).elim (List.all_eq_true.1 hcs' x) (ht x)

theorem isWordPart_of_mem_packagePart {s : String} {c : Char}
    (h : c ∈ (Conversion.packagePart s).toList) : Lexeme.isWordPart c = true := by
  rw [Conversion.packagePart, String.toList_ofList] at h
  obtain ⟨x, -, rfl⟩ := List.mem_map.1 h
  split
  · rename_i hx
    simp [Lexeme.isWordPart, Name.isAlphanum_toLower hx]
  · decide

/-- A package of which the prefix is a dotted identifier is one. -/
theorem isWord_packageName {opts : Options} (h : Lexeme.isWord opts.packagePrefix = true)
    (d : Document) : Lexeme.isWord (Conversion.packageName opts d) = true := by
  have hne : opts.packagePrefix.isEmpty = false := by
    cases hempty : opts.packagePrefix.isEmpty with
    | false => rfl
    | true =>
      rw [String.isEmpty_iff.1 hempty] at h
      exact absurd h (by decide)
  have hdot : Lexeme.isWordPart '.' = true := by decide
  rw [Conversion.packageName, hne, if_neg (by simp)]
  refine isWord_append (isWord_append h (by simp [hdot])) fun c hc => ?_
  simp only [String.toList_append, List.mem_append] at hc
  obtain (hc | hc) | hc := hc
  · exact isWordPart_of_mem_packagePart hc
  · simp at hc
    exact hc ▸ hdot
  · exact isWordPart_of_mem_packagePart hc

theorem onLines_sourceOf {d : Document}
    (h : ∀ text ∈ [d.name, d.version, d.revision], '\n' ∉ text.toList) :
    (Conversion.sourceOf d).OnLines := by
  simp only [List.forall_mem_cons] at h
  obtain ⟨hname, hversion, hrevision, -⟩ := h
  simp [Source.OnLines, Conversion.sourceOf, toString, hname, hversion, hrevision]

theorem Proto.FieldType.Drafted.known {f : File} {m : Message} {t : FieldType}
    (h : t.Drafted f.messages m) (hresolved : ∀ n, t ≠ .reference n) : t.Known f m := by
  cases t with
  | reference n => exact hresolved n rfl
  | _ => exact h

theorem writable_of_settled {f : File} {m : Message} (h : Conversion.Settled .proto f.messages m) :
    m.Writable f := by
  refine { h.drafted with fields := fun x hx => ?_, enums := fun e he => ?_ }
  · have hdrafted := h.drafted.fields x hx
    refine { hdrafted with
      type := FieldType.Drafted.known hdrafted.type (h.resolved x hx)
      keyType := fun key hkey => ?_
      settings := fun s hs => (hdrafted.settings s hs).writable }
    rw [hdrafted.keyType key hkey]
    exact Primitive.noConfusion
  · have hdrafted := h.drafted.enums e he
    exact { hdrafted with name := hdrafted.name }

/-- A file whose types are all known, with names of the right form, is writable. -/
theorem writable_of_settledFile {f : File} (h : Conversion.SettledFile .proto f)
    (hpackage : Lexeme.isWord f.package = true) (hsource : f.source.OnLines) : f.Writable where
  package := .inr hpackage
  source := hsource
  settings s hs := (h.settings s hs).writable
  namedMessages := h.named
  messages m hm := writable_of_settled (h.messages m hm)
  namedServices := h.namedServices
  services s hs := by
    have hdrafted := h.services s hs
    refine {
      name := isName_of_isTypeName hdrafted.name
      settings := fun x hx => (hdrafted.settings x hx).writable
      named := hdrafted.named
      rpcs := fun r hr => ?_ }
    obtain ⟨hinput, houtput⟩ := h.rpcs s hs r hr
    exact {
      name := isName_of_isTypeName (hdrafted.rpcs r hr).name
      input := hinput
      output := houtput
      settings := fun x hx => ((hdrafted.rpcs r hr).settings x hx).writable }

/-- The file of a document whose identifiers begin with letters is writable. -/
theorem writable_of_convert {document : String} {opts : Options} {d : Document} {o : Output}
    (hd : Document.ofText document = .ok d) (hletters : d.Lettered)
    (hlines : ∀ text ∈ [d.name, d.version, d.revision], '\n' ∉ text.toList)
    (hpackage : Lexeme.isWord opts.packagePrefix = true)
    (h : (convert { document, options := opts }).1 = .ok o) : o.file.Writable := by
  obtain ⟨d', registry, f, w, hd', hregistry, hf, hmerged, -⟩ := convert_eq_ok_iff.1 h
  obtain rfl := Except.ok.inj (hd.symm.trans hd')
  obtain rfl := Except.ok.inj hregistry
  obtain rfl := Except.ok.inj hmerged
  have hempty : Registry.empty.Allowed .proto := ⟨by simp [Registry.empty, Table.values],
    by simp [Registry.empty, Table.values]⟩
  have hsettled := Conversion.settled_of_fileOf (admitsDocument_of_lettered hletters) hempty hf
  obtain ⟨_, _, -, -, -, -, hfile⟩ := Conversion.fileOf_eq_ok hf
  rw [hfile] at hsettled ⊢
  exact writable_of_settledFile hsettled (isWord_packageName hpackage d) (onLines_sourceOf hlines)

/-! ## Reading it back -/

/-- The text of a run's file is read back, and as it was just if no enum shadows a message. -/
theorem exists_ofText_of_convert {document : String} {opts : Options} {d : Document} {o : Output}
    (hd : Document.ofText document = .ok d) (hletters : d.Lettered)
    (hlines : ∀ text ∈ [d.name, d.version, d.revision], '\n' ∉ text.toList)
    (hpackage : Lexeme.isWord opts.packagePrefix = true)
    (h : (convert { document, options := opts }).1 = .ok o) :
    ∃ g, File.ofText o.file.toText = .ok g ∧ (g.same o.file = true ↔ o.file.Unshadowed) :=
  ⟨o.file.reread, File.ofText_toText_eq (writable_of_convert hd hletters hlines hpackage h),
    File.same_reread_iff⟩

/-- A document in which lakes flow into lakes. -/
def plainLakes : String :=
  lakesDocument [("Lake", objectSchema [("outflow", .object [("$ref", .string "Lake")])])]

/-- A document in which lakes have a status, which is an enum of their own, and a state, which is
the message `Status`. -/
def shadowingLakes : String :=
  lakesDocument
    [("Lake", objectSchema
      [("state", .object [("$ref", .string "Status")]),
        ("status", .object [("type", .string "string"), ("enum", .array [.string "ICE"])])]),
    ("Status", objectSchema [])]

/-- The identifiers of a document begin with letters, and its name, version and revision stay on
their lines. -/
def Api.Document.plain (d : Document) : Bool :=
  decide (d.Lettered ∧ ∀ text ∈ [d.name, d.version, d.revision], '\n' ∉ text.toList)

theorem exists_ofText_of_convert_plainLakes :
    ∃ d o g, Document.ofText plainLakes = .ok d ∧ (convert { document := plainLakes }).1 = .ok o ∧
      File.ofText o.file.toText = .ok g ∧ g.same o.file = true := by
  have hspells : Json.Spells plainLakes _ := Json.spells_compact (by
    simp [Json.Printable, Json.PrintableMembers, objectSchema])
  obtain ⟨d, hd, hplain⟩ : ∃ d, Document.ofText plainLakes = .ok d ∧ d.plain = true :=
    exists_eq_ok_of_eq (Document.ofText_of_spells hspells) (by decide +kernel)
  obtain ⟨hletters, hlines⟩ := of_decide_eq_true hplain
  obtain ⟨o, ho, hunshadowed⟩ : ∃ o, (convert { document := plainLakes }).1 = .ok o ∧
      decide o.file.Unshadowed = true :=
    exists_eq_ok_of_eq (convert_of_spells hspells) (by decide +kernel)
  obtain ⟨g, hg, hsame⟩ := exists_ofText_of_convert hd hletters hlines (by decide) ho
  exact ⟨d, o, g, hd, ho, hg, hsame.2 (of_decide_eq_true hunshadowed)⟩

/-- Names of the right form are not enough for a file to be read back as it was. -/
theorem exists_not_same_shadowingLakes :
    ∃ d o g, Document.ofText shadowingLakes = .ok d ∧ d.Lettered ∧
      (∀ text ∈ [d.name, d.version, d.revision], '\n' ∉ text.toList) ∧
      (convert { document := shadowingLakes }).1 = .ok o ∧
      File.ofText o.file.toText = .ok g ∧ g.same o.file = false := by
  have hspells : Json.Spells shadowingLakes _ := Json.spells_compact (by
    simp [Json.Printable, Json.PrintableMembers, Json.PrintableElements, objectSchema])
  obtain ⟨d, hd, hplain⟩ : ∃ d, Document.ofText shadowingLakes = .ok d ∧ d.plain = true :=
    exists_eq_ok_of_eq (Document.ofText_of_spells hspells) (by decide +kernel)
  obtain ⟨hletters, hlines⟩ := of_decide_eq_true hplain
  obtain ⟨o, ho, hshadowed⟩ : ∃ o, (convert { document := shadowingLakes }).1 = .ok o ∧
      decide (¬o.file.Unshadowed) = true :=
    exists_eq_ok_of_eq (convert_of_spells hspells) (by decide +kernel)
  have hwritable := writable_of_convert hd hletters hlines (by decide) ho
  have hsame : o.file.reread.same o.file = false := by
    rw [Bool.eq_false_iff, Ne, File.same_reread_iff]
    exact of_decide_eq_true hshadowed
  exact ⟨d, o, _, hd, hletters, hlines, ho, File.ofText_toText_eq hwritable, hsame⟩

end DiscoveryGrpc
