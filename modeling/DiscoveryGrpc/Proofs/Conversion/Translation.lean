import Mathlib.Data.List.Perm.Basic
import DiscoveryGrpc.Proofs.Conversion.Made

/-!
# Fields that translate properties

`FieldFor` says what the field for a property is, type included, and `Filled.exists_fieldsFor` that
a message that was filled has one for each of its properties. While messages are made, types may be
references and enums may still go, so `FieldFor` takes a `Rendering`: how such types are written
before and after.

A message of the file is what became of a message that was made: it may have been made of another
schema with the same fields, fields that refer to a message to be left out are gone, references are
resolved and conflicting enums are strings. `exists_settled` says this of any message that was kept,
and `Makes.exists_translation` concludes that the fields of a message in the file still are those
for the properties of its schema, whichever schema it was made of.
-/

namespace DiscoveryGrpc

open Proto Api

namespace Conversion

variable {opts : Options} {w w' start final : Workspace}

/-! ## Fields for properties -/

/-- How types are written that name a message or an enum. -/
structure Rendering where
  /-- The type of what refers to the schema for a message. -/
  reference : String → FieldType
  enum : String → FieldType
  /-- The names under which a message is made of an object. -/
  names : Schema → String → Prop

/-- The type of the single values of a property. -/
inductive HasType (R : Rendering) (v : Schema) : FieldType → Prop
  | plain {t : FieldType} (h : PlainType R.reference R.enum v t) : HasType R v t
  | nested {n : String} (hnested : v.isNested = true) (hn : R.names v n) : HasType R v (.message n)

/-- A field translates a property. -/
structure FieldFor (R : Rendering) (s : Schema) (x : Field) : Prop where
  name : fieldName s.key = .ok x.name
  /-- A map has strings for its keys, and nothing else has keys. -/
  keyType : x.keyType = if s.isMapField then some (.primitive .string) else none
  repeated : x.repeated = (s.type == .array || s.isMapField || s.repeated)
  optional : x.optional = (!x.repeated && !s.required)
  settings : x.settings = (if s.required then [Setting.required] else [])
    ++ (if s.deprecated then [.scalar Setting.deprecated (.bool true)] else [])
  type : ∃ v, s.value? = some v ∧ HasType R v x.type

variable {R : Rendering} {s v : Schema} {x y : Field}

theorem fieldFor_of_fieldWithType {t : FieldType} (hv : s.value? = some v) (ht : HasType R v t)
    (hx : fieldWithType s.toSchemaHead s.isMapField t = .ok x) : FieldFor R s x := by
  obtain ⟨name, hname, hx⟩ := Except.bind_eq_ok_iff.1 hx
  obtain rfl := Except.ok.inj hx
  exact ⟨hname, rfl, rfl, rfl, rfl, v, hv, ht⟩

/-- Descriptions take no part. -/
theorem fieldFor_undocumented : FieldFor R s x.undocumented ↔ FieldFor R s x :=
  ⟨fun h => ⟨h.name, h.keyType, h.repeated, h.optional, h.settings, h.type⟩,
    fun h => ⟨h.name, h.keyType, h.repeated, h.optional, h.settings, h.type⟩⟩

/-- Fields translate properties, one by one. -/
abbrev FieldsFor (R : Rendering) : List (String × Schema) → List Field → Prop :=
  List.Forall₂ fun p x => FieldFor R p.2 x

variable {ps : List (String × Schema)} {fs gs : List Field}

theorem FieldsFor.of_undocumented (h : FieldsFor R ps fs)
    (heq : gs.map Field.undocumented = fs.map Field.undocumented) : FieldsFor R ps gs := by
  have hmap : ∀ xs : List Field, FieldsFor R ps (xs.map Field.undocumented) ↔ FieldsFor R ps xs :=
    fun xs => by simp only [FieldsFor, List.forall₂_map_right_iff, fieldFor_undocumented]
  rw [← hmap, heq, hmap]
  exact h

theorem exists_of_undocumented {xs ys : List Field}
    (hsame : xs.map Field.undocumented = ys.map Field.undocumented) (hx : x ∈ xs) :
    ∃ y ∈ ys, y.name = x.name ∧ y.type = x.type := by
  obtain ⟨y, hy, hxy⟩ := List.mem_map.1 (hsame ▸ List.mem_map_of_mem hx)
  have hname := congrArg Field.name hxy
  have htype := congrArg Field.type hxy
  exact ⟨y, hy, hname, htype⟩

/-- Fields that agree with others up to descriptions can be put in any order of these. -/
theorem exists_perm_of_undocumented {xs ys : List Field} (hperm : ys.Perm fs)
    (hsame : xs.map Field.undocumented = ys.map Field.undocumented) :
    ∃ gs, gs.map Field.undocumented = fs.map Field.undocumented ∧ xs.Perm gs := by
  have hiff : ∀ as bs : List Field,
      List.Forall₂ (fun x y => x.undocumented = y.undocumented) as bs ↔
        as.map Field.undocumented = bs.map Field.undocumented := fun as bs => by
    rw [← List.forall₂_eq_eq_eq, List.forall₂_map_left_iff, List.forall₂_map_right_iff]
  obtain ⟨gs, hgs, hp⟩ := List.perm_comp_forall₂ hperm.symm ((hiff ys xs).2 hsame.symm)
  exact ⟨gs, ((hiff fs gs).1 hgs).symm, hp.symm⟩

/-! ## Messages that are made -/

/-- How types are written while messages are made between two workspaces. -/
def Rendering.made (opts : Options) (start final : Workspace) : Rendering where
  reference := .reference
  enum := enumMade opts
  names := Gives opts start final

/-- While messages are made, only an object has the type of a message. -/
theorem HasType.of_message {n : String} (h : HasType (.made opts start final) v (.message n)) :
    v.isNested = true ∧ Gives opts start final v n := by
  generalize ht : FieldType.message n = t at h
  cases h with
  | nested hnested hn =>
    cases ht
    exact ⟨hnested, hn⟩
  | plain h =>
    cases h with
    | enum =>
      simp only [Rendering.made, enumMade] at ht
      split at ht <;> cases ht
    | _ => cases ht

/-- While messages are made, a reference is written as one. -/
theorem HasType.of_reference {t : FieldType} (h : HasType (.made opts start final) v t)
    (href : v.isReference = true) : ∃ n, messageName v.reference = .ok n ∧ t = .reference n := by
  have hown : ¬v.isReference = false := by simp [href]
  cases h with
  | nested hnested =>
    exact absurd (by simpa using (Bool.and_eq_true_iff.1 hnested).2) hown
  | plain h =>
    cases h with
    | reference _ hn => exact ⟨_, hn, rfl⟩
    | scalar hfalse => exact absurd hfalse hown
    | wellKnown hfalse => exact absurd hfalse hown
    | enum hfalse => exact absurd hfalse hown

/-- A message that is filled gets a field for each property. -/
theorem Filled.exists_fieldsFor {m m' : Message} (h : Filled opts ps m w m' w')
    (hstart : Grows start w) (hfinal : Grows w' final) :
    ∃ fs, FieldsFor (.made opts start final) ps fs ∧ m'.fields.Perm (fs ++ m.fields) := by
  have hperm : ∀ {m₁ m₂ : Message} {x : Field} {fs rest : List Field}, m₁.addField? x = some m₂ →
      rest.Perm (fs ++ m₂.fields) → rest.Perm (x :: fs ++ m₁.fields) := by
    intro m₁ m₂ x fs rest hadd hrest
    rw [(Message.of_addField? hadd).2] at hrest
    exact (hrest.trans ((Field.insert_perm x m₁.fields).append_left fs)).trans List.perm_middle
  induction h with
  | nil => exact ⟨[], .nil, .refl _⟩
  | plain hvalue hplain hfield hadd hrest ih =>
    obtain ⟨fs, hfs, hm⟩ := ih (hstart.trans (.of_eq hplain.messages)) hfinal
    rw [← hplain.fields]
    exact ⟨_, .cons (fieldFor_of_fieldWithType hvalue (.plain hplain.type) hfield) hfs,
      hperm hadd hm⟩
  | @nested key name s v rest x kept m m₂ m' made w w₁ w₂ w₃ w' hvalue hnested hname hmake hmade
      hkept hmessages hfield hadd hrest _ ih =>
    have hw₃ : Grows w₂ w₃ := .of_eq hmessages
    obtain ⟨fs, hfs, hm⟩ :=
      ih (((hstart.trans hmade.grows).trans (grows_of_addMessage hkept)).trans hw₃) hfinal
    have hgives : Gives opts start final v name :=
      ⟨_, kept, hname, w, made, w₁, w₂, hstart, rfl, hmake, hkept,
        (hw₃.trans hrest.grows).trans hfinal⟩
    exact ⟨_, .cons (fieldFor_of_fieldWithType hvalue (.nested hnested hgives) hfield) hfs,
      hperm hadd hm⟩

theorem made_of_messageOf {name : String} {m : Message} (h : messageOf opts s name w = .ok m w') :
    m.Drafted .any w'.messages ∧ m.name = name :=
  ((leads_messageOf (Schema.All.intro admits_any s) trivial).of_ok h).2

/-- A message that is made of an object has its name and a field for each of its properties. -/
theorem Makes.exists_message {r : Registry} {name : String} {kept : Bool}
    (h : Makes opts start final r s name kept) : ∃ m w w', m.name = name ∧
      m.Drafted .any w.messages ∧ addMessage m w = .ok kept w' ∧ Grows w' final ∧
      ∃ fs, FieldsFor (.made opts start final) s.properties fs ∧ m.fields.Perm fs := by
  obtain ⟨w, m, w₁, w₂, hstart, -, hmake, hkept, hfinal⟩ := h
  obtain ⟨hdrafted, hname⟩ := made_of_messageOf hmake
  obtain ⟨fs, hfs, hperm⟩ := (filled_of_messageOf hmake).exists_fieldsFor hstart
    ((grows_of_addMessage hkept).trans hfinal)
  rw [List.append_nil] at hperm
  exact ⟨m, w₁, w₂, hname, hdrafted, hkept, hfinal, fs, hfs, hperm⟩

/-! ## What becomes of a message -/

/-- What becomes of a field that stays. -/
def settledField (known removed : NameSet) (x : Field) : Field :=
  stripEnums removed
    { x with type := resolveType known x.type, keyType := x.keyType.map (resolveType known) }

/-- Fields and enums of a message when its references are resolved and conflicting enums are
gone. -/
theorem exists_removed (known : NameSet) (ignored : NameSet) (m : Message) :
    ∃ removed : NameSet,
      (removeConflicts (resolveMessage known ignored m)).fields.Perm
        ((m.fields.filter (!isDropped known ignored ·)).map (settledField known removed)) ∧
      ∀ n, (removeConflicts (resolveMessage known ignored m)).hasEnum n
        = (m.hasEnum n && !removed.contains n) := by
  have hresolved : (resolveMessage known ignored m).fields.Perm
      ((m.fields.filter (!isDropped known ignored ·)).map fun x => { x with
        type := resolveType known x.type
        keyType := x.keyType.map (resolveType known) }) := Field.sort_perm _
  by_cases hnone : (conflictingEnums (resolveMessage known ignored m)).isEmpty = true
  · have hself : removeConflicts (resolveMessage known ignored m)
        = resolveMessage known ignored m := if_pos hnone
    rw [hself]
    refine ⟨[], ?_, fun n => (Bool.and_true _).symm⟩
    refine hresolved.trans (List.Perm.of_eq (List.map_congr_left fun x _ => ?_))
    simp [settledField, stripEnums, withoutEnums_nil]
  · have hself : removeConflicts (resolveMessage known ignored m) =
        removeEnums (conflictingEnums (resolveMessage known ignored m))
          (resolveMessage known ignored m) := if_neg hnone
    rw [hself, removeEnums_eq]
    refine ⟨conflictingEnums (resolveMessage known ignored m), ?_, fun n => hasEnum_filter _ _ n⟩
    refine (Field.sort_perm _).trans ((hresolved.map _).trans (List.Perm.of_eq ?_))
    rw [List.map_map]
    rfl

theorem same_iff {a b : Message} : a.same b = true ↔ a.undocumented = b.undocumented := by
  simp [Message.same]

theorem hasEnum_of_same {a b : Message} (h : a.same b = true) (n : String) :
    a.hasEnum n = b.hasEnum n := by
  have heq := same_iff.1 h
  rw [Message.undocumented_eq, Message.undocumented_eq] at heq
  have henums := congrArg (fun m : Message => Table.has m.enums n) heq
  dsimp only at henums
  rw [Table.has_mapValues, Table.has_mapValues] at henums
  exact henums

theorem fields_of_same {a b : Message} (h : a.same b = true) :
    a.fields.map Field.undocumented = b.fields.map Field.undocumented := by
  have heq := same_iff.1 h
  rw [Message.undocumented_eq, Message.undocumented_eq] at heq
  exact congrArg Message.fields heq

/-- The message of the file under the name of a message that was kept has its fields, up to
descriptions, as far as they stay and as what they become. -/
theorem exists_settled (ignored : NameSet) {m : Message} {w₁ : Workspace}
    (hkept : addMessage m w = .ok true w₁) (hfinal : Grows w₁ final) :
    ∃ settled, (finalMessages ignored final).get? m.name = some settled ∧
      ∃ stored ∈ final.messages.values, stored.fields.map Field.undocumented
          = m.fields.map Field.undocumented ∧
        ∃ removed : NameSet,
          settled.fields.Perm ((stored.fields.filter
            (!isDropped final.messages.names ignored ·)).map
              (settledField final.messages.names removed)) ∧
          ∀ n, settled.hasEnum n = (m.hasEnum n && !removed.contains n) := by
  obtain ⟨stored, hstored, hsame⟩ := exists_of_addMessage hkept
  have hget := hfinal _ _ hstored
  obtain ⟨removed, hfields, henums⟩ := exists_removed final.messages.names ignored stored
  refine ⟨_, ?_, stored, Table.mem_values_of_get? hget, fields_of_same hsame, removed, hfields,
    fun n => ?_⟩
  · rw [finalMessages, Table.get?_mapValues, resolvedMessages, Table.get?_mapValues, hget]
    rfl
  · rw [henums, hasEnum_of_same hsame]

/-! ## Messages of the file -/

/-- Whether a property has no field in a file: it refers to a message that is left out and that was
not made for another reason. -/
def isLeftOut (opts : Options) (known : Table Message) (s : Schema) : Bool :=
  s.value?.any fun v => v.isReference && (messageName v.reference).toOption.any fun n =>
    opts.ignoredNames.contains n && !known.has n

/-- How types are written in a message of a file. -/
def Rendering.settled (opts : Options) (start final : Workspace) (m : Message) : Rendering where
  reference := .message
  enum n := if opts.enumsAsStrings || !m.hasEnum n then .primitive .string else .enum n
  names := Gives opts start final

theorem isDropped_eq_isLeftOut (h : FieldFor (.made opts start final) s x) :
    isDropped final.messages.names opts.ignoredNames x = isLeftOut opts final.messages s := by
  obtain ⟨v, hv, ht⟩ := h.type
  simp only [isDropped, isLeftOut, hv, Option.any_some, contains_names]
  generalize x.type = t at ht
  cases ht with
  | plain hplain =>
    cases hplain with
    | reference href hn => simp [href, hn, Rendering.made, Except.toOption, Bool.and_comm]
    | scalar hown => simp [hown]
    | wellKnown hown => simp [hown]
    | enum hown =>
      cases hstrings : opts.enumsAsStrings <;> simp [hown, Rendering.made, enumMade, hstrings]
  | nested hnested =>
    have hown : v.isReference = false := by simpa using (Bool.and_eq_true_iff.1 hnested).2
    simp [hown]

/-- What becomes of a type is the type, as it is written in the file. -/
theorem HasType.settled {t : FieldType} {removed : NameSet} {m : Message}
    (h : HasType (.made opts start final) v t)
    (hreference : ∀ n, resolveType final.messages.names t ≠ .reference n)
    (henum : ∀ n, t = .enum n → m.hasEnum n = !removed.contains n) :
    HasType (.settled opts start final m) v
      (withoutEnums removed (resolveType final.messages.names t)) := by
  cases h with
  | nested hnested hn => exact .nested hnested hn
  | plain h =>
    refine .plain ?_
    cases h with
    | @reference n href hn =>
      have hknown : resolveType final.messages.names (.reference n) = .message n := by
        have hne := hreference n
        simp only [Rendering.made, resolveType] at hne ⊢
        split at hne
        · rename_i hn
          rw [if_pos hn]
        · exact absurd rfl hne
      rw [show (Rendering.made opts start final).reference n = .reference n from rfl, hknown]
      exact .reference href hn
    | scalar hown htype => exact .scalar hown htype
    | wellKnown hown htype hp => exact .wellKnown hown htype hp
    | @enum n hown htype hlists hn =>
      have htype' : withoutEnums removed (resolveType final.messages.names (enumMade opts n))
          = (Rendering.settled opts start final m).enum n := by
        cases hstrings : opts.enumsAsStrings with
        | true => simp [enumMade, hstrings, Rendering.settled, resolveType, withoutEnums]
        | false =>
          have hm := henum n (by simp [Rendering.made, enumMade, hstrings])
          simp [enumMade, hstrings, Rendering.settled, resolveType, withoutEnums, hm]
      exact htype' ▸ .enum hown htype hlists hn

theorem FieldFor.settled {removed : NameSet} {m : Message}
    (h : FieldFor (.made opts start final) s x)
    (hreference : ∀ n, resolveType final.messages.names x.type ≠ .reference n)
    (henum : ∀ n, x.type = .enum n → m.hasEnum n = !removed.contains n) :
    FieldFor (.settled opts start final m) s (settledField final.messages.names removed x) where
  name := h.name
  keyType := by
    change x.keyType.map (resolveType final.messages.names) = _
    rw [h.keyType]
    cases s.isMapField <;> rfl
  repeated := h.repeated
  optional := h.optional
  settings := h.settings
  type :=
    have ⟨v, hv, ht⟩ := h.type
    ⟨v, hv, ht.settled hreference henum⟩

/-- What becomes of the fields for properties are the fields for those that are not left out. -/
theorem FieldsFor.settled {removed : NameSet} {m : Message}
    (h : FieldsFor (.made opts start final) ps fs)
    (hreference : ∀ x ∈ fs, isDropped final.messages.names opts.ignoredNames x = false →
      ∀ n, resolveType final.messages.names x.type ≠ .reference n)
    (henum : ∀ x ∈ fs, ∀ n, x.type = .enum n → m.hasEnum n = !removed.contains n) :
    FieldsFor (.settled opts start final m)
      (ps.filter fun p => !isLeftOut opts final.messages p.2)
      ((fs.filter (!isDropped final.messages.names opts.ignoredNames ·)).map
        (settledField final.messages.names removed)) := by
  induction h with
  | nil => exact .nil
  | @cons p x ps fs hx _ ih =>
    have ih := ih (fun y hy => hreference y (List.mem_cons_of_mem _ hy))
      fun y hy => henum y (List.mem_cons_of_mem _ hy)
    have hsame := isDropped_eq_isLeftOut hx
    cases hdropped : isDropped final.messages.names opts.ignoredNames x with
    | true =>
      rw [hdropped] at hsame
      simpa [List.filter_cons, hdropped, ← hsame] using ih
    | false =>
      rw [hdropped] at hsame
      have hhead : FieldFor (.settled opts start final m) p.2
          (settledField final.messages.names removed x) :=
        hx.settled (hreference x List.mem_cons_self hdropped) (henum x List.mem_cons_self)
      have hcons : FieldsFor (.settled opts start final m)
          (p :: ps.filter fun p => !isLeftOut opts final.messages p.2)
          (settledField final.messages.names removed x ::
            (fs.filter (!isDropped final.messages.names opts.ignoredNames ·)).map
              (settledField final.messages.names removed)) := .cons hhead ih
      simpa [List.filter_cons, hdropped, ← hsame] using hcons

theorem NothingDangles.resolved {ignored : NameSet} (h : NothingDangles ignored final)
    {stored : Message} (hstored : stored ∈ final.messages.values) (hx : x ∈ stored.fields)
    (hstays : isDropped final.messages.names ignored x = false) (n : String) :
    resolveType final.messages.names x.type ≠ .reference n := by
  intro hn
  have hnone := h (resolveMessage final.messages.names ignored stored) (by
    rw [resolvedMessages, Table.values_mapValues]
    exact List.mem_map_of_mem hstored)
  have hmem : { x with
      type := resolveType final.messages.names x.type
      keyType := x.keyType.map (resolveType final.messages.names) } ∈
      (resolveMessage final.messages.names ignored stored).fields :=
    Message.mem_updateFields.2 ⟨x, List.mem_filter.2 ⟨hx, by simp [hstays]⟩, rfl⟩
  have hfield := List.filterMap_eq_nil_iff.1 hnone _ hmem
  dsimp only at hfield
  rw [hn] at hfield
  cases hfield

/-- The message of the file under the name of a message that was made of an object and kept has one
field for each property of the object that is not left out, and no others. -/
theorem Makes.exists_translation {r : Registry} {name : String}
    (h : Makes opts start final r s name true)
    (hdangling : NothingDangles opts.ignoredNames final) :
    ∃ m, (finalMessages opts.ignoredNames final).get? name = some m ∧
      ∃ fs, FieldsFor (.settled opts start final m)
        (s.properties.filter fun p => !isLeftOut opts final.messages p.2) fs ∧
        m.fields.Perm fs := by
  obtain ⟨made, w, w', rfl, hdrafted, hkept, hfinal, fs, hfs, hperm⟩ := h.exists_message
  obtain ⟨m, hm, stored, hstored, hsame, removed, hfields, henums⟩ :=
    exists_settled opts.ignoredNames hkept hfinal
  -- the stored fields in the order of the properties
  obtain ⟨gs, hgs, hstoredperm⟩ := exists_perm_of_undocumented hperm hsame
  have hmem : ∀ x ∈ gs, x ∈ stored.fields := fun x hx => hstoredperm.mem_iff.2 hx
  refine ⟨m, hm, (gs.filter (!isDropped final.messages.names opts.ignoredNames ·)).map
    (settledField final.messages.names removed), (hfs.of_undocumented hgs).settled ?_ ?_, ?_⟩
  · exact fun x hx hstays n => hdangling.resolved hstored (hmem x hx) hstays n
  · intro x hx n hn
    obtain ⟨y, hy, -, htype⟩ := exists_of_undocumented hsame (hmem x hx)
    have hhas := (hdrafted.fields y hy).type
    rw [htype, hn] at hhas
    rw [henums, show made.hasEnum n = true from hhas, Bool.true_and]
  · exact hfields.trans ((hstoredperm.filter _).map _)

/-- A message that is passed through is called `Errors`, and an object nested in it is, too. -/
theorem Makes.passedThrough {r : Registry} {name : String}
    (h : Makes opts start final r s name false) :
    name = "Errors" ∧ ∃ p ∈ s.properties, ∃ v, p.2.value? = some v ∧ v.isNested = true ∧
      Gives opts start final v "Errors" := by
  obtain ⟨made, w, w', rfl, -, hkept, -, fs, hfs, hperm⟩ := h.exists_message
  obtain ⟨herrors, x, hx, htype⟩ : made.name = "Errors" ∧
      ∃ x ∈ made.fields, x.type = .message "Errors" := by
    rcases addMessage_eq_ok hkept with ⟨hfalse, -⟩ | ⟨_, -, hfalse, -⟩ | ⟨_, -, -, -, herrors, -⟩
    · cases hfalse
    · cases hfalse
    · simpa [isErrors] using herrors
  obtain ⟨p, hp, hfield⟩ := Resolution.exists_mem_of_forall₂ hfs x (hperm.mem_iff.1 hx)
  obtain ⟨v, hv, ht⟩ := hfield.type
  rw [htype] at ht
  obtain ⟨hnested, hgives⟩ := ht.of_message
  exact ⟨herrors, p, hp, v, hv, hnested, hgives⟩

end Conversion

end DiscoveryGrpc
