import DiscoveryGrpc.Api.Document
import DiscoveryGrpc.Proofs.Json.Spelling
import DiscoveryGrpc.Proofs.Table

/-!
# Documents that are written in another way

The reader of a document looks members up by name. So it does not matter in which order the members
of an object stand, nor what stands under a key that the record does not have, as long as no object
repeats a key (`Json.Distinct`).

`Role` says what a value in a document is read as, `Rewritten` which values are another way to write
the same. No reader tells such values apart: the readers of every role are `Respected`, from the
plain values up to the document (`DocumentDeclaration.respected_ofJson?`).
-/

namespace DiscoveryGrpc

namespace Json

/-! ## Lists that are read element by element -/

section

variable {α β : Type} {f : α → Option β} {xs ys : List α}

theorem mapM_eq_of_forall₂ (h : List.Forall₂ (fun x y => f x = f y) xs ys) :
    xs.mapM f = ys.mapM f := by
  induction h with
  | nil => rfl
  | cons h _ ih => rw [List.mapM_cons, List.mapM_cons, h, ih]

theorem mapM_eq_ite (f : α → Option β) (xs : List α) : xs.mapM f =
    if xs.all fun x => (f x).isSome then some (xs.filterMap f) else none := by
  induction xs with
  | nil => rfl
  | cons x xs ih =>
    rw [List.mapM_cons, ih]
    cases hx : f x with
    | none => simp [hx]
    | some y =>
      rw [List.filterMap_cons_some hx]
      simp only [List.all_cons, hx, Option.isSome_some, Bool.true_and]
      split <;> rfl

/-- A function that may fail succeeds on the elements of a list in any order, or in none. -/
theorem mapM_perm (f : α → Option β) (h : xs.Perm ys) :
    (xs.mapM f = none ∧ ys.mapM f = none) ∨
      ∃ as bs, xs.mapM f = some as ∧ ys.mapM f = some bs ∧ as.Perm bs := by
  rw [mapM_eq_ite, mapM_eq_ite, ← h.all_eq]
  split
  · exact .inr ⟨_, _, rfl, rfl, h.filterMap f⟩
  · exact .inl ⟨rfl, rfl⟩

end

/-! ## Objects that repeat no key -/

mutual

/-- No object in a value repeats a key. -/
def Distinct : Json → Prop
  | null | bool _ | number _ | string _ | unreadable => True
  | array elements => DistinctElements elements
  | object members => (members.map (·.1)).Nodup ∧ DistinctMembers members

/-- No object in an element repeats a key. -/
def DistinctElements : List Json → Prop
  | [] => True
  | v :: vs => v.Distinct ∧ DistinctElements vs

/-- No object in the value of a member repeats a key. -/
def DistinctMembers : List (String × Json) → Prop
  | [] => True
  | (_, v) :: ms => v.Distinct ∧ DistinctMembers ms

end

theorem distinctElements_iff {vs : List Json} : DistinctElements vs ↔ ∀ v ∈ vs, v.Distinct := by
  induction vs with
  | nil => simp [DistinctElements]
  | cons v vs ih => rw [DistinctElements, ih, List.forall_mem_cons]

theorem distinctMembers_iff {ms : List (String × Json)} :
    DistinctMembers ms ↔ ∀ m ∈ ms, m.2.Distinct := by
  induction ms with
  | nil => simp [DistinctMembers]
  | cons m ms ih => rw [DistinctMembers, ih, List.forall_mem_cons]

end Json

namespace Api

/-! ## Roles -/

/-- What a value in a document is read as. -/
inductive Role
  /-- A plain value, or one that is passed over. -/
  | value
  | schema
  | method
  | resource
  | document
  /-- An object whose names are data. -/
  | table (of : Role)

namespace Role

/-- The keys of the records of a role. A plain value is no record, and neither is a table. -/
def keys? : Role → Option (List String)
  | schema => some Declaration.keys
  | method => some MethodDeclaration.keys
  | resource => some ResourceDeclaration.keys
  | document => some DocumentDeclaration.keys
  | value | table _ => none

/-- A record of the role does not have the key. -/
def Ignores (role : Role) (key : String) : Prop := ∃ keys, role.keys? = some keys ∧ key ∉ keys

/-- What the value of a member is read as. -/
def member : Role → String → Role
  | schema, "properties" => table schema
  | schema, "items" | schema, "additionalProperties" => schema
  | method, "parameters" => table schema
  | method, "request" | method, "response" => schema
  | resource, "methods" => table method
  | resource, "resources" => table resource
  | document, "schemas" => table schema
  | document, "resources" => table resource
  | table role, _ => role
  | _, _ => value

/-- What an element of an array is read as: a record may be written as the values of its keys. -/
def element (role : Role) (i : Nat) : Role := ((role.keys?.getD [])[i]?).elim value role.member

end Role

/-- Another way to write a value in a role. The members of an object may stand in any order, and
there may be more of them, under keys that records of the role do not have. -/
inductive Rewritten : Role → Json → Json → Prop
  | same {role : Role} {v : Json} : Rewritten role v v
  | array {role : Role} {vs ws : List Json} (hlength : vs.length = ws.length)
    (h : ∀ i (hv : i < vs.length) (hw : i < ws.length), Rewritten (role.element i) vs[i] ws[i]) :
    Rewritten role (.array vs) (.array ws)
  | object {role : Role} {ms kept extra ms' : List (String × Json)}
    (hnames : ms.map (·.1) = kept.map (·.1))
    (h : ∀ p ∈ ms.zip kept, Rewritten (role.member p.1.1) p.1.2 p.2.2)
    (hextra : ∀ m ∈ extra, role.Ignores m.1) (hperm : (kept ++ extra).Perm ms') :
    Rewritten role (.object ms) (.object ms')

/-! ## Readers that see no difference -/

variable {α : Type} {role : Role} {v w : Json}

/-- A reader gives the same for every way to write a value in the role. -/
def Role.Respected (role : Role) (read : Json → α) : Prop :=
  ∀ ⦃v w : Json⦄, v.Distinct → Rewritten role v w → read v = read w

/-- The members of an object and those that they are rewritten to one by one. -/
def Paired (role : Role) : List (String × Json) → List (String × Json) → Prop :=
  List.Forall₂ fun a b => a.1 = b.1 ∧ a.2.Distinct ∧ Rewritten (role.member a.1) a.2 b.2

theorem paired_of_zip {ms kept : List (String × Json)} (hv : ∀ m ∈ ms, m.2.Distinct)
    (hnames : ms.map (·.1) = kept.map (·.1))
    (h : ∀ p ∈ ms.zip kept, Rewritten (role.member p.1.1) p.1.2 p.2.2) : Paired role ms kept := by
  induction ms generalizing kept with
  | nil => cases kept with
    | nil => exact .nil
    | cons => cases hnames
  | cons m ms ih => cases kept with
    | nil => cases hnames
    | cons n kept =>
      obtain ⟨hname, hnames⟩ := List.cons.inj hnames
      obtain ⟨hm, hv⟩ := List.forall_mem_cons.1 hv
      rw [List.zip_cons_cons, List.forall_mem_cons] at h
      exact .cons ⟨hname, hm, h.1⟩ (ih hv hnames h.2)

/-! ### Plain values -/

theorem respected_text (role : Role) : role.Respected Json.text? := fun _ _ _ h => by
  cases h <;> rfl

theorem respected_flag (role : Role) : role.Respected Json.flag? := fun _ _ _ h => by
  cases h <;> rfl

theorem respected_list {read : Json → Option α} (hread : ∀ role : Role, role.Respected read)
    (role : Role) (n : Nat) : role.Respected (Json.list? read n) := fun v w hv h => by
  cases h with
  | same => rfl
  | object => cases n <;> rfl
  | @array _ vs ws hlength h =>
    cases n with
    | zero => rfl
    | succ n =>
      have hvs := Json.distinctElements_iff.1 hv
      refine Json.mapM_eq_of_forall₂ (List.forall₂_iff_get.2 ⟨hlength, fun i hi hj => ?_⟩)
      exact hread _ (hvs _ (List.get_mem ..)) (h i hi hj)

/-! ### Tables -/

theorem names_of_mapM {read : Json → Option α} {ms : List (String × Json)}
    {entries : List (String × α)}
    (h : ms.mapM (fun m => (read m.2).map (m.1, ·)) = some entries) :
    entries.map (·.1) = ms.map (·.1) := by
  induction ms generalizing entries with
  | nil =>
    obtain rfl : [] = entries := Option.some.inj h
    rfl
  | cons m ms ih =>
    rw [List.mapM_cons] at h
    obtain ⟨e, he, h⟩ := Option.bind_eq_some_iff.1 h
    obtain ⟨es, hes, h⟩ := Option.bind_eq_some_iff.1 h
    obtain rfl : e :: es = entries := Option.some.inj h
    obtain ⟨x, -, rfl⟩ := Option.map_eq_some_iff.1 he
    rw [List.map_cons, List.map_cons, ih hes]

theorem not_ignores_table (role : Role) (key : String) : ¬(Role.table role).Ignores key := by
  rintro ⟨keys, hkeys, -⟩
  cases hkeys

theorem respected_table {read : Json → Option α} (hread : role.Respected read) (n : Nat) :
    (Role.table role).Respected (Json.table? read n) := fun v w hv h => by
  cases h with
  | same => rfl
  | array => cases n <;> rfl
  | @object _ ms kept extra ms' hnames h hextra hperm =>
    cases n with
    | zero => rfl
    | succ n =>
      obtain rfl : extra = [] := List.eq_nil_iff_forall_not_mem.2 fun m hm =>
        not_ignores_table _ _ (hextra m hm)
      rw [List.append_nil] at hperm
      have hpaired := paired_of_zip (Json.distinctMembers_iff.1 hv.2) hnames h
      have hkept : ms.mapM (fun m => (read m.2).map (m.1, ·)) =
          kept.mapM (fun m => (read m.2).map (m.1, ·)) :=
        Json.mapM_eq_of_forall₂ <| hpaired.imp fun a b ⟨hname, ha, hab⟩ => by
          rw [hread ha hab, hname]
      rw [Json.table?, Json.table?, hkept]
      rcases Json.mapM_perm (fun m => (read m.2).map (m.1, ·)) hperm with
        ⟨hnone, hnone'⟩ | ⟨as, bs, has, hbs, hperm⟩
      · rw [hnone, hnone']
      · rw [has, hbs]
        refine congrArg some (Table.ofList_eq_of_perm hperm ?_)
        rw [names_of_mapM has, ← hnames]
        exact hv.1

/-! ### Records -/

/-- Records whose members are the same up to how they are written. -/
def Agree (role : Role) (keys : List String) (r r' : Json.Record) : Prop :=
  ∀ key ∈ keys, (r.lookup key = none ∧ r'.lookup key = none) ∨
    ∃ v w, r.lookup key = some v ∧ r'.lookup key = some w ∧ v.Distinct ∧
      Rewritten (role.member key) v w

theorem agree_of_paired {r r' : Json.Record} (h : Paired role r r') (keys : List String) :
    Agree role keys r r' := by
  intro key _
  induction h with
  | nil => exact .inl ⟨rfl, rfl⟩
  | @cons a b r r' hab h ih =>
    obtain ⟨hname, ha, hab⟩ := hab
    rw [List.lookup_cons, List.lookup_cons, ← hname]
    split
    · rename_i hkey
      rw [beq_iff_eq] at hkey
      exact .inr ⟨a.2, b.2, rfl, rfl, ha, hkey ▸ hab⟩
    · exact ih

theorem Paired.refl {ms : List (String × Json)} (hv : ∀ m ∈ ms, m.2.Distinct) : Paired role ms ms :=
  List.forall₂_same.2 fun m hm => ⟨rfl, hv m hm, .same⟩

theorem Paired.names_eq {ms kept : List (String × Json)} (h : Paired role ms kept) :
    ms.map (·.1) = kept.map (·.1) := by
  induction h with
  | nil => rfl
  | cons h _ ih => rw [List.map_cons, List.map_cons, h.1, ih]

theorem exists_of_rewritten_object {ms : List (String × Json)} (hv : ∀ m ∈ ms, m.2.Distinct)
    (h : Rewritten role (.object ms) w) :
    ∃ kept extra ms', w = .object ms' ∧ Paired role ms kept ∧ (∀ m ∈ extra, role.Ignores m.1) ∧
      (kept ++ extra).Perm ms' := by
  cases h with
  | same => exact ⟨ms, [], ms, rfl, .refl hv, by simp, by simp⟩
  | object hnames h hextra hperm =>
    exact ⟨_, _, _, rfl, paired_of_zip hv hnames h, hextra, hperm⟩

theorem exists_of_rewritten_array {vs : List Json} (h : Rewritten role (.array vs) w) :
    ∃ ws, w = .array ws ∧ vs.length = ws.length ∧
      ∀ i (hi : i < vs.length) (hj : i < ws.length), Rewritten (role.element i) vs[i] ws[i] := by
  cases h with
  | same => exact ⟨vs, rfl, rfl, fun _ _ _ => .same⟩
  | array hlength h => exact ⟨_, rfl, hlength, h⟩

/-- The members with known keys, of an object and of another way to write it. -/
theorem Paired.agree_filter {keys : List String} (hrole : role.keys? = some keys)
    {ms kept extra ms' : List (String × Json)} (hnodup : (ms.map (·.1)).Nodup)
    (hpaired : Paired role ms kept) (hextra : ∀ m ∈ extra, role.Ignores m.1)
    (hperm : (kept ++ extra).Perm ms') :
    ((ms.filter (keys.contains ·.1)).map (·.1)).Nodup ∧
      ((ms'.filter (keys.contains ·.1)).map (·.1)).Nodup ∧
      Agree role keys (ms.filter (keys.contains ·.1)) (ms'.filter (keys.contains ·.1)) := by
  have hfiltered : Paired role (ms.filter (keys.contains ·.1)) (kept.filter (keys.contains ·.1)) :=
    List.rel_filter (fun _ _ h => iff_of_eq (congrArg (keys.contains · = true) h.1)) hpaired
  have hextra : extra.filter (keys.contains ·.1) = [] := List.filter_eq_nil_iff.2 fun m hm => by
    obtain ⟨keys', hkeys', hm⟩ := hextra m hm
    obtain rfl := Option.some.inj (hrole.symm.trans hkeys')
    simpa using hm
  have hperm := hperm.filter (keys.contains ·.1)
  rw [List.filter_append, hextra, List.append_nil] at hperm
  have hms : ((ms.filter (keys.contains ·.1)).map (·.1)).Nodup :=
    hnodup.sublist (List.filter_sublist.map _)
  have hkept := hfiltered.names_eq ▸ hms
  refine ⟨hms, (hperm.map _).nodup_iff.1 hkept, fun key hkey => ?_⟩
  rw [← Table.get?, ← Table.get?, ← Table.get?_perm hperm hkept]
  exact agree_of_paired hfiltered keys key hkey

/-- The values of an array that is read as a record, and of another way to write it. -/
theorem paired_zip {keys : List String} {vs ws : List Json} (hv : ∀ v ∈ vs, v.Distinct)
    (hlength : vs.length = ws.length) (h : ∀ i (hi : i < vs.length) (hj : i < ws.length)
      (hrole : i < keys.length), Rewritten (role.member keys[i]) vs[i] ws[i]) :
    Paired role (keys.zip vs) (keys.zip ws) := by
  refine List.forall₂_iff_get.2 ⟨by simp [hlength], fun i hi hj => ?_⟩
  simp only [List.length_zip, Nat.lt_min] at hi hj
  simp only [List.get_eq_getElem, List.getElem_zip, true_and]
  exact ⟨hv _ (List.getElem_mem _), h i hi.2 hj.2 hi.1⟩

/-- The records that are read of two ways to write a value agree, if there are any. -/
theorem agree_record {keys : List String} {least : Nat} (hrole : role.keys? = some keys)
    (hv : v.Distinct) (h : Rewritten role v w) :
    (v.record? keys least = none ∧ w.record? keys least = none) ∨
      ∃ r r', v.record? keys least = some r ∧ w.record? keys least = some r' ∧
        Agree role keys r r' := by
  cases v with
  | object ms =>
    have hvs := Json.distinctMembers_iff.1 hv.2
    obtain ⟨kept, extra, ms', rfl, hpaired, hextra, hperm⟩ := exists_of_rewritten_object hvs h
    obtain ⟨hms, hms', hagree⟩ := hpaired.agree_filter hrole hv.1 hextra hperm
    exact .inr ⟨_, _, if_pos hms, if_pos hms', hagree⟩
  | array vs =>
    have hvs := Json.distinctElements_iff.1 hv
    obtain ⟨ws, rfl, hlength, h⟩ := exists_of_rewritten_array h
    have hpaired : Paired role (keys.zip vs) (keys.zip ws) :=
      paired_zip hvs hlength fun i hi hj hkey => by
        have := h i hi hj
        rwa [Role.element, hrole, Option.getD_some, List.getElem?_eq_getElem hkey] at this
    rw [Json.record?, Json.record?, ← hlength]
    split
    · exact .inr ⟨_, _, rfl, rfl, agree_of_paired hpaired keys⟩
    · exact .inl ⟨rfl, rfl⟩
  | null | bool _ | number _ | string _ | unreadable =>
    cases h
    exact .inl ⟨rfl, rfl⟩

theorem Agree.optional {keys : List String} {r r' : Json.Record} (h : Agree role keys r r')
    {read : Json → Option α} {key : String} (hkey : key ∈ keys)
    (hread : (role.member key).Respected read) : r.optional key read = r'.optional key read := by
  rcases h key hkey with ⟨hr, hr'⟩ | ⟨v, w, hr, hr', hv, h⟩
  · rw [Json.Record.optional, Json.Record.optional, hr, hr']
  · rw [Json.Record.optional, Json.Record.optional, hr, hr']
    cases h with
    | same => rfl
    | array hlength h => exact congrArg (Option.map some) (hread hv (.array hlength h))
    | object hnames h hextra hperm =>
      exact congrArg (Option.map some) (hread hv (.object hnames h hextra hperm))

/-! ### Schemas, methods, resources, documents -/

/-- What is read of the records of two ways to write a value is the same if it is the same for
records that agree. -/
theorem record_bind_eq {keys : List String} {least : Nat} {read : Json.Record → Option α}
    (hrole : role.keys? = some keys) (hv : v.Distinct) (h : Rewritten role v w)
    (hread : ∀ r r', Agree role keys r r' → read r = read r') :
    (v.record? keys least >>= read) = w.record? keys least >>= read := by
  rcases agree_record hrole hv h with ⟨hr, hr'⟩ | ⟨r, r', hr, hr', h⟩
  · rw [hr, hr']
  · rw [hr, hr']
    exact hread r r' h

theorem readAttributes_eq_of_agree {r r' : Json.Record} (h : Agree .schema Declaration.keys r r')
    (budget : Nat) :
    Declaration.readAttributes budget r = Declaration.readAttributes budget r' := by
  have htext (key : String) (hkey : key ∈ Declaration.keys) :=
    h.optional hkey (respected_text _)
  have hflag (key : String) (hkey : key ∈ Declaration.keys) :=
    h.optional hkey (respected_flag _)
  have hlist (key : String) (hkey : key ∈ Declaration.keys) :=
    h.optional hkey (respected_list respected_text _ budget)
  simp (disch := decide) only [Declaration.readAttributes, htext, hflag, hlist]

mutual

theorem Declaration.respected_read : (budget : Nat) → Role.schema.Respected (read budget)
  | 0, _, _, _, _ => rfl
  | budget + 1, v, w, hv, h => by
    rw [read, read]
    refine record_bind_eq rfl hv h fun r r' h => ?_
    have hitems := h.optional (by decide : "items" ∈ keys) (respected_read budget)
    have hadditional := h.optional (by decide : "additionalProperties" ∈ keys)
      (respected_read budget)
    have hproperties := h.optional (by decide : "properties" ∈ keys) (respected_readTable budget)
    rw [readAttributes_eq_of_agree h, hproperties, hitems, hadditional]

theorem Declaration.respected_readTable :
    (budget : Nat) → (Role.table .schema).Respected (readTable budget)
  | 0, _, _, _, _ => rfl
  | budget + 1, _, _, hv, h => respected_table (respected_read budget) (budget + 1) hv h

end

theorem MethodDeclaration.respected_read (budget : Nat) :
    Role.method.Respected (read budget) := fun v w hv h => by
  cases budget with
  | zero => rfl
  | succ budget =>
    rw [read, read]
    refine record_bind_eq rfl hv h fun r r' h => ?_
    have htext (key : String) (hkey : key ∈ keys) := h.optional hkey (respected_text _)
    have hlist (key : String) (hkey : key ∈ keys) :=
      h.optional hkey (respected_list respected_text _ budget)
    have hparameters := h.optional (by decide : "parameters" ∈ keys)
      (Declaration.respected_readTable budget)
    have hrequest := h.optional (by decide : "request" ∈ keys) (Declaration.respected_read budget)
    have hresponse := h.optional (by decide : "response" ∈ keys) (Declaration.respected_read budget)
    simp (disch := decide) only [htext, hlist, hparameters, hrequest, hresponse]

mutual

theorem ResourceDeclaration.respected_read :
    (budget : Nat) → Role.resource.Respected (read budget)
  | 0, _, _, _, _ => rfl
  | budget + 1, v, w, hv, h => by
    rw [read, read]
    refine record_bind_eq rfl hv h fun r r' h => ?_
    have hmethods := h.optional (by decide : "methods" ∈ keys)
      (respected_table (MethodDeclaration.respected_read (budget - 1)) budget)
    have hresources := h.optional (by decide : "resources" ∈ keys) (respected_readTable budget)
    rw [hmethods, hresources]

theorem ResourceDeclaration.respected_readTable :
    (budget : Nat) → (Role.table .resource).Respected (readTable budget)
  | 0, _, _, _, _ => rfl
  | budget + 1, _, _, hv, h => respected_table (respected_read budget) (budget + 1) hv h

end

theorem DocumentDeclaration.respected_ofJson? :
    Role.document.Respected ofJson? := fun v w hv h => by
  refine record_bind_eq rfl hv h fun r r' h => ?_
  have htext (key : String) (hkey : key ∈ keys) := h.optional hkey (respected_text _)
  have hschemas := h.optional (by decide : "schemas" ∈ keys)
    (Declaration.respected_readTable (Json.depthLimit - 1))
  have hresources := h.optional (by decide : "resources" ∈ keys)
    (ResourceDeclaration.respected_readTable (Json.depthLimit - 1))
  simp (disch := decide) only [htext, hschemas, hresources]

/-- Texts of a value and of another way to write it hold the same document, or neither of them
holds one, for the same cause. -/
theorem Document.ofText_eq_of_rewritten {text text' : String} (hv : v.Distinct)
    (h : Rewritten .document v w) (htext : Json.Spells text v) (htext' : Json.Spells text' w) :
    Document.ofText text = Document.ofText text' := by
  rw [ofText, ofText, DocumentDeclaration.ofText, DocumentDeclaration.ofText,
    Json.ofText?_of_spells htext, Json.ofText?_of_spells htext']
  dsimp only
  rw [DocumentDeclaration.respected_ofJson? hv h]

end Api

end DiscoveryGrpc
