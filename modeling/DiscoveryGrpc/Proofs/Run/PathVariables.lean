import DiscoveryGrpc.Proofs.Api.Path
import DiscoveryGrpc.Proofs.Conversion.Template
import DiscoveryGrpc.Proofs.Run.Requests

/-!
# Path variables and the fields of requests

The path of a method gives variables to the template of its http rule. A plain variable `{v}` gets
the name of the field for the parameter `v`, while the one with a pattern that takes the place of an
expansion `{+v}` is in lower case throughout. So it misses the field if `v` begins with a capital,
which the field keeps.

`Method.Contributes` says which variables of a template come from the path: those at a brace of the
path, but not those in the part that the flat path spells out. An expansion always contributes one
(`contributes_of_expansion`). If all path variables are parameters, then these are names of fields of
the request, up to the case of the capital and to what looks like a variable of another form
(`variables_of_convert`). `exists_not_field_namedLakes` is a run in which the variable is no field.
-/

namespace DiscoveryGrpc

open Proto Api

open Conversion (Template.IsVariable Template.isVariableChar)

namespace Api

/-- The variable that a text begins with, if it is closed. -/
def Path.closedName? (cs : List Char) : Option (List Char) :=
  match cs.span Template.isVariableChar with
  | (c :: v, '\x7d' :: _) => some (c :: v)
  | _ => none

/-- The path variable that a text begins with: a plain one, or that of an expansion. -/
def Path.variableHere? : List Char → Option (List Char)
  | '\x7b' :: '+' :: cs => closedName? cs
  | '\x7b' :: cs => closedName? cs
  | _ => none

/-- The variables of a path. -/
def Path.variableNames (path : List Char) : List (List Char) := path.tails.filterMap variableHere?

/-- All variables in the path of a method are parameters. -/
def Method.DeclaresPath (m : Method) : Prop :=
  ∀ v ∈ Path.variableNames m.path.toList, m.parameters.has (String.ofList v) = true

instance (m : Method) : Decidable m.DeclaresPath :=
  inferInstanceAs (Decidable (∀ v ∈ Path.variableNames m.path.toList, _))

/-- The brace between `a` and `b` in what is made of a path and a flat path is from the path, and
not from the part of the flat path that an expansion stands for. -/
def Path.IsOwn (path : String) (flat? : Option String) (a b : List Char) : Prop :=
  flat? = none ∨ ∃ e, Path.firstExpansion? path.toList = some e ∧
    (a.length ≤ e.before.length ∨ b.length < e.after.length)

/-- The path of a method gives the variable `x` to a template: a brace of the path is there, and the
variable is behind it. -/
def Method.Contributes (m : Method) (servicePath : String) (flat? : Option String)
    (template : String) (x : List Char) : Prop :=
  ∃ a b p c q, m.flatPath.toList = a ++ '\x7b' :: b ∧ Path.IsOwn m.path flat? a b ∧
    Conversion.Template.withFieldNames s!"/{servicePath}{String.ofList a}" = .ok p ∧
    template.toList = p.toList ++ '\x7b' :: x ++ c :: q ∧ (c = '\x7d' ∨ c = '=') ∧
    Template.IsVariable x

/-- What the variable `x` can be that a path gives to a template, for a request. -/
inductive Method.PathVariable (m : Method) (flat? : Option String) (request : Message)
    (x : List Char) : Prop
  /-- The name of a field. -/
  | field (hfield : ∃ f ∈ request.fields, f.name = String.ofList x)
  /-- The parameter of an expansion begins with a capital. The field keeps it, but the variable is
  in lower case. -/
  | capital {e : Path.Expansion} (hflat : flat?.isSome = true)
      (he : Path.firstExpansion? m.path.toList = some e)
      (hupper : startsUpper (String.ofList e.name) = true)
      (hx : x = (Name.ofIdentifier (String.ofList e.name)).lowerUnderscoreChars)
      (hfield : ∃ f ∈ request.fields,
        f.name = (Name.ofIdentifier (String.ofList e.name)).capitalizedLowerUnderscore)
  /-- An expansion is no path variable, because it has other characters. -/
  | strange {e : Path.Expansion} (hflat : flat?.isSome = true)
      (he : Path.firstExpansion? m.path.toList = some e) (hname : ¬Template.IsVariable e.name)
      (hx : x = (Name.ofIdentifier (String.ofList e.name)).lowerUnderscoreChars)
  /-- The path has a pattern for the variable as it is. -/
  | written {a b : List Char} (hpath : m.path.toList = a ++ '\x7b' :: x ++ '=' :: b ∨
      m.path.toList = a ++ '\x7b' :: '+' :: x ++ '=' :: b)

/-! ## Variables of paths -/

theorem Path.closedName?_eq {v b : List Char} (hv : Template.IsVariable v) :
    closedName? (v ++ '\x7d' :: b) = some v := by
  have hstop : ∀ c ∈ ('\x7d' :: b).head?, Template.isVariableChar c = false := by
    rintro _ ⟨⟩
    decide
  rw [closedName?, Text.span_append hv.2 hstop]
  cases v with
  | nil => exact absurd rfl hv.1
  | cons c v => rfl

/-- A variable in a path, plain or as an expansion, is one of its variables. -/
theorem Path.mem_variableNames {path a v b : List Char} (hv : Template.IsVariable v)
    (h : path = a ++ '\x7b' :: v ++ '\x7d' :: b ∨
      path = a ++ '\x7b' :: '+' :: v ++ '\x7d' :: b) : v ∈ variableNames path := by
  have hhere : ∃ cs, path = a ++ cs ∧ variableHere? cs = some v := by
    rcases h with rfl | rfl
    · refine ⟨'\x7b' :: v ++ '\x7d' :: b, by simp, ?_⟩
      rw [List.cons_append]
      unfold variableHere?
      split
      · rename_i cs heq
        obtain ⟨c, v, rfl⟩ := List.exists_cons_of_ne_nil hv.1
        rw [List.cons_append] at heq
        have hplus := hv.2 '+' ((List.cons.inj (List.cons.inj heq).2).1 ▸ List.mem_cons_self)
        exact absurd hplus (by decide)
      · rename_i heq
        rw [← (List.cons.inj heq).2]
        exact closedName?_eq hv
      · rename_i hne
        exact absurd rfl (hne _)
    · exact ⟨'\x7b' :: '+' :: v ++ '\x7d' :: b, by simp, closedName?_eq hv⟩
  obtain ⟨cs, rfl, hcs⟩ := hhere
  exact List.mem_filterMap.2 ⟨cs, (List.mem_tails _ _).2 ⟨a, rfl⟩, hcs⟩

/-- What stands in one text in front of a brace stands in another one. -/
def Path.Follows (b b' : List Char) : Prop :=
  ∀ xs c rest, '\x7b' ∉ xs → c ≠ '\x7b' → b = xs ++ c :: rest → ∃ rest', b' = xs ++ c :: rest'

theorem Path.follows_append_brace (s t t' : List Char) :
    Follows (s ++ '\x7b' :: t) (s ++ '\x7b' :: t') := by
  intro xs c rest hxs hc h
  rcases List.append_eq_append_iff.1 h with ⟨w, rfl, hw⟩ | ⟨w, rfl, hw⟩
  · cases w with
    | nil => exact absurd (List.cons.inj hw).1.symm hc
    | cons d w =>
      rw [(List.cons.inj hw).1] at hxs
      simp at hxs
  · cases w with
    | nil => exact absurd (List.cons.inj hw).1 hc
    | cons d w =>
      obtain ⟨rfl, -⟩ := List.cons.inj hw
      exact ⟨w ++ '\x7b' :: t', by simp⟩

/-- A brace that is not behind another one is the same or has the other one behind it. -/
theorem Path.cut_before {before rest a b : List Char}
    (h : a ++ '\x7b' :: b = before ++ '\x7b' :: rest) (hle : a.length ≤ before.length) :
    (a = before ∧ b = rest) ∨ ∃ w, before = a ++ '\x7b' :: w ∧ b = w ++ '\x7b' :: rest := by
  obtain ⟨w, rfl⟩ := List.prefix_of_prefix_length_le ⟨_, h⟩ (List.prefix_append before _) hle
  rw [List.append_assoc] at h
  have hcut := List.append_cancel_left h
  cases w with
  | nil => exact .inl ⟨(List.append_nil a).symm, (List.cons.inj hcut).2⟩
  | cons c w =>
    obtain ⟨rfl, rfl⟩ := List.cons.inj hcut
    exact .inr ⟨w, rfl, rfl⟩

/-- A brace that comes from the path is one of the path, with the same behind it, or that of the
pattern for an expansion. -/
theorem Method.Checked.exists_of_isOwn {decl : MethodDeclaration} {m : Method} (hm : m.Checked decl)
    {a b : List Char} (hflat : m.flatPath.toList = a ++ '\x7b' :: b)
    (h : Path.IsOwn m.path decl.flatPath a b) :
    (∃ a' b', Path.Follows b b' ∧
      (m.path.toList = a' ++ '\x7b' :: b' ∨ m.path.toList = a' ++ '\x7b' :: '+' :: b')) ∨
    ∃ e rest, decl.flatPath.isSome = true ∧ Path.firstExpansion? m.path.toList = some e ∧
      b = (Name.ofIdentifier (String.ofList e.name)).lowerUnderscoreChars ++ '=' :: rest := by
  cases hdecl : decl.flatPath with
  | none =>
    rw [hm.plain hdecl, plainPath, String.toList_ofList] at hflat
    obtain ⟨a', b', rfl, hpath⟩ := Path.exists_brace_of_withoutPlus hflat
    exact .inl ⟨a', b', fun xs c rest hxs hc => Path.exists_of_withoutPlus hxs hc, hpath⟩
  | some flat =>
    rw [hdecl] at h
    obtain ⟨e, he, hside⟩ := h.resolve_left nofun
    obtain ⟨hpath, -⟩ := Path.eq_of_firstExpansion? he
    obtain ⟨pattern, htemplate⟩ := exists_of_normalizePath he (hm.flat flat hdecl)
    rw [hflat] at htemplate
    rcases hside with hbefore | hafter
    · -- the brace is in front of the pattern or at its beginning
      rw [List.append_assoc, List.append_assoc] at htemplate
      rcases Path.cut_before htemplate hbefore with ⟨rfl, hb⟩ | ⟨w, hw, rfl⟩
      · exact .inr ⟨e, pattern ++ '\x7d' :: e.after, rfl, he, by simpa using hb⟩
      · refine .inl ⟨a, _, Path.follows_append_brace w _ ('+' :: e.name ++ '\x7d' :: e.after), ?_⟩
        rw [hpath, hw]
        exact .inl (by simp)
    · -- the brace is behind the pattern
      rw [List.append_cons _ '\x7d' e.after] at htemplate
      obtain ⟨w, hw⟩ := List.suffix_of_suffix_length_le (List.suffix_append a ('\x7b' :: b))
        (htemplate ▸ List.suffix_append _ e.after) hafter
      refine .inl ⟨e.before ++ '\x7b' :: '+' :: e.name ++ '\x7d' :: w, b,
        fun _ _ rest _ _ hb => ⟨rest, hb⟩, .inl ?_⟩
      rw [hpath, ← hw]
      simp

end Api

namespace Conversion

variable {decl : MethodDeclaration} {m : Method} {servicePath text : String} {x : List Char}

/-- The template of a rule is cut where the flat path is. -/
theorem template_eq {a b : List Char} (h : m.flatPath.toList = a ++ '\x7b' :: b) :
    s!"/{servicePath}{m.flatPath}".toList
      = s!"/{servicePath}{String.ofList a}".toList ++ '\x7b' :: b := by
  simp [toString, h]

/-- The variables that a path contributes are its plain variables, named as fields, that of its
expansion, and those that it has with a pattern. -/
theorem exists_of_contributes (hm : m.Checked decl)
    (htext : Template.withFieldNames s!"/{servicePath}{m.flatPath}" = .ok text)
    (h : m.Contributes servicePath decl.flatPath text x) :
    (∃ v ∈ Path.variableNames m.path.toList,
      fieldName (String.ofList v) = .ok (String.ofList x)) ∨
    (∃ e, decl.flatPath.isSome = true ∧ Path.firstExpansion? m.path.toList = some e ∧
      x = (Name.ofIdentifier (String.ofList e.name)).lowerUnderscoreChars) ∨
    ∃ a b, m.path.toList = a ++ '\x7b' :: x ++ '=' :: b ∨
      m.path.toList = a ++ '\x7b' :: '+' :: x ++ '=' :: b := by
  obtain ⟨a, b, p, c, q, hflat, hown, hp, hcut, hc, hx⟩ := h
  have hbrace {v : List Char} (hv : Template.IsVariable v) : '\x7b' ∉ v := fun hmem =>
    absurd (hv.2 _ hmem) (by decide)
  obtain ⟨p', r, hp', hr, happend⟩ := Template.exists_of_withFieldNames (template_eq hflat) htext
  obtain rfl := Except.ok.inj (hp'.symm.trans hp)
  obtain rfl : r = '\x7b' :: x ++ c :: q := by
    rw [happend, List.append_assoc] at hcut
    exact List.append_cancel_left hcut
  have hstop : Template.isVariableChar c = false := by rcases hc with rfl | rfl <;> decide
  obtain ⟨hplain, hpattern⟩ := Template.variable_of_render hx hstop hr
  rcases hm.exists_of_isOwn hflat hown with ⟨a', b', hfollows, hpath⟩ | ⟨e, rest, hsome, he, hb⟩
  · rcases hc with rfl | rfl
    · obtain ⟨v, cs, hv, hb, hfield⟩ := hplain rfl
      obtain ⟨rest, rfl⟩ := hfollows v _ cs (hbrace hv) (by decide) hb
      exact .inl ⟨v, Path.mem_variableNames hv (by simpa using hpath), hfield⟩
    · obtain ⟨cs, hb⟩ := hpattern rfl
      obtain ⟨rest, rfl⟩ := hfollows x _ cs (hbrace hx) (by decide) hb
      exact .inr (.inr ⟨a', rest, by simpa using hpath⟩)
  · have hname := Template.isVariableChar_of_ofIdentifier (String.ofList e.name)
    rcases hc with rfl | rfl
    · obtain ⟨v, cs, hv, hv', -⟩ := hplain rfl
      obtain ⟨-, hne, -⟩ :=
        Text.append_cons_inj hv.2 hname (by decide) (by decide) (hv'.symm.trans hb)
      cases hne
    · obtain ⟨cs, hx'⟩ := hpattern rfl
      obtain ⟨rfl, -⟩ :=
        Text.append_cons_inj hx.2 hname (by decide) (by decide) (hx'.symm.trans hb)
      exact .inr (.inl ⟨e, hsome, he, rfl⟩)

/-- The expansion of a path gives a variable to the template: its name in lower case, if anything is
left of it. -/
theorem contributes_of_expansion (hm : m.Checked decl) (hflat : decl.flatPath.isSome = true)
    {e : Path.Expansion} (he : Path.firstExpansion? m.path.toList = some e)
    (hne : (Name.ofIdentifier (String.ofList e.name)).lowerUnderscoreChars ≠ [])
    (htext : Template.withFieldNames s!"/{servicePath}{m.flatPath}" = .ok text) :
    m.Contributes servicePath decl.flatPath text
      (Name.ofIdentifier (String.ofList e.name)).lowerUnderscoreChars := by
  obtain ⟨flat, hflat⟩ := Option.isSome_iff_exists.1 hflat
  obtain ⟨pattern, hpattern⟩ := exists_of_normalizePath he (hm.flat flat hflat)
  have hname := Template.isVariableChar_of_ofIdentifier (String.ofList e.name)
  -- the template is cut in front of the brace of the pattern
  have hcut : m.flatPath.toList = e.before ++ '\x7b' ::
      ((Name.ofIdentifier (String.ofList e.name)).lowerUnderscoreChars
        ++ '=' :: (pattern ++ '\x7d' :: e.after)) := by simp [hpattern]
  obtain ⟨p, r, hp, hr, happend⟩ := Template.exists_of_withFieldNames (template_eq hcut) htext
  obtain ⟨q, rfl⟩ := Template.exists_pattern_of_render hname hr
  exact ⟨e.before, _, p, '=', q, hcut, .inr ⟨e, he, .inl le_rfl⟩, hp, by simpa using happend,
    .inr rfl, hne, hname⟩

/-! ## Fields of requests -/

section Requests

variable {request : Message} {r : Rpc} {names required : List String} {body? : Option String}

/-- A parameter has a field. -/
theorem Agreement.exists_field (h : Agreement m request r names body? required) {v : String}
    (hv : m.parameters.has v = true) :
    ∃ name, fieldName v = .ok name ∧ ∃ f ∈ request.fields, f.name = name := by
  obtain ⟨name, hname, hfield⟩ := Resolution.exists_mem_of_forall₂
    (Resolution.forall₂_of_mapM h.parameters).flip v (Table.has_iff.1 hv)
  refine ⟨name, hfield, ?_⟩
  exact List.mem_map.1 (h.fields.mem_iff.2 (List.mem_append_left _ hname))

/-- If its variables are parameters, a path gives the names of fields to a template, up to the case
of an expansion and to what is no path variable. -/
theorem Agreement.pathVariable (h : Agreement m request r names body? required)
    (hm : m.Checked decl) (hdeclares : m.DeclaresPath)
    (htext : Template.withFieldNames s!"/{servicePath}{m.flatPath}" = .ok text)
    (hx : m.Contributes servicePath decl.flatPath text x) :
    m.PathVariable decl.flatPath request x := by
  rcases exists_of_contributes hm htext hx with ⟨v, hv, hfield⟩ | ⟨e, hsome, he, rfl⟩ |
    ⟨a, b, hpath⟩
  · obtain ⟨name, hname, hrequest⟩ := h.exists_field (hdeclares v hv)
    obtain rfl := Except.ok.inj (hname.symm.trans hfield)
    exact .field hrequest
  · by_cases hname : Template.IsVariable e.name
    · have hv := hdeclares e.name
        (Path.mem_variableNames hname (.inr (Path.eq_of_firstExpansion? he).1))
      obtain ⟨name, hfield, hrequest⟩ := h.exists_field hv
      obtain ⟨n, hn, hfield⟩ := Except.bind_eq_ok_iff.1 hfield
      obtain ⟨rfl, -⟩ := Name.eq_ofIdentifier hn
      obtain rfl := Except.ok.inj hfield
      split at hrequest
      · rename_i hupper
        exact .capital hsome he hupper rfl hrequest
      · exact .field hrequest
    · exact .strange hsome he hname rfl
  · exact .written hpath

end Requests

end Conversion

/-! ## Runs -/

/-- In a run without an earlier file and without messages to be left out, every rpc is made of a
method that is declared. It agrees with its request, and its template is made of its path. -/
theorem exists_declared_of_convert {input : Input} {o : Output} (h : (convert input).1 = .ok o)
    (hproto : input.proto? = none) (hignored : input.options.ignoredMessages = []) :
    ∃ decl d, DocumentDeclaration.ofText input.document = .ok decl ∧
      Document.ofDeclaration decl = .ok d ∧
      ∀ s ∈ o.file.services.values, ∀ r ∈ s.rpcs.values, ∃ x ∈ decl.declared, ∃ m,
        Method.ofDeclaration d.name x.resource x.key x.declaration = .ok m ∧
        serviceName x.resource = .ok s.name ∧
        ∃ request text, o.file.messages.get? r.input = some request ∧
          (∃ names body? required, Conversion.Agreement m request r names body? required) ∧
          Conversion.HasTemplate r text ∧
          Conversion.Template.withFieldNames s!"/{d.servicePath}{m.flatPath}" = .ok text := by
  obtain ⟨d, hd, hrpcs⟩ := exists_method_of_convert h hproto hignored
  obtain ⟨decl, hdecl, hofDeclaration⟩ := Document.exists_of_ofText hd
  refine ⟨decl, d, hdecl, hofDeclaration, fun s hs r hr => ?_⟩
  obtain ⟨resource, hresource, hname, m, hm, hmade⟩ := hrpcs s hs r hr
  obtain ⟨x, hx, hkey, hmethod⟩ := Document.exists_declared hofDeclaration hresource hm
  exact ⟨x, hx, m, hmethod, hkey ▸ hname, hmade⟩

/-- In a run without an earlier file and without messages to be left out, every rpc is made of a
method that is declared. If all path variables of the method are parameters, then what the path
gives to the template of the rpc is what `Method.PathVariable` lists. -/
theorem variables_of_convert {input : Input} {o : Output} (h : (convert input).1 = .ok o)
    (hproto : input.proto? = none) (hignored : input.options.ignoredMessages = []) :
    ∃ decl d, DocumentDeclaration.ofText input.document = .ok decl ∧
      Document.ofDeclaration decl = .ok d ∧
      ∀ s ∈ o.file.services.values, ∀ r ∈ s.rpcs.values, ∃ x ∈ decl.declared, ∃ m,
        Method.ofDeclaration d.name x.resource x.key x.declaration = .ok m ∧
        serviceName x.resource = .ok s.name ∧ r.name = Conversion.rpcName m ∧
        ∃ request text, o.file.messages.get? r.input = some request ∧
          Conversion.HasTemplate r text ∧
          Conversion.Template.withFieldNames s!"/{d.servicePath}{m.flatPath}" = .ok text ∧
          (m.DeclaresPath → ∀ v, m.Contributes d.servicePath x.declaration.flatPath text v →
            m.PathVariable x.declaration.flatPath request v) := by
  obtain ⟨decl, d, hdecl, hd, hrpcs⟩ := exists_declared_of_convert h hproto hignored
  refine ⟨decl, d, hdecl, hd, fun s hs r hr => ?_⟩
  obtain ⟨x, hx, m, hm, hname, request, text, hrequest, ⟨names, body?, required, hagreement⟩,
    htemplate, htext⟩ := hrpcs s hs r hr
  exact ⟨x, hx, m, hm, hname, hagreement.name, request, text, hrequest, htemplate, htext,
    fun hdeclares v hv =>
      hagreement.pathVariable (Method.checked_of_ofDeclaration hm) hdeclares htext hv⟩

/-- A document with one method, whose parameters are strings. -/
def pathLakes (parameters : List String) (path flatPath : String) : String :=
  lakesApi [] [("lakes", methodResource "get" [
    ("path", .string path),
    ("flatPath", .string flatPath),
    ("parameters", .object (parameters.map fun name =>
      (name, .object [("type", .string "string"), ("location", .string "path")])))])]

/-- Bays of lakes, where the lake is given by an expansion. -/
def bayLakes : String :=
  pathLakes ["Bay-Id", "name"] "v1/\x7b+name\x7d/bays/\x7bBay-Id\x7d"
    "v1/lakes/\x7blakesId\x7d/bays/\x7bBay-Id\x7d"

theorem variables_of_convert_bayLakes :
    ∃ o, (convert { document := bayLakes }).1 = .ok o ∧
      o.file.services.any (·.2.rpcs.has "Get") = true ∧
      ∃ decl d, DocumentDeclaration.ofText bayLakes = .ok decl ∧
        Document.ofDeclaration decl = .ok d ∧
        (∀ x ∈ decl.declared, ∀ m,
          Method.ofDeclaration d.name x.resource x.key x.declaration = .ok m →
            m.DeclaresPath ∧ m.hasExpansion = true) ∧
        ∀ s ∈ o.file.services.values, ∀ r ∈ s.rpcs.values, ∃ x ∈ decl.declared, ∃ m,
          Method.ofDeclaration d.name x.resource x.key x.declaration = .ok m ∧
          serviceName x.resource = .ok s.name ∧ r.name = Conversion.rpcName m ∧
          ∃ request text, o.file.messages.get? r.input = some request ∧
            Conversion.HasTemplate r text ∧
            Conversion.Template.withFieldNames s!"/{d.servicePath}{m.flatPath}" = .ok text ∧
            (m.DeclaresPath → ∀ v, m.Contributes d.servicePath x.declaration.flatPath text v →
              m.PathVariable x.declaration.flatPath request v) := by
  have hspells : Json.Spells bayLakes _ := Json.spells_compact (by
    simp [Json.Printable, Json.PrintableMembers, methodResource])
  obtain ⟨o, ho, hget⟩ : ∃ o, (convert { document := bayLakes }).1 = .ok o ∧
      o.file.services.any (·.2.rpcs.has "Get") = true :=
    exists_eq_ok_of_eq (convert_of_spells hspells) (by decide +kernel)
  obtain ⟨decl', hdecl', hmethods⟩ : ∃ decl, DocumentDeclaration.ofText bayLakes = .ok decl ∧
      decl.allMethods (fun _ m => decide (m.DeclaresPath ∧ m.hasExpansion = true)) = true :=
    exists_eq_ok_of_eq (DocumentDeclaration.ofText_of_spells hspells) (by decide +kernel)
  obtain ⟨decl, d, hdecl, hd, hvariables⟩ := variables_of_convert ho rfl rfl
  obtain rfl := Except.ok.inj (hdecl'.symm.trans hdecl)
  exact ⟨o, ho, hget, decl', d, hdecl, hd, fun x hx m hm =>
    of_decide_eq_true (DocumentDeclaration.of_allMethods hmethods hd hx hm), hvariables⟩

/-- Lakes, given by an expansion that begins with a capital. -/
def namedLakes : String :=
  pathLakes ["Name"] "v1/\x7b+Name\x7d" "v1/lakes/\x7blakesId\x7d"

/-- The variable for the lake is no field of the request. -/
theorem exists_not_field_namedLakes : ∃ o decl d,
    (convert { document := namedLakes }).1 = .ok o ∧
    DocumentDeclaration.ofText namedLakes = .ok decl ∧ Document.ofDeclaration decl = .ok d ∧
    ∃ s ∈ o.file.services.values, ∃ r ∈ s.rpcs.values, ∃ x ∈ decl.declared, ∃ m,
      Method.ofDeclaration d.name x.resource x.key x.declaration = .ok m ∧
      serviceName x.resource = .ok s.name ∧ r.name = Conversion.rpcName m ∧
      m.DeclaresPath ∧ m.hasExpansion = true ∧
      ∃ request text v, o.file.messages.get? r.input = some request ∧
        Conversion.HasTemplate r text ∧
        m.Contributes d.servicePath x.declaration.flatPath text v ∧
        ¬∃ f ∈ request.fields, f.name = String.ofList v := by
  have hspells : Json.Spells namedLakes _ := Json.spells_compact (by
    simp [Json.Printable, Json.PrintableMembers, methodResource])
  obtain ⟨o, ho, hs⟩ : ∃ o, (convert { document := namedLakes }).1 = .ok o ∧
      (o.file.services.values.any fun s => s.rpcs.values.any fun r =>
        (o.file.messages.get? r.input).any fun q => q.fields.all (·.name != "name")) = true :=
    exists_eq_ok_of_eq (convert_of_spells hspells) (by decide +kernel)
  obtain ⟨decl', hdecl', hmethods⟩ : ∃ decl, DocumentDeclaration.ofText namedLakes = .ok decl ∧
      decl.allMethods (fun x m => decide (m.DeclaresPath ∧ x.declaration.flatPath.isSome = true ∧
        Path.firstExpansion? m.path.toList = some ⟨"v1/".toList, "Name".toList, []⟩)) = true :=
    exists_eq_ok_of_eq (DocumentDeclaration.ofText_of_spells hspells) (by decide +kernel)
  obtain ⟨decl, d, hdecl, hd, hrpcs⟩ := exists_declared_of_convert ho rfl rfl
  obtain rfl := Except.ok.inj (hdecl'.symm.trans hdecl)
  obtain ⟨s, hs, hr⟩ := List.any_eq_true.1 hs
  obtain ⟨r, hr, hrequest⟩ := List.any_eq_true.1 hr
  obtain ⟨request, hrequest, hfields⟩ := (Option.any_eq_true _ _).1 hrequest
  obtain ⟨x, hx, m, hm, hname, request', text, hrequest', ⟨_, _, _, hagreement⟩, htemplate,
    htext⟩ := hrpcs s hs r hr
  obtain rfl := Option.some.inj (hrequest'.symm.trans hrequest)
  obtain ⟨hdeclares, hflat, he⟩ :=
    of_decide_eq_true (DocumentDeclaration.of_allMethods hmethods hd hx hm)
  have hexpansion : m.hasExpansion = true := by
    rw [Method.hasExpansion, Path.hasExpansion, he]
    rfl
  refine ⟨o, decl', d, ho, hdecl, hd, s, hs, r, hr, x, hx, m, hm, hname, hagreement.name, hdeclares,
    hexpansion, request', text, _, hrequest, htemplate, Conversion.contributes_of_expansion
      (Method.checked_of_ofDeclaration hm) hflat he (by decide) htext, ?_⟩
  rintro ⟨f, hf, hfname⟩
  have hne := List.all_eq_true.1 hfields f hf
  rw [hfname] at hne
  exact absurd hne (by decide)

end DiscoveryGrpc
