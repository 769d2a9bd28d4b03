import DiscoveryGrpc.Proofs.Api.Normalization
import DiscoveryGrpc.Proofs.Conversion.Made
import DiscoveryGrpc.Proofs.Conversion.Replay

/-!
# Resources

A method names a resource if its path has a marker and its template has a variable with a pattern
in which collections and `*` alternate (`Method.NamesResource`). The type and the pattern in the
definition of the resource are made of these collections. With the names of elements replaced by
`*`, the pattern in the definition is that of the template (`Resource.starred_pattern`).

A conversion adds the definition of one method after the other, and the first one of each type
stays. `Defines rs x` says that a computation that succeeds adds just the definitions `rs`, in this
order, so that what a whole conversion adds is the sum of what its parts do (`defines_buildAll`).
What stays of a list of definitions is said once, by `Defined`.
-/

namespace DiscoveryGrpc

open Proto Api

namespace Conversion

/-! ## Patterns -/

namespace Template

/-- A variable with a pattern, and the template around it. -/
structure Variable where
  before : List Char
  name : List Char
  pattern : List Char
  after : List Char

/-- A template is cut at a variable with a pattern. -/
structure Cut (template : List Char) (v : Variable) : Prop where
  eq : template = v.before ++ '\x7b' :: v.name ++ '=' :: v.pattern ++ '\x7d' :: v.after
  name_ne : v.name ≠ []
  name_chars : ∀ c ∈ v.name, isPatternNameChar c = true
  pattern_ne : v.pattern ≠ []
  not_closed : '\x7d' ∉ v.pattern

/-- The first variable with a pattern in a template has this pattern. -/
def FirstPattern (template pattern : List Char) : Prop :=
  ∃ v, Cut template v ∧ v.pattern = pattern ∧
    ∀ v', Cut template v' → v.before.length ≤ v'.before.length

theorem exists_cut_of_patternHere? {cs pattern : List Char} (h : patternHere? cs = some pattern) :
    ∃ name after, Cut cs ⟨[], name, pattern, after⟩ := by
  unfold patternHere? at h
  split at h
  · rename_i cs
    rw [Text.span_eq] at h
    split at h
    · rename_i c name rest hspan
      obtain ⟨hname, hrest⟩ := Prod.mk.inj hspan
      split at h
      · cases h
      · cases h
      · rename_i pattern' after hne huntil
        obtain rfl := Option.some.inj h
        obtain ⟨rfl, hclosed⟩ := Path.untilBrace?_eq_some_iff.1 huntil
        refine ⟨c :: name, after, ⟨?_, by simp, fun d hd => ?_, ?_, hclosed⟩⟩
        · have hcs := List.takeWhile_append_dropWhile (p := isPatternNameChar) (l := cs)
          rw [hname, hrest] at hcs
          simp [← hcs]
        · rw [← hname] at hd
          exact List.mem_takeWhile_imp hd
        · rintro rfl
          exact hne rfl
    · cases h
  · cases h

theorem patternHere?_of_cut {cs name pattern after : List Char}
    (h : Cut cs ⟨[], name, pattern, after⟩) : patternHere? cs = some pattern := by
  obtain ⟨heq, hne, hchars, hpattern, hclosed⟩ := h
  obtain ⟨c, name, rfl⟩ := List.exists_cons_of_ne_nil hne
  obtain ⟨d, pattern, rfl⟩ := List.exists_cons_of_ne_nil hpattern
  obtain rfl : cs = '\x7b' :: ((c :: name) ++ '=' :: ((d :: pattern) ++ '\x7d' :: after)) := by
    simpa using heq
  have hstop : ∀ e ∈ ('=' :: ((d :: pattern) ++ '\x7d' :: after)).head?,
      isPatternNameChar e = false := by
    rintro e ⟨⟩
    decide
  have hspan := Text.span_append hchars hstop
  have huntil := Path.untilBrace?_eq_some_iff.2
    ⟨(rfl : (d :: pattern) ++ '\x7d' :: after = _), hclosed⟩
  simp only [patternHere?, hspan, huntil]

theorem firstPattern?_eq_search? (cs : List Char) :
    firstPattern? cs = (Text.search? patternHere? cs).map (·.2) := by
  induction cs with
  | nil => rfl
  | cons c cs ih =>
    rw [firstPattern?, Text.search?]
    cases patternHere? (c :: cs) with
    | some pattern => rfl
    | none =>
      dsimp only
      rw [ih, Option.map_map]
      rfl

theorem takes_patternHere?_iff {cs before pattern : List Char} :
    Text.Takes patternHere? cs before pattern ↔
      ∃ v, Cut cs v ∧ v.before = before ∧ v.pattern = pattern := by
  constructor
  · rintro ⟨rest, rfl, hrest⟩
    obtain ⟨name, after, hcut⟩ := exists_cut_of_patternHere? hrest
    refine ⟨⟨before, name, pattern, after⟩, ⟨?_, hcut.name_ne, hcut.name_chars, hcut.pattern_ne,
      hcut.not_closed⟩, rfl, rfl⟩
    rw [hcut.eq]
    simp
  · rintro ⟨⟨before, name, pattern, after⟩, hcut, rfl, rfl⟩
    refine ⟨'\x7b' :: name ++ '=' :: pattern ++ '\x7d' :: after, ?_,
      patternHere?_of_cut ⟨rfl, hcut.name_ne, hcut.name_chars, hcut.pattern_ne, hcut.not_closed⟩⟩
    simpa using hcut.eq

theorem firstPattern?_eq_some_iff {template pattern : List Char} :
    firstPattern? template = some pattern ↔ FirstPattern template pattern := by
  have hsearch : firstPattern? template = some pattern ↔
      ∃ before, Text.search? patternHere? template = some (before, pattern) := by
    rw [firstPattern?_eq_search?, Option.map_eq_some_iff]
    constructor
    · rintro ⟨⟨before, _⟩, h, rfl⟩
      exact ⟨before, h⟩
    · rintro ⟨before, h⟩
      exact ⟨_, h, rfl⟩
  have hnil : patternHere? [] = none := rfl
  simp only [hsearch, Text.search?_eq_some_iff hnil, takes_patternHere?_iff]
  constructor
  · rintro ⟨before, ⟨v, hv, rfl, rfl⟩, hfirst⟩
    exact ⟨v, hv, rfl, fun v' hv' => hfirst _ _ ⟨v', hv', rfl, rfl⟩⟩
  · rintro ⟨v, hv, rfl, hfirst⟩
    refine ⟨v.before, ⟨v, hv, rfl, rfl⟩, ?_⟩
    rintro _ _ ⟨v', hv', rfl, rfl⟩
    exact hfirst v' hv'

/-- Collections and `*` alternate in a pattern, with slashes between them. -/
structure Alternates (pattern : List Char) (collections : List (List Char)) : Prop where
  eq : pattern = ['/'].intercalate (collections.flatMap fun c => [c, ['*']])
  ne_nil : collections ≠ []
  is_collection : ∀ c ∈ collections, c ≠ ['*'] ∧ '/' ∉ c ∧ '\x7b' ∉ c

theorem collections?_eq_some_iff {ws collections : List (List Char)} :
    collections? ws = some collections ↔ ws = collections.flatMap (fun c => [c, ['*']]) ∧
      ∀ c ∈ collections, c ≠ ['*'] ∧ '\x7b' ∉ c := by
  induction ws using collections?.induct generalizing collections with
  | case1 =>
    cases collections <;> simp [collections?]
  | case2 w =>
    refine iff_of_false nofun fun ⟨heq, _⟩ => ?_
    cases collections <;> simp at heq
  | case3 collection star rest htest ih =>
    obtain ⟨⟨rfl, hne⟩, hbrace⟩ : (star = ['*'] ∧ collection ≠ ['*']) ∧ '\x7b' ∉ collection := by
      simpa using htest
    rw [collections?, if_pos htest, Option.map_eq_some_iff]
    constructor
    · rintro ⟨cs, hcs, rfl⟩
      obtain ⟨rfl, hall⟩ := ih.1 hcs
      exact ⟨rfl, List.forall_mem_cons.2 ⟨⟨hne, hbrace⟩, hall⟩⟩
    · rintro ⟨heq, hall⟩
      cases collections with
      | nil => simp at heq
      | cons c cs =>
        obtain ⟨rfl, -, hrest⟩ : collection = c ∧ True ∧ rest = cs.flatMap fun c => [c, ['*']] := by
          simpa using heq
        exact ⟨cs, ih.2 ⟨hrest, (List.forall_mem_cons.1 hall).2⟩, rfl⟩
  | case4 collection star rest htest =>
    rw [collections?, if_neg htest]
    refine iff_of_false nofun fun ⟨heq, hall⟩ => htest ?_
    cases collections with
    | nil => simp at heq
    | cons c cs =>
      obtain ⟨rfl, rfl, -⟩ : c = collection ∧ star = ['*'] ∧
          rest = cs.flatMap fun c => [c, ['*']] := by
        simpa [eq_comm] using heq
      simpa using hall _ List.mem_cons_self

theorem collections?_splitBy_eq_some_iff {pattern : List Char} {collections : List (List Char)} :
    collections? (Text.splitBy (· == '/') pattern) = some collections ↔
      Alternates pattern collections := by
  rw [collections?_eq_some_iff]
  constructor
  · rintro ⟨heq, hall⟩
    have hsplit : ∀ c ∈ collections, '/' ∉ c := by
      intro c hc hslash
      have hmem : c ∈ Text.splitBy (· == '/') pattern :=
        heq ▸ List.mem_flatMap.2 ⟨c, hc, List.mem_cons_self⟩
      exact absurd (Text.not_sep_of_mem_splitBy hmem _ hslash) (by simp)
    refine ⟨by rw [← heq, Text.intercalate_splitBy], ?_, fun c hc =>
      ⟨(hall c hc).1, hsplit c hc, (hall c hc).2⟩⟩
    rintro rfl
    exact Text.splitBy_ne_nil _ _ heq
  · rintro ⟨rfl, hne, hall⟩
    refine ⟨Text.splitBy_intercalate (by simp) ?_ ?_, fun c hc =>
      ⟨(hall c hc).1, (hall c hc).2.2⟩⟩
    · obtain ⟨c, cs, rfl⟩ := List.exists_cons_of_ne_nil hne
      simp
    · intro w hw d hd
      obtain ⟨c, hc, hw⟩ := List.mem_flatMap.1 hw
      rw [beq_eq_false_iff_ne]
      rintro rfl
      rcases List.mem_pair.1 hw with rfl | rfl
      · exact (hall w hc).2.1 hd
      · simp at hd

end Template

/-! ## Definitions -/

namespace Resource

/-- The name of an element of a collection. -/
def elementName (collection : List Char) : Name :=
  Name.ofIdentifier (Identifier.singular (String.ofList collection))

/-- The type of the elements of the last one of some collections. -/
def type (document : String) (collections : List (List Char)) : String :=
  s!"{document}.googleapis.com/{(elementName (collections.getLastD [])).upperCamel}"

/-- A collection, and a variable for one of its elements. -/
def element (collection : List Char) : String :=
  String.ofList collection ++ "/\x7b" ++ (elementName collection).lowerUnderscore ++ "\x7d"

/-- The pattern for the elements of collections in each other. -/
def pattern (collections : List (List Char)) : String :=
  "/".intercalate (collections.map element)

/-- The definition of the resource for some collections. -/
def definition (document : String) (collections : List (List Char)) : Setting :=
  .group Setting.resourceDefinition
    [("type", .string (type document collections)), ("pattern", .string (pattern collections))]

theorem property?_type_definition (document : String) (collections : List (List Char)) :
    (definition document collections).property? "type" =
      some (.string (type document collections)) := rfl

theorem property?_pattern_definition (document : String) (collections : List (List Char)) :
    (definition document collections).property? "pattern" =
      some (.string (pattern collections)) := by
  simp [definition, Setting.property?, Setting.group, List.lookup]

theorem not_closed_elementName (collection : List Char) :
    '\x7d' ∉ (elementName collection).lowerUnderscoreChars := by
  intro hmem
  rcases Name.isNamePart_of_mem_lowerUnderscoreChars (Name.clean_ofIdentifier _) hmem with h | h
  · exact absurd h (by decide)
  · exact absurd h (by decide)

/-- The name of an element is a group, the only one in its part of the pattern. -/
theorem starred_element {front collection cs ds : List Char} (hfront : '\x7b' ∉ front)
    (hcollection : '\x7b' ∉ collection) (h : Path.Starred cs ds) :
    Path.Starred (front ++ (element collection).toList ++ cs)
      (front ++ collection ++ ['/', '*'] ++ ds) := by
  have ha : '\x7b' ∉ front ++ collection ++ ['/'] := by simp [hfront, hcollection]
  have hgroup := Path.Starred.group ha (not_closed_elementName collection) h
  simpa [element, Name.lowerUnderscore] using hgroup

theorem starred_elements {collections : List (List Char)} (h : ∀ c ∈ collections, '\x7b' ∉ c) :
    Path.Starred (collections.flatMap fun c => ['/'] ++ (element c).toList)
      (collections.flatMap fun c => ['/'] ++ c ++ ['/', '*']) := by
  induction collections with
  | nil => exact .rest (by simp)
  | cons c cs ih =>
    obtain ⟨hc, hcs⟩ := List.forall_mem_cons.1 h
    exact starred_element (by simp) hc (ih hcs)

/-- With `*` for the names of elements, the pattern of a definition is that of the template. -/
theorem starred_pattern {p : List Char} {collections : List (List Char)}
    (h : Template.Alternates p collections) : Path.Starred (pattern collections).toList p := by
  obtain ⟨rfl, hne, hall⟩ := h
  obtain ⟨c, cs, rfl⟩ := List.exists_cons_of_ne_nil hne
  have hopen : ∀ c' ∈ c :: cs, '\x7b' ∉ c' := fun c' hc' => (hall c' hc').2.2
  obtain ⟨hc, hcs⟩ := List.forall_mem_cons.1 hopen
  have hstarred := starred_element List.not_mem_nil hc (starred_elements hcs)
  simpa [pattern, String.toList_intercalate, Text.intercalate_cons, List.flatMap_cons,
    List.flatMap_assoc, List.flatMap_map] using hstarred

end Resource

/-- The definition that a template makes of its resource, if it names one. -/
def definitions (document template : String) : List Setting :=
  match Template.firstPattern? template.toList with
  | none => []
  | some pattern =>
    ((Template.collections? (Text.splitBy (· == '/') pattern)).map
      (Resource.definition document)).toList

end Conversion

namespace Api.Method

/-- The path of a method has a marker, and collections and `*` alternate in the first pattern of its
template. -/
structure NamesResource (m : Method) (pattern : List Char) (collections : List (List Char)) :
    Prop where
  marker : ∃ e, Path.Cut m.path.toList e
  firstPattern : Conversion.Template.FirstPattern m.flatPath.toList pattern
  alternates : Conversion.Template.Alternates pattern collections

theorem hasExpansion_iff {m : Method} : m.hasExpansion = true ↔ ∃ e, Path.Cut m.path.toList e := by
  rw [hasExpansion, Path.hasExpansion, Option.isSome_iff_ne_none, ne_eq,
    Path.firstExpansion?_eq_none_iff, not_not]

end Api.Method

namespace Conversion

variable {opts : Options} {d : Document} {w w' : Workspace} {α β : Type}

/-- The definitions that a method adds, unless their types are defined. -/
def methodDefinitions (document : String) (m : Method) : List Setting :=
  if m.hasExpansion then definitions document m.flatPath else []

theorem mem_methodDefinitions_iff {document : String} {m : Method} {s : Setting} :
    s ∈ methodDefinitions document m ↔ ∃ pattern collections,
      m.NamesResource pattern collections ∧ s = Resource.definition document collections := by
  unfold methodDefinitions definitions
  constructor
  · intro h
    split at h
    · rename_i hexpansion
      split at h
      · cases h
      · rename_i pattern hpattern
        obtain ⟨collections, hcollections, rfl⟩ :=
          Option.map_eq_some_iff.1 (Option.mem_toList.1 h)
        exact ⟨pattern, collections, ⟨Method.hasExpansion_iff.1 hexpansion,
          Template.firstPattern?_eq_some_iff.1 hpattern,
          Template.collections?_splitBy_eq_some_iff.1 hcollections⟩, rfl⟩
    · cases h
  · rintro ⟨pattern, collections, ⟨hmarker, hpattern, halternates⟩, rfl⟩
    rw [if_pos (Method.hasExpansion_iff.2 hmarker),
      Template.firstPattern?_eq_some_iff.2 hpattern]
    dsimp only
    rw [Template.collections?_splitBy_eq_some_iff.2 halternates]
    exact List.mem_singleton_self _

/-! ## Adding definitions -/

/-- Definitions with one more, unless its type is defined. -/
def define (defined : List Setting) (s : Setting) : List Setting :=
  if defined.any (·.property? "type" == s.property? "type") then defined else defined ++ [s]

/-- What stays of some definitions: one of each type. -/
structure Defined (ss defined : List Setting) : Prop where
  nodup : (defined.map (·.property? "type")).Nodup
  subset : defined ⊆ ss
  complete : ∀ s ∈ ss, ∃ s' ∈ defined, s'.property? "type" = s.property? "type"

theorem Defined.define {ss defined : List Setting} (h : Defined ss defined) (s : Setting) :
    Defined (ss ++ [s]) (define defined s) := by
  unfold Conversion.define
  split
  · rename_i hknown
    obtain ⟨known, hmem, heq⟩ := List.any_eq_true.1 hknown
    refine ⟨h.nodup, fun x hx => List.mem_append_left _ (h.subset hx), fun x hx => ?_⟩
    rcases List.mem_append.1 hx with hx | hx
    · exact h.complete x hx
    · rw [List.mem_singleton.1 hx]
      exact ⟨known, hmem, beq_iff_eq.1 heq⟩
  · rename_i hnew
    refine ⟨?_, fun x hx => ?_, fun x hx => ?_⟩
    · rw [List.map_append, List.map_singleton]
      refine List.nodup_append.2 ⟨h.nodup, List.nodup_singleton _, ?_⟩
      rintro _ hx _ hs rfl
      obtain ⟨x, hx, heq⟩ := List.mem_map.1 hx
      exact hnew (List.any_eq_true.2 ⟨x, hx, beq_iff_eq.2 (heq.trans (List.mem_singleton.1 hs))⟩)
    · exact (List.mem_append.1 hx).elim (fun hx => List.mem_append_left _ (h.subset hx))
        fun hx => List.mem_append_right _ hx
    · rcases List.mem_append.1 hx with hx | hx
      · obtain ⟨x', hx', heq⟩ := h.complete x hx
        exact ⟨x', List.mem_append_left _ hx', heq⟩
      · exact ⟨x, List.mem_append_right _ hx, rfl⟩

/-- Of definitions that are added one after the other, one of each type stays. -/
theorem defined_foldl (ss : List Setting) : Defined ss (ss.foldl define []) := by
  induction ss using List.reverseRecOn with
  | nil => exact ⟨List.nodup_nil, List.Subset.refl _, nofun⟩
  | append_singleton ss s ih =>
    rw [List.foldl_append]
    exact ih.define s

/-- A computation that succeeds adds these definitions, as far as their types are new. -/
structure Defines (ss : List Setting) (x : Build α) : Prop where
  resources : ∀ {w a w'}, x w = .ok a w' → w'.resources = ss.foldl define w.resources

namespace Defines

variable {ss ss' : List Setting} {x : Build α}

theorem pure (a : α) : Defines [] (pure a : Build α) := ⟨fun h => by cases h; rfl⟩

theorem throw (fault : Fault) : Defines [] (throw fault : Build α) := ⟨nofun⟩

theorem lift (x : Except Fault α) : Defines [] (liftM x : Build α) := by
  cases x with
  | error fault => exact throw fault
  | ok a => exact pure a

theorem modify {change : Workspace → Workspace} (h : ∀ w, (change w).resources = w.resources) :
    Defines [] (modify change : Build PUnit) :=
  ⟨fun hx => by cases hx; exact h _⟩

theorem bind {f : α → Build β} (hx : Defines ss x) (hf : ∀ a, Defines ss' (f a)) :
    Defines (ss ++ ss') (x >>= f) where
  resources h := by
    obtain ⟨a, w₁, hxa, hfa⟩ := bind_eq_ok_iff.1 h
    rw [(hf a).resources hfa, hx.resources hxa, List.foldl_append]

/-- Before a computation something may happen that adds nothing. -/
theorem plain_bind {f : α → Build β} (hx : Defines [] x) (hf : ∀ a, Defines ss (f a)) :
    Defines ss (x >>= f) :=
  hx.bind hf

/-- After a computation something may happen that adds nothing. -/
theorem bind_plain {f : α → Build β} (hx : Defines ss x) (hf : ∀ a, Defines [] (f a)) :
    Defines ss (x >>= f) := by
  simpa using hx.bind hf

theorem lift_bind {x : Except Fault α} {f : α → Build β} (hf : ∀ a, x = .ok a → Defines ss (f a)) :
    Defines ss (liftM x >>= f) where
  resources h := by
    obtain ⟨a, ha, h⟩ := lift_bind_eq_ok_iff.1 h
    exact (hf a ha).resources h

theorem get_bind {f : Workspace → Build β} (hf : ∀ w, Defines ss (f w)) :
    Defines ss (get >>= f) where
  resources h := (hf _).resources h

theorem foldlM {xs : List α} {f : β → α → Build β} {defs : α → List Setting}
    (hf : ∀ x ∈ xs, ∀ b, Defines (defs x) (f b x)) (b : β) :
    Defines (xs.flatMap defs) (xs.foldlM f b) := by
  induction xs generalizing b with
  | nil => exact pure b
  | cons x xs ih =>
    rw [List.flatMap_cons, List.foldlM_cons]
    exact (hf x List.mem_cons_self b).bind
      fun b => ih (fun y hy => hf y (List.mem_cons_of_mem _ hy)) b

theorem plain_foldlM {xs : List α} {f : β → α → Build β} (hf : ∀ x ∈ xs, ∀ b, Defines [] (f b x))
    (b : β) : Defines [] (xs.foldlM f b) := by
  have hnil : xs.flatMap (fun _ => ([] : List Setting)) = [] :=
    List.flatMap_eq_nil_iff.2 fun _ _ => rfl
  exact hnil ▸ foldlM hf b

theorem plain_forM {xs : List α} {f : α → Build PUnit} (hf : ∀ x ∈ xs, Defines [] (f x)) :
    Defines [] (xs.forM f) := by
  induction xs with
  | nil => exact pure _
  | cons x xs ih =>
    exact (hf x List.mem_cons_self).plain_bind fun _ =>
      ih fun y hy => hf y (List.mem_cons_of_mem _ hy)

end Defines

/-! ## Messages and enums -/

theorem defines_note (e : Event) : Defines [] (note e) := .modify fun _ => rfl

theorem defines_addMessage (m : Message) : Defines [] (addMessage m) where
  resources {w _ _} h := by
    rw [addMessage_apply] at h
    cases hget : w.messages.get? m.name with
    | none =>
      simp only [hget] at h
      cases h
      rfl
    | some existing =>
      simp only [hget] at h
      split at h
      · cases h
        rfl
      · split at h
        · cases h
          rfl
        · cases h

theorem defines_addMember (e : Message) (value : String × String) :
    Defines [] (addMember e value) := by
  refine (Defines.lift _).plain_bind fun name => ?_
  dsimp only
  split
  · exact .pure _
  · exact (defines_note _).plain_bind fun _ => .pure _

theorem defines_enumType (opts : Options) (h : SchemaHead) (owner : Message) :
    Defines [] (enumType opts h owner) := by
  have henum : ∀ name, Defines [] (enumOf h name) := fun name =>
    (Defines.lift _).plain_bind fun _ =>
      .plain_foldlM (fun value _ e => defines_addMember e value) _
  exact (Defines.lift _).plain_bind fun name => (henum name).plain_bind fun _ =>
    (Defines.lift _).plain_bind fun _ => .pure _

/-! ## Fields -/

theorem defines_inlineType {h : SchemaHead} {make : String → Build Message}
    (hmake : ∀ name, Defines [] (make name)) : Defines [] (inlineType h make) := by
  refine (Defines.lift _).plain_bind fun default => .get_bind fun w => ?_
  dsimp only
  refine (hmake _).plain_bind fun m => (defines_addMessage m).plain_bind fun added => ?_
  split
  · refine Defines.plain_bind ?_ fun _ => .pure _
    exact .modify fun _ => rfl
  · exact .pure _

theorem defines_valueType (opts : Options) {h : SchemaHead} {make : String → Build Message}
    (hmake : ∀ name, Defines [] (make name)) (owner : Message) :
    Defines [] (valueType opts h make owner) := by
  unfold valueType
  split
  · exact (Defines.lift _).plain_bind fun _ => .pure _
  · split
    · split
      · exact defines_enumType opts h owner
      · exact .pure _
    · exact .pure _
    · exact .pure _
    · exact .pure _
    · split
      · exact .pure _
      · exact .throw _
    · exact (defines_inlineType hmake).plain_bind fun _ => .pure _
    · exact .throw _
    · exact .throw _

mutual

theorem defines_fieldOf (opts : Options) : (s : Schema) → (owner : Message) →
    Defines [] (fieldOf opts s owner)
  | ⟨h, properties, items, additional⟩, owner => by
    have hend : ∀ r : FieldType × Message, Defines [] (do
        let f ← liftM (fieldWithType h (isMapField h additional) r.1)
        pure (f, r.2) : Build (Field × Message)) := fun r =>
      (Defines.lift _).plain_bind fun _ => .pure _
    rw [fieldOf]
    split
    · exact (defines_elementType opts items _ _ owner).plain_bind hend
    · split
      · exact (defines_elementType opts additional _ _ owner).plain_bind hend
      · exact (defines_valueType opts (fun name => defines_addProperties opts properties _)
          owner).plain_bind hend

theorem defines_elementType (opts : Options) : (s : Option Schema) → (path : String) →
    (slot : ElementSlot) → (owner : Message) → Defines [] (elementType opts path slot s owner)
  | none, _, _, _ => .throw _
  | some ⟨h, properties, items, additional⟩, path, slot, owner => by
    rw [elementType]
    split
    · exact .throw _
    · exact defines_valueType opts (fun name => defines_addProperties opts properties _) owner

theorem defines_addProperties (opts : Options) : (ps : List (String × Schema)) → (m : Message) →
    Defines [] (addProperties opts ps m)
  | [], m => .pure m
  | (_, s) :: rest, m => by
    rw [addProperties]
    exact (defines_fieldOf opts s m).plain_bind fun r => (Defines.lift _).plain_bind fun m' =>
      defines_addProperties opts rest m'

end

theorem defines_addSchema (opts : Options) (entry : String × Schema) :
    Defines [] (addSchema opts entry) := by
  obtain ⟨key, s⟩ := entry
  unfold addSchema
  dsimp only
  split
  · exact defines_note _
  · split
    · exact defines_note _
    · exact (Defines.lift _).plain_bind fun name =>
        (defines_addProperties opts s.properties _).plain_bind fun m =>
          (defines_addMessage m).plain_bind fun _ => .pure _

/-! ## Services -/

theorem eq_map_of_mapM_lift {f : α → Except Fault β} {g : α → β} {xs : List α} {ys : List β}
    (hf : ∀ x y, f x = .ok y → y = g x)
    (h : xs.mapM (fun x => (liftM (f x) : Build β)) w = .ok ys w') : ys = xs.map g := by
  induction xs generalizing ys w w' with
  | nil => exact (pure_eq_ok_iff.1 h).1.symm
  | cons x xs ih =>
    rw [List.mapM_cons] at h
    obtain ⟨y, hy, h⟩ := lift_bind_eq_ok_iff.1 h
    obtain ⟨ys', w₁, hxs, h⟩ := bind_eq_ok_iff.1 h
    obtain ⟨rfl, -⟩ := pure_eq_ok_iff.1 h
    rw [List.map_cons, ← hf x y hy, ← ih hxs]

theorem eq_element_of_collectionPattern {collection : List Char} {pattern : String}
    (h : collectionPattern (String.ofList collection) = .ok pattern) :
    pattern = Resource.element collection := by
  obtain ⟨name, hname, h⟩ := Except.bind_eq_ok_iff.1 h
  rw [← Except.ok.inj h, (Name.eq_ofIdentifier hname).1]
  rfl

theorem eq_type_of_resourceType {document type : String} {collections : List (List Char)}
    (h : resourceType document ((collections.map String.ofList).getLastD "") = .ok type) :
    type = Resource.type document collections := by
  obtain ⟨name, hname, h⟩ := Except.bind_eq_ok_iff.1 h
  have hlast : (collections.map String.ofList).getLastD "" =
      String.ofList (collections.getLastD []) := by
    rw [List.getLastD_eq_getLast?, List.getLastD_eq_getLast?, List.getLast?_map]
    cases collections.getLast? <;> rfl
  rw [← Except.ok.inj h, (Name.eq_ofIdentifier hname).1, hlast]
  rfl

theorem defines_addResource (document template : String) :
    Defines (definitions document template) (addResource document template) := by
  unfold addResource definitions
  cases Template.firstPattern? template.toList with
  | none => exact .pure _
  | some pattern =>
    dsimp only
    cases Template.collections? (Text.splitBy (· == '/') pattern) with
    | none => exact defines_note _
    | some collections =>
      refine ⟨fun {w _ _} h => ?_⟩
      dsimp only at h
      obtain ⟨patterns, w₁, hpatterns, h⟩ := bind_eq_ok_iff.1 h
      rw [mapM_lift_eq_ok hpatterns] at h
      have hpattern : "/".intercalate patterns = Resource.pattern collections := by
        rw [eq_map_of_mapM_lift (g := fun c => Resource.element c.toList)
          (fun c p hp => eq_element_of_collectionPattern (by simpa using hp)) hpatterns]
        simp [Resource.pattern, Function.comp_def]
      obtain ⟨type, htype, h⟩ := lift_bind_eq_ok_iff.1 h
      rw [get_bind_apply, hpattern, eq_type_of_resourceType htype] at h
      change _ = define w.resources _
      rw [define, Resource.property?_type_definition]
      split at h
      · rename_i hknown
        rw [if_pos hknown, (pure_eq_ok_iff.1 h).2]
      · rename_i hnew
        rw [if_neg hnew]
        cases h
        rfl

theorem defines_outputOf (emptyName description : String) (response : Option Schema) :
    Defines [] (outputOf emptyName description response) := by
  cases response with
  | none => exact (defines_addMessage _).plain_bind fun _ => .pure _
  | some s => exact .lift _

theorem defines_rpcOf (opts : Options) (document : Document) (service : String) (m : Method) :
    Defines (methodDefinitions document.name m) (rpcOf opts document service m) := by
  refine (Defines.lift _).plain_bind fun verb => (Defines.lift _).plain_bind fun collection => ?_
  dsimp only
  refine (defines_addProperties opts m.parameters _).plain_bind fun request => ?_
  refine (Defines.lift _).plain_bind fun r => (defines_addMessage _).plain_bind fun _ => ?_
  refine (defines_outputOf _ _ _).plain_bind fun output =>
    (Defines.lift _).plain_bind fun http => ?_
  refine (Defines.lift _).plain_bind fun signature => ?_
  unfold methodDefinitions
  split
  · exact (defines_addResource _ _).bind_plain fun _ => .pure _
  · exact .pure _

/-- The definitions that the methods of a resource add, but for those that are left out. -/
def serviceDefinitions (opts : Options) (document : String) (ms : List Method) : List Setting :=
  ms.flatMap fun m => if opts.keeps m then methodDefinitions document m else []

/-- The definitions that the methods of a document add, but for those that are left out. -/
def documentDefinitions (opts : Options) (d : Document) : List Setting :=
  d.resources.flatMap fun r =>
    if opts.serves r.1 then serviceDefinitions opts d.name r.2 else []

theorem defines_addMethod (opts : Options) (document : Document) (service : String) (d : Draft)
    (m : Method) : Defines (if opts.keeps m then methodDefinitions document.name m else [])
      (addMethod opts document service d m) := by
  unfold addMethod Options.keeps
  cases ignoredReference? opts.ignoredNames m with
  | some message => exact (defines_note _).plain_bind fun _ => .pure _
  | none => exact (defines_rpcOf opts document service m).bind_plain fun _ => .pure _

theorem defines_addService (opts : Options) (document : Document) (services : Table Service)
    (resource : String × List Method) :
    Defines
      (if opts.serves resource.1 then serviceDefinitions opts document.name resource.2 else [])
      (addService opts document services resource) := by
  obtain ⟨key, methods⟩ := resource
  refine .lift_bind fun name hname => ?_
  dsimp only
  rw [Options.serves, ← eq_camelOf hname]
  cases opts.ignoredServices.contains key || opts.ignoredServices.contains name with
  | true => exact (defines_note _).plain_bind fun _ => .pure _
  | false =>
    refine (Defines.lift _).plain_bind fun version => ?_
    refine (Defines.foldlM (fun m _ d => defines_addMethod opts document name d m) _).bind_plain
      fun draft => ?_
    split
    · exact .pure _
    · exact .pure _

theorem defines_buildAll (opts : Options) (d : Document) :
    Defines (documentDefinitions opts d) (buildAll opts d) :=
  (Defines.plain_forM fun entry _ => defines_addSchema opts entry).plain_bind fun _ =>
    .foldlM (fun resource _ services => defines_addService opts d services resource) _

theorem mem_documentDefinitions_iff {s : Setting} :
    s ∈ documentDefinitions opts d ↔ ∃ resource ∈ d.resources, opts.serves resource.1 = true ∧
      ∃ m ∈ resource.2, opts.keeps m = true ∧ ∃ pattern collections,
        m.NamesResource pattern collections ∧
          s = Resource.definition d.name collections := by
  simp only [documentDefinitions, serviceDefinitions, List.mem_flatMap, List.mem_ite_nil_right,
    mem_methodDefinitions_iff]

end Conversion

end DiscoveryGrpc
