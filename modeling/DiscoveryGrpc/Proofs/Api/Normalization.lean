import DiscoveryGrpc.Proofs.Api.Path
import DiscoveryGrpc.Proofs.Name.Equality
import DiscoveryGrpc.Proofs.Text

/-!
# Normalised paths

A marker `{+name}` of a path is found by its shape alone: `Path.Cut` cuts a path at any marker, and
`Path.Sole` at the first one of a path in which no marker follows another. Markers may overlap, as
in `{+{+name}`, and then they are closed by the same brace. `Path.Starred` says what becomes of the
groups in the part of the flat path that the marker stands for.

`normalizePath_normalizes` says with these alone what normalising gives, and when there is no
result. The places to cut at are numbers of bytes, and those found in the path are used in the flat
path. `Path.Sliced` says that each of them is between two characters of the text that is cut, and
that what is between them is the part in question.
-/

namespace DiscoveryGrpc

namespace Api

namespace Path

/-! ## Markers -/

/-- A marker. -/
def marker (name : List Char) : List Char := '\x7b' :: '+' :: name ++ ['\x7d']

/-- A path is cut at a marker. -/
structure Cut (path : List Char) (e : Expansion) : Prop where
  eq : path = e.before ++ marker e.name ++ e.after
  name_ne : e.name ≠ []
  not_closed : '\x7d' ∉ e.name

/-- Behind one marker of a path there is another one. -/
def HasTwo (path : List Char) : Prop := ∃ e, Cut path e ∧ ∃ e', Cut e.after e'

/-- A path is cut at its first marker. -/
structure First (path : List Char) (e : Expansion) : Prop extends Cut path e where
  first : ∀ e', Cut path e' → e.before.length ≤ e'.before.length

/-- A path is cut at its first marker, and none of its markers follows another one. -/
structure Sole (path : List Char) (e : Expansion) : Prop extends First path e where
  single : ¬HasTwo path

theorem untilBrace?_eq_some_iff {cs inner rest : List Char} :
    untilBrace? cs = some (inner, rest) ↔ cs = inner ++ '\x7d' :: rest ∧ '\x7d' ∉ inner := by
  constructor
  · intro h
    refine ⟨eq_of_untilBrace? h, ?_⟩
    unfold untilBrace? at h
    rw [Text.span_eq] at h
    split at h
    · rename_i heq
      obtain ⟨hinner, -⟩ := Prod.mk.inj heq
      obtain ⟨rfl, -⟩ := Prod.mk.inj (Option.some.inj h)
      intro hmem
      rw [← hinner] at hmem
      simpa using List.mem_takeWhile_imp hmem
    · cases h
  · rintro ⟨rfl, hinner⟩
    have hspan : (inner ++ '\x7d' :: rest).span (· != '\x7d') = (inner, '\x7d' :: rest) :=
      Text.span_append (fun c hc => bne_iff_ne.2 fun heq => hinner (heq ▸ hc)) (by simp)
    rw [untilBrace?, hspan]

/-- A text begins with a marker just if it can be cut there. -/
theorem expansionHere?_eq_some_iff {cs name after : List Char} :
    expansionHere? cs = some (name, after) ↔ Cut cs ⟨[], name, after⟩ := by
  constructor
  · intro h
    obtain ⟨hcs, hne⟩ := eq_of_expansionHere? h
    refine ⟨by simpa [marker] using hcs, hne, ?_⟩
    unfold expansionHere? at h
    split at h
    · split at h
      · cases h
      · cases h
      · rename_i hname
        obtain ⟨rfl, rfl⟩ := Prod.mk.inj (Option.some.inj h)
        exact (untilBrace?_eq_some_iff.1 hname).2
    · cases h
  · rintro ⟨heq, hne, hname⟩
    obtain rfl : cs = '\x7b' :: '+' :: (name ++ '\x7d' :: after) := by simpa [marker] using heq
    obtain ⟨c, name, rfl⟩ := List.exists_cons_of_ne_nil hne
    have huntil := untilBrace?_eq_some_iff.2 ⟨(rfl : (c :: name) ++ '\x7d' :: after = _), hname⟩
    rw [List.cons_append] at huntil ⊢
    simp [expansionHere?, huntil]

theorem takes_expansionHere?_iff {path : List Char} {e : Expansion} :
    Text.Takes expansionHere? path e.before (e.name, e.after) ↔ Cut path e := by
  constructor
  · rintro ⟨rest, rfl, hrest⟩
    have hcut := expansionHere?_eq_some_iff.1 hrest
    refine ⟨?_, hcut.name_ne, hcut.not_closed⟩
    rw [hcut.eq, List.nil_append, List.append_assoc]
  · rintro ⟨heq, hne, hname⟩
    rw [List.append_assoc] at heq
    exact ⟨_, heq, expansionHere?_eq_some_iff.2 ⟨rfl, hne, hname⟩⟩

theorem Cut.append {path : List Char} {e : Expansion} (h : Cut path e) (front : List Char) :
    Cut (front ++ path) { e with before := front ++ e.before } :=
  ⟨by simp [h.eq], h.name_ne, h.not_closed⟩

theorem firstExpansion?_eq_search? (path : List Char) : firstExpansion? path =
    (Text.search? expansionHere? path).map fun (before, name, after) => ⟨before, name, after⟩ := by
  induction path with
  | nil => rfl
  | cons c cs ih =>
    rw [firstExpansion?, Text.search?]
    cases expansionHere? (c :: cs) with
    | some p => rfl
    | none =>
      dsimp only
      rw [ih, Option.map_map, Option.map_map]
      rfl

theorem firstExpansion?_eq_none_iff {path : List Char} :
    firstExpansion? path = none ↔ ¬∃ e, Cut path e := by
  rw [firstExpansion?_eq_search?, Option.map_eq_none_iff, Text.search?_eq_none_iff rfl]
  exact ⟨fun h ⟨e, he⟩ => h _ _ (takes_expansionHere?_iff.2 he),
    fun h before (name, after) htakes =>
      h ⟨⟨before, name, after⟩, takes_expansionHere?_iff.1 htakes⟩⟩

theorem firstExpansion?_eq_some_iff {path : List Char} {e : Expansion} :
    firstExpansion? path = some e ↔ First path e := by
  have hsearch : firstExpansion? path = some e ↔
      Text.search? expansionHere? path = some (e.before, e.name, e.after) := by
    rw [firstExpansion?_eq_search?, Option.map_eq_some_iff]
    constructor
    · rintro ⟨p, hp, rfl⟩
      exact hp
    · exact fun h => ⟨_, h, rfl⟩
  rw [hsearch, Text.search?_eq_some_iff rfl, takes_expansionHere?_iff]
  exact ⟨fun ⟨hcut, hfirst⟩ =>
      ⟨hcut, fun e' he' => hfirst _ _ (takes_expansionHere?_iff.2 he')⟩,
    fun h => ⟨h.toCut, fun before (name, after) htakes =>
      h.first ⟨before, name, after⟩ (takes_expansionHere?_iff.1 htakes)⟩⟩

/-- There is one way to cut a path at its first marker. -/
theorem First.unique {path : List Char} {e e' : Expansion} (h : First path e) (h' : First path e') :
    e = e' :=
  Option.some.inj ((firstExpansion?_eq_some_iff.2 h).symm.trans (firstExpansion?_eq_some_iff.2 h'))

/-- The first marker is closed no later than any other one, so a marker that follows another one
follows the first one. -/
theorem First.hasTwo_iff {path : List Char} {e : Expansion} (h : First path e) :
    HasTwo path ↔ ∃ e', Cut e.after e' := by
  refine ⟨?_, fun hafter => ⟨e, h.toCut, hafter⟩⟩
  rintro ⟨e₁, h₁, e₂, h₂⟩
  have hsuffix : e₁.after <:+ e.after := by
    have heq := h.toCut.eq.symm.trans h₁.eq
    have hle := h.first e₁ h₁
    simp only [List.append_assoc] at heq
    obtain ⟨front, hfront⟩ : e.before <+: e₁.before :=
      List.prefix_of_prefix_length_le (List.prefix_append _ _)
        (heq.symm ▸ List.prefix_append _ _) hle
    rw [← hfront, List.append_assoc] at heq
    have hclose : '\x7b' :: '+' :: e.name ++ '\x7d' :: e.after =
        (front ++ '\x7b' :: '+' :: e₁.name) ++ '\x7d' :: e₁.after := by
      simpa [marker] using List.append_cancel_left heq
    exact Text.suffix_of_append_cons (by simpa using h.not_closed) hclose
  obtain ⟨front, hfront⟩ := hsuffix
  exact ⟨_, hfront ▸ h₂.append front⟩

/-! ## Groups -/

/-- The second text is the first one with `*` for each group from an opening brace to the next
closing one, taken from the left. -/
inductive Starred : List Char → List Char → Prop
  /-- There is no group: no brace closes behind one that opens. -/
  | rest {cs : List Char} (h : ∀ a b, cs = a ++ '\x7b' :: b → '\x7d' ∉ b) : Starred cs cs
  /-- The first brace that opens, up to the first one that closes behind it. -/
  | group {a inner cs ds : List Char} (ha : '\x7b' ∉ a) (hinner : '\x7d' ∉ inner)
      (h : Starred cs ds) : Starred (a ++ '\x7b' :: inner ++ '\x7d' :: cs) (a ++ '*' :: ds)

theorem starGroupsFrom_append {a : List Char} (ha : '\x7b' ∉ a) (cs : List Char) :
    starGroupsFrom none (a ++ cs) = a ++ starGroupsFrom none cs := by
  induction a with
  | nil => rfl
  | cons c a ih =>
    obtain ⟨hc, ha⟩ := not_or.1 (List.mem_cons.not.1 ha)
    rw [List.cons_append, starGroupsFrom, if_neg (Ne.symm hc), ih ha, List.cons_append]

theorem starGroupsFrom_held {inner : List Char} (h : '\x7d' ∉ inner) (held cs : List Char) :
    starGroupsFrom (some held) (inner ++ cs) =
      starGroupsFrom (some (inner.reverse ++ held)) cs := by
  induction inner generalizing held with
  | nil => rfl
  | cons c inner ih =>
    obtain ⟨hc, hinner⟩ := not_or.1 (List.mem_cons.not.1 h)
    rw [List.cons_append, starGroupsFrom, if_neg (Ne.symm hc), ih hinner]
    simp

theorem starGroups_group {a inner : List Char} (ha : '\x7b' ∉ a) (hinner : '\x7d' ∉ inner)
    (cs : List Char) :
    starGroups (a ++ '\x7b' :: inner ++ '\x7d' :: cs) = a ++ '*' :: starGroups cs := by
  rw [starGroups, List.append_assoc, starGroupsFrom_append ha, List.cons_append, starGroupsFrom,
    if_pos rfl, starGroupsFrom_held hinner, starGroupsFrom, if_pos rfl, starGroups]

theorem starGroups_rest {cs : List Char} (h : ∀ a b, cs = a ++ '\x7b' :: b → '\x7d' ∉ b) :
    starGroups cs = cs := by
  by_cases hopen : '\x7b' ∈ cs
  · obtain ⟨a, b, rfl, ha⟩ := List.eq_append_cons_of_mem hopen
    have hheld := starGroupsFrom_held (h a b rfl) ['\x7b'] []
    rw [List.append_nil] at hheld
    rw [starGroups, starGroupsFrom_append ha, starGroupsFrom, if_pos rfl, hheld, starGroupsFrom]
    simp
  · have happend := starGroupsFrom_append hopen []
    rwa [List.append_nil, starGroupsFrom, List.append_nil] at happend

theorem exists_starred (cs : List Char) : ∃ ds, Starred cs ds := by
  induction hn : cs.length using Nat.strong_induction_on generalizing cs with
  | _ n ih =>
    by_cases hopen : '\x7b' ∈ cs
    · obtain ⟨a, b, rfl, ha⟩ := List.eq_append_cons_of_mem hopen
      by_cases hclose : '\x7d' ∈ b
      · obtain ⟨inner, rest, rfl, hinner⟩ := List.eq_append_cons_of_mem hclose
        obtain ⟨ds, hds⟩ := ih rest.length (by rw [← hn]; simp; omega) rest rfl
        exact ⟨a ++ '*' :: ds, by simpa using Starred.group ha hinner hds⟩
      · refine ⟨_, .rest fun a' b' heq hb' => hclose ?_⟩
        exact (Text.suffix_of_append_cons ha heq).subset hb'
    · exact ⟨cs, .rest fun a b heq => absurd (heq ▸ by simp) hopen⟩

/-- There is one text with `*` for each group. -/
theorem starred_iff {cs ds : List Char} : Starred cs ds ↔ ds = starGroups cs := by
  have heq : ∀ {cs ds}, Starred cs ds → ds = starGroups cs := by
    intro cs ds h
    induction h with
    | rest h => exact (starGroups_rest h).symm
    | group ha hinner _ ih => rw [starGroups_group ha hinner, ih]
  refine ⟨heq, ?_⟩
  rintro rfl
  obtain ⟨ds, hds⟩ := exists_starred cs
  exact heq hds ▸ hds

/-! ## What is cut -/

/-- Where a path is cut at a marker, and a flat path as far away from both its ends: with numbers of
bytes that are places between characters. -/
structure Sliced (path flat : String) (e : Expansion) : Prop where
  before : Text.IsSlice path 0 (Text.byteSize e.before) e.before
  marker : Text.IsSlice path (Text.byteSize e.before)
    (Text.byteSize (e.before ++ Path.marker e.name)) (Path.marker e.name)
  after : Text.IsSlice path (Text.byteSize (e.before ++ Path.marker e.name)) path.utf8ByteSize
    e.after
  /-- A flat path with the same beginning and the same end is not cut unless it has bytes enough. -/
  middle : e.before <+: flat.toList → e.after <:+ flat.toList →
    Text.byteSize e.before + Text.byteSize e.after ≤ flat.utf8ByteSize →
    ∃ middle, flat.toList = e.before ++ middle ++ e.after ∧
      Text.IsSlice flat (Text.byteSize e.before) (flat.utf8ByteSize - Text.byteSize e.after) middle

theorem Cut.sliced {path : String} {e : Expansion} (h : Cut path.toList e) (flat : String) :
    Sliced path flat e where
  before := by
    have heq : path.toList = [] ++ e.before ++ (Path.marker e.name ++ e.after) := by simp [h.eq]
    exact Text.isSlice_of_eq heq
  marker := Text.isSlice_of_eq h.eq
  after := by
    have heq : path.toList = (e.before ++ Path.marker e.name) ++ e.after ++ [] := by simp [h.eq]
    have hsize : path.utf8ByteSize = Text.byteSize (e.before ++ Path.marker e.name ++ e.after) := by
      rw [← Text.byteSize_toList, h.eq]
    exact hsize ▸ Text.isSlice_of_eq heq
  middle hbefore hafter hsize := by
    rw [← Text.byteSize_toList] at hsize
    obtain ⟨middle, hflat⟩ := Text.exists_middle_iff.2 ⟨hbefore, hafter, hsize⟩
    have hlast : flat.utf8ByteSize - Text.byteSize e.after =
        Text.byteSize (e.before ++ middle) := by
      rw [← Text.byteSize_toList, hflat, Text.byteSize_append _ e.after]
      omega
    exact ⟨middle, hflat, hlast ▸ Text.isSlice_of_eq hflat⟩

/-- The template for a path and a flat path: the flat path as it is, or with a pattern between the
same texts as the marker of the path. -/
inductive Template (path flat : List Char) : List Char → Prop
  | flat (h : ¬∃ e, Cut path e) : Template path flat flat
  | pattern {e : Expansion} {middle starred : List Char} {name : Name} (he : Sole path e)
      (hflat : flat = e.before ++ middle ++ e.after)
      (hname : Name.ofFragments .camel (Identifier.fragments (String.ofList e.name)) = .ok name)
      (hmiddle : Starred middle starred) :
      Template path flat (e.before ++ '\x7b' :: name.lowerUnderscore.toList ++ '=' :: starred ++
        '\x7d' :: e.after)

end Path

/-- Fragments of identifiers are in camel case, in whatever way they are written. -/
theorem ofFragments_fragments (identifier : String) :
    Name.ofFragments .camel (Identifier.fragments identifier) =
      .ok (Name.ofIdentifier identifier) := by
  refine Name.ofFragments_eq_ok_iff.2 ⟨?_, ?_⟩
  · rw [Identifier.fragments, List.forall_mem_map]
    intro f hf
    obtain ⟨hmem, hne⟩ := List.mem_filter.1 hf
    have hchars := Text.not_sep_of_mem_splitBy hmem
    simp_all [Casing.fits]
  · rw [Name.ofIdentifier, Identifier.fragments, List.flatMap_map]
    simp

namespace Path

variable {path flat template : List Char}

/-! A template is made in one of two ways. The path says in which one. -/

theorem Template.eq_flat (h : Template path flat template) (hnone : ¬∃ e, Cut path e) :
    template = flat := by
  cases h with
  | flat => rfl
  | pattern he => exact absurd ⟨_, he.toCut⟩ hnone

theorem Template.not_hasTwo (h : Template path flat template) : ¬HasTwo path := by
  cases h with
  | flat hnone => exact fun ⟨e, he, _⟩ => hnone ⟨e, he⟩
  | pattern he => exact he.single

theorem Template.exists_of_sole (h : Template path flat template) {e : Expansion}
    (he : Sole path e) : ∃ middle, flat = e.before ++ middle ++ e.after ∧
      template = e.before ++
        '\x7b' :: (Name.ofIdentifier (String.ofList e.name)).lowerUnderscore.toList
          ++ '=' :: starGroups middle ++ '\x7d' :: e.after := by
  cases h with
  | flat hnone => exact absurd ⟨e, he.toCut⟩ hnone
  | @pattern e' middle starred name he' hflat hname hmiddle =>
    obtain rfl := he.toFirst.unique he'.toFirst
    obtain rfl := Except.ok.inj ((ofFragments_fragments _).symm.trans hname)
    obtain rfl := starred_iff.1 hmiddle
    exact ⟨middle, hflat, rfl⟩

end Path

/-- What normalising can come to. -/
inductive Normalizing (path flat : String) : Except Fault String → Prop
  | plain (h : ¬∃ e, Path.Cut path.toList e) : Normalizing path flat (.ok flat)
  | many (h : Path.HasTwo path.toList) : Normalizing path flat (.error (.manyExpansions path))
  | mismatch {e : Path.Expansion} (he : Path.Sole path.toList e)
      (hflat : ¬∃ middle, flat.toList = e.before ++ middle ++ e.after) :
      Normalizing path flat (.error (.flatPathMismatch flat path))
  | pattern {e : Path.Expansion} {middle : List Char} (he : Path.Sole path.toList e)
      (hflat : flat.toList = e.before ++ middle ++ e.after) :
      Normalizing path flat (.ok (String.ofList (e.before ++
        '\x7b' :: (Name.ofIdentifier (String.ofList e.name)).lowerUnderscoreChars
          ++ '=' :: Path.starGroups middle ++ '\x7d' :: e.after)))

theorem normalizing_normalizePath (path flat : String) :
    Normalizing path flat (normalizePath path flat) := by
  unfold normalizePath
  cases hfirst : Path.firstExpansion? path.toList with
  | none => exact .plain (Path.firstExpansion?_eq_none_iff.1 hfirst)
  | some e =>
    have he := Path.firstExpansion?_eq_some_iff.1 hfirst
    dsimp only
    cases hafter : Path.firstExpansion? e.after with
    | some e' =>
      exact .many ⟨e, he.toCut, e', (Path.firstExpansion?_eq_some_iff.1 hafter).toCut⟩
    | none =>
      have hsole : Path.Sole path.toList e :=
        ⟨he, fun h => Path.firstExpansion?_eq_none_iff.1 hafter (he.hasTwo_iff.1 h)⟩
      rw [if_neg (by simp)]
      cases hmiddle : Path.between? e.before e.after flat.toList with
      | some middle =>
        simpa using Normalizing.pattern hsole (Path.between?_eq_some_iff.1 hmiddle)
      | none =>
        refine .mismatch hsole fun ⟨middle, hflat⟩ => ?_
        rw [Path.between?_eq_some_iff.2 hflat] at hmiddle
        cases hmiddle

theorem Normalizing.eq_ok_iff {path flat : String} {r : Except Fault String}
    (h : Normalizing path flat r) {template : String} :
    r = .ok template ↔ Path.Template path.toList flat.toList template.toList := by
  cases h with
  | plain h =>
    constructor
    · intro heq
      rw [← Except.ok.inj heq]
      exact .flat h
    · intro htemplate
      rw [String.toList_inj.1 (htemplate.eq_flat h)]
  | many h => exact iff_of_false nofun fun htemplate => htemplate.not_hasTwo h
  | mismatch he hflat =>
    refine iff_of_false nofun fun htemplate => ?_
    obtain ⟨middle, hmiddle, -⟩ := htemplate.exists_of_sole he
    exact hflat ⟨middle, hmiddle⟩
  | @pattern e middle he hflat =>
    constructor
    · intro heq
      rw [← Except.ok.inj heq, String.toList_ofList,
        ← String.toList_ofList (l := Name.lowerUnderscoreChars _)]
      exact .pattern he hflat (ofFragments_fragments _) (Path.starred_iff.2 rfl)
    · intro htemplate
      obtain ⟨middle', hflat', hchars⟩ := htemplate.exists_of_sole he
      obtain rfl := List.append_cancel_left (List.append_cancel_right (hflat.symm.trans hflat'))
      rw [← String.ofList_toList (s := template), hchars, Name.lowerUnderscore,
        String.toList_ofList]

theorem Normalizing.exists_error_iff {path flat : String} {r : Except Fault String}
    (h : Normalizing path flat r) : (∃ fault, r = .error fault) ↔ Path.HasTwo path.toList ∨
      ∃ e, Path.Sole path.toList e ∧
        ¬∃ middle, flat.toList = e.before ++ middle ++ e.after := by
  cases h with
  | plain h =>
    refine iff_of_false (by simp) ?_
    rintro (⟨e, he, -⟩ | ⟨e, he, -⟩)
    · exact h ⟨e, he⟩
    · exact h ⟨e, he.toCut⟩
  | many h => exact iff_of_true ⟨_, rfl⟩ (.inl h)
  | mismatch he hflat => exact iff_of_true ⟨_, rfl⟩ (.inr ⟨_, he, hflat⟩)
  | pattern he hflat =>
    refine iff_of_false (by simp) ?_
    rintro (htwo | ⟨e', he', hnone⟩)
    · exact he.single htwo
    · obtain rfl := he.toFirst.unique he'.toFirst
      exact hnone ⟨_, hflat⟩

/-- Normalising gives the template for a path and a flat path. There is none if, and only if, one
marker of the path follows another one, or the flat path has not the texts around the marker, one
behind the other. All places to cut at are between characters. -/
theorem normalizePath_normalizes (path flat : String) :
    (∀ template, normalizePath path flat = .ok template ↔
      Path.Template path.toList flat.toList template.toList) ∧
    ((∃ fault, normalizePath path flat = .error fault) ↔ Path.HasTwo path.toList ∨
      ∃ e, Path.Sole path.toList e ∧
        ¬∃ middle, flat.toList = e.before ++ middle ++ e.after) ∧
    ∀ e, Path.Sole path.toList e → Path.Sliced path flat e :=
  have h := normalizing_normalizePath path flat
  ⟨fun _ => h.eq_ok_iff, h.exists_error_iff, fun _ he => he.toCut.sliced flat⟩

/-- Two markers that overlap are cut at the first one, and a group that stays open is none. -/
theorem normalizePath_normalizes_overlapping :
    let path := "é/\x7b+\x7b+lakeName\x7d/é"
    let flat := "é/lakes/\x7blakesId\x7d\x7d\x7bx/é"
    let e : Path.Expansion := ⟨"é/".toList, "\x7b+lakeName".toList, "/é".toList⟩
    Path.Sole path.toList e ∧ Path.Sliced path flat e ∧
      Path.Template path.toList flat.toList "é/\x7blake_name=lakes/*\x7d\x7bx\x7d/é".toList := by
  intro path flat e
  obtain ⟨htemplate, -, hsliced⟩ := normalizePath_normalizes path flat
  have hfirst : Path.First path.toList e := Path.firstExpansion?_eq_some_iff.1 (by decide)
  have hsole : Path.Sole path.toList e := ⟨hfirst, fun htwo =>
    Path.firstExpansion?_eq_none_iff.1 (by decide) (hfirst.hasTwo_iff.1 htwo)⟩
  exact ⟨hsole, hsliced e hsole, (htemplate _).1 (by decide)⟩

end Api

end DiscoveryGrpc
