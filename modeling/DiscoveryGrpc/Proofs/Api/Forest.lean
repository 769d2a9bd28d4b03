import DiscoveryGrpc.Proofs.Api.Layout
import DiscoveryGrpc.Proofs.Api.Nesting

/-!
# The links of an arena

`Linked roots es` says how schemas with their places belong together: every link leads onward to a
schema that belongs to the one with the link, and every schema is one of the roots or is led to. It
holds of parts next to each other as soon as it holds of each of them, and of a schema in front of
what it owns. So it holds of a schema as it lies in an arena (`Schema.linked_nodes`), and of all
that is in the arena for a document, where the roots are the schemas at the top level and those of
methods (`sound_lay`).

`Arena.Forest` says of all links of an arena where they lead, and `forest_lay` that the arena for a
document is such a forest.
-/

namespace DiscoveryGrpc.Api

open Proto

namespace Arena

/-! ## Ascending places -/

/-- Places from one up to another, in order. -/
structure Ascending (first last : Nat) (js : List Nat) : Prop where
  sorted : js.Pairwise (· < ·)
  bounds : ∀ j ∈ js, first ≤ j ∧ j < last

theorem Ascending.append {first middle last : Nat} {js ks : List Nat}
    (hjs : Ascending first middle js) (hks : Ascending middle last ks) (hfirst : first ≤ middle)
    (hlast : middle ≤ last) : Ascending first last (js ++ ks) where
  sorted := List.pairwise_append.2 ⟨hjs.sorted, hks.sorted, fun j hj k hk =>
    (hjs.bounds j hj).2.trans_le (hks.bounds k hk).1⟩
  bounds j hj := by
    rcases List.mem_append.1 hj with hj | hj
    · exact ⟨(hjs.bounds j hj).1, (hjs.bounds j hj).2.trans_le hlast⟩
    · exact ⟨hfirst.trans (hks.bounds j hj).1, (hks.bounds j hj).2⟩

theorem Ascending.singleton {first last : Nat} (h : first < last) :
    Ascending first last [first] where
  sorted := List.pairwise_singleton ..
  bounds j hj := by
    obtain rfl := List.mem_singleton.1 hj
    exact ⟨Nat.le_refl _, h⟩

/-! ## Links -/

/-- Schemas with their places belong together, and the roots among them belong to something else. -/
structure Linked (roots : List (Parent × Nat)) (es : List (Node × Nat)) : Prop where
  /-- A root belongs to what it is said to belong to. -/
  root : ∀ r ∈ roots, ∃ c, (c, r.2) ∈ es ∧ c.parent = r.1
  /-- A link leads onward, to a schema that belongs to the one with the link. -/
  link : ∀ e ∈ es, ∀ j ∈ e.1.links, e.2 < j ∧ ∃ c, (c, j) ∈ es ∧ c.parent = .schema e.2
  /-- A schema is a root, or the one that it belongs to has a link to it. -/
  parent : ∀ e ∈ es, (e.1.parent, e.2) ∈ roots ∨
    ∃ p ∈ es, e.1.parent = .schema p.2 ∧ e.2 ∈ p.1.links
  /-- No two links of a schema lead to the same place. -/
  sorted : ∀ e ∈ es, e.1.links.Pairwise (· < ·)

variable {roots roots' : List (Parent × Nat)} {es es' : List (Node × Nat)}

theorem Linked.nil : Linked [] [] := ⟨by simp, by simp, by simp, by simp⟩

/-- Schemas that belong together, next to others. -/
theorem Linked.append (h : Linked roots es) (h' : Linked roots' es') :
    Linked (roots ++ roots') (es ++ es') where
  root r hr := by
    rcases List.mem_append.1 hr with hr | hr
    · obtain ⟨c, hc, hparent⟩ := h.root r hr
      exact ⟨c, List.mem_append_left _ hc, hparent⟩
    · obtain ⟨c, hc, hparent⟩ := h'.root r hr
      exact ⟨c, List.mem_append_right _ hc, hparent⟩
  link e he j hj := by
    rcases List.mem_append.1 he with he | he
    · obtain ⟨hlt, c, hc, hparent⟩ := h.link e he j hj
      exact ⟨hlt, c, List.mem_append_left _ hc, hparent⟩
    · obtain ⟨hlt, c, hc, hparent⟩ := h'.link e he j hj
      exact ⟨hlt, c, List.mem_append_right _ hc, hparent⟩
  parent e he := by
    rcases List.mem_append.1 he with he | he
    · rcases h.parent e he with hroot | ⟨p, hp, hlink⟩
      · exact .inl (List.mem_append_left _ hroot)
      · exact .inr ⟨p, List.mem_append_left _ hp, hlink⟩
    · rcases h'.parent e he with hroot | ⟨p, hp, hlink⟩
      · exact .inl (List.mem_append_right _ hroot)
      · exact .inr ⟨p, List.mem_append_right _ hp, hlink⟩
  sorted e he := (List.mem_append.1 he).elim (h.sorted e) (h'.sorted e)

/-- Schemas that are put down behind others. -/
theorem Linked.extend {ns ns' : List Node} (h : Linked roots ns.zipIdx)
    (h' : Linked roots' (ns'.zipIdx ns.length)) : Linked (roots ++ roots') (ns ++ ns').zipIdx := by
  rw [List.zipIdx_append, Nat.zero_add]
  exact h.append h'

theorem Linked.lt {ns : List Node} (h : Linked roots ns.zipIdx) {r : Parent × Nat}
    (hr : r ∈ roots) : r.2 < ns.length := by
  obtain ⟨c, hc, -⟩ := h.root r hr
  exact (List.getElem?_eq_some_iff.1 (List.mk_mem_zipIdx_iff_getElem?.1 hc)).1

/-- A schema in front of those that its links lead to. -/
theorem Linked.node {n : Node} {parent : Parent} {i last : Nat} (hparent : n.parent = parent)
    (hlinks : Ascending (i + 1) last n.links) (h : Linked (n.links.map (Parent.schema i, ·)) es) :
    Linked [(parent, i)] ((n, i) :: es) where
  root r hr := by
    obtain rfl := List.mem_singleton.1 hr
    exact ⟨n, List.mem_cons_self, hparent⟩
  link e he j hj := by
    rcases List.mem_cons.1 he with rfl | he
    · obtain ⟨c, hc, hparent⟩ := h.root (.schema i, j) (List.mem_map_of_mem hj)
      exact ⟨(hlinks.bounds j hj).1, c, List.mem_cons_of_mem _ hc, hparent⟩
    · obtain ⟨hlt, c, hc, hparent⟩ := h.link e he j hj
      exact ⟨hlt, c, List.mem_cons_of_mem _ hc, hparent⟩
  parent e he := by
    rcases List.mem_cons.1 he with rfl | he
    · exact .inl (List.mem_singleton.2 (Prod.ext hparent rfl))
    · rcases h.parent e he with hroot | ⟨p, hp, hlink⟩
      · obtain ⟨j, hj, heq⟩ := List.mem_map.1 hroot
        obtain ⟨hparent, rfl⟩ := Prod.mk.inj heq
        exact .inr ⟨(n, i), List.mem_cons_self, hparent.symm, hj⟩
      · exact .inr ⟨p, List.mem_cons_of_mem _ hp, hlink⟩
  sorted e he := by
    rcases List.mem_cons.1 he with rfl | he
    · exact hlinks.sorted
    · exact h.sorted e he

end Arena

/-! ## A schema in an arena -/

namespace Schema

open Arena (Parent Linked Ascending)

theorem length_nodes_pos (parent : Parent) (start : Nat) (s : Schema) :
    0 < (s.nodes parent start).length := by
  obtain ⟨h, properties, items, additional⟩ := s
  rw [nodes]
  exact Nat.succ_pos _

theorem ascending_placesOfTable (parent : Parent) (start : Nat) (ss : Table Schema) :
    Ascending start (start + (nodesOfTable parent start ss).length)
      (Table.values (placesOfTable parent start ss)) := by
  induction ss generalizing start with
  | nil => exact ⟨List.Pairwise.nil, nofun⟩
  | cons e ss ih =>
    have hlength := length_nodes_pos parent start e.2
    have hrest := ih (start + (e.2.nodes parent start).length)
    rw [placesOfTable, nodesOfTable, List.length_append, ← Nat.add_assoc]
    exact (Ascending.singleton (by omega)).append hrest (by omega) (by omega)

theorem ascending_placeOfOption (parent : Parent) (start : Nat) (s : Option Schema) :
    Ascending start (start + (nodesOfOption parent start s).length)
      (s.map fun _ => start).toList := by
  cases s with
  | none => exact ⟨List.Pairwise.nil, nofun⟩
  | some s =>
    have hlength := length_nodes_pos parent start s
    rw [nodesOfOption]
    exact .singleton (by omega)

theorem linked_nodesOfTable {ss : Table Schema} (h : ∀ s ∈ ss.values, ∀ parent start,
      Linked [(parent, start)] ((s.nodes parent start).zipIdx start)) (parent : Parent)
    (start : Nat) : Linked ((Table.values (placesOfTable parent start ss)).map (parent, ·))
      ((nodesOfTable parent start ss).zipIdx start) := by
  induction ss generalizing start with
  | nil => exact .nil
  | cons e ss ih =>
    obtain ⟨he, hss⟩ := List.forall_mem_cons.1 h
    rw [placesOfTable, nodesOfTable, List.zipIdx_append]
    exact (he parent start).append (ih hss _)

theorem linked_nodesOfOption {s : Option Schema} (h : ∀ c ∈ s, ∀ parent start,
      Linked [(parent, start)] ((c.nodes parent start).zipIdx start)) (parent : Parent)
    (start : Nat) : Linked ((s.map fun _ => start).toList.map (parent, ·))
      ((nodesOfOption parent start s).zipIdx start) := by
  cases s with
  | none => exact .nil
  | some s => exact h s rfl parent start

/-- A schema as it lies in an arena is linked to all that it owns, and is the only root. -/
theorem linked_nodes (s : Schema) (parent : Parent) (start : Nat) :
    Linked [(parent, start)] ((s.nodes parent start).zipIdx start) := by
  induction s using Schema.induct generalizing parent start with
  | h s ih =>
    obtain ⟨h, properties, items, additional⟩ := s
    rw [nodes, List.zipIdx_cons, List.zipIdx_append, List.zipIdx_append, List.length_append,
      ← Nat.add_assoc]
    have hproperties := linked_nodesOfTable fun c hc => ih c (.inl hc)
    have hitems := linked_nodesOfOption fun c hc => ih c (.inr (.inl hc))
    have hadditional := linked_nodesOfOption fun c hc => ih c (.inr (.inr hc))
    refine Linked.node rfl (((ascending_placesOfTable ..).append (ascending_placeOfOption ..)
      ?_ ?_).append (ascending_placeOfOption (.schema start) ..) ?_ ?_) ?_
    case refine_5 =>
      rw [Arena.Node.links, List.map_append, List.map_append]
      exact ((hproperties _ _).append (hitems _ _)).append (hadditional _ _)
    all_goals omega

theorem names_placesOfTable (parent : Parent) (start : Nat) (ss : Table Schema) :
    Table.names (placesOfTable parent start ss) = ss.names := by
  induction ss generalizing start with
  | nil => rfl
  | cons e ss ih => exact congrArg (e.1 :: ·) (ih _)

end Schema

namespace Arena

/-! ## A whole arena -/

/-- The schemas that belong to the document or to a method. -/
def roots (a : Arena) : List (Parent × Nat) :=
  a.schemas.values.map (.document, ·) ++
    a.methods.zipIdx.flatMap fun e => e.1.schemas.map (.method e.2, ·)

theorem mem_roots_document {a : Arena} {j : Nat} :
    (Parent.document, j) ∈ a.roots ↔ j ∈ a.schemas.values := by
  simp [roots]

theorem mem_roots_method {a : Arena} {i j : Nat} :
    (Parent.method i, j) ∈ a.roots ↔ ∃ m, a.methods[i]? = some m ∧ j ∈ m.schemas := by
  simp only [roots, List.mem_append, List.mem_map, List.mem_flatMap, Prod.exists, Prod.mk.injEq,
    List.mk_mem_zipIdx_iff_getElem?]
  constructor
  · rintro (⟨_, -, h, -⟩ | ⟨m, k, hm, j, hj, hparent, rfl⟩)
    · cases h
    · cases hparent
      exact ⟨m, hm, hj⟩
  · rintro ⟨m, hm, hj⟩
    exact .inr ⟨m, i, hm, j, hj, rfl, rfl⟩

theorem not_mem_roots_schema {a : Arena} {p j : Nat} : (Parent.schema p, j) ∉ a.roots := by
  simp [roots]

/-- The parameters of a method are split in two parts, and those in the path are one of them. -/
structure MethodNode.Split (nodes : List Node) (m : MethodNode) : Prop where
  perm : (m.pathParameters ++ m.queryParameters).Perm m.parameters
  disjoint : ∀ name, m.pathParameters.has name = true → m.queryParameters.has name = false
  path : ∀ e ∈ m.parameters, e ∈ m.pathParameters ↔ isInPath nodes e.2 = true

theorem MethodNode.split_of_filter {nodes : List Node} {m : MethodNode}
    (hn : m.parameters.names.Nodup)
    (hpath : m.pathParameters = m.parameters.filter fun e => isInPath nodes e.2)
    (hquery : m.queryParameters = m.parameters.filter fun e => !isInPath nodes e.2) :
    m.Split nodes where
  perm := by
    rw [hpath, hquery]
    exact List.filter_append_perm (fun e => isInPath nodes e.2) m.parameters
  disjoint name h := by
    rw [hpath] at h
    rw [hquery, Bool.eq_false_iff]
    intro h'
    obtain ⟨i, hi⟩ := Table.exists_get? h
    obtain ⟨j, hj⟩ := Table.exists_get? h'
    obtain ⟨hi, hpi⟩ := List.mem_filter.1 (Table.mem_of_get? hi)
    obtain ⟨hj, hpj⟩ := List.mem_filter.1 (Table.mem_of_get? hj)
    have heq := (Table.get?_of_nodup hn hi).symm.trans (Table.get?_of_nodup hn hj)
    rw [Option.some.inj heq] at hpi
    rw [hpi] at hpj
    cases hpj
  path e he := by
    rw [hpath, List.mem_filter]
    exact and_iff_right he

theorem getElem?_of_isPrefix {α : Type} {xs ys : List α} (h : xs <+: ys) {i : Nat} {x : α}
    (hx : xs[i]? = some x) : ys[i]? = some x := by
  obtain ⟨hlt, rfl⟩ := List.getElem?_eq_some_iff.1 hx
  exact List.prefix_iff_getElem?.1 h i hlt

theorem isInPath_of_isPrefix {ns ns' : List Node} (h : ns <+: ns') {id : Nat}
    (hid : id < ns.length) : isInPath ns' id = isInPath ns id := by
  have hn := List.getElem?_eq_getElem hid
  rw [isInPath, isInPath, hn, getElem?_of_isPrefix h hn]

theorem MethodNode.Split.of_isPrefix {ns ns' : List Node} {m : MethodNode} (h : m.Split ns)
    (hns : ns <+: ns') (hlt : ∀ id ∈ m.parameters.values, id < ns.length) : m.Split ns' where
  perm := h.perm
  disjoint := h.disjoint
  path e he := by
    rw [isInPath_of_isPrefix hns (hlt e.2 (Table.mem_values_of_mem he))]
    exact h.path e he

/-- What holds of an arena while a document is laid out in it. -/
structure Sound (a : Arena) : Prop where
  linked : Linked a.roots a.nodes.zipIdx
  split : ∀ m ∈ a.methods, m.Split a.nodes
  method_lt : ∀ i ∈ a.resources.values.flatten, i < a.methods.length
  method_nodup : a.resources.values.flatten.Nodup

theorem Sound.layMethod {a : Arena} {m : Method} (h : a.Sound) (hm : m.parameters.names.Nodup) :
    (a.layMethod m).Sound where
  linked := by
    have hbody := fun s : Option Schema =>
      Schema.linked_nodesOfOption fun c (_ : c ∈ s) => Schema.linked_nodes c
    have hparameters := h.linked.extend (Schema.linked_nodesOfTable
      (fun s (_ : s ∈ m.parameters.values) => Schema.linked_nodes s) (.method a.methods.length) _)
    have hrequest := hparameters.extend (hbody m.request (.method a.methods.length) _)
    have hresponse := hrequest.extend (hbody m.response (.method a.methods.length) _)
    -- the roots are those that were there, and the schemas of the method
    refine (congrArg (fun rs => Linked rs _) ?_).mpr hresponse
    simp only [roots, Arena.layMethod, List.zipIdx_append, List.flatMap_append, Nat.zero_add,
      List.zipIdx_singleton, List.flatMap_singleton, MethodNode.schemas, List.map_append,
      ← List.append_assoc]
  split m' hm' := by
    rcases List.mem_append.1 hm' with hm' | hm'
    · refine (h.split m' hm').of_isPrefix (by simp [Arena.layMethod]) fun id hid => ?_
      obtain ⟨i, hi⟩ := List.getElem?_of_mem hm'
      refine h.linked.lt (mem_roots_method.2 ⟨m', hi, ?_⟩)
      simp [MethodNode.schemas, hid]
    · -- the parameters were looked at when they were there, before the bodies
      obtain rfl := List.mem_singleton.1 hm'
      refine (MethodNode.split_of_filter ?_ rfl rfl).of_isPrefix
        ((List.prefix_append ..).trans (List.prefix_append ..)) fun id hid => ?_
      · exact (Schema.names_placesOfTable ..).symm ▸ hm
      · rw [List.length_append]
        exact ((Schema.ascending_placesOfTable ..).bounds id hid).2
  method_lt i hi := by
    rw [Arena.layMethod, List.length_append]
    exact (h.method_lt i hi).trans_le (Nat.le_add_right ..)
  method_nodup := h.method_nodup

theorem Sound.layMethods {a : Arena} {ms : List Method} (h : a.Sound)
    (hms : ∀ m ∈ ms, m.parameters.names.Nodup) : (a.layMethods ms).Sound := by
  induction ms generalizing a with
  | nil => exact h
  | cons m ms ih =>
    obtain ⟨hm, hms⟩ := List.forall_mem_cons.1 hms
    exact ih (h.layMethod hm) hms

theorem mem_flatten_insert {t : Table (List Nat)} {key : String} {ids : List Nat} {i : Nat}
    (h : i ∈ (t.insert key ids).values.flatten) : i ∈ ids ∨ i ∈ t.values.flatten := by
  obtain ⟨is, his, hi⟩ := List.mem_flatten.1 h
  rcases Table.mem_values_insert his with rfl | his
  · exact .inl hi
  · exact .inr (List.mem_flatten.2 ⟨is, his, hi⟩)

theorem nodup_flatten_insert {t : Table (List Nat)} {ids : List Nat} (key : String)
    (ht : t.values.flatten.Nodup) (hids : ids.Nodup) (hnew : ∀ i ∈ ids, i ∉ t.values.flatten) :
    (t.insert key ids).values.flatten.Nodup := by
  induction t with
  | nil => simpa [Table.insert, Table.values] using hids
  | cons e t ih =>
    obtain ⟨k, is⟩ := e
    have happend : (is ++ (Table.values t).flatten).Nodup := ht
    obtain ⟨his, hrest, hdisjoint⟩ := List.nodup_append.1 happend
    have hnew : ∀ i ∈ ids, i ∉ is ∧ i ∉ (Table.values t).flatten := fun i hi =>
      not_or.1 fun hmem => hnew i hi (List.mem_append.2 hmem)
    rw [Table.insert]
    split
    · exact List.nodup_append.2 ⟨hids, happend, fun i hi j hj => by
        rintro rfl
        exact (List.mem_append.1 hj).elim (hnew i hi).1 (hnew i hi).2⟩
    · split
      · exact List.nodup_append.2 ⟨hids, hrest, fun i hi j hj => by
          rintro rfl
          exact (hnew i hi).2 hj⟩
      · refine List.nodup_append.2 ⟨his, ih hrest fun i hi => (hnew i hi).2, fun i hi j hj => ?_⟩
        rintro rfl
        rcases mem_flatten_insert hj with hj | hj
        · exact (hnew i hj).1 hi
        · exact hdisjoint i hi i hj rfl

/-- The methods of a resource get places behind all methods that are there. -/
theorem Sound.layResource {a : Arena} {resource : String × List Method} (h : a.Sound)
    (hms : ∀ m ∈ resource.2, m.parameters.names.Nodup) : (a.layResource resource).Sound := by
  have hmethods := h.layMethods hms
  have hlength := length_methods_layMethods a resource.2
  refine ⟨hmethods.linked, hmethods.split, fun i hi => ?_, ?_⟩
  · change i < (a.layMethods resource.2).methods.length
    rcases mem_flatten_insert hi with hi | hi
    · have hi := List.mem_range'_1.1 hi
      omega
    · have hi := h.method_lt i hi
      omega
  · have hrange : (List.range' a.methods.length resource.2.length).Nodup := List.nodup_range' 1
    refine nodup_flatten_insert _ h.method_nodup hrange fun i hi hold => ?_
    have hi := List.mem_range'_1.1 hi
    have hold := h.method_lt i hold
    omega

theorem Sound.layResources {a : Arena} {rs : List (String × List Method)} (h : a.Sound)
    (hms : ∀ r ∈ rs, ∀ m ∈ r.2, m.parameters.names.Nodup) : (a.layResources rs).Sound := by
  induction rs generalizing a with
  | nil => exact h
  | cons r rs ih =>
    obtain ⟨hr, hrs⟩ := List.forall_mem_cons.1 hms
    exact ih (h.layResource hr) hrs

theorem sound_lay {schemas : Table Schema} {rs : List (String × List Method)}
    (hms : ∀ r ∈ rs, ∀ m ∈ r.2, m.parameters.names.Nodup) : (lay schemas rs).Sound := by
  refine Sound.layResources ⟨?_, by simp, by simp [Table.values], by simp [Table.values]⟩ hms
  have hlinked := Schema.linked_nodesOfTable
    (fun s (_ : s ∈ schemas.values) => Schema.linked_nodes s) .document 0
  simpa [roots] using hlinked

/-! ## Growth -/

/-- What is in an arena stays at its place in another one. -/
structure Extends (a b : Arena) : Prop where
  nodes : a.nodes <+: b.nodes
  methods : a.methods <+: b.methods
  schemas : b.schemas = a.schemas

theorem Extends.refl (a : Arena) : Extends a a := ⟨List.prefix_rfl, List.prefix_rfl, rfl⟩

theorem Extends.trans {a b c : Arena} (h : Extends a b) (h' : Extends b c) : Extends a c :=
  ⟨h.nodes.trans h'.nodes, h.methods.trans h'.methods, h'.schemas.trans h.schemas⟩

theorem extends_layMethod (a : Arena) (m : Method) : Extends a (a.layMethod m) where
  nodes := by simp [layMethod]
  methods := List.prefix_append ..
  schemas := rfl

theorem extends_layMethods (a : Arena) (ms : List Method) : Extends a (a.layMethods ms) := by
  induction ms generalizing a with
  | nil => exact .refl a
  | cons m ms ih => exact (extends_layMethod a m).trans (ih _)

theorem extends_layResource (a : Arena) (r : String × List Method) : Extends a (a.layResource r) :=
  have h := extends_layMethods a r.2
  ⟨h.nodes, h.methods, h.schemas⟩

theorem extends_layResources (a : Arena) (rs : List (String × List Method)) :
    Extends a (a.layResources rs) := by
  induction rs generalizing a with
  | nil => exact .refl a
  | cons r rs ih => exact (extends_layResource a r).trans (ih _)

/-! ## What lies where -/

/-- From a place on, an arena has some schemas. -/
def Holds (a : Arena) (start : Nat) (ns : List Node) : Prop :=
  ∀ e ∈ ns.zipIdx start, a.nodes[e.2]? = some e.1

theorem holds_append_iff {a : Arena} {start : Nat} {ns ns' : List Node} :
    a.Holds start (ns ++ ns') ↔ a.Holds start ns ∧ a.Holds (start + ns.length) ns' := by
  simp only [Holds, List.zipIdx_append, List.forall_mem_append]

theorem holds_cons_iff {a : Arena} {start : Nat} {n : Node} {ns : List Node} :
    a.Holds start (n :: ns) ↔ a.nodes[start]? = some n ∧ a.Holds (start + 1) ns := by
  simp only [Holds, List.zipIdx_cons, List.forall_mem_cons]

theorem Holds.extends {a b : Arena} {start : Nat} {ns : List Node} (h : a.Holds start ns)
    (hab : Extends a b) : b.Holds start ns :=
  fun e he => getElem?_of_isPrefix hab.nodes (h e he)

/-- All schemas of an arena are where they are. -/
theorem holds_nodes (a : Arena) : a.Holds 0 a.nodes :=
  fun _ he => List.mem_zipIdx_iff_getElem?.1 he

/-- A schema lies at a place, and behind it all that it owns. -/
def Lies (a : Arena) (parent : Parent) (id : Nat) (s : Schema) : Prop :=
  a.Holds id (s.nodes parent id)

theorem Holds.lies_table {a : Arena} {parent : Parent} {start : Nat} {ss : Table Schema}
    (h : a.Holds start (Schema.nodesOfTable parent start ss)) :
    List.Forall₂ (fun p e => p.1 = e.1 ∧ a.Lies parent p.2 e.2)
      (Schema.placesOfTable parent start ss) ss := by
  induction ss generalizing start with
  | nil => exact .nil
  | cons e ss ih =>
    rw [Schema.nodesOfTable, holds_append_iff] at h
    exact .cons ⟨rfl, h.1⟩ (ih h.2)

theorem Lies.exists_node {a : Arena} {parent : Parent} {id : Nat} {s : Schema}
    (h : a.Lies parent id s) :
    ∃ n, a.nodes[id]? = some n ∧ n.parent = parent ∧ n.key = s.key := by
  obtain ⟨head, properties, items, additional⟩ := s
  rw [Lies, Schema.nodes, holds_cons_iff] at h
  exact ⟨_, h.1, rfl, rfl⟩

/-! ## Where links lead -/

/-- The links of an arena make its schemas a forest, with the methods and the schemas at the top
level of the document as its roots. -/
structure Forest (a : Arena) : Prop where
  /-- Links lead onward, and not out of the arena. -/
  link : ∀ (i : Nat) (n : Node), a.nodes[i]? = some n → ∀ j ∈ n.links, i < j ∧ j < a.nodes.length
  /-- No two links of a schema lead to the same place. -/
  link_nodup : ∀ (i : Nat) (n : Node), a.nodes[i]? = some n → n.links.Nodup
  /-- A schema belongs to another one just if exactly one link of the other one leads to it. -/
  parent_schema : ∀ (j : Nat) (c : Node), a.nodes[j]? = some c → ∀ p : Nat,
    c.parent = .schema p ↔ ∃ n, a.nodes[p]? = some n ∧ n.links.count j = 1
  /-- A schema belongs to the document just if it is the one at the top level with its key. -/
  parent_document : ∀ (j : Nat) (c : Node), a.nodes[j]? = some c →
    (c.parent = .document ↔ a.schemas.get? c.key = some j)
  /-- A schema belongs to a method just if it is a parameter or a body of the method. -/
  parent_method : ∀ (j : Nat) (c : Node), a.nodes[j]? = some c → ∀ i : Nat,
    c.parent = .method i ↔ ∃ m, a.methods[i]? = some m ∧ j ∈ m.schemas
  /-- The schemas at the top level and those of methods are there. -/
  schema_lt : ∀ j ∈ Table.values a.schemas, j < a.nodes.length
  body_lt : ∀ m ∈ a.methods, ∀ j ∈ m.schemas, j < a.nodes.length
  /-- The methods of resources are there, and each is one of one resource, once. -/
  method_lt : ∀ i ∈ (Table.values a.resources).flatten, i < a.methods.length
  method_nodup : (Table.values a.resources).flatten.Nodup
  split : ∀ m ∈ a.methods, m.Split a.nodes

namespace Sound

variable {a : Arena} {j : Nat} {c : Node}

theorem link_nodup (h : a.Sound) (hc : a.nodes[j]? = some c) : c.links.Nodup :=
  (h.linked.sorted _ (List.mk_mem_zipIdx_iff_getElem?.2 hc)).imp fun hlt => Nat.ne_of_lt hlt

theorem parent_of_mem_roots (h : a.Sound) (hc : a.nodes[j]? = some c) {parent : Parent}
    (hr : (parent, j) ∈ a.roots) : c.parent = parent := by
  obtain ⟨c', hc', hparent⟩ := h.linked.root _ hr
  rw [List.mk_mem_zipIdx_iff_getElem?, hc] at hc'
  rw [Option.some.inj hc', hparent]

/-- What does not belong to a schema is a root. -/
theorem mem_roots (h : a.Sound) (hc : a.nodes[j]? = some c) (hne : ∀ p, c.parent ≠ .schema p) :
    (c.parent, j) ∈ a.roots := by
  rcases h.linked.parent _ (List.mk_mem_zipIdx_iff_getElem?.2 hc) with hr | ⟨p, -, hp, -⟩
  · exact hr
  · exact absurd hp (hne _)

theorem exists_link (h : a.Sound) (hc : a.nodes[j]? = some c) {p : Nat}
    (hparent : c.parent = .schema p) : ∃ n, a.nodes[p]? = some n ∧ j ∈ n.links := by
  rcases h.linked.parent _ (List.mk_mem_zipIdx_iff_getElem?.2 hc) with hr | ⟨⟨n, q⟩, hn, hq, hlink⟩
  · rw [hparent] at hr
    exact absurd hr not_mem_roots_schema
  · obtain rfl := Parent.schema.inj (hparent.symm.trans hq)
    exact ⟨n, List.mk_mem_zipIdx_iff_getElem?.1 hn, hlink⟩

/-- What a link leads to is farther on, and belongs to the schema with the link. -/
theorem exists_linked (h : a.Sound) {i : Nat} {n : Node} (hn : a.nodes[i]? = some n)
    (hlink : j ∈ n.links) : i < j ∧ ∃ c, a.nodes[j]? = some c ∧ c.parent = .schema i := by
  obtain ⟨hlt, c, hc, hparent⟩ :=
    h.linked.link _ (List.mk_mem_zipIdx_iff_getElem?.2 hn) j hlink
  exact ⟨hlt, c, List.mk_mem_zipIdx_iff_getElem?.1 hc, hparent⟩

theorem forest (h : a.Sound) (hsorted : a.schemas.Sorted)
    (hkeys : ∀ e ∈ a.schemas, ∃ n, a.nodes[e.2]? = some n ∧ n.key = e.1) : a.Forest where
  link i n hn j hj := by
    obtain ⟨hij, c, hc, -⟩ := h.exists_linked hn hj
    exact ⟨hij, (List.getElem?_eq_some_iff.1 hc).1⟩
  link_nodup i n hn := h.link_nodup hn
  parent_schema j c hc p := by
    constructor
    · intro hparent
      obtain ⟨n, hn, hlink⟩ := h.exists_link hc hparent
      exact ⟨n, hn, List.count_eq_one_of_mem (h.link_nodup hn) hlink⟩
    · rintro ⟨n, hn, hcount⟩
      have hlink : j ∈ n.links := List.count_pos_iff.1 (by omega)
      obtain ⟨-, c', hc', hparent⟩ := h.exists_linked hn hlink
      obtain rfl := Option.some.inj (hc.symm.trans hc')
      exact hparent
  parent_document j c hc := by
    constructor
    · intro hparent
      have hr := h.mem_roots hc (by simp [hparent])
      rw [hparent, mem_roots_document] at hr
      obtain ⟨e, he, rfl⟩ := List.mem_map.1 hr
      obtain ⟨n, hn, hkey⟩ := hkeys e he
      obtain rfl := Option.some.inj (hc.symm.trans hn)
      rw [hkey]
      exact Table.get?_of_mem hsorted he
    · intro hget
      exact h.parent_of_mem_roots hc (mem_roots_document.2 (Table.mem_values_of_get? hget))
  parent_method j c hc i := by
    constructor
    · intro hparent
      have hr := h.mem_roots hc (by simp [hparent])
      rw [hparent] at hr
      exact mem_roots_method.1 hr
    · intro hm
      exact h.parent_of_mem_roots hc (mem_roots_method.2 hm)
  schema_lt j hj := h.linked.lt (mem_roots_document.2 hj)
  body_lt m hm j hj := by
    obtain ⟨i, hi⟩ := List.getElem?_of_mem hm
    exact h.linked.lt (mem_roots_method.2 ⟨m, hi, hj⟩)
  method_lt := h.method_lt
  method_nodup := h.method_nodup
  split := h.split

end Sound

/-- The arena for a document is a forest. -/
theorem forest_lay {schemas : Table Schema} {rs : List (String × List Method)}
    (hschemas : TabledSchemas schemas) (hms : ∀ r ∈ rs, ∀ m ∈ r.2, m.parameters.names.Nodup) :
    (lay schemas rs).Forest := by
  have hextends := extends_layResources {
    nodes := Schema.nodesOfTable .document 0 schemas
    schemas := Schema.placesOfTable .document 0 schemas } rs
  have hall : (lay schemas rs).schemas = Schema.placesOfTable .document 0 schemas :=
    hextends.schemas
  refine (sound_lay hms).forest ?_ ?_
  · rw [hall]
    exact hschemas.sorted.of_names (Schema.names_placesOfTable ..)
  · rw [hall]
    intro e he
    have hlies := ((holds_nodes _).extends hextends).lies_table
    obtain ⟨e', he', hkey, hlie⟩ := Resolution.exists_mem_of_forall₂ hlies.flip e he
    obtain ⟨n, hn, -, hkey'⟩ := hlie.exists_node
    exact ⟨n, hn, by rw [hkey', hschemas.keys e' he', hkey]⟩

end Arena

end DiscoveryGrpc.Api
