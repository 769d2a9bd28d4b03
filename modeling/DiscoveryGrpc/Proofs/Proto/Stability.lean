import DiscoveryGrpc.Proofs.Proto.Field
import DiscoveryGrpc.Proofs.Proto.Search

/-!
# Which numbers stay

The number of a field depends on the fields before it, but on nothing of them but the numbers that
they take, and which numbers these are does not depend on their order (`Numbers.perm`). So a field
more before it comes down to one number more that is taken, as if that field came last. If this is
the number that the field gets without it, the field moves on; otherwise it stays (`search_displaced`).

A message that is edited in one field has at most one field more before another one than it had,
and at most one field less. From this follows exactly when the number of the other field stays
(`number_eq_iff_of_edit`). It does not always: of two names with one hash the later one moves.
-/

namespace DiscoveryGrpc.Proto

namespace Number

namespace Search

variable {taken : List Nat} {x home n : Nat}

/-- A search keeps its end if a different number is taken. -/
theorem cons_of_ne (h : Search taken home n) (hx : n ≠ x) : Search (x :: taken) home n := by
  induction h with
  | stop hfree => exact .stop fun hmem => (List.mem_cons.1 hmem).elim hx hfree
  | go htaken hnext _ ih => exact .go (List.mem_cons_of_mem _ htaken) hnext (ih hx)

/-- If its end is taken, a search goes on from there. -/
theorem past (h : Search taken home x) (hon : Search (x :: taken) x n) :
    Search (x :: taken) home n := by
  induction h with
  | stop => exact hon
  | go htaken hnext _ ih => exact .go (List.mem_cons_of_mem _ htaken) hnext (ih hon)

/-- A search either does not meet a number or goes on from there. -/
theorem of_cons (h : Search (x :: taken) home n) (hx : x ∉ taken) :
    Search taken home n ∨ Search taken home x ∧ Search (x :: taken) x n := by
  induction h with
  | stop hfree => exact .inl (.stop fun hmem => hfree (List.mem_cons_of_mem _ hmem))
  | @go y _ _ htaken hnext hm ih =>
    by_cases hy : y = x
    · subst hy
      exact .inr ⟨.stop hx, .go htaken hnext hm⟩
    · have hy := (List.mem_cons.1 htaken).resolve_left hy
      exact ih.imp (.go hy hnext) fun h => ⟨.go hy hnext h.1, h.2⟩

/-- Two searches, of which the second leaves out the end of the first, take the same numbers if they
change places. -/
theorem swap {home' n' : Nat} (h : Search taken home n) (h' : Search (n :: taken) home' n') :
    Search taken home' n' ∧ Search (n' :: taken) home n ∨
      Search taken home' n ∧ Search (n :: taken) home n' := by
  refine (h'.of_cons h.not_mem).imp (fun hn' => ⟨hn', h.cons_of_ne fun heq => ?_⟩)
    fun hn' => ⟨hn'.1, h.past hn'.2⟩
  exact h'.not_mem (heq ▸ List.mem_cons_self)

end Search

namespace Numbers

variable {taken taken' : List Nat} {fs gs : List Field} {f : Field} {l : List (Nat × Field)}

/-- The first field has what the search from the hash of its name comes to. -/
theorem exists_search (h : Numbers taken (f :: fs) l) : ∃ n l',
    Search taken (normalize (hash f.name)) n ∧ Numbers (n :: taken) fs l' ∧ l = (n, f) :: l' := by
  obtain - | @⟨_, _, _, home, n, l', hhome, hn, hl⟩ := h
  rw [home?_eq] at hhome
  obtain rfl := Option.some.inj hhome
  exact ⟨n, l', hn, hl, rfl⟩

theorem congr (h : Numbers taken fs l) (ht : ∀ x, x ∈ taken ↔ x ∈ taken') :
    Numbers taken' fs l := by
  induction h generalizing taken' with
  | nil => exact .nil
  | cons hhome hn _ ih =>
    refine .cons hhome (hn.congr ht) (ih fun x => ?_)
    rw [List.mem_cons, List.mem_cons, ht]

/-- Which numbers fields take does not depend on their order. -/
theorem perm (hp : fs.Perm gs) (h : Numbers taken fs l) :
    ∃ l', Numbers taken gs l' ∧ (l'.map (·.1)).Perm (l.map (·.1)) := by
  induction hp generalizing taken l with
  | nil => exact ⟨l, h, .refl _⟩
  | cons f _ ih =>
    obtain - | ⟨hhome, hn, hl⟩ := h
    obtain ⟨l', hl', hp⟩ := ih hl
    exact ⟨_, .cons hhome hn hl', hp.cons _⟩
  | swap f g fs =>
    obtain - | ⟨hg, hn, hl⟩ := h
    obtain - | ⟨hf, hk, hl⟩ := hl
    rcases hn.swap hk with ⟨hk, hn⟩ | ⟨hk, hn⟩
    · exact ⟨_, .cons hf hk (.cons hg hn (hl.congr fun x => by simp [or_left_comm])), .swap ..⟩
    · exact ⟨_, .cons hf hk (.cons hg hn hl), .refl _⟩
  | trans _ _ ih₁ ih₂ =>
    obtain ⟨l₁, h₁, hp₁⟩ := ih₁ h
    obtain ⟨l₂, h₂, hp₂⟩ := ih₂ h₁
    exact ⟨l₂, h₂, hp₂.trans hp₁⟩

/-- Fields are numbered one after another. -/
theorem append (h : Numbers taken (fs ++ gs) l) : ∃ l₁ l₂, Numbers taken fs l₁ ∧
    Numbers (l₁.map (·.1) ++ taken) gs l₂ ∧ l = l₁ ++ l₂ := by
  induction fs generalizing taken l with
  | nil => exact ⟨[], l, .nil, h, rfl⟩
  | cons f fs ih =>
    obtain - | @⟨_, _, _, _, n, _, hhome, hn, hl⟩ := h
    obtain ⟨l₁, l₂, h₁, h₂, rfl⟩ := ih hl
    refine ⟨(n, f) :: l₁, l₂, .cons hhome hn h₁, h₂.congr fun x => ?_, rfl⟩
    simp [or_left_comm]

end Numbers

end Number

namespace Message

open Number

/-! ## The number after other fields -/

/-- The numbers that are taken when fields have theirs. -/
def takenAfter (taken : List Nat) (before : List Field) : List Nat :=
  (numberFrom taken before).map (·.1) ++ taken

/-- The number that a field gets after other fields. -/
def numberAfter (taken : List Nat) (before : List Field) (f : Field) : Nat :=
  choose (takenAfter taken before) f.name

/-- One of the fields that are only in the first list gets, after the fields that are in both lists,
the number that `f` gets after them. -/
def Displaced (taken : List Nat) (fs gs : List Field) (f : Field) : Prop :=
  ∃ g ∈ fs, g ∉ gs ∧
    numberAfter taken (fs.filter (· ∈ gs)) g = numberAfter taken (fs.filter (· ∈ gs)) f

instance (taken : List Nat) (fs gs : List Field) (f : Field) :
    Decidable (Displaced taken fs gs f) :=
  inferInstanceAs (Decidable (∃ g ∈ fs, g ∉ gs ∧ _))

variable {taken : List Nat} {fs gs : List Field} {f g : Field} {l : List (Nat × Field)}

theorem numberAfter_eq {n : Nat}
    (h : Search (takenAfter taken fs) (Number.normalize (hash f.name)) n) :
    numberAfter taken fs f = n :=
  h.probe_eq (valid_normalize _)

/-- A field that is numbered after others searches among the numbers that they leave. -/
theorem exists_search_append (h : Numbers taken (fs ++ f :: gs) l) : ∃ l₁ n l₂,
    Search (takenAfter taken fs) (Number.normalize (hash f.name)) n ∧
      takenAfter taken fs = l₁.map (·.1) ++ taken ∧ numberAfter taken fs f = n ∧
      Numbers (n :: takenAfter taken fs) gs l₂ ∧ l = l₁ ++ (n, f) :: l₂ := by
  obtain ⟨l₁, _, h₁, h₂, rfl⟩ := h.append
  obtain ⟨n, l₂, hn, hl, rfl⟩ := h₂.exists_search
  have htaken : takenAfter taken fs = l₁.map (·.1) ++ taken := by rw [takenAfter, h₁.numberFrom_eq]
  rw [← htaken] at hn hl
  exact ⟨l₁, n, l₂, hn, htaken, numberAfter_eq hn, hl, rfl⟩

theorem search_numberAfter (h : Numbers taken (fs ++ [f]) l) :
    Search (takenAfter taken fs) (Number.normalize (hash f.name)) (numberAfter taken fs f) := by
  obtain ⟨_, n, _, hn, -, rfl, -⟩ := exists_search_append h
  exact hn

theorem mem_takenAfter_of_perm (h : Numbers taken fs l) (hp : fs.Perm gs) (x : Nat) :
    x ∈ takenAfter taken fs ↔ x ∈ takenAfter taken gs := by
  obtain ⟨l', h', hp⟩ := h.perm hp
  rw [takenAfter, takenAfter, h.numberFrom_eq, h'.numberFrom_eq, List.mem_append, List.mem_append,
    hp.mem_iff]

/-- The number of a field does not depend on the order of the fields before it. -/
theorem numberAfter_of_perm (h : Numbers taken (fs ++ [f]) l) (hp : fs.Perm gs) :
    numberAfter taken gs f = numberAfter taken fs f := by
  obtain ⟨_, _, h₁, -, -⟩ := h.append
  exact numberAfter_eq ((search_numberAfter h).congr (mem_takenAfter_of_perm h₁ hp))

/-- A field more takes one number more. -/
theorem mem_takenAfter_concat (h : Numbers taken (fs ++ [g]) l) (x : Nat) :
    x ∈ takenAfter taken (fs ++ [g]) ↔ x ∈ numberAfter taken fs g :: takenAfter taken fs := by
  obtain ⟨l₁, _, _, -, htaken, rfl, hnil, rfl⟩ := exists_search_append h
  cases hnil
  rw [htaken, takenAfter, h.numberFrom_eq]
  simp [or_left_comm]

/-! ## One field more -/

theorem exists_numbers_shared (h : Numbers taken (fs ++ [f]) l) (keep : Field → Bool) :
    ∃ l', Numbers taken (fs.filter keep ++ [f]) l' := by
  have hp : (fs ++ [f]).Perm (fs.filter keep ++ [f] ++ fs.filter fun g => !keep g) :=
    calc (fs ++ [f]).Perm (fs.filter keep ++ fs.filter (fun g => !keep g) ++ [f]) :=
          (List.filter_append_perm keep fs).symm.append_right [f]
      _ = fs.filter keep ++ (fs.filter (fun g => !keep g) ++ [f]) := List.append_assoc ..
      _ |>.Perm (fs.filter keep ++ ([f] ++ fs.filter fun g => !keep g)) :=
          List.perm_append_comm.append_left _
      _ = fs.filter keep ++ [f] ++ fs.filter fun g => !keep g := (List.append_assoc ..).symm
  obtain ⟨_, h, -⟩ := h.perm hp
  obtain ⟨l', -, h, -⟩ := h.append
  exact ⟨l', h⟩

/-- A field that is not displaced has the number that it has after the shared fields, and one that
is displaced goes on from there. -/
theorem search_displaced (h : Numbers taken (fs ++ [f]) l)
    (hone : (fs.filter (· ∉ gs)).length ≤ 1) :
    ¬Displaced taken fs gs f ∧ Search (takenAfter taken (fs.filter (· ∈ gs)))
        (Number.normalize (hash f.name)) (numberAfter taken fs f) ∨
      Displaced taken fs gs f ∧ Search (numberAfter taken (fs.filter (· ∈ gs)) f ::
        takenAfter taken (fs.filter (· ∈ gs))) (Number.normalize (hash f.name))
        (numberAfter taken fs f) := by
  have hsearch := search_numberAfter h
  have hp : fs.Perm (fs.filter (· ∈ gs) ++ fs.filter (· ∉ gs)) := by
    simpa using (List.filter_append_perm (· ∈ gs) fs).symm
  obtain ⟨l₁, -, h₁, -, -⟩ := h.append
  obtain ⟨l₂, h₂, -⟩ := h₁.perm hp
  have hmem := mem_takenAfter_of_perm h₁ hp
  rcases Nat.le_one_iff_eq_zero_or_eq_one.1 hone with hextra | hextra
  · have hnil := List.length_eq_zero_iff.1 hextra
    rw [hnil, List.append_nil] at hmem
    refine .inl ⟨?_, hsearch.congr hmem⟩
    rintro ⟨g, hg, hn, -⟩
    exact List.filter_eq_nil_iff.1 hnil g hg (decide_eq_true hn)
  · obtain ⟨x, hx⟩ := List.length_eq_one_iff.1 hextra
    rw [hx] at h₂ hmem
    have honly (g : Field) : g ∈ fs ∧ g ∉ gs ↔ g = x := by
      rw [← List.mem_singleton, ← hx, List.mem_filter, decide_eq_true_iff]
    have hsearch := hsearch.congr fun y => (hmem y).trans (mem_takenAfter_concat h₂ y)
    by_cases hz :
        numberAfter taken (fs.filter (· ∈ gs)) x = numberAfter taken (fs.filter (· ∈ gs)) f
    · have hx := (honly x).2 rfl
      exact .inr ⟨⟨x, hx.1, hx.2, hz⟩, hz ▸ hsearch⟩
    · refine .inl ⟨?_, ?_⟩
      · rintro ⟨g, hg, hn, heq⟩
        exact hz ((honly g).1 ⟨hg, hn⟩ ▸ heq)
      · refine (hsearch.of_cons (search_numberAfter h₂).not_mem).resolve_right fun hmeet => hz ?_
        exact (numberAfter_eq hmeet.1).symm

/-- A field with at most one field more and one field less before it keeps its number unless it is
displaced on one side and not on the other. -/
theorem numberAfter_eq_iff {l' : List (Nat × Field)} (hfs : fs.Nodup) (hgs : gs.Nodup)
    (h : Numbers taken (fs ++ [f]) l) (h' : Numbers taken (gs ++ [f]) l')
    (hone : (fs.filter (· ∉ gs)).length ≤ 1) (hone' : (gs.filter (· ∉ fs)).length ≤ 1) :
    numberAfter taken fs f = numberAfter taken gs f ↔
      (Displaced taken fs gs f ↔ Displaced taken gs fs f) := by
  have hp : (fs.filter (· ∈ gs)).Perm (gs.filter (· ∈ fs)) := by
    refine (List.perm_ext_iff_of_nodup (hfs.filter _) (hgs.filter _)).2 fun g => ?_
    rw [List.mem_filter, List.mem_filter, decide_eq_true_iff, decide_eq_true_iff, and_comm]
  obtain ⟨_, hshared⟩ := exists_numbers_shared h (· ∈ gs)
  obtain ⟨l₁, -, h₁, -, -⟩ := hshared.append
  have hmem (x : Nat) := (mem_takenAfter_of_perm h₁ hp x).symm
  have hkept := search_numberAfter hshared
  have hdisplaced' := search_displaced h' hone'
  rw [numberAfter_of_perm hshared hp] at hdisplaced'
  rcases search_displaced h hone with ⟨hd, hn⟩ | ⟨hd, hn⟩ <;>
    rcases hdisplaced' with ⟨hd', hn'⟩ | ⟨hd', hn'⟩
  case inl.inl =>
    exact iff_of_true (hn.unique (hn'.congr hmem)) (iff_of_false hd hd')
  case inl.inr =>
    refine iff_of_false (fun heq => hn'.not_mem ?_) fun hiff => hd (hiff.2 hd')
    rw [← heq, hn.unique hkept]
    exact List.mem_cons_self
  case inr.inl =>
    refine iff_of_false (fun heq => hn.not_mem ?_) fun hiff => hd' (hiff.1 hd)
    rw [heq, (hn'.congr hmem).unique hkept]
    exact List.mem_cons_self
  case inr.inr =>
    refine iff_of_true (hn.unique (hn'.congr fun x => ?_)) (iff_of_true hd hd')
    rw [List.mem_cons, List.mem_cons, hmem]

/-! ## Edits -/

/-- Gives a name to the fields with another name. -/
def renameField (m : Message) (old new : String) : Message :=
  m.updateFields fun g => if g.name = old then { g with name := new } else g

/-- One field of a message is added, removed or gets a new name, and it is not `f`. -/
inductive Edit (f : Field) (m : Message) : Message → Prop
  | add {g : Field} {m' : Message} (h : m.addField? g = some m') : Edit f m m'
  | remove {name : String} (h : name ≠ f.name) : Edit f m (m.removeField name)
  | rename {old new : String} (hold : old ≠ f.name) (hnew : m.field? new = none) :
      Edit f m (m.renameField old new)

/-- The fields that have numbers made from their names and come before a field. -/
def hashedBefore (m : Message) (f : Field) : List Field := m.hashed.takeWhile (· ≠ f)

/-- Some other fields, with or without one more. -/
def Common (rest fs : List Field) : Prop :=
  fs = rest ∨ ∃ g : Field, (∀ h ∈ rest, h.name ≠ g.name) ∧ fs = g.insert rest

theorem Common.distinct {rest fs : List Field} (h : Common rest fs) (hrest : Field.Distinct rest) :
    Field.Distinct fs := by
  rcases h with rfl | ⟨g, hg, rfl⟩
  · exact hrest
  · exact hrest.insert hg

theorem Common.mem {rest fs : List Field} (h : Common rest fs) {f : Field} (hf : f ∈ rest) :
    f ∈ fs := by
  rcases h with rfl | ⟨g, -, rfl⟩
  · exact hf
  · exact Field.mem_insert.2 (.inr hf)

/-- A message is what is left without one of its fields, and that field. -/
theorem exists_eq_insert {m : Message} (hm : Field.Distinct m.fields) {name : String}
    (h : ∃ g ∈ m.fields, g.name = name) : ∃ g : Field, g.name = name ∧
      Field.Distinct (m.removeField name).fields ∧
      (∀ x ∈ (m.removeField name).fields, x.name ≠ g.name) ∧
      m.fields = g.insert (m.removeField name).fields := by
  obtain ⟨x, hx, hn⟩ := h
  obtain ⟨g, before, after, -, hg, hfields, hrest⟩ :=
    List.exists_of_eraseP (p := (·.name == name)) hx (beq_iff_eq.2 hn)
  have hp : m.fields.Perm (g :: (m.removeField name).fields) := by
    rw [removeField, hrest, hfields]
    exact List.perm_middle
  have hnodup := (hp.map (·.name)).nodup_iff.1 hm.nodup
  rw [List.map_cons, List.nodup_cons] at hnodup
  have hsub : (m.removeField name).fields.Sublist m.fields := List.eraseP_sublist
  have hdistinct : Field.Distinct (m.removeField name).fields :=
    ⟨hm.sorted.sublist hsub, hnodup.2⟩
  have hother : ∀ x ∈ (m.removeField name).fields, x.name ≠ g.name :=
    fun x hx heq => hnodup.1 (heq ▸ List.mem_map_of_mem hx)
  refine ⟨g, beq_iff_eq.1 hg, hdistinct, hother, ?_⟩
  exact hm.eq_of_perm (hdistinct.insert hother) (hp.trans (Field.insert_perm ..).symm)

/-- The field with the old name takes its place among the others by its new name. -/
theorem fields_renameField {m : Message} {g : Field} {rest : List Field} {new : String}
    (hm : m.fields = g.insert rest) (hrest : Field.Distinct rest)
    (hold : ∀ x ∈ rest, x.name ≠ g.name) (hnew : ∀ x ∈ rest, x.name ≠ new) :
    (m.renameField g.name new).fields = Field.insert { g with name := new } rest := by
  refine Field.Distinct.sort_eq (hrest.insert hnew) ?_
  have hkept : rest.map (fun x => if x.name = g.name then { x with name := new } else x) = rest :=
    (List.map_congr_left fun x hx => if_neg (hold x hx)).trans (List.map_id rest)
  calc (m.fields.map _).Perm ((g :: rest).map _) := (hm ▸ Field.insert_perm g rest).map _
    _ = { g with name := new } :: rest := by rw [List.map_cons, if_pos rfl, hkept]
    _ |>.Perm (Field.insert { g with name := new } rest) := (Field.insert_perm ..).symm

/-- An edit leaves the other fields as they are. -/
theorem Edit.exists_common {f : Field} {m m' : Message} (h : Edit f m m')
    (hm : Field.Distinct m.fields) (hf : f ∈ m.fields) : m'.isEnum = m.isEnum ∧
      ∃ rest, Field.Distinct rest ∧ f ∈ rest ∧ Common rest m.fields ∧ Common rest m'.fields := by
  have hother {g : Field} {rest : List Field} (hfields : m.fields = g.insert rest)
      (hname : g.name ≠ f.name) : f ∈ rest := by
    rw [hfields] at hf
    exact (Field.mem_insert.1 hf).resolve_left fun heq => hname (congrArg (·.name) heq.symm)
  cases h with
  | add h =>
    obtain ⟨hnew, rfl⟩ := of_addField? h
    exact ⟨rfl, m.fields, hm, hf, .inl rfl, .inr ⟨_, hnew, rfl⟩⟩
  | @remove name hname =>
    refine ⟨rfl, ?_⟩
    by_cases hg : ∃ g ∈ m.fields, g.name = name
    · obtain ⟨g, rfl, hrest, hold, hfields⟩ := exists_eq_insert hm hg
      exact ⟨_, hrest, hother hfields hname, .inr ⟨g, hold, hfields⟩, .inl rfl⟩
    · have hsame : (m.removeField name).fields = m.fields :=
        List.eraseP_of_forall_not fun g hg' heq => hg ⟨g, hg', beq_iff_eq.1 heq⟩
      exact ⟨m.fields, hm, hf, .inl rfl, .inl hsame⟩
  | @rename old new hname hnew =>
    refine ⟨rfl, ?_⟩
    rw [field?_eq_none] at hnew
    by_cases hg : ∃ g ∈ m.fields, g.name = old
    · obtain ⟨g, rfl, hrest, hold, hfields⟩ := exists_eq_insert hm hg
      have hnew : ∀ x ∈ (m.removeField g.name).fields, x.name ≠ new :=
        fun x hx => hnew x (hfields ▸ Field.mem_insert.2 (.inr hx))
      exact ⟨_, hrest, hother hfields hname, .inr ⟨g, hold, hfields⟩,
        .inr ⟨_, hnew, fields_renameField hfields hrest hold hnew⟩⟩
    · have hsame : (m.renameField old new).fields = m.fields := by
        refine Field.Distinct.sort_eq hm (.of_eq ?_)
        exact (List.map_congr_left fun g hg' => if_neg fun heq => hg ⟨g, hg', heq⟩).trans
          (List.map_id m.fields)
      exact ⟨m.fields, hm, hf, .inl rfl, .inl hsame⟩

/-! ## Before a field -/

variable {m m' : Message} {rest : List Field}

theorem hashedBefore_eq (hf : m.isEnum = true → m.fields.head? ≠ some f) : m.hashedBefore f =
    if m.isEnum then (m.fields.takeWhile (· ≠ f)).tail else m.fields.takeWhile (· ≠ f) := by
  unfold hashedBefore hashed
  cases he : m.isEnum with
  | false => rfl
  | true =>
    cases hfields : m.fields with
    | nil => rfl
    | cons g fs =>
      have hg : g ≠ f := fun heq => hf he (by rw [hfields, heq, List.head?_cons])
      simp [hg]

theorem takeWhile_insert (hf : f ∈ fs) (hg : g ≠ f) :
    (g.insert fs).takeWhile (· ≠ f) = fs.takeWhile (· ≠ f) ∨
      (g.insert fs).takeWhile (· ≠ f) = g.insert (fs.takeWhile (· ≠ f)) := by
  have hkept {x : Field} (hx : x ≠ f) (xs : List Field) :
      (x :: xs).takeWhile (· ≠ f) = x :: xs.takeWhile (· ≠ f) :=
    List.takeWhile_cons_of_pos (decide_eq_true hx)
  induction fs with
  | nil => cases hf
  | cons x fs ih =>
    rw [Field.insert]
    by_cases hx : x = f
    · subst hx
      split
      · exact .inr (by simp [hg, Field.insert])
      · exact .inl (by simp)
    · have hf := (List.mem_cons.1 hf).resolve_left (Ne.symm hx)
      rw [hkept hx, Field.insert]
      split
      · right
        rw [hkept hg, hkept hx]
      · rw [hkept hx]
        exact (ih hf).imp (congrArg _) (congrArg _)

/-- Behind the first field is at most one field more if one is added. -/
theorem tail_insert_perm (g : Field) (fs : List Field) :
    ∃ x : Option Field, (g.insert fs).tail.Perm (x.toList ++ fs.tail) := by
  cases fs with
  | nil => exact ⟨none, .refl _⟩
  | cons h fs =>
    rw [Field.insert]
    split
    · exact ⟨some h, .refl _⟩
    · exact ⟨some g, Field.insert_perm g fs⟩

theorem Common.takeWhile (h : Common rest fs) (hf : f ∈ rest) :
    fs.takeWhile (· ≠ f) = rest.takeWhile (· ≠ f) ∨
      ∃ g : Field, fs.takeWhile (· ≠ f) = g.insert (rest.takeWhile (· ≠ f)) := by
  rcases h with rfl | ⟨g, hg, rfl⟩
  · exact .inl rfl
  · exact (takeWhile_insert hf fun heq => hg f hf (heq ▸ rfl)).imp_right fun h => ⟨g, h⟩

/-- Before a field is at most one field more than those that are common. -/
theorem Common.hashedBefore_perm (h : Common rest m.fields) (hf : f ∈ rest)
    (hfront : m.isEnum = true → m.fields.head? ≠ some f) : ∃ x : Option Field,
      (m.hashedBefore f).Perm (x.toList ++ if m.isEnum then (rest.takeWhile (· ≠ f)).tail
        else rest.takeWhile (· ≠ f)) := by
  rw [hashedBefore_eq hfront]
  rcases h.takeWhile hf with heq | ⟨g, heq⟩
  · rw [heq]
    exact ⟨none, .refl _⟩
  · rw [heq]
    split
    · exact tail_insert_perm ..
    · exact ⟨some g, Field.insert_perm ..⟩

theorem length_filter_notMem_le {x y : Option Field} (hfs : fs.Perm (x.toList ++ rest))
    (hgs : gs.Perm (y.toList ++ rest)) : (fs.filter (· ∉ gs)).length ≤ 1 := by
  have hrest : rest.filter (· ∉ gs) = [] := by
    refine List.filter_eq_nil_iff.2 fun g hg hn => of_decide_eq_true hn ?_
    exact hgs.mem_iff.2 (List.mem_append_right _ hg)
  calc (fs.filter (· ∉ gs)).length
      = ((x.toList ++ rest).filter (· ∉ gs)).length := (hfs.filter _).length_eq
    _ = (x.toList.filter (· ∉ gs)).length := by rw [List.filter_append, hrest, List.append_nil]
    _ ≤ x.toList.length := List.length_filter_le ..
    _ ≤ 1 := by cases x <;> simp

/-! ## Numbers of a message -/

theorem exists_hashed_eq (hf : f ∈ m.hashed) :
    ∃ after, m.hashed = m.hashedBefore f ++ f :: after := by
  obtain ⟨before, after, hsplit, hnew⟩ := List.eq_append_cons_of_mem hf
  refine ⟨after, ?_⟩
  have hother : ∀ g ∈ before, decide (g ≠ f) = true :=
    fun g hg => decide_eq_true fun heq => hnew (heq ▸ hg)
  have hbefore : m.hashedBefore f = before := by
    rw [hashedBefore, hsplit, List.takeWhile_append_of_pos hother,
      List.takeWhile_cons_of_neg (by simp), List.append_nil]
  rw [hbefore, hsplit]

theorem numbers_hashedBefore (h : m.Counted m.numbered) (hf : f ∈ m.hashed) :
    ∃ l', Numbers m.givenAway (m.hashedBefore f ++ [f]) l' := by
  obtain ⟨after, hsplit⟩ := exists_hashed_eq hf
  obtain ⟨rest, hrest, -⟩ := h
  rw [hsplit, List.append_cons] at hrest
  obtain ⟨l', -, hl', -⟩ := hrest.append
  exact ⟨l', hl'⟩

/-- The number of a field is the one that it gets after the fields before it. -/
theorem mem_numbered_iff (h : m.Counted m.numbered) (hm : (m.fields.map (·.name)).Nodup)
    (hf : f ∈ m.hashed) (k : Nat) :
    (k, f) ∈ m.numbered ↔ k = numberAfter m.givenAway (m.hashedBefore f) f := by
  obtain ⟨after, hsplit⟩ := exists_hashed_eq hf
  have hmem : (numberAfter m.givenAway (m.hashedBefore f) f, f) ∈ m.numbered := by
    obtain ⟨rest, hrest, hnumbered⟩ := h
    rw [hnumbered]
    rw [hsplit] at hrest
    obtain ⟨l₁, _, l₂, -, -, rfl, -, rfl⟩ := exists_search_append hrest
    simp
  refine ⟨fun hk => ?_, fun hk => hk ▸ hmem⟩
  have hnodup : (m.numbered.map (·.2)).Nodup := m.map_snd_numbered ▸ hm.of_map
  exact congrArg Prod.fst (List.inj_on_of_nodup_map hnodup hk hmem rfl)

theorem mem_hashed (hf : f ∈ m.fields) (hfront : m.isEnum = true → m.fields.head? ≠ some f) :
    f ∈ m.hashed := by
  unfold hashed
  split
  · rename_i he
    cases hfields : m.fields with
    | nil => exact absurd hf (hfields ▸ List.not_mem_nil)
    | cons g fs =>
      have hg : f ≠ g := fun heq => hfront he (by rw [hfields, heq, List.head?_cons])
      exact (List.mem_cons.1 (hfields ▸ hf)).resolve_left hg
  · exact hf

theorem nodup_hashedBefore (hm : (m.fields.map (·.name)).Nodup) : (m.hashedBefore f).Nodup := by
  have hhashed : m.hashed.Nodup := (m.front_append_hashed ▸ hm.of_map).of_append_right
  exact hhashed.sublist (List.takeWhile_sublist _)

/-- Exactly when the number of a field stays if another field comes, goes or gets a new name. -/
theorem number_eq_iff_of_edit (h : m.Edit f m') (hm : Field.Distinct m.fields) (hf : f ∈ m.fields)
    (hfront : m.isEnum = true → m.fields.head? ≠ some f)
    (hfront' : m'.isEnum = true → m'.fields.head? ≠ some f)
    (hends : ∃ l, m.Counted l) (hends' : ∃ l, m'.Counted l) :
    ∃ n n', (∀ k, (k, f) ∈ m.numbered ↔ k = n) ∧ (∀ k, (k, f) ∈ m'.numbered ↔ k = n') ∧
      (n = n' ↔ (Displaced m.givenAway (m.hashedBefore f) (m'.hashedBefore f) f ↔
        Displaced m.givenAway (m'.hashedBefore f) (m.hashedBefore f) f)) := by
  obtain ⟨he, rest, hrest, hfrest, hcommon, hcommon'⟩ := h.exists_common hm hf
  have hm' := hcommon'.distinct hrest
  have hmem := mem_hashed hf hfront
  have hmem' := mem_hashed (hcommon'.mem hfrest) hfront'
  have hgiven : m'.givenAway = m.givenAway := by rw [givenAway, he]; rfl
  -- a numbering that ends ends with the numbers of the message
  obtain ⟨l, hl⟩ := hends
  obtain rfl := hl.eq_numbered
  obtain ⟨l', hl'⟩ := hends'
  obtain rfl := hl'.eq_numbered
  refine ⟨_, _, mem_numbered_iff hl hm.nodup hmem, mem_numbered_iff hl' hm'.nodup hmem', ?_⟩
  obtain ⟨_, hcount⟩ := numbers_hashedBefore hl hmem
  obtain ⟨_, hcount'⟩ := numbers_hashedBefore hl' hmem'
  obtain ⟨x, hx⟩ := hcommon.hashedBefore_perm hfrest hfront
  obtain ⟨y, hy⟩ := hcommon'.hashedBefore_perm hfrest hfront'
  rw [he] at hy
  rw [hgiven] at hcount' ⊢
  exact numberAfter_eq_iff (nodup_hashedBefore hm.nodup) (nodup_hashedBefore hm'.nodup) hcount
    hcount' (length_filter_notMem_le hx hy) (length_filter_notMem_le hy hx)

/-- A message in which no two names have one hash. -/
def zoned : Message where
  name := "Lake"
  fields := [
    { name := "BB", type := .primitive .unformatted },
    { name := "zone", type := .primitive .unformatted }]

/-- The same with a name that has the hash of another one and comes before it. -/
def zonedAnew : Message := zoned.renameField "zone" "Aa"

theorem edit_zoned : zoned.Edit { name := "BB", type := .primitive .unformatted } zonedAnew :=
  .rename (by decide) (by decide)

theorem number_eq_iff_of_edit_zoned :
    let f : Field := { name := "BB", type := .primitive .unformatted }
    zoned.Edit f zonedAnew ∧ Field.Distinct zoned.fields ∧ f ∈ zoned.fields ∧
      (∃ l, zoned.Counted l) ∧ (∃ l, zonedAnew.Counted l) ∧
      ∃ n n', (∀ k, (k, f) ∈ zoned.numbered ↔ k = n) ∧ (∀ k, (k, f) ∈ zonedAnew.numbered ↔ k = n') ∧
        (n = n' ↔
          (Displaced zoned.givenAway (zoned.hashedBefore f) (zonedAnew.hashedBefore f) f ↔
            Displaced zoned.givenAway (zonedAnew.hashedBefore f) (zoned.hashedBefore f) f)) :=
  have hm : Field.Distinct zoned.fields := by decide +kernel
  have hf : { name := "BB", type := .primitive .unformatted } ∈ zoned.fields := List.mem_cons_self
  have hends : ∃ l, zoned.Counted l := ⟨_, counted_numbered (by decide)⟩
  have hends' : ∃ l, zonedAnew.Counted l := ⟨_, counted_numbered (by decide +kernel)⟩
  ⟨edit_zoned, hm, hf, hends, hends', number_eq_iff_of_edit edit_zoned hm hf
    (fun he => absurd he (by decide)) (fun he => absurd he (by decide)) hends hends'⟩

/-- A new name for one field changes the number of another one. -/
theorem number_ne_zonedAnew :
    let f : Field := { name := "BB", type := .primitive .unformatted }
    zoned.Edit f zonedAnew ∧ Field.Distinct zoned.fields ∧ f ∈ zoned.fields ∧
      zoned.isEnum = false ∧ (2112, f) ∈ zoned.numbered ∧ (2113, f) ∈ zonedAnew.numbered ∧
      (2112, f) ∉ zonedAnew.numbered :=
  ⟨edit_zoned, by decide +kernel⟩

end Message

end DiscoveryGrpc.Proto
