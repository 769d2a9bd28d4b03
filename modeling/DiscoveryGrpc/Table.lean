/-!
# Tables by name

A table keeps one value per name, sorted by name in code point order. It is a plain list of pairs,
so that it can stand inside recursive types; `Sorted` is the property that every operation here
keeps (`sorted_insert`), and `get?_insert` says what inserting does to look-up. A set of names is
the same without values.
-/

namespace DiscoveryGrpc

/-- Values by name. -/
abbrev Table (α : Type) := List (String × α)

namespace Table

variable {α β : Type}

/-- Names strictly ascend. -/
def Sorted (t : Table α) : Prop := t.Pairwise (·.1 < ·.1)

/-- The names of a table in order. -/
def names (t : Table α) : List String := t.map (·.1)

/-- The values of a table in the order of their names. -/
def values (t : Table α) : List α := t.map (·.2)

/-- The value stored under a name. -/
def get? (t : Table α) (name : String) : Option α := t.lookup name

/-- Whether a name is there. -/
def has (t : Table α) (name : String) : Bool := t.any (·.1 == name)

/-- Stores a value under a name, in place of the one that was there. -/
def insert (name : String) (value : α) : Table α → Table α
  | [] => [(name, value)]
  | (k, v) :: t =>
    if name < k then (name, value) :: (k, v) :: t
    else if name = k then (name, value) :: t
    else (k, v) :: insert name value t

/-- Removes a name. -/
def erase (t : Table α) (name : String) : Table α := t.filter (·.1 ≠ name)

/-- Changes the value stored under a name, if there is one. -/
def modify (t : Table α) (name : String) (f : α → α) : Table α :=
  t.map fun (k, v) => if k = name then (k, f v) else (k, v)

/-- Changes every value. -/
def mapValues (f : α → β) (t : Table α) : Table β := t.map fun (k, v) => (k, f v)

/-- Changes every value, if each of them can be changed. -/
def mapValues? (f : α → Option β) (t : Table α) : Option (Table β) :=
  t.mapM fun (k, v) => do return (k, ← f v)

/-- The table of a list of pairs; of two with one name the later one stays. -/
def ofList (entries : List (String × α)) : Table α :=
  entries.foldl (fun t e => insert e.1 e.2 t) []

/-! ### Order and look-up -/

theorem mem_insert {name k : String} {value v : α} {t : Table α}
    (h : (k, v) ∈ t.insert name value) : (k = name ∧ v = value) ∨ (k, v) ∈ t := by
  induction t with
  | nil => simpa [insert] using h
  | cons e t ih =>
    rw [insert] at h
    split at h
    · obtain ⟨l, u⟩ := e
      simpa using h
    · split at h
      · rcases List.mem_cons.1 h with h | h <;> simp_all
      · rcases List.mem_cons.1 h with h | h
        · simp_all
        · rcases ih h with h | h <;> simp_all

theorem sorted_insert {name : String} {value : α} {t : Table α} (h : t.Sorted) :
    (t.insert name value).Sorted := by
  induction t with
  | nil => simp [insert, Sorted]
  | cons e t ih =>
    obtain ⟨k, v⟩ := e
    have ⟨hk, ht⟩ := List.pairwise_cons.1 h
    rw [insert]
    split
    · rename_i hlt
      refine List.pairwise_cons.2 ⟨fun e he => ?_, h⟩
      rcases List.mem_cons.1 he with rfl | he
      · exact hlt
      · exact String.lt_trans hlt (hk e he)
    · rename_i hlt
      split
      · rename_i heq
        exact List.pairwise_cons.2 ⟨fun e he => heq ▸ hk e he, ht⟩
      · rename_i hne
        refine List.pairwise_cons.2 ⟨fun e he => ?_, ih ht⟩
        rcases mem_insert he with ⟨h₁, -⟩ | he
        · exact h₁ ▸ String.not_le.1 fun hle => hne (String.le_antisymm hle (String.not_lt.1 hlt))
        · exact hk e he

theorem sorted_ofList (entries : List (String × α)) : (ofList entries).Sorted := by
  have : ∀ (t : Table α), t.Sorted →
      Sorted (entries.foldl (fun t e => insert e.1 e.2 t) t) := by
    induction entries with
    | nil => exact fun t h => h
    | cons e es ih => exact fun t h => ih _ (sorted_insert h)
  exact this [] List.Pairwise.nil

theorem get?_cons (k name : String) (value : α) (t : Table α) :
    get? ((name, value) :: t) k = if k = name then some value else t.get? k := by
  rw [get?, List.lookup_cons]
  by_cases h : k = name
  · simp [h]
  · simp [h, get?, show (k == name) = false by simpa using h]

theorem get?_insert (name k : String) (value : α) (t : Table α) :
    (t.insert name value).get? k = if k = name then some value else t.get? k := by
  induction t with
  | nil => rw [insert, get?_cons]
  | cons e t ih =>
    obtain ⟨l, v⟩ := e
    rw [insert]
    split
    · rw [get?_cons]
    · split
      · subst_vars
        rw [get?_cons, get?_cons]
        split <;> rfl
      · rw [get?_cons, ih, get?_cons]
        split <;> split <;> simp_all

theorem get?_mapValues (f : α → β) (t : Table α) (name : String) :
    (t.mapValues f).get? name = (t.get? name).map f := by
  induction t with
  | nil => rfl
  | cons e t ih =>
    obtain ⟨k, v⟩ := e
    rw [mapValues, List.map_cons, get?_cons, get?_cons]
    split
    · rfl
    · exact ih

end Table

/-! ## Sets of names -/

/-- A set of strings, as the sorted list of its elements. -/
abbrev NameSet := List String

namespace NameSet

/-- Adds an element. -/
def insert (name : String) : NameSet → NameSet
  | [] => [name]
  | k :: s =>
    if name < k then name :: k :: s
    else if name = k then k :: s
    else k :: insert name s

/-- The set of the elements of a list. -/
def ofList (names : List String) : NameSet :=
  names.foldl (fun s n => insert n s) []

/-- Adds all elements of a list. -/
def insertAll (s : NameSet) (names : List String) : NameSet :=
  names.foldl (fun s n => insert n s) s

end NameSet

end DiscoveryGrpc
