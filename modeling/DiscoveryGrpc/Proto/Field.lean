import DiscoveryGrpc.Proto.FieldType
import DiscoveryGrpc.Proto.Setting

/-!
# Fields

The fields of a message and the members of an enum. They are kept in order, those marked first
before all others and then by name. The order is total and transitive, so inserting into fields in
order gives fields in order (`sorted_insert`), and sorting only moves them (`sort_perm`).
-/

namespace DiscoveryGrpc.Proto

/-- A field of a message or a member of an enum. -/
structure Field where
  name : String
  type : FieldType
  repeated : Bool := false
  optional : Bool := false
  /-- The type of the keys, if the field is a map. -/
  keyType : Option FieldType := none
  settings : List Setting := []
  description : String := ""
  /-- Marks the zero value of an enum. -/
  first : Bool := false
  deriving DecidableEq, Repr

namespace Field

/-- Whether a field holds values by key. -/
def isMap (f : Field) : Bool := f.keyType.isSome

/-- The order of fields: those marked first, then by name. -/
def le (f g : Field) : Bool :=
  if f.first == g.first then f.name ≤ g.name else f.first

/-- Puts a field before the first one that it does not come after. -/
def insert (f : Field) : List Field → List Field
  | [] => [f]
  | g :: gs => if f.le g then f :: g :: gs else g :: insert f gs

/-- The fields in order. Fields of equal rank keep their order. -/
def sort (fs : List Field) : List Field := fs.foldr insert []

/-- The field without its description. -/
def undocumented (f : Field) : Field := { f with description := "" }

/-! ## Order -/

theorem mem_insert {f g : Field} {fs : List Field} : g ∈ f.insert fs ↔ g = f ∨ g ∈ fs := by
  induction fs with
  | nil => simp [insert]
  | cons h fs ih =>
    rw [insert]
    split
    · simp
    · simp only [List.mem_cons, ih]
      exact or_left_comm

theorem le_total (f g : Field) : f.le g ∨ g.le f := by
  unfold le
  cases f.first <;> cases g.first <;> simp [String.le_total]

theorem le_trans {f g h : Field} (hfg : f.le g) (hgh : g.le h) : f.le h := by
  unfold le at *
  revert hfg hgh
  cases f.first <;> cases g.first <;> cases h.first <;> simp
  all_goals exact String.le_trans

/-- Fields are in order. -/
def Sorted (fs : List Field) : Prop := fs.Pairwise fun f g => f.le g

theorem sorted_insert {f : Field} {fs : List Field} (h : Sorted fs) : Sorted (f.insert fs) := by
  induction fs with
  | nil => simp [insert, Sorted]
  | cons g gs ih =>
    have ⟨hg, hgs⟩ := List.pairwise_cons.1 h
    rw [insert]
    split
    · rename_i hfg
      refine List.pairwise_cons.2 ⟨fun x hx => ?_, h⟩
      rcases List.mem_cons.1 hx with rfl | hx
      · exact hfg
      · exact le_trans hfg (hg x hx)
    · rename_i hfg
      refine List.pairwise_cons.2 ⟨fun x hx => ?_, ih hgs⟩
      rcases mem_insert.1 hx with rfl | hx
      · exact (le_total g x).resolve_right hfg
      · exact hg x hx

theorem sorted_sort (fs : List Field) : Sorted (sort fs) := by
  induction fs with
  | nil => exact List.Pairwise.nil
  | cons f fs ih => exact sorted_insert ih

theorem insert_perm (f : Field) (fs : List Field) : (f.insert fs).Perm (f :: fs) := by
  induction fs with
  | nil => exact .refl _
  | cons g gs ih =>
    rw [insert]
    split
    · exact .refl _
    · exact (ih.cons g).trans (.swap f g gs)

theorem sort_perm (fs : List Field) : (sort fs).Perm fs := by
  induction fs with
  | nil => exact .refl _
  | cons f fs ih => exact (insert_perm f _).trans (ih.cons f)

end Field

end DiscoveryGrpc.Proto
