import DiscoveryGrpc.Proofs.Api.Rewriting
import DiscoveryGrpc.Proofs.Json.Printed
import DiscoveryGrpc.Proofs.Run.Basic

/-!
# Runs on documents that are written in another way

A run looks at the text of a document only to read the document. So texts that hold the same
document give the same file, configuration, notes and failure, and it does not matter in which
order, with which white space and among which unknown members the document was written
(`convert_of_rewritten`).
-/

namespace DiscoveryGrpc

open Api

/-- A run sees of the text of a document nothing but the document. -/
theorem convert_of_ofText_eq (input : Input) {text : String}
    (h : Document.ofText input.document = Document.ofText text) :
    convert input = convert { input with document := text } := by
  simp only [convert, run, readDocument, h]

/-- No order of members, no white space and no member that the reader does not know makes a
difference to the document that is read, nor to the result of a run. -/
theorem convert_of_rewritten (input : Input) {text : String} {v w : Json} (hv : v.Distinct)
    (h : Rewritten .document v w) (hinput : Json.Spells input.document v)
    (htext : Json.Spells text w) :
    Document.ofText input.document = Document.ofText text ∧
      convert input = convert { input with document := text } := by
  have hdocument := Document.ofText_eq_of_rewritten hv h hinput htext
  exact ⟨hdocument, convert_of_ofText_eq input hdocument⟩

/-! ## A document with its members turned around -/

/-- The schema of a lake, as a list of members. -/
def lakeSchema : List (String × Json) :=
  [("type", .string "object"),
    ("properties", .object [("name", .object [("type", .string "string")])])]

/-- The members of a document about a lake. -/
def lakeDocument (lake : List (String × Json)) : List (String × Json) :=
  [("name", .string "lakes"), ("version", .string "v1"),
    ("schemas", .object [("Lake", .object lake)])]

/-- A member that neither a document nor a schema has. -/
def remark : String × Json := ("remark", .array [.null, .bool true])

/-- The list turned around, with a remark. -/
def remarked (ms : List (String × Json)) : List (String × Json) := (ms ++ [remark]).reverse

theorem rewritten_remarked {role : Role} {ms ns : List (String × Json)}
    (hrole : role.Ignores "remark") (hnames : ms.map (·.1) = ns.map (·.1))
    (h : ∀ p ∈ ms.zip ns, Rewritten (role.member p.1.1) p.1.2 p.2.2) :
    Rewritten role (.object ms) (.object (remarked ns)) := by
  refine .object hnames h (fun m hm => ?_) (List.reverse_perm _).symm
  obtain rfl := List.mem_singleton.1 hm
  exact hrole

theorem rewritten_lakeDocument : Rewritten .document (.object (lakeDocument lakeSchema))
    (.object (remarked (lakeDocument (remarked lakeSchema)))) := by
  have hlake : Rewritten .schema (.object lakeSchema) (.object (remarked lakeSchema)) := by
    refine rewritten_remarked ⟨_, rfl, by decide⟩ rfl ?_
    simp only [lakeSchema, List.zip_cons_cons, List.zip_nil_left, List.forall_mem_cons]
    exact ⟨.same, .same, by simp⟩
  have hschemas : Rewritten (.table .schema) (.object [("Lake", .object lakeSchema)])
      (.object [("Lake", .object (remarked lakeSchema))]) := by
    refine @Rewritten.object _ _ [("Lake", .object (remarked lakeSchema))] [] _ rfl ?_ (by simp)
      (.refl _)
    rw [List.zip_cons_cons, List.zip_nil_left, List.forall_mem_singleton]
    exact hlake
  refine rewritten_remarked ⟨_, rfl, by decide⟩ rfl ?_
  simp only [lakeDocument, List.zip_cons_cons, List.zip_nil_left, List.forall_mem_cons]
  exact ⟨.same, .same, hschemas, by simp⟩

theorem convert_of_rewritten_lakeDocument :
    ∃ o, (convert { document := (Json.object (lakeDocument lakeSchema)).compact }).1 = .ok o ∧
      o.file.messages.has "Lake" = true ∧ (convert { document :=
        (Json.object (remarked (lakeDocument (remarked lakeSchema)))).pretty }).1 = .ok o := by
  obtain ⟨o, ho, hlake⟩ : ∃ o,
      (convert { document := (Json.object (lakeDocument lakeSchema)).compact }).1 = .ok o ∧
      o.file.messages.has "Lake" = true := exists_eq_ok (by decide +kernel)
  have hdistinct : (Json.object (lakeDocument lakeSchema)).Distinct := by
    simp [lakeDocument, lakeSchema, Json.Distinct, Json.DistinctMembers]
  refine ⟨o, ho, hlake, ?_⟩
  rw [← (convert_of_rewritten { document := (Json.object (lakeDocument lakeSchema)).compact }
    hdistinct rewritten_lakeDocument (Json.spells_compact ?_) (Json.spells_pretty ?_)).2, ho]
  · simp [lakeDocument, lakeSchema, Json.Printable, Json.PrintableMembers]
  · simp [remarked, remark, lakeDocument, lakeSchema, Json.Printable, Json.PrintableMembers,
      Json.PrintableElements]

end DiscoveryGrpc
