import DiscoveryGrpc.Proofs.Proto.Derivation

/-!
# Which texts are files

The text of a file is cut into tokens that the grammar derives, without two fields of one name in a
message, and the types and the messages that it names are there. The first is all that reading asks
for (`Reading.file_eq_ok_iff`), and resolving has no other fault than a name that is not known
(`File.unknown_of_resolved`), so the texts that are files but for such names are those of the
grammar (`File.ofText_iff_derives`).
-/

namespace DiscoveryGrpc

/-- A fault in what names mean: a type or a message of an rpc is not there. -/
def Fault.Unknown : Fault → Prop
  | unknownFieldType _ _ _ | unknownRpcMessage _ _ _ => True
  | _ => False

namespace Proto

/-! ## Faults of resolving -/

/-- A computation has no other faults than unknown names. -/
def OnlyUnknown {α : Type} (x : Except Fault α) : Prop := ∀ fault, x = .error fault → fault.Unknown

namespace OnlyUnknown

variable {α β : Type}

theorem pure (a : α) : OnlyUnknown (Pure.pure a) := by
  rintro fault ⟨⟩

theorem error {fault : Fault} (h : fault.Unknown) :
    OnlyUnknown (.error fault : Except Fault α) := by
  rintro _ ⟨⟩
  exact h

theorem bind {x : Except Fault α} {f : α → Except Fault β} (hx : OnlyUnknown x)
    (hf : ∀ a, OnlyUnknown (f a)) : OnlyUnknown (x >>= f) := by
  cases x with
  | error fault => exact .error (hx fault rfl)
  | ok a => exact hf a

theorem map {x : Except Fault α} (f : α → β) (hx : OnlyUnknown x) : OnlyUnknown (f <$> x) := by
  cases x with
  | error fault => exact .error (hx fault rfl)
  | ok a => exact .pure (f a)

theorem mapM {f : α → Except Fault β} (hf : ∀ a, OnlyUnknown (f a)) (xs : List α) :
    OnlyUnknown (xs.mapM f) := by
  induction xs with
  | nil => exact .pure []
  | cons x xs ih =>
    rw [List.mapM_cons]
    exact (hf x).bind fun y => ih.bind fun ys => .pure _

end OnlyUnknown

section

open Resolution

variable (f : File)

theorem unknown_of_resolveType (owner : Message) (field : String) (t : FieldType) :
    OnlyUnknown (resolveType f owner field t) := by
  unfold resolveType
  split
  · split
    · exact .pure _
    · exact .error trivial
  · exact .pure _

theorem unknown_of_resolveField (owner : Message) (x : Field) :
    OnlyUnknown (resolveField f owner x) := by
  refine (unknown_of_resolveType f owner x.name x.type).bind fun type => ?_
  cases x.keyType with
  | none => exact .pure _
  | some key =>
    exact ((unknown_of_resolveType f owner x.name key).map some).bind fun _ => .pure _

theorem unknown_of_resolveMessage (m : Message) : OnlyUnknown (resolveMessage f m) :=
  (OnlyUnknown.mapM (unknown_of_resolveField f m) m.fields).bind fun _ => .pure _

theorem unknown_of_resolveRpcMessage (service rpc name : String) :
    OnlyUnknown (resolveRpcMessage f service rpc name) := by
  unfold resolveRpcMessage
  dsimp only
  split
  · exact .pure _
  · exact .error trivial

theorem unknown_of_resolveRpc (service : String) (r : Rpc) :
    OnlyUnknown (resolveRpc f service r) :=
  (unknown_of_resolveRpcMessage f service r.name r.input).bind fun _ =>
    (unknown_of_resolveRpcMessage f service r.name r.output).bind fun _ => .pure _

theorem unknown_of_resolveTable {α : Type} {resolve : α → Except Fault α}
    (h : ∀ x, OnlyUnknown (resolve x)) (t : Table α) : OnlyUnknown (resolveTable resolve t) := by
  unfold resolveTable
  exact .mapM (fun ⟨name, x⟩ => (h x).bind fun _ => .pure _) t

theorem unknown_of_resolveService (s : Service) : OnlyUnknown (resolveService f s) :=
  (unknown_of_resolveTable (unknown_of_resolveRpc f s.name) s.rpcs).bind fun _ => .pure _

/-- Resolving fails because of unknown names only. -/
theorem File.unknown_of_resolved : OnlyUnknown f.resolved :=
  (unknown_of_resolveTable (unknown_of_resolveMessage f) f.messages).bind fun _ =>
    (unknown_of_resolveTable (unknown_of_resolveService f) f.services).bind fun _ => .pure _

end

/-! ## Texts -/

/-- The tokens of a text are those of a derivation. -/
def Grammar.File.SpelledBy (tree : Grammar.File) (text : String) : Prop :=
  ∃ located, Lexeme.tokens text = .ok located ∧ tree.tokens = located.map (·.1)

section

variable {text : String} {tree : Grammar.File}

/-- The text of a derivation without two fields of one name in a message is read as what it stands
for, and resolved. -/
theorem File.ofText_derived (h : tree.SpelledBy text) (hdistinct : tree.FieldsDistinct) :
    ofText text = tree.value.resolved := by
  obtain ⟨located, hlocated, htokens⟩ := h
  rw [ofText, hlocated]
  change ofTokens located >>= _ = _
  rw [ofTokens, ← htokens, Reading.file_derived hdistinct]
  rfl

/-- Two fields of one name are a fault of the first message that has such fields. -/
theorem File.exists_ofText_duplicate (h : tree.SpelledBy text) (hsame : ¬tree.FieldsDistinct) :
    ∃ message line, ofText text = .error (.badSyntax (.duplicateField message) line) := by
  obtain ⟨located, hlocated, htokens⟩ := h
  obtain ⟨message, left, herror⟩ := Reading.exists_file_duplicate hsame
  refine ⟨message, lineAt (located.map (·.2)) left, ?_⟩
  rw [ofText, hlocated]
  change ofTokens located >>= _ = _
  rw [ofTokens, ← htokens, herror]
  rfl

/-- What stops neither at a token nor at a piece of text has a derivation. -/
theorem File.derives_of_ofText {located : List Lexeme.Located}
    (h : Lexeme.tokens text = .ok located)
    (hread : ∀ fault line, ofText text ≠ .error (.badSyntax fault line)) :
    Grammar.Derives (located.map (·.1)) := by
  rw [ofText, h] at hread
  change ∀ fault line, ofTokens located >>= _ ≠ _ at hread
  rw [ofTokens] at hread
  cases hfile : Reading.file (located.map (·.1)) with
  | error stuck =>
    rw [hfile] at hread
    exact absurd rfl (hread stuck.fault _)
  | ok p =>
    obtain ⟨tree, htokens, hdistinct, -⟩ := Reading.file_eq_ok_iff.1 hfile
    exact ⟨tree, htokens, hdistinct⟩

end

/-- The parser accepts the grammar: of all texts that can be cut into tokens those are files, but
for types and messages of rpcs that are not known, of which the grammar derives the tokens without
two fields of one name in a message. A text of which a derivation spells the tokens is what the
derivation stands for, with its names resolved, or a message in it is reported for such fields. -/
theorem File.ofText_iff_derives {text : String} {located : List Lexeme.Located}
    (h : Lexeme.tokens text = .ok located) :
    (((∃ f, ofText text = .ok f) ∨ ∃ fault, ofText text = .error fault ∧ fault.Unknown) ↔
      Grammar.Derives (located.map (·.1))) ∧
    ∀ tree : Grammar.File, tree.tokens = located.map (·.1) →
      (tree.FieldsDistinct → ofText text = tree.value.resolved) ∧
      (¬tree.FieldsDistinct →
        ∃ message line, ofText text = .error (.badSyntax (.duplicateField message) line)) := by
  refine ⟨⟨fun hresult => derives_of_ofText h fun fault line hbad => ?_, ?_⟩, fun tree htokens =>
    ⟨ofText_derived ⟨located, h, htokens⟩, exists_ofText_duplicate ⟨located, h, htokens⟩⟩⟩
  · rcases hresult with ⟨f, hf⟩ | ⟨fault', hfault, hunknown⟩
    · cases hf.symm.trans hbad
    · cases hfault.symm.trans hbad
      exact hunknown
  · rintro ⟨tree, htokens, hdistinct⟩
    rw [ofText_derived ⟨located, h, htokens⟩ hdistinct]
    cases hresolved : tree.value.resolved with
    | ok f => exact .inl ⟨f, rfl⟩
    | error fault => exact .inr ⟨fault, rfl, unknown_of_resolved _ fault hresolved⟩

/-- A text in which keywords are names, statements are skipped and separators stand alone. -/
def keywordLakes : String :=
  "syntax = \"pro\" \"to3\"; import any: thing;
message map \x7b
  reserved 1 to 5;
  optional map map = 1 [a = b, (c.d) = \x7b e: 1, ; f: true \x7d];
  enum enum \x7b ; option = 7; message = 0; \x7d
\x7d
service rpc \x7b rpc rpc(map) returns (map) \x7b ; \x7d ; \x7d
"

/-- A message with two fields of one name. -/
def twoDepths : String := "message Lake \x7b int32 depth = 1; string depth = 2; \x7d"

theorem string_notMem :
    "string" ∉ ["enum", "message", "option", "reserved", "optional", "repeated"] := by decide

/-- The derivation of a message with two fields of one name. -/
def twoDepthsTree : Grammar.File :=
  [.message ⟨"Lake", [
    some (.field ⟨.plain "int32" (by decide), "depth", 1, []⟩),
    some (.field ⟨.plain "string" string_notMem, "depth", 2, []⟩)]⟩]

set_option maxRecDepth 2000 in
theorem File.ofText_iff_derives_keywordLakes :
    (∃ located, Lexeme.tokens keywordLakes = .ok located ∧
      (∃ f, ofText keywordLakes = .ok f ∧ f.messages.names = ["map"]) ∧
      Grammar.Derives (located.map (·.1))) ∧
    ∃ located, Lexeme.tokens twoDepths = .ok located ∧
      twoDepthsTree.tokens = located.map (·.1) ∧ ¬twoDepthsTree.FieldsDistinct ∧
      ∃ message line, ofText twoDepths = .error (.badSyntax (.duplicateField message) line) := by
  constructor
  · obtain ⟨f, hf, hnames⟩ : ∃ f, ofText keywordLakes = .ok f ∧
        decide (f.messages.names = ["map"]) = true := by
      rw [ofText, Lexeme.tokens_of_chars keywordLakes rfl]
      exact exists_eq_ok (by decide +kernel)
    obtain ⟨located, hlocated, -⟩ := Except.bind_eq_ok_iff.1 hf
    exact ⟨located, hlocated, ⟨f, hf, of_decide_eq_true hnames⟩,
      (ofText_iff_derives hlocated).1.1 (.inl ⟨f, hf⟩)⟩
  · obtain ⟨located, hlocated, htokens⟩ : ∃ located, Lexeme.tokens twoDepths = .ok located ∧
        decide (twoDepthsTree.tokens = located.map (·.1)) = true := exists_eq_ok (by decide +kernel)
    have htokens := of_decide_eq_true htokens
    have hsame : ¬twoDepthsTree.FieldsDistinct := by decide
    exact ⟨located, hlocated, htokens, hsame,
      ((ofText_iff_derives hlocated).2 twoDepthsTree htokens).2 hsame⟩

end Proto

end DiscoveryGrpc
