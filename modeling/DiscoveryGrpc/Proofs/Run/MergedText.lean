import DiscoveryGrpc.Proofs.Proto.MergedText
import DiscoveryGrpc.Proofs.Proto.RoundTrip
import DiscoveryGrpc.Proofs.Run.Basic

/-!
# Reading back what a later run wrote

A run with an earlier text writes its file merged with what this text spells. If the file itself is
read back from its text, the merged one is just if all its messages are faithful
(`exists_ofText_merge_iff_of_convert`). Any text that can be read may be an earlier one, so that is
not so of every run: `exists_not_readBack_unknownLakes` is one in which an enum gets a second first
member.
-/

namespace DiscoveryGrpc

open Proto Api

/-- If the file of a document is read back, the file of a run with an earlier text is read back just
if every message of it is faithful. -/
theorem exists_ofText_merge_iff_of_convert (input : Input) {fresh : Output} {text : String}
    {old : File} (hfresh : (convert { input with proto? := none }).1 = .ok fresh)
    (hheader : Lexeme.tokens? fresh.file.source.text.toList = some [])
    (hback : ∃ g, File.ofText fresh.file.toText = .ok g ∧ g.same fresh.file = true)
    (hold : File.ofText text = .ok old) :
    ∃ o, (convert { input with proto? := some text }).1 = .ok o ∧
      o.file = (fresh.file.merge old).1 ∧
      ((∃ g, File.ofText o.file.toText = .ok g ∧ g.same o.file = true) ↔
        ∀ m ∈ o.file.messages.values, m.Faithful o.file) := by
  obtain ⟨d, registry, f, w, hd, hregistry, hf, hmerged, hconfig⟩ := convert_eq_ok_iff.1 hfresh
  obtain rfl : f = fresh.file := Except.ok.inj hmerged
  refine ⟨⟨(fresh.file.merge old).1, fresh.config⟩, ?_, rfl,
    File.exists_ofText_merge_iff hheader hback hold⟩
  exact convert_eq_ok_iff.2 ⟨d, registry, _, w, hd, hregistry, hf,
    mergedFile_eq_ok_iff.2 (.inr ⟨text, old, rfl, hold, rfl⟩), hconfig⟩

/-- Running a document, reading an earlier text and merging decides a test of the merged file. -/
theorem exists_merge_of_decide (document text : String) (p : File → Bool)
    (h : ((convert { document }).1.toOption.any fun fresh =>
      decide (fresh.file.Writable ∧ fresh.file.Unshadowed) &&
        (File.ofText text).toOption.any fun old => p (fresh.file.merge old).1) = true) :
    ∃ fresh old, (convert { document }).1 = .ok fresh ∧
      Lexeme.tokens? fresh.file.source.text.toList = some [] ∧
      (∃ g, File.ofText fresh.file.toText = .ok g ∧ g.same fresh.file = true) ∧
      File.ofText text = .ok old ∧ p (fresh.file.merge old).1 = true := by
  obtain ⟨fresh, hfresh, h⟩ := exists_eq_ok h
  obtain ⟨hgood, h⟩ := Bool.and_eq_true_iff.1 h
  obtain ⟨hwritable, hunshadowed⟩ := of_decide_eq_true hgood
  obtain ⟨old, hold, hp⟩ := exists_eq_ok h
  exact ⟨fresh, old, hfresh, Source.tokens?_text hwritable.source,
    ⟨_, File.ofText_toText_eq hwritable, File.same_reread_iff.2 hunshadowed⟩, hold, hp⟩

/-- A document in which ice is a state of lakes. -/
def iceLakes : String :=
  lakesDocument [("Lake", objectSchema
    [("state", .object [("type", .string "string"), ("enum", .array [.string "ICE"])])])]

/-- An earlier file in which lakes had a depth, and another state. -/
def meltingLakes : String :=
  "message Lake \x7b\n  enum State \x7b\n    UNDEFINED_STATE = 0;\n    MELTING = 1;\n  \x7d\n\n"
    ++ "  map<string, double> depths = 1;\n\x7d\n"

theorem exists_ofText_merge_meltingLakes :
    ∃ fresh old o, (convert { document := iceLakes }).1 = .ok fresh ∧
      Lexeme.tokens? fresh.file.source.text.toList = some [] ∧
      (∃ g, File.ofText fresh.file.toText = .ok g ∧ g.same fresh.file = true) ∧
      File.ofText meltingLakes = .ok old ∧
      (convert { document := iceLakes, proto? := some meltingLakes }).1 = .ok o ∧
      o.file = (fresh.file.merge old).1 ∧
      ∃ g, File.ofText o.file.toText = .ok g ∧ g.same o.file = true := by
  have hspells : Json.Spells iceLakes _ := Json.spells_compact (by
    simp [Json.Printable, Json.PrintableMembers, Json.PrintableElements, objectSchema])
  have hrun : (convert { document := iceLakes }).1 = _ := convert_of_spells hspells
  obtain ⟨fresh, old, hfresh, hheader, hback, hold, hfaithful⟩ := exists_merge_of_decide
    iceLakes meltingLakes (fun f => decide (∀ m ∈ f.messages.values, m.Faithful f)) (by
      rw [hrun]
      decide +kernel)
  obtain ⟨o, ho, hfile, hiff⟩ := exists_ofText_merge_iff_of_convert
    { document := iceLakes } hfresh hheader hback hold
  refine ⟨fresh, old, o, hfresh, hheader, hback, hold, ho, hfile, hiff.2 ?_⟩
  rw [hfile]
  exact of_decide_eq_true hfaithful

/-- An earlier file in which the state that is not set had another name. -/
def unknownLakes : String :=
  "message Lake \x7b\n  enum State \x7b\n    UNKNOWN = 0;\n  \x7d\n\x7d\n"

/-- The enum of states gets its old first member back beside the new one, and is not read back. -/
theorem exists_not_readBack_unknownLakes :
    ∃ fresh old, (convert { document := iceLakes }).1 = .ok fresh ∧
      (∃ g, File.ofText fresh.file.toText = .ok g ∧ g.same fresh.file = true) ∧
      File.ofText unknownLakes = .ok old ∧
      ¬∃ g, File.ofText (fresh.file.merge old).1.toText = .ok g ∧
        g.same (fresh.file.merge old).1 = true := by
  have hspells : Json.Spells iceLakes _ := Json.spells_compact (by
    simp [Json.Printable, Json.PrintableMembers, Json.PrintableElements, objectSchema])
  have hrun : (convert { document := iceLakes }).1 = _ := convert_of_spells hspells
  obtain ⟨fresh, old, hfresh, hheader, hback, hold, hlost⟩ := exists_merge_of_decide
    iceLakes unknownLakes (fun f => decide (¬∀ m ∈ f.messages.values, m.Faithful f)) (by
      rw [hrun]
      decide +kernel)
  exact ⟨fresh, old, hfresh, hback, hold, fun hmerged => of_decide_eq_true hlost
    ((File.exists_ofText_merge_iff hheader hback hold).1 hmerged)⟩

end DiscoveryGrpc
