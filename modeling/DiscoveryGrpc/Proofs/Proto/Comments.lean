import DiscoveryGrpc.Proofs.Proto.Cutting
import DiscoveryGrpc.Proofs.Proto.Numbering
import DiscoveryGrpc.Proofs.Proto.Tokens
import DiscoveryGrpc.Proofs.Proto.Undocumented

/-!
# Comments stay comments

What a file spells depends neither on descriptions nor on where it came from
(`File.tokens_of_same`), and its text is cut into what its header spells and then what its tokens
spell (`File.tokens?_toText`). Descriptions are written line by line, so each of their lines is a
comment; the header puts what is known of the source behind one comment mark, so this has to be on
one line. Then nothing of it leaks into the definitions (`File.tokens?_toText_of_same`).
-/

namespace DiscoveryGrpc

namespace Proto

open Lexeme

/-! ## Descriptions -/

theorem Message.numberedAscending_undocumented (m : Message) :
    m.undocumented.numberedAscending
      = m.numberedAscending.map fun x => (x.1, x.2.undocumented) := by
  rw [undocumented_eq]
  exact numberedAscending_map Field.undocumented (fun _ => rfl) m

theorem Message.numbersByName_undocumented (m : Message) :
    m.undocumented.numbersByName = m.numbersByName := by
  rw [undocumented_eq]
  exact numbersByName_map Field.undocumented (fun _ => rfl) m

theorem Message.enumTokens_undocumented (e : Message) :
    e.undocumented.enumTokens = e.enumTokens := by
  rw [enumTokens, numberedAscending_undocumented, List.flatMap_map, undocumented_name, enumTokens]
  rfl

theorem Message.tokens_undocumented (m : Message) : m.undocumented.tokens = m.tokens := by
  simp only [tokens, numberOf, numbersByName_undocumented, undocumented_name, undocumented_fields,
    undocumented_enums, Table.values_mapValues, List.flatMap_map, enumTokens_undocumented]
  rfl

theorem Service.tokens_undocumented (s : Service) : s.undocumented.tokens = s.tokens := by
  simp only [tokens, undocumented, Table.values_mapValues, List.flatMap_map]
  rfl

theorem File.imports_undocumented (f : File) : f.undocumented.imports = f.imports := by
  simp only [imports, undocumented, Table.values_mapValues, List.flatMap_map,
    Message.undocumented_fields, Imports.ofService, Service.undocumented]
  rfl

/-- Descriptions and source have no part in what a file spells. -/
theorem File.tokens_undocumented (f : File) : f.undocumented.tokens = f.tokens := by
  rw [tokens_eq, tokens_eq, imports_undocumented]
  simp only [packageTokens, undocumented, Table.values_mapValues, List.flatMap_map,
    Message.tokens_undocumented, Service.tokens_undocumented]
  rfl

theorem File.tokens_of_same {a b : File} (h : a.same b = true) : a.tokens = b.tokens := by
  have heq : a.undocumented = b.undocumented := by simpa [same] using h
  rw [← tokens_undocumented, heq, tokens_undocumented]

/-! ## Headers -/

/-- The header that says where a file came from. -/
def Source.text (s : Source) : String := Piece.writeAll s.pieces

/-- Texts that are whole lines, one after another. -/
theorem whole_writeAll {ps : List Piece}
    (h : ∀ p ∈ ps, ∃ line, p.write.toList = line ++ ['\n']) : Whole (Piece.writeAll ps).toList := by
  induction ps with
  | nil => simp [Whole, Piece.writeAll]
  | cons p ps ih =>
    obtain ⟨⟨line, hp⟩, hps⟩ := List.forall_mem_cons.1 h
    intro c hc
    rw [Piece.toList_writeAll_cons, hp, List.getLast?_append] at hc
    cases hl : (Piece.writeAll ps).toList.getLast? with
    | none => simpa [hl, eq_comm] using hc
    | some d =>
      obtain rfl : d = c := by simpa [hl] using hc
      exact ih hps d hl

theorem Source.whole_text (s : Source) : Whole s.text.toList := by
  refine whole_writeAll fun p hp => ?_
  obtain ⟨⟨label, value⟩, -, hp⟩ := List.mem_filterMap.1 hp
  obtain ⟨-, hline⟩ := Option.ite_none_left_eq_some.1 hp
  obtain rfl := Option.some.inj hline
  exact ⟨(s!"// {label}: {value}").toList, by simp [Piece.write, toString]⟩

theorem Source.tokens?_text {s : Source} (h : s.OnLines) : Lexeme.tokens? s.text.toList = some [] := by
  have hs : Piece.Separated (s.pieces ++ []) := Source.separated_pieces h trivial
  rw [List.append_nil] at hs
  have := hs.tokens?_writeAll (by simp)
  rwa [Source.tokens_pieces] at this

/-- A file is its title, its header and its definitions, and only the header depends on the
source. -/
theorem File.exists_pieces_eq (f : File) : ∃ title body,
    f.pieces = Piece.layout title :: (f.source.pieces ++ body) ∧
    ({ f with source := {} } : File).pieces = Piece.layout title :: body := by
  refine ⟨_, ({ f with source := {} } : File).pieces.tail, ?_, rfl⟩
  simp only [pieces, List.append_assoc, List.cons_append, List.nil_append]
  rfl

theorem Piece.toList_writeAll_append (ps qs : List Piece) :
    (writeAll (ps ++ qs)).toList = (writeAll ps).toList ++ (writeAll qs).toList := by
  induction ps with
  | nil => simp [writeAll]
  | cons p ps ih =>
    rw [List.cons_append, toList_writeAll_cons, toList_writeAll_cons, ih, List.append_assoc]

/-- The text of a file is cut into what its header spells, and then what its tokens spell. -/
theorem File.tokens?_toText {f : File} (hq : ∀ t ∈ f.tokens, QuietToken t) {ts : List Token}
    (h : Lexeme.tokens? f.source.text.toList = some ts) :
    Lexeme.tokens? f.toText.toList = (spell? f.tokens).map (ts ++ ·) := by
  obtain ⟨title, body, hf, hplain⟩ := f.exists_pieces_eq
  have honLines : ({} : Source).OnLines := by decide
  have hseparated : Piece.Separated (Piece.layout title :: body) :=
    hplain ▸ File.separated_pieces (f := { f with source := {} }) honLines
  have htokens : f.tokens = Piece.tokens body := by
    rw [tokens, hf, Piece.tokens_layout, Piece.tokens_append, Source.tokens_pieces, List.nil_append]
  have hbody := hseparated.2.tokens?_writeAll_eq (htokens ▸ hq)
  have hcut : Cut f.source.text.toList (Piece.writeAll body).toList :=
    .whole f.source.whole_text (by simp [h])
  have hheader := tokens?_append hcut
  rw [h, hbody, ← htokens, Option.bind_some] at hheader
  rw [toText, hf, Piece.toList_writeAll_cons, Piece.write, hseparated.1,
    Piece.toList_writeAll_append]
  exact hheader

/-! ## Reading -/

end Proto

/-- A fault without its place in a text. -/
def Fault.unplaced : Fault → Fault
  | badToken _ _ => badToken "" 0
  | badSyntax fault _ => badSyntax fault 0
  | fault => fault

namespace Proto

open Lexeme

theorem Lexeme.exists_locate_eq_error {xs : List Lexeme} (h : tokensOf? xs = none) (line : Nat)
    (seen : List Located) : ∃ text n, locate line seen xs = .error (.badToken text n) := by
  induction xs generalizing line seen with
  | nil => cases h
  | cons x xs ih =>
    rw [tokensOf?] at h
    rw [locate]
    cases hk : x.kind with
    | layout =>
      rw [hk] at h
      exact ih h _ _
    | token t =>
      rw [hk] at h
      exact ih (Option.map_eq_none_iff.1 h) _ _
    | bad => exact ⟨_, _, rfl⟩

/-- What a text is read as depends on its tokens alone, apart from the place of a fault. -/
theorem File.ofText_of_tokens? {s t : String} (h : tokens? s.toList = tokens? t.toList) :
    (ofText s).mapError Fault.unplaced = (ofText t).mapError Fault.unplaced := by
  cases hs : tokens? s.toList with
  | none =>
    obtain ⟨x, n, hx⟩ := exists_locate_eq_error hs 1 []
    obtain ⟨y, m, hy⟩ := exists_locate_eq_error (h ▸ hs) 1 []
    have hx : Lexeme.tokens s = .error (.badToken x n) := hx
    have hy : Lexeme.tokens t = .error (.badToken y m) := hy
    rw [ofText, ofText, hx, hy]
    rfl
  | some ts =>
    obtain ⟨xs, hx, hxs⟩ := tokens_of_tokens? hs
    obtain ⟨ys, hy, hys⟩ := tokens_of_tokens? (h ▸ hs)
    rw [ofText, ofText, hx, hy]
    change (ofTokens xs >>= _).mapError _ = (ofTokens ys >>= _).mapError _
    rw [ofTokens, ofTokens, hxs, hys]
    cases Reading.file ts <;> rfl

/-- Descriptions cannot leak into what a file defines, and neither can a source that is on lines: two
files that agree up to these, with words that open neither a literal nor a comment, have texts with
the same tokens, which are read alike. For any other sources whose headers can be cut into tokens
the texts have the same tokens just if the headers have. -/
theorem File.tokens?_toText_of_same {a b : File} (h : a.same b = true)
    (hq : ∀ t ∈ a.tokens, QuietToken t) :
    (a.source.OnLines → b.source.OnLines →
      tokens? a.toText.toList = tokens? b.toText.toList ∧
      (ofText a.toText).mapError Fault.unplaced = (ofText b.toText).mapError Fault.unplaced) ∧
    ∀ ts us, tokens? a.source.text.toList = some ts → tokens? b.source.text.toList = some us →
      (tokens? a.toText.toList = tokens? b.toText.toList ↔
        ts = us ∨ tokens? a.toText.toList = none) := by
  have htokens := tokens_of_same h
  have htext {ts us : List Token} (ha : tokens? a.source.text.toList = some ts)
      (hb : tokens? b.source.text.toList = some us) :
      tokens? a.toText.toList = (spell? a.tokens).map (ts ++ ·) ∧
        tokens? b.toText.toList = (spell? a.tokens).map (us ++ ·) :=
    ⟨tokens?_toText hq ha, htokens ▸ tokens?_toText (htokens ▸ hq) hb⟩
  constructor
  · intro ha hb
    obtain ⟨hta, htb⟩ := htext (Source.tokens?_text ha) (Source.tokens?_text hb)
    have heq := hta.trans htb.symm
    exact ⟨heq, ofText_of_tokens? heq⟩
  · intro ts us ha hb
    obtain ⟨hta, htb⟩ := htext ha hb
    rw [hta, htb]
    cases spell? a.tokens <;> simp

/-- A file with a message whose name is no word. -/
def bigLake (description revision : String) : File where
  messages := [("Big Lake", { name := "Big Lake", description })]
  source := { revision }

theorem File.tokens?_toText_of_same_bigLake :
    let a := bigLake "Wet.\n*/ \x7d \"\r\n// message Leak" "1"
    let b := bigLake "" "2 \" /*"
    let c := bigLake "" "3\nmessage"
    (a.same b = true ∧ a.same c = true ∧ (∀ t ∈ a.tokens, QuietToken t) ∧
      a.source.OnLines ∧ b.source.OnLines ∧ tokens? a.source.text.toList = some [] ∧
      tokens? c.source.text.toList = some [.word "message"]) ∧
    (tokens? a.toText.toList = tokens? b.toText.toList ∧
      (ofText a.toText).mapError Fault.unplaced = (ofText b.toText).mapError Fault.unplaced) ∧
    (tokens? a.toText.toList = tokens? c.toText.toList ↔
      [] = [Token.word "message"] ∨ tokens? a.toText.toList = none) :=
  have hb := by decide +kernel
  have hc := by decide +kernel
  have hquiet := by decide +kernel
  have honLines := by decide +kernel
  have honLines' := by decide +kernel
  have hheader := Source.tokens?_text honLines
  have hheader' := by decide +kernel
  ⟨⟨hb, hc, hquiet, honLines, honLines', hheader, hheader'⟩,
    (tokens?_toText_of_same hb hquiet).1 honLines honLines',
    (tokens?_toText_of_same hc hquiet).2 [] [.word "message"] hheader hheader'⟩

/-- The header keeps a source on its first line only: what follows a line feed is text of the
file. -/
theorem File.exists_leak : ∃ a b : File, a.same b = true ∧ (∀ t ∈ a.tokens, QuietToken t) ∧
    tokens? a.toText.toList ≠ tokens? b.toText.toList ∧
    ∃ f g, ofText a.toText = .ok f ∧ ofText b.toText = .ok g ∧ f.same g = false := by
  refine ⟨{}, { source := { revision := "1\nmessage Leak \x7b\x7d" } }, ?_, ?_, ?_,
    {}, { messages := [("Leak", { name := "Leak" })] }, ?_⟩
  all_goals decide +kernel

end Proto

end DiscoveryGrpc
