import DiscoveryGrpc.Proofs.Proto.Lexing

/-!
# Written files spell their tokens

A written file is a sequence of pieces, and its text is cut into the tokens among them: no token
runs into the next one, and no comment ends early or swallows what follows it. This depends on how
a file is laid out and not on what it defines.

* `Piece.Separated` is the property of pieces that makes their text come apart again
  (`Separated.tokens?_writeAll`).
* Each part of a file keeps it: put in front of separated pieces it gives separated pieces. A part
  that ends in a word or a number asks for pieces that stand apart from it.
* `File.separated_pieces` says it for whole files, whatever their names and descriptions are, as
  long as the header stays on its lines.
-/

namespace DiscoveryGrpc.Proto

open Lexeme

namespace Piece

/-! ## Separated pieces -/

/-- A text is layout: in front of any other text it changes none of its tokens. -/
def IsLayout (s : String) : Prop := ∀ rest, Lexeme.tokens? (s.toList ++ rest) = Lexeme.tokens? rest

/-- No word or number goes on into pieces. -/
def Apart (ps : List Piece) : Prop := Lexeme.Apart (writeAll ps).toList

/-- Layout is layout, and no token runs into what follows it. -/
def Separated : List Piece → Prop
  | [] => True
  | layout s :: ps => IsLayout s ∧ Separated ps
  | token t :: ps => (runsOn t = true → Apart ps) ∧ Separated ps

theorem toList_writeAll_cons (p : Piece) (ps : List Piece) :
    (writeAll (p :: ps)).toList = p.write.toList ++ (writeAll ps).toList := by
  simp [writeAll, String.join_cons]

@[simp]
theorem tokens_append (ps qs : List Piece) : tokens (ps ++ qs) = tokens ps ++ tokens qs :=
  List.filterMap_append

@[simp]
theorem tokens_layout (s : String) (ps : List Piece) : tokens (layout s :: ps) = tokens ps := rfl

@[simp]
theorem tokens_token (t : Token) (ps : List Piece) : tokens (token t :: ps) = t :: tokens ps := rfl

@[simp]
theorem tokens_nil : tokens [] = [] := rfl

/-- The text of separated pieces is cut into their tokens, if each of these can be spelled. -/
theorem Separated.tokens?_writeAll {ps : List Piece} (h : Separated ps)
    (ht : ∀ t ∈ tokens ps, isSpellable t = true) :
    Lexeme.tokens? (writeAll ps).toList = some (tokens ps) := by
  induction ps with
  | nil => rfl
  | cons p ps ih =>
    rw [toList_writeAll_cons]
    cases p with
    | layout s =>
      rw [write, h.1, ih h.2 ht]
      rfl
    | token t =>
      have hps := ih h.2 fun t' ht' => ht t' (List.mem_cons_of_mem _ ht')
      rw [write, tokens?_write (ht t List.mem_cons_self) h.1, hps]
      rfl

/-! ## Layout -/

theorem IsLayout.append {s s' : String} (h : IsLayout s) (h' : IsLayout s') :
    IsLayout (s ++ s') := fun rest => by
  rw [String.toList_append, List.append_assoc, h, h']

/-- An indentation: nothing but white space. -/
def Indent (s : String) : Prop := ∀ c ∈ s.toList, isSpace c = true

theorem Indent.isLayout {s : String} (h : Indent s) : IsLayout s := fun rest => tokens?_space _ h rest

theorem Indent.append {s s' : String} (h : Indent s) (h' : Indent s') : Indent (s ++ s') :=
  fun c hc => (List.mem_append.1 (String.toList_append ▸ hc)).elim (h c) (h' c)

instance (s : String) : Decidable (Indent s) :=
  decidable_of_iff (s.toList.all isSpace = true) List.all_eq_true

theorem indent_empty : Indent "" := by decide

theorem indent_unit : Indent indentUnit := by decide

/-- A line comment through the end of its line is layout. -/
theorem isLayout_line {s : String} (body : String) (h : '\n' ∉ body.toList)
    (hs : s.toList = ("//" ++ body ++ "\n").toList) : IsLayout s :=
  fun rest => by simpa [hs] using tokens?_comment h rest

theorem not_mem_of_mem_lines {s : String} {line : List Char} (h : line ∈ Text.lines s) :
    '\n' ∉ line := by
  have hl : line ∈ Text.splitBy (· == '\n') s.toList := by
    rw [Text.lines] at h
    split at h
    · exact List.dropLast_subset _ h
    · exact h
  intro hn
  simpa using Text.not_sep_of_mem_splitBy hl _ hn

theorem mem_of_mem_trimEnd {cs : List Char} {c : Char} (h : c ∈ Text.trimEnd cs) : c ∈ cs := by
  rw [Text.trimEnd, List.mem_reverse] at h
  exact List.mem_reverse.1 (List.dropWhile_subset _ h)

theorem apart_of_head {p : Piece} {c : Char} {cs : List Char} (h : p.write.toList = c :: cs)
    (hc : isWordPart c = false) (ps : List Piece) : Apart (p :: ps) := by
  rw [Apart, toList_writeAll_cons, h]
  intro d hd
  obtain rfl : c = d := by simpa using hd
  exact hc

@[simp]
theorem apart_space (ps : List Piece) : Apart (space :: ps) :=
  apart_of_head (c := ' ') (by rfl) (by decide) ps

@[simp]
theorem apart_newline (ps : List Piece) : Apart (newline :: ps) :=
  apart_of_head (c := '\n') (by rfl) (by decide) ps

/-- The text of a token that does not run on begins with a character of no word. -/
theorem exists_write_eq {t : Token} (h : ¬runsOn t = true) :
    ∃ c cs, t.write.toList = c :: cs ∧ isWordPart c = false := by
  cases t with
  | word _ => exact absurd rfl h
  | int _ => exact absurd rfl h
  | text s => exact ⟨'"', _, by simp [Token.write, quoteLiteral]; rfl, by decide⟩
  | _ => exact ⟨_, [], rfl, by decide⟩

@[simp]
theorem apart_token {t : Token} (h : ¬runsOn t = true) (ps : List Piece) :
    Apart (token t :: ps) :=
  let ⟨_, _, hw, hc⟩ := exists_write_eq h
  apart_of_head (p := token t) hw hc ps

@[simp]
theorem separated_space (ps : List Piece) : Separated (space :: ps) ↔ Separated ps :=
  and_iff_right (Indent.isLayout (by decide))

@[simp]
theorem separated_newline (ps : List Piece) : Separated (newline :: ps) ↔ Separated ps :=
  and_iff_right (Indent.isLayout (by decide))

@[simp]
theorem separated_word (name : String) (ps : List Piece) :
    Separated (word name :: ps) ↔ Apart ps ∧ Separated ps :=
  and_congr_left' (by simp [runsOn])

@[simp]
theorem separated_token {t : Token} (h : ¬runsOn t = true) (ps : List Piece) :
    Separated (token t :: ps) ↔ Separated ps :=
  and_iff_right fun h' => absurd h' h

/-- A sequence of parts, each of which may stand in front of separated pieces. -/
theorem Separated.flatMap {α : Type} {f : α → List Piece} (xs : List α) {ps : List Piece}
    (hf : ∀ x ∈ xs, ∀ ps, Separated ps → Separated (f x ++ ps)) (h : Separated ps) :
    Separated (xs.flatMap f ++ ps) := by
  induction xs with
  | nil => exact h
  | cons x xs ih =>
    rw [List.flatMap_cons, List.append_assoc]
    exact hf x List.mem_cons_self _ (ih fun y hy => hf y (List.mem_cons_of_mem _ hy))

/-- A description, whatever it says, may stand as comments in front of separated pieces. -/
theorem Separated.comment {indent description : String} {ps : List Piece}
    (hi : Indent indent) (h : Separated ps) :
    Separated (Piece.comment indent description ++ ps) := by
  rw [Piece.comment, ← List.flatMap_singleton' (List.map _ _), List.flatMap_map]
  refine Separated.flatMap _ (fun line hl ps h => ?_) h
  rw [List.singleton_append]
  split
  · exact ⟨hi.isLayout.append (isLayout_line "" (by decide) rfl), h⟩
  · refine ⟨?_, h⟩
    have hn : '\n' ∉ Text.trimEnd line := fun hc =>
      not_mem_of_mem_lines hl (mem_of_mem_trimEnd hc)
    rw [String.append_assoc, String.append_assoc]
    exact hi.isLayout.append
      (isLayout_line (" " ++ String.ofList (Text.trimEnd line)) (by simpa using hn) (by simp))

end Piece

/-! ## Options -/

open Piece (Separated Apart Indent indent_empty indent_unit word space newline layout)


namespace Setting

theorem separated_namePieces {s : Setting} {ps : List Piece} (ha : Apart ps) (h : Separated ps) :
    Separated (s.namePieces ++ ps) := by
  rw [namePieces]
  split
  · simpa [runsOn] using h
  · simpa using ⟨ha, h⟩

theorem separated_value (v : SettingValue) {ps : List Piece} (ha : Apart ps) (h : Separated ps) :
    Separated (.token v.token :: ps) := ⟨fun _ => ha, h⟩

theorem separated_bodyPieces {indent : String} (hi : Indent indent) (b : SettingBody)
    {ps : List Piece} (ha : Apart ps) (h : Separated ps) :
    Separated (bodyPieces indent b ++ ps) := by
  cases b with
  | scalar v => exact separated_value v ha h
  | group entries =>
    have hend : Separated (layout indent :: .token .closeBrace :: ps) :=
      ⟨hi.isLayout, by simpa [runsOn] using h⟩
    simp only [bodyPieces, List.append_assoc, List.cons_append, List.nil_append]
    rw [Piece.separated_token (by simp [runsOn]), Piece.separated_newline]
    refine Separated.flatMap _ (fun e _ ps h => ?_) hend
    refine ⟨(hi.append indent_unit).isLayout, ?_⟩
    simpa [runsOn] using separated_value e.2 (Piece.apart_newline ps) (by simpa using h)

theorem separated_pieces {indent : String} (hi : Indent indent) (s : Setting) {ps : List Piece}
    (ha : Apart ps) (h : Separated ps) : Separated (s.pieces indent ++ ps) := by
  have := separated_bodyPieces hi s.body ha h
  simp only [pieces, List.append_assoc, List.cons_append, List.nil_append]
  exact separated_namePieces (by simp) (by simpa [runsOn] using this)

theorem separated_statement {indent : String} (hi : Indent indent) (s : Setting)
    {ps : List Piece} (h : Separated ps) : Separated (s.statement indent ++ ps) := by
  have hend : Separated (.token .semicolon :: newline :: ps) := by simpa [runsOn] using h
  have := separated_pieces hi s (by simp [runsOn]) hend
  simp only [statement, List.append_assoc, List.cons_append, List.nil_append]
  exact ⟨hi.isLayout, by simpa using this⟩

theorem separated_brackets (ss : List Setting) {ps : List Piece} (h : Separated ps) :
    Separated (brackets ss ++ ps) := by
  cases ss with
  | nil => exact h
  | cons s ss =>
    -- the next comma or the closing bracket ends what stands before it
    have hrest : Apart ((ss.flatMap fun s => [Piece.token .comma, space] ++ s.pieces "")
          ++ .token .closeBracket :: ps) ∧
        Separated ((ss.flatMap fun s => [Piece.token .comma, space] ++ s.pieces "")
          ++ .token .closeBracket :: ps) := by
      induction ss with
      | nil => exact ⟨by simp [runsOn], by simpa [runsOn] using h⟩
      | cons s ss ih =>
        have := separated_pieces indent_empty s ih.1 ih.2
        rw [List.flatMap_cons, List.append_assoc]
        exact ⟨by simp [runsOn], by simpa [runsOn] using this⟩
    have := separated_pieces indent_empty s hrest.1 hrest.2
    simp only [brackets, List.append_assoc, List.cons_append, List.nil_append]
    rw [Piece.separated_space, Piece.separated_token (by simp [runsOn])]
    exact this

end Setting

/-! ## Messages and enums -/

theorem separated_numberPieces (number : Nat) (settings : List Setting) {ps : List Piece}
    (h : Separated ps) : Separated (numberPieces number settings ++ ps) := by
  have hend : Separated (.token .semicolon :: newline :: ps) := by simpa [runsOn] using h
  have hb := Setting.separated_brackets settings hend
  have ha : Apart (Setting.brackets settings ++ .token .semicolon :: newline :: ps) := by
    cases settings <;> simp [Setting.brackets, runsOn]
  simp only [numberPieces, List.append_assoc, List.cons_append, List.nil_append]
  rw [Piece.separated_space, Piece.separated_token (by simp [runsOn]), Piece.separated_space]
  exact ⟨fun _ => ha, hb⟩

theorem apart_numberPieces (number : Nat) (settings : List Setting) (ps : List Piece) :
    Apart (numberPieces number settings ++ ps) := by
  simp [numberPieces]

namespace Field

theorem separated_typePieces (f : Field) {ps : List Piece} (ha : Apart ps) (h : Separated ps) :
    Separated (f.typePieces ++ ps) := by
  have hn : Separated (word f.type.name :: ps) := (Piece.separated_word _ _).2 ⟨ha, h⟩
  unfold typePieces
  split
  · simpa [runsOn] using h
  · split
    · simpa using hn
    · split
      · simpa using hn
      · exact hn

theorem separated_pieces (number : Nat) (f : Field) {ps : List Piece} (h : Separated ps) :
    Separated (f.pieces number ++ ps) := by
  have hn : Separated (space :: word f.name :: (numberPieces number f.settings ++ ps)) := by
    simpa using ⟨apart_numberPieces number f.settings ps, separated_numberPieces _ _ h⟩
  have ht := f.separated_typePieces (Piece.apart_space _) hn
  simp only [pieces, List.append_assoc, List.cons_append, List.nil_append]
  exact Separated.comment indent_unit ⟨indent_unit.isLayout, ht⟩

theorem separated_memberPieces {indent : String} (hi : Indent indent) (number : Nat) (f : Field)
    {ps : List Piece} (h : Separated ps) : Separated (f.memberPieces indent number ++ ps) := by
  have hn : Separated (word f.name :: (numberPieces number f.settings ++ ps)) :=
    (Piece.separated_word _ _).2 ⟨apart_numberPieces _ _ _, separated_numberPieces _ _ h⟩
  simp only [memberPieces, List.append_assoc, List.cons_append, List.nil_append]
  exact Separated.comment hi ⟨hi.isLayout, hn⟩

end Field

namespace Message

theorem separated_enumPieces {indent : String} (hi : Indent indent) (e : Message)
    {ps : List Piece} (h : Separated ps) : Separated (e.enumPieces indent ++ ps) := by
  have hend : Separated (layout indent :: .token .closeBrace :: newline :: ps) :=
    ⟨hi.isLayout, by simpa [runsOn] using h⟩
  have hm := Separated.flatMap e.numberedAscending
    (f := fun x => x.2.memberPieces (indent ++ indentUnit) x.1)
    (fun x _ _ h => x.2.separated_memberPieces (hi.append indent_unit) x.1 h) hend
  simp only [enumPieces, List.append_assoc, List.cons_append, List.nil_append]
  exact Separated.comment hi ⟨hi.isLayout, by simpa [runsOn] using hm⟩

theorem separated_fieldPieces (numbers : Table Nat) (fs : List Field) {ps : List Piece}
    (h : Separated ps) : Separated (fieldPieces numbers fs ++ ps) := by
  cases fs with
  | nil => exact h
  | cons f fs =>
    rw [fieldPieces, List.append_assoc]
    refine f.separated_pieces _ (Separated.flatMap _ (fun g _ ps h => ?_) h)
    exact (Piece.separated_newline _).2 (g.separated_pieces _ h)

theorem separated_pieces (m : Message) {ps : List Piece} (h : Separated ps) :
    Separated (m.pieces ++ ps) := by
  have hend : Separated (.token .closeBrace :: newline :: newline :: ps) := by
    simpa [runsOn] using h
  have hf := separated_fieldPieces m.numbersByName m.fields hend
  have he := Separated.flatMap (Table.values m.enums)
    (f := fun e => e.enumPieces indentUnit ++ [newline]) (fun e _ ps h => by
      rw [List.append_assoc]
      exact e.separated_enumPieces indent_unit ((Piece.separated_newline ps).2 h)) hf
  simp only [pieces, List.append_assoc, List.cons_append, List.nil_append]
  exact Separated.comment indent_empty (by simpa [runsOn] using he)

end Message

/-! ## Services -/

namespace Rpc

theorem separated_bodyPieces (ss : List Setting) {ps : List Piece} (h : Separated ps) :
    Separated (bodyPieces ss ++ ps) := by
  cases ss with
  | nil => simpa [bodyPieces, runsOn] using h
  | cons s ss =>
    have hend : Separated (layout indentUnit :: .token .closeBrace :: newline :: ps) :=
      ⟨indent_unit.isLayout, by simpa [runsOn] using h⟩
    have := Separated.flatMap (s :: ss)
      (fun s _ _ h => s.separated_statement (indent_unit.append indent_unit) h) hend
    simp only [bodyPieces, List.append_assoc, List.cons_append, List.nil_append]
    simpa [runsOn] using this

theorem separated_pieces (r : Rpc) {ps : List Piece} (h : Separated ps) :
    Separated (r.pieces ++ ps) := by
  have hb := separated_bodyPieces r.settings h
  simp only [pieces, List.append_assoc, List.cons_append, List.nil_append]
  exact Separated.comment indent_unit ⟨indent_unit.isLayout, by simpa [runsOn] using hb⟩

end Rpc

theorem Service.separated_pieces (s : Service) {ps : List Piece} (h : Separated ps) :
    Separated (s.pieces ++ ps) := by
  have hend : Separated (.token .closeBrace :: newline :: newline :: ps) := by
    simpa [runsOn] using h
  have hr := Separated.flatMap s.rpcs.values (f := fun r => newline :: r.pieces)
    (fun r _ ps h => (Piece.separated_newline _).2 (r.separated_pieces h)) hend
  have hs := Separated.flatMap s.settings
    (fun x _ _ h => x.separated_statement indent_unit h) hr
  simp only [pieces, List.append_assoc, List.cons_append, List.nil_append]
  exact Separated.comment indent_empty (by simpa [runsOn] using hs)

/-! ## Files -/

/-- What is known of the origin of a file holds no line feed, so that the header keeps it on its
lines. -/
def Source.OnLines (s : Source) : Prop :=
  ∀ text ∈ [s.filename, s.name, s.version, s.revision], '\n' ∉ text.toList

instance (s : Source) : Decidable s.OnLines :=
  inferInstanceAs (Decidable (∀ text ∈ [s.filename, s.name, s.version, s.revision], _))

theorem Source.isLayout_of_mem_pieces {s : Source} (hs : s.OnLines) {p : Piece}
    (h : p ∈ s.pieces) : ∃ text, p = layout text ∧ Piece.IsLayout text := by
  have hline : ∀ label value : String, '\n' ∉ label.toList → '\n' ∉ value.toList →
      Piece.IsLayout s!"// {label}: {value}\n" := fun label value hl hv =>
    Piece.isLayout_line s!" {label}: {value}" (by simp [toString, hl, hv])
      (by simp [toString])
  simp only [OnLines, List.forall_mem_cons] at hs
  simp only [Source.pieces, List.mem_filterMap, List.mem_cons, List.not_mem_nil, or_false,
    Option.ite_none_left_eq_some, Option.some.injEq] at h
  obtain ⟨⟨label, value⟩, hmem, -, rfl⟩ := h
  refine ⟨_, rfl, hline label value ?_ ?_⟩
  · rcases hmem with h | h | h | h <;> cases h <;> decide
  · rcases hmem with h | h | h | h <;> cases h
    · exact hs.1
    · exact hs.2.1
    · exact hs.2.2.1
    · exact hs.2.2.2.1

theorem Source.separated_pieces {s : Source} (hs : s.OnLines) {ps : List Piece}
    (h : Separated ps) : Separated (s.pieces ++ ps) := by
  rw [← List.flatMap_singleton' s.pieces]
  refine Separated.flatMap _ (fun p hp ps h => ?_) h
  obtain ⟨text, rfl, ht⟩ := isLayout_of_mem_pieces hs hp
  exact ⟨ht, h⟩

namespace File

theorem separated_heading {title : String} (ht : '\n' ∉ title.toList) {ps : List Piece}
    (h : Separated ps) : Separated (heading title :: ps) := by
  have hline : ∀ body : String, '\n' ∉ body.toList → Piece.IsLayout ("//" ++ body ++ "\n") :=
    fun body hb => Piece.isLayout_line body hb rfl
  have hl := ((hline "" (by decide)).append (hline (" " ++ title) (by simpa using ht))).append
    (hline "" (by decide))
  refine ⟨fun rest => ?_, h⟩
  rw [← hl rest]
  simp [toString]

theorem separated_paragraph (qs : List Piece) {ps : List Piece}
    (hq : ∀ ps, Separated ps → Separated (qs ++ ps)) (h : Separated ps) :
    Separated (paragraph qs ++ ps) := by
  unfold paragraph
  split
  · exact h
  · rw [List.append_assoc]
    exact hq _ ((Piece.separated_newline ps).2 h)

theorem separated_underHeading {title : String} (ht : '\n' ∉ title.toList)
    (definitions : List (List Piece)) {ps : List Piece}
    (hd : ∀ d ∈ definitions, ∀ ps, Separated ps → Separated (d ++ ps)) (h : Separated ps) :
    Separated (underHeading title definitions ++ ps) := by
  unfold underHeading
  split
  · exact h
  · rw [List.cons_append]
    refine separated_heading ht ?_
    rw [← List.flatMap_id]
    exact Separated.flatMap _ hd h

theorem separated_syntaxPieces {ps : List Piece} (h : Separated ps) :
    Separated ([newline, word "syntax", space, .token .equals, space, .token (.text "proto3"),
      .token .semicolon, newline, newline] ++ ps) := by
  simpa [runsOn] using h

theorem separated_packagePieces (f : File) {ps : List Piece} (h : Separated ps) :
    Separated (f.packagePieces ++ ps) := by
  rw [packagePieces]
  split
  · exact h
  · simpa [runsOn] using h

theorem separated_importPieces (name : String) {ps : List Piece} (h : Separated ps) :
    Separated (importPieces name ++ ps) := by
  simpa [importPieces, runsOn] using h

/-- The pieces of a file are separated, whatever its names and descriptions are. -/
theorem separated_pieces {f : File} (hs : f.source.OnLines) : Separated f.pieces := by
  have htitles : '\n' ∉ "Services".toList ∧ '\n' ∉ "Messages".toList := by decide
  have hservices : Separated (underHeading "Services" (f.services.values.map Service.pieces) ++ []) :=
    separated_underHeading htitles.1 _ (by
      simp only [List.forall_mem_map]
      exact fun s _ _ h => s.separated_pieces h) trivial
  have hmessages := separated_underHeading htitles.2 (f.messages.values.map Message.pieces) (by
      simp only [List.forall_mem_map]
      exact fun m _ _ h => m.separated_pieces h) hservices
  have hsettings := separated_paragraph (f.settings.flatMap (Setting.statement ""))
    (fun ps h => Separated.flatMap _ (fun s _ _ h => s.separated_statement indent_empty h) h)
    hmessages
  have himports := separated_paragraph (f.imports.flatMap importPieces)
    (fun ps h => Separated.flatMap _ (fun s _ _ h => separated_importPieces s h) h) hsettings
  have hpackage := f.separated_packagePieces himports
  have hsource := Source.separated_pieces hs (separated_syntaxPieces hpackage)
  rw [pieces]
  simp only [List.append_assoc, List.append_nil, List.cons_append, List.nil_append] at hsource ⊢
  refine ⟨?_, hsource⟩
  exact Piece.isLayout_line
    s!" Generated by the discovery proto converter {Config.currentVersion}. DO NOT EDIT!"
    (by decide +kernel) (by simp [toString])

end File

end DiscoveryGrpc.Proto
