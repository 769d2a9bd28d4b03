import DiscoveryGrpc.Conversion.Template
import DiscoveryGrpc.Proofs.Fault
import DiscoveryGrpc.Proofs.Name

/-!
# Variables of templates

An opening brace always begins a part of its own (`Template.parts_append_brace`), so what is made of
a template up to a brace and from there on can be said apart (`Template.exists_of_withFieldNames`).
If the text that comes out has a variable at this place, then so had the template, under the name of
which that of a field was made (`Template.variable_of_render`). A variable with a pattern is there as
it was written (`Template.exists_pattern_of_render`).
-/

namespace DiscoveryGrpc

/-- Two ways to cut a text behind characters of a class are the same. -/
theorem Text.append_cons_inj {p : Char → Bool} {xs ys s t : List Char} {c d : Char}
    (hxs : ∀ x ∈ xs, p x = true) (hys : ∀ y ∈ ys, p y = true) (hc : p c = false) (hd : p d = false)
    (h : xs ++ c :: s = ys ++ d :: t) : xs = ys ∧ c = d ∧ s = t := by
  have hspan := congrArg (List.span p) h
  rw [Text.span_append hxs (by simpa using hc), Text.span_append hys (by simpa using hd)] at hspan
  obtain ⟨hxy, hrest⟩ := Prod.mk.inj hspan
  exact ⟨hxy, List.cons.inj hrest⟩

/-- A text is cut behind the characters of a class that it begins with. -/
theorem Text.exists_cut (p : Char → Bool) (cs : List Char) : ∃ xs rest, cs = xs ++ rest ∧
    (∀ c ∈ xs, p c = true) ∧ ∀ c ∈ rest.head?, p c = false := by
  refine ⟨cs.takeWhile p, cs.dropWhile p, List.takeWhile_append_dropWhile.symm,
    fun c => List.mem_takeWhile_imp, fun c hc => ?_⟩
  have hstop := List.head?_dropWhile_not p cs
  rwa [Option.mem_def.1 hc] at hstop

namespace Conversion.Template

/-- A text that can be the name of a plain variable. -/
def IsVariable (v : List Char) : Prop := v ≠ [] ∧ ∀ c ∈ v, isVariableChar c = true

instance (v : List Char) : Decidable (IsVariable v) :=
  inferInstanceAs (Decidable (v ≠ [] ∧ ∀ c ∈ v, isVariableChar c = true))

theorem isVariableChar_of_namePart {c : Char} (h : c = '_' ∨ c.isAlphanum = true) :
    isVariableChar c = true := by
  rcases h with rfl | hc
  · decide
  · simp [isVariableChar, hc]

/-- The words of an identifier can be the name of a variable. -/
theorem isVariableChar_of_ofIdentifier (s : String) :
    ∀ c ∈ (Name.ofIdentifier s).lowerUnderscoreChars, isVariableChar c = true := fun _ hc =>
  isVariableChar_of_namePart
    (Name.isNamePart_of_mem_lowerUnderscoreChars (Name.clean_ofIdentifier s) hc)

/-- The name of a field can be that of a variable. -/
theorem isVariableChar_of_fieldName {key name : String} (h : fieldName key = .ok name) :
    ∀ c ∈ name.toList, isVariableChar c = true := by
  obtain ⟨n, hn, h⟩ := Except.bind_eq_ok_iff.1 h
  obtain rfl := Except.ok.inj h
  have hchars : ∀ c ∈ n.lowerUnderscoreChars, c = '_' ∨ c.isAlphanum = true := fun c =>
    Name.isNamePart_of_mem_lowerUnderscoreChars (Name.clean_of_ofIdentifier? hn)
  split
  · rw [Name.capitalizedLowerUnderscore, String.toList_ofList]
    cases hcs : n.lowerUnderscoreChars with
    | nil => simp [Word.capitalize]
    | cons c cs =>
      rw [hcs] at hchars
      refine List.forall_mem_cons.2 ⟨?_, fun d hd =>
        isVariableChar_of_namePart (hchars d (List.mem_cons_of_mem _ hd))⟩
      rcases hchars c List.mem_cons_self with rfl | hc
      · decide
      · exact isVariableChar_of_namePart (.inr (Name.isAlphanum_toUpper hc))
  · rw [Name.lowerUnderscore, String.toList_ofList]
    exact fun c hc => isVariableChar_of_namePart (hchars c hc)

/-! ## Parts -/

/-- A brace begins a part of its own, whatever is held back in front of it. -/
theorem parts_append_brace (held : Option (List Char)) (s t : List Char) :
    partsFrom held (s ++ '\x7b' :: t) = partsFrom held s ++ partsFrom (some []) t := by
  have hbrace : isVariableChar '\x7b' = false := by decide
  induction s generalizing held with
  | nil => cases held <;> simp [partsFrom, hbrace]
  | cons c s ih =>
    cases held with
    | none =>
      rw [List.cons_append, partsFrom, partsFrom, ih, ih]
      split <;> rfl
    | some held =>
      rw [List.cons_append, partsFrom, partsFrom, ih, ih, ih]
      split_ifs <;> simp

theorem parts_append_of_variable {v : List Char} (hv : ∀ c ∈ v, isVariableChar c = true)
    (held rest : List Char) :
    partsFrom (some held) (v ++ rest) = partsFrom (some (v.reverse ++ held)) rest := by
  induction v generalizing held with
  | nil => rfl
  | cons c v ih =>
    obtain ⟨hc, hv⟩ := List.forall_mem_cons.1 hv
    rw [List.cons_append, partsFrom, if_pos hc, ih hv]
    simp

/-! ## Texts -/

/-- The text of parts, with every plain variable named as a field. -/
def render (ps : List Part) : Except Fault (List Char) :=
  List.flatten <$> ps.mapM Part.withFieldName

theorem withFieldNames_eq (template : String) :
    withFieldNames template = String.ofList <$> render (parts template) := by
  rw [withFieldNames, render]
  cases (parts template).mapM Part.withFieldName <;> rfl

theorem render_append_eq_ok {ps qs : List Part} {t : List Char} :
    render (ps ++ qs) = .ok t ↔
      ∃ t₁ t₂, render ps = .ok t₁ ∧ render qs = .ok t₂ ∧ t = t₁ ++ t₂ := by
  rw [render, render, render, List.mapM_append]
  cases ps.mapM Part.withFieldName with
  | error fault => simp [bind, Except.bind, Functor.map, Except.map]
  | ok ts =>
    cases qs.mapM Part.withFieldName with
    | error fault => simp [bind, Except.bind, Functor.map, Except.map]
    | ok us => simp [bind, Except.bind, Functor.map, Except.map, pure, Except.pure, eq_comm]

theorem render_singleton (p : Part) : render [p] = p.withFieldName := by
  rw [render, List.mapM_cons]
  cases p.withFieldName with
  | error fault => rfl
  | ok t => exact congrArg Except.ok (List.append_nil t)

theorem render_cons_eq_ok {p : Part} {ps : List Part} {t : List Char} :
    render (p :: ps) = .ok t ↔
      ∃ t₁ t₂, p.withFieldName = .ok t₁ ∧ render ps = .ok t₂ ∧ t = t₁ ++ t₂ := by
  rw [← List.singleton_append, render_append_eq_ok, render_singleton]

theorem render_map_char (cs : List Char) : render (cs.map .char) = .ok cs := by
  induction cs with
  | nil => rfl
  | cons c cs ih => exact render_cons_eq_ok.2 ⟨[c], cs, rfl, ih, rfl⟩

theorem render_released (held : List Char) :
    render (released held) = .ok ('\x7b' :: held.reverse) := render_map_char ('\x7b' :: held.reverse)

theorem render_released_append_eq_ok {held : List Char} {ps : List Part} {t : List Char}
    (h : render (released held ++ ps) = .ok t) :
    ∃ r, render ps = .ok r ∧ t = '\x7b' :: held.reverse ++ r := by
  obtain ⟨t₁, r, hreleased, hr, rfl⟩ := render_append_eq_ok.1 h
  obtain rfl := Except.ok.inj ((render_released held).symm.trans hreleased)
  exact ⟨r, hr, rfl⟩

theorem render_plain_cons_eq_ok {v : List Char} {ps : List Part} {t : List Char}
    (h : render (.plain v :: ps) = .ok t) : ∃ field r, fieldName (String.ofList v) = .ok field ∧
      t = '\x7b' :: field.toList ++ '\x7d' :: r := by
  obtain ⟨t₁, r, hplain, -, rfl⟩ := render_cons_eq_ok.1 h
  obtain ⟨field, hfield, hplain⟩ := Except.bind_eq_ok_iff.1 hplain
  obtain rfl := Except.ok.inj hplain
  exact ⟨field, r, hfield, by simp⟩

/-- Where a brace was held back, the text has one. -/
theorem exists_brace_of_render {held cs t : List Char}
    (h : render (partsFrom (some held) cs) = .ok t) : ∃ r, t = '\x7b' :: r := by
  induction cs generalizing held with
  | nil =>
    rw [partsFrom, render_released] at h
    exact ⟨_, (Except.ok.inj h).symm⟩
  | cons c cs ih =>
    rw [partsFrom] at h
    split_ifs at h
    · exact ih h
    · obtain ⟨field, r, -, rfl⟩ := render_plain_cons_eq_ok h
      exact ⟨_, rfl⟩
    · obtain ⟨r, -, rfl⟩ := render_released_append_eq_ok h
      exact ⟨_, rfl⟩
    · obtain ⟨r, -, rfl⟩ := render_released_append_eq_ok h
      exact ⟨_, rfl⟩

/-- What stands at an opening brace, with the characters of variables behind it: a variable, if a
closing brace follows, and else the text as it is. -/
theorem render_brace {v rest t : List Char} (hv : ∀ c ∈ v, isVariableChar c = true)
    (hrest : ∀ c ∈ rest.head?, isVariableChar c = false)
    (h : render (partsFrom (some []) (v ++ rest)) = .ok t) :
    (∃ rest' field r, rest = '\x7d' :: rest' ∧ v ≠ [] ∧ fieldName (String.ofList v) = .ok field ∧
      t = '\x7b' :: field.toList ++ '\x7d' :: r) ∨
    (rest = [] ∧ t = '\x7b' :: v) ∨
    ∃ d rest' r, rest = d :: rest' ∧ (d = '\x7d' → v = []) ∧ t = '\x7b' :: v ++ d :: r := by
  rw [parts_append_of_variable hv, List.append_nil] at h
  cases rest with
  | nil =>
    rw [partsFrom, render_released, List.reverse_reverse] at h
    exact .inr (.inl ⟨rfl, (Except.ok.inj h).symm⟩)
  | cons d rest =>
    have hd : isVariableChar d = false := hrest d rfl
    rw [partsFrom, if_neg (by simp [hd]), List.reverse_reverse] at h
    split_ifs at h with hclose hopen
    · obtain ⟨rfl, hne⟩ : d = '\x7d' ∧ v ≠ [] := by simpa using hclose
      obtain ⟨field, r, hfield, rfl⟩ := render_plain_cons_eq_ok h
      exact .inl ⟨rest, field, r, rfl, hne, hfield, rfl⟩
    · subst hopen
      obtain ⟨r, hr, rfl⟩ := render_released_append_eq_ok h
      obtain ⟨r, rfl⟩ := exists_brace_of_render hr
      exact .inr (.inr ⟨_, rest, r, rfl, nofun, by simp⟩)
    · obtain ⟨r, hr, rfl⟩ := render_released_append_eq_ok h
      obtain ⟨_, r, hchar, -, rfl⟩ := render_cons_eq_ok.1 hr
      obtain rfl := Except.ok.inj hchar
      exact .inr (.inr ⟨d, rest, r, rfl, by simpa using hclose, by simp⟩)

/-- Of a template that is cut in front of a brace, both parts are made apart. -/
theorem exists_of_withFieldNames {template front text : String} {cs : List Char}
    (htemplate : template.toList = front.toList ++ '\x7b' :: cs)
    (h : withFieldNames template = .ok text) : ∃ p r, withFieldNames front = .ok p ∧
      render (partsFrom (some []) cs) = .ok r ∧ text.toList = p.toList ++ r := by
  rw [withFieldNames_eq, parts, htemplate, parts_append_brace] at h
  obtain ⟨t, ht, rfl⟩ := Except.map_eq_ok_iff.1 h
  obtain ⟨p, r, hp, hr, rfl⟩ := render_append_eq_ok.1 ht
  refine ⟨String.ofList p, r, ?_, hr, by simp⟩
  rw [withFieldNames_eq, parts, hp]
  rfl

/-- A variable with a pattern stays as it is. -/
theorem exists_pattern_of_render {v rest t : List Char} (hv : ∀ c ∈ v, isVariableChar c = true)
    (h : render (partsFrom (some []) (v ++ '=' :: rest)) = .ok t) :
    ∃ q, t = '\x7b' :: v ++ '=' :: q := by
  have hstop : ∀ c ∈ ('=' :: rest).head?, isVariableChar c = false := by
    rintro _ ⟨⟩
    decide
  rcases render_brace hv hstop h with ⟨_, _, _, hclose, -⟩ | ⟨hnil, -⟩ | ⟨d, _, q, hcons, -, htext⟩
  · cases (List.cons.inj hclose).1
  · cases hnil
  · obtain ⟨rfl, -⟩ := List.cons.inj hcons
    exact ⟨q, htext⟩

/-- If there is a variable at a brace in the text, then there is one in the template. A plain one
was named as a field, and one with a pattern is the same. -/
theorem variable_of_render {cs x q : List Char} {c : Char} (hx : IsVariable x)
    (hc : isVariableChar c = false)
    (h : render (partsFrom (some []) cs) = .ok ('\x7b' :: x ++ c :: q)) :
    (c = '\x7d' → ∃ v cs', IsVariable v ∧ cs = v ++ '\x7d' :: cs' ∧
      fieldName (String.ofList v) = .ok (String.ofList x)) ∧
    (c = '=' → ∃ cs', cs = x ++ '=' :: cs') := by
  have hclose : isVariableChar '\x7d' = false := by decide
  obtain ⟨v, rest, rfl, hv, hrest⟩ := Text.exists_cut isVariableChar cs
  rcases render_brace hv hrest h with ⟨rest', field, r, rfl, hne, hfield, htext⟩ | ⟨rfl, htext⟩ |
    ⟨d, rest', r, rfl, hd, htext⟩
  · obtain ⟨rfl, rfl, -⟩ := Text.append_cons_inj hx.2 (isVariableChar_of_fieldName hfield) hc hclose
      (List.cons.inj htext).2
    refine ⟨fun _ => ⟨v, rest', ⟨hne, hv⟩, rfl, ?_⟩, nofun⟩
    rw [String.ofList_toList]
    exact hfield
  · have hmem : c ∈ v := (List.cons.inj htext).2 ▸ by simp
    rw [hv c hmem] at hc
    cases hc
  · obtain ⟨rfl, rfl, -⟩ := Text.append_cons_inj hx.2 hv hc (hrest d rfl) (List.cons.inj htext).2
    exact ⟨fun h => absurd (hd h) hx.1, fun h => ⟨rest', by rw [h]⟩⟩

end Conversion.Template

end DiscoveryGrpc
