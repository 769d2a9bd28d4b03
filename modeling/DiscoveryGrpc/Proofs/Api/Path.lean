import DiscoveryGrpc.Api.Path
import DiscoveryGrpc.Proofs.Fault

/-!
# Paths and the templates made of them

An expansion cuts its path into three (`Path.eq_of_firstExpansion?`), and the template that is made
of a path and its flat path has the same text around the pattern that takes the place of the
expansion (`exists_of_normalizePath`). In the template of a path alone, every brace stands for one of
the path (`Path.exists_brace_of_withoutPlus`).
-/

namespace DiscoveryGrpc.Api

namespace Path

theorem eq_of_untilBrace? {cs inner rest : List Char} (h : untilBrace? cs = some (inner, rest)) :
    cs = inner ++ '\x7d' :: rest := by
  unfold untilBrace? at h
  rw [Text.span_eq] at h
  split at h
  · rename_i inner' c rest' heq
    obtain ⟨rfl, hdrop⟩ := Prod.mk.inj heq
    obtain ⟨rfl, rfl⟩ := Prod.mk.inj (Option.some.inj h)
    have hstop := List.head?_dropWhile_not (· != '\x7d') cs
    rw [hdrop] at hstop
    obtain rfl : c = '\x7d' := by simpa using hstop
    rw [← hdrop, List.takeWhile_append_dropWhile]
  · cases h

theorem eq_of_expansionHere? {cs name after : List Char}
    (h : expansionHere? cs = some (name, after)) :
    cs = '\x7b' :: '+' :: name ++ '\x7d' :: after ∧ name ≠ [] := by
  unfold expansionHere? at h
  split at h
  · rename_i cs
    split at h
    · cases h
    · cases h
    · rename_i name' rest hne hrest
      obtain ⟨rfl, rfl⟩ := Prod.mk.inj (Option.some.inj h)
      refine ⟨by rw [eq_of_untilBrace? hrest]; rfl, ?_⟩
      rintro rfl
      exact hne rfl
  · cases h

/-- A path is what stands before its expansion, the expansion and what follows. -/
theorem eq_of_firstExpansion? {path : List Char} {e : Expansion}
    (h : firstExpansion? path = some e) :
    path = e.before ++ '\x7b' :: '+' :: e.name ++ '\x7d' :: e.after ∧ e.name ≠ [] := by
  induction path generalizing e with
  | nil => cases h
  | cons c cs ih =>
    rw [firstExpansion?] at h
    split at h
    · rename_i name after hhere
      rw [← Option.some.inj h]
      exact eq_of_expansionHere? hhere
    · obtain ⟨e', he', rfl⟩ := Option.map_eq_some_iff.1 h
      obtain ⟨hcs, hne⟩ := ih he'
      exact ⟨congrArg (c :: ·) hcs, hne⟩

/-! ## Without a flat path -/

theorem exists_of_withoutPlus {cs xs rest : List Char} {c : Char} (hxs : '\x7b' ∉ xs)
    (hc : c ≠ '\x7b') (h : withoutPlus cs = xs ++ c :: rest) : ∃ rest', cs = xs ++ c :: rest' := by
  induction xs generalizing cs with
  | nil =>
    unfold withoutPlus at h
    split at h
    · exact absurd (List.cons.inj h).1.symm hc
    · rename_i cs _
      exact ⟨cs, by rw [(List.cons.inj h).1]; rfl⟩
    · cases h
  | cons x xs ih =>
    obtain ⟨hx, hxs⟩ := not_or.1 (List.mem_cons.not.1 hxs)
    unfold withoutPlus at h
    split at h
    · exact absurd (List.cons.inj h).1 hx
    · obtain ⟨rest', hcs⟩ := ih hxs (List.cons.inj h).2
      exact ⟨rest', by rw [(List.cons.inj h).1, hcs]; rfl⟩
    · cases h

/-- A brace of the template is one of the path, and it may have lost its plus. -/
theorem exists_brace_of_withoutPlus {path a b : List Char}
    (h : withoutPlus path = a ++ '\x7b' :: b) : ∃ a' b', withoutPlus b' = b ∧
      (path = a' ++ '\x7b' :: b' ∨ path = a' ++ '\x7b' :: '+' :: b') := by
  fun_induction withoutPlus path generalizing a with
  | case1 cs ih =>
    cases a with
    | nil => exact ⟨[], cs, (List.cons.inj h).2, .inr rfl⟩
    | cons d a =>
      obtain ⟨a', b', hb, hcs⟩ := ih (List.cons.inj h).2
      refine ⟨'\x7b' :: '+' :: a', b', hb, hcs.imp ?_ ?_⟩ <;>
        exact fun hcs => by rw [hcs]; rfl
  | case2 c cs _ ih =>
    cases a with
    | nil =>
      obtain ⟨rfl, hb⟩ := List.cons.inj h
      exact ⟨[], cs, hb, .inl rfl⟩
    | cons d a =>
      obtain ⟨a', b', hb, hcs⟩ := ih (List.cons.inj h).2
      refine ⟨c :: a', b', hb, hcs.imp ?_ ?_⟩ <;>
        exact fun hcs => by rw [hcs]; rfl
  | case3 => cases a <;> cases h

end Path

/-- With a flat path, the path as it is stands around the pattern of its expansion. -/
theorem exists_of_normalizePath {path flat template : String} {e : Path.Expansion}
    (he : Path.firstExpansion? path.toList = some e) (h : normalizePath path flat = .ok template) :
    ∃ pattern, template.toList = e.before ++
      '\x7b' :: (Name.ofIdentifier (String.ofList e.name)).lowerUnderscoreChars
        ++ '=' :: pattern ++ '\x7d' :: e.after := by
  unfold normalizePath at h
  simp only [he] at h
  split at h
  · cases h
  · split at h
    · cases h
    · rename_i middle _
      rw [← Except.ok.inj h]
      exact ⟨Path.starGroups middle, by simp⟩

end DiscoveryGrpc.Api
