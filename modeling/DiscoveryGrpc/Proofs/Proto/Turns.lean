import Mathlib.Data.List.Basic
import DiscoveryGrpc.Proto.Reading.Basic

/-!
# Readings, token by token

What the readings of single tokens do, and how a loop goes on. `Leads step s ts s' rest` says that
some turns of a loop, each with fewer tokens than the one before, take the state from `s` to `s'`
and the tokens from `ts` to `rest`. A loop that is led to a turn with which it is done gives what this
turn gives (`Leads.finish`), and one that is led to a fault is stuck there (`Leads.stick`). A
sequence of written items is one turn each (`Leads.items`).
-/

namespace DiscoveryGrpc.Proto.Reading

/-! ## Single tokens -/

@[simp]
theorem bind_apply {α β : Type} (x : Reading α) (f : α → Reading β) (ts : List Token) :
    (x >>= f) ts = match x ts with
      | .ok (a, rest) => f a rest
      | .error stuck => .error stuck := by
  change StateT.bind x f ts = _
  rw [StateT.bind]
  cases x ts <;> rfl

@[simp]
theorem map_apply {α β : Type} (f : α → β) (x : Reading α) (ts : List Token) :
    (f <$> x) ts = match x ts with
      | .ok (a, rest) => .ok (f a, rest)
      | .error stuck => .error stuck := by
  change StateT.map f x ts = _
  rw [StateT.map]
  cases x ts <;> rfl

@[simp]
theorem pure_apply {α : Type} (a : α) (ts : List Token) :
    (pure a : Reading α) ts = .ok (a, ts) := rfl

@[simp]
theorem fail_apply {α : Type} (fault : SyntaxFault) (ts : List Token) :
    (fail fault : Reading α) ts = .error ⟨fault, ts.length⟩ := rfl

@[simp]
theorem get_apply (ts : List Token) : (get : Reading (List Token)) ts = .ok (ts, ts) := rfl

@[simp]
theorem peek_apply (ts : List Token) : peek ts = .ok (ts.head?, ts) := rfl

@[simp]
theorem expect_cons (t : Token) (ts : List Token) : expect t (t :: ts) = .ok ((), ts) := by
  simp [expect, take]

@[simp]
theorem word_cons (name : String) (ts : List Token) :
    word (.word name :: ts) = .ok (name, ts) := rfl

@[simp]
theorem int_cons (i : Int) (ts : List Token) : int (.int i :: ts) = .ok (i, ts) := rfl

theorem literals_of_ne {ts : List Token} (h : ∀ s, ts.head? ≠ some (.text s)) (start : String) :
    literals start ts = (start, ts) := by
  unfold literals
  split
  · rename_i s ts
    exact absurd rfl (h s)
  · rfl

/-- A literal is taken alone if no other one follows it. -/
theorem string_cons {ts : List Token} (h : ∀ s, ts.head? ≠ some (.text s)) (s : String) :
    string (.text s :: ts) = .ok (s, ts) := by
  simp [string, take, literals_of_ne h]

/-- A statement is skipped through its end. -/
theorem skipStatement_append {skipped : List Token} (h : .semicolon ∉ skipped) (ts : List Token) :
    skipStatement (skipped ++ .semicolon :: ts) = .ok ((), ts) := by
  induction skipped with
  | nil => rfl
  | cons t skipped ih =>
    rw [List.mem_cons, not_or] at h
    rw [List.cons_append, skipStatement]
    · exact ih h.2
    · exact Ne.symm h.1

/-! ## Loops -/

/-- Turns of a loop, each with fewer tokens than the one before, lead from one state to another. -/
inductive Leads {σ : Type} (step : σ → Reading (Turn σ)) :
    σ → List Token → σ → List Token → Prop
  | refl (s : σ) (ts : List Token) : Leads step s ts s ts
  | turn {s : σ} {ts : List Token} {s₁ : σ} {ts₁ : List Token} {s' : σ} {rest : List Token}
      (h : step s ts = .ok (.again s₁, ts₁)) (hlt : ts₁.length < ts.length)
      (hrest : Leads step s₁ ts₁ s' rest) : Leads step s ts s' rest

namespace Leads

variable {σ ι : Type} {step : σ → Reading (Turn σ)}

theorem trans {s s₁ s₂ : σ} {ts ts₁ ts₂ : List Token} (h : Leads step s ts s₁ ts₁)
    (h' : Leads step s₁ ts₁ s₂ ts₂) : Leads step s ts s₂ ts₂ := by
  induction h with
  | refl => exact h'
  | turn h hlt _ ih => exact .turn h hlt (ih h')

/-- One turn that takes some tokens off the front. -/
theorem one {s s' : σ} {taken ts : List Token} (h : step s (taken ++ ts) = .ok (.again s', ts))
    (hne : taken ≠ []) : Leads step s (taken ++ ts) s' ts := by
  have hpos := List.length_pos_iff.2 hne
  refine .turn h ?_ (.refl _ _)
  rw [List.length_append]
  omega

/-- With more turns than tokens to begin with, there are more turns than tokens at any time. -/
theorem exists_loopFor {s s' : σ} {ts rest : List Token} (h : Leads step s ts s' rest) {n : Nat}
    (hn : ts.length < n) :
    ∃ m, Reading.loopFor step n s ts = Reading.loopFor step (m + 1) s' rest := by
  induction h generalizing n with
  | refl =>
    obtain ⟨n, rfl⟩ := Nat.exists_eq_succ_of_ne_zero (Nat.ne_zero_of_lt hn)
    exact ⟨n, rfl⟩
  | turn h hlt _ ih =>
    obtain ⟨n, rfl⟩ := Nat.exists_eq_succ_of_ne_zero (Nat.ne_zero_of_lt hn)
    obtain ⟨m, hm⟩ := ih (show _ < n by omega)
    refine ⟨m, ?_⟩
    rw [loopFor_succ, h]
    exact hm

/-- A loop gives what its last turn gives. -/
theorem finish {s s₁ s' : σ} {ts ts₁ rest : List Token} (h : Leads step s ts s₁ ts₁)
    (hdone : step s₁ ts₁ = .ok (.done s', rest)) : Reading.loop step s ts = .ok (s', rest) := by
  obtain ⟨m, hm⟩ := h.exists_loopFor (Nat.lt_succ_self _)
  rw [Reading.loop, hm, loopFor_succ, hdone]

/-- A loop is stuck where a turn is. -/
theorem stick {s s₁ : σ} {ts ts₁ : List Token} (h : Leads step s ts s₁ ts₁) {stuck : Stuck}
    (herror : step s₁ ts₁ = .error stuck) : Reading.loop step s ts = .error stuck := by
  obtain ⟨m, hm⟩ := h.exists_loopFor (Nat.lt_succ_self _)
  rw [Reading.loop, hm, loopFor_succ, herror]

/-- Written items are taken one by one. The state depends on the items taken so far. -/
theorem items (state : List ι → σ) {tokens : ι → List Token} {xs : List ι} {ts : List Token}
    (hstep : ∀ done x after, xs = done ++ x :: after →
      step (state done) (tokens x ++ (after.flatMap tokens ++ ts))
        = .ok (.again (state (done ++ [x])), after.flatMap tokens ++ ts))
    (hne : ∀ x, tokens x ≠ []) : Leads step (state []) (xs.flatMap tokens ++ ts) (state xs) ts := by
  have hfrom : ∀ after done, xs = done ++ after →
      Leads step (state done) (after.flatMap tokens ++ ts) (state xs) ts := by
    intro after
    induction after with
    | nil =>
      intro done h
      simpa [h] using Leads.refl (state done) ts
    | cons x after ih =>
      intro done h
      rw [List.flatMap_cons, List.append_assoc]
      exact (one (hstep done x after h) (hne x)).trans (ih _ (by simpa using h))
  exact hfrom xs [] rfl

end Leads

/-! ## Blocks -/

/-- One turn of reading a block. -/
def blockTurn {σ : Type} (stray : Token → SyntaxFault) (statement : σ → String → Reading σ)
    (s : σ) : Reading (Turn σ) := do
  match ← entry stray with
  | .close => return .done s
  | .blank => return .again s
  | .word name => return .again (← statement s name)

theorem block_eq {σ : Type} (stray : Token → SyntaxFault) (statement : σ → String → Reading σ)
    (s : σ) : block stray statement s = loop (blockTurn stray statement) s := rfl

section

variable {σ : Type} {stray : Token → SyntaxFault} {statement : σ → String → Reading σ}

theorem blockTurn_word {s s' : σ} {first : String} {ts rest : List Token}
    (h : statement s first ts = .ok (s', rest)) :
    blockTurn stray statement s (.word first :: ts) = .ok (.again s', rest) := by
  simp [blockTurn, entry, take, Entry.ofToken?, h]

theorem blockTurn_stuck {s : σ} {first : String} {ts : List Token} {stuck : Stuck}
    (h : statement s first ts = .error stuck) :
    blockTurn stray statement s (.word first :: ts) = .error stuck := by
  simp [blockTurn, entry, take, Entry.ofToken?, h]

theorem blockTurn_close (s : σ) (ts : List Token) :
    blockTurn stray statement s (.closeBrace :: ts) = .ok (.done s, ts) := by
  simp [blockTurn, entry, take, Entry.ofToken?]

end

end DiscoveryGrpc.Proto.Reading
