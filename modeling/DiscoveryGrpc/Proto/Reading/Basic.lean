import DiscoveryGrpc.Proto.SyntaxFault

/-!
# Reading tokens

A reading takes tokens off the front of a list and gives a value, or gets stuck. Where it got stuck
is kept as the number of tokens that were not taken yet; lines play no part in reading.

There is one loop, `Reading.loop`, which repeats a step until the step says that it is done. It has
one turn more than there are tokens, which is enough for turns that take a token each and a last one
that ends the loop.
-/

namespace DiscoveryGrpc.Proto

/-- Why reading stopped, and how many tokens were left. -/
structure Stuck where
  fault : SyntaxFault
  left : Nat
  deriving DecidableEq, Repr

/-- A reading of the tokens that are left. -/
abbrev Reading := StateT (List Token) (Except Stuck)

namespace Reading

/-! ## Single tokens -/

/-- Gets stuck at the next token. -/
def fail (fault : SyntaxFault) : Reading α := fun ts => .error ⟨fault, ts.length⟩

/-- The next token, which stays. -/
def peek : Reading (Option Token) := fun ts => .ok (ts.head?, ts)

/-- Takes the next token if a function has a value for it, and is stuck at it otherwise. -/
def take (stray : Token → SyntaxFault) (f : Token → Option α) : Reading α
  | [] => .error ⟨.endOfFile, 0⟩
  | t :: ts =>
    match f t with
    | some a => .ok (a, ts)
    | none => .error ⟨stray t, ts.length + 1⟩

/-- Takes one particular token. -/
def expect (wanted : Token) : Reading Unit :=
  take (.expected wanted) fun t => if t = wanted then some () else none

/-- Takes a word. -/
def word : Reading String :=
  take .noIdentifier fun
    | .word name => some name
    | _ => none

/-- Takes a number. -/
def int : Reading Int :=
  take .noNumber fun
    | .int value => some value
    | _ => none

/-- The literals at the front of some tokens, joined to `start`, and the tokens behind them. -/
def literals (start : String) : List Token → String × List Token
  | .text content :: ts => literals (start ++ content) ts
  | ts => (start, ts)

/-- Takes one or more literals; adjacent ones are one string. -/
def string : Reading String := do
  let start ← take .noString fun
    | .text content => some content
    | _ => none
  fun ts => .ok (literals start ts)

/-- Takes all tokens through the first semicolon. -/
def skipStatement : Reading Unit
  | [] => .error ⟨.endOfFile, 0⟩
  | .semicolon :: ts => .ok ((), ts)
  | _ :: ts => skipStatement ts

/-! ## Repetition -/

/-- What one turn of a loop comes to. -/
inductive Turn (σ : Type)
  | again (state : σ)
  | done (state : σ)

/-- Repeats a step, at most so many times. -/
def loopFor (step : σ → Reading (Turn σ)) : (turns : Nat) → σ → Reading σ
  | 0, _ => fail .endOfFile
  | turns + 1, s => do
    match ← step s with
    | .again s => loopFor step turns s
    | .done s => return s

/-- Repeats a step until it is done. -/
def loop (step : σ → Reading (Turn σ)) (start : σ) : Reading σ := fun ts =>
  loopFor step (ts.length + 1) start ts

theorem loopFor_succ (step : σ → Reading (Turn σ)) (n : Nat) (s : σ) (ts : List Token) :
    loopFor step (n + 1) s ts = match step s ts with
      | .error e => .error e
      | .ok (.again s, rest) => loopFor step n s rest
      | .ok (.done s, rest) => .ok (s, rest) := by
  rw [loopFor]
  simp only [bind, StateT.bind, Except.bind]
  cases step s ts with
  | error e => rfl
  | ok p =>
    obtain ⟨t, rest⟩ := p
    cases t <;> rfl

/-! ## Entries between braces -/

/-- How an entry of a block begins, or that the block ends. -/
inductive Entry
  | close
  /-- A semicolon, which separates nothing. -/
  | blank
  | word (name : String)
  deriving DecidableEq, Repr

/-- The entry that a token begins. -/
def Entry.ofToken? : Token → Option Entry
  | .closeBrace => some .close
  | .semicolon => some .blank
  | .word name => some (.word name)
  | _ => none

/-- Takes the first token of an entry. -/
def entry (stray : Token → SyntaxFault) : Reading Entry := take stray Entry.ofToken?

/-- Reads the entries of a block through its closing brace; every entry begins with a word and
changes what was read before. -/
def block (stray : Token → SyntaxFault) (statement : σ → String → Reading σ) (start : σ) :
    Reading σ :=
  loop (fun s => do
    match ← entry stray with
    | .close => return .done s
    | .blank => return .again s
    | .word name => return .again (← statement s name)) start

end Reading

end DiscoveryGrpc.Proto
