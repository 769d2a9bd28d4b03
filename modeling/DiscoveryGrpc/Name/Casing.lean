import DiscoveryGrpc.Text.Split

/-!
# Casings of identifiers

The four casings a fragment of a name can be written in, the test for each, and where the words
of a camel cased fragment begin. A capital begins a word after a small letter or a digit; inside a
run of capitals only the last one does, when a small letter follows it. So `IPAddress` has the
words `IP` and `Address`, and cutting loses no letter.

All classes are those of ASCII: the identifiers of the target language have no other letters.
-/

namespace DiscoveryGrpc

/-- The way a name fragment is written. -/
inductive Casing
  | lowerUnderscore
  | upperCamel
  | lowerCamel
  | camel
  deriving DecidableEq, Repr

namespace Casing

/-- How a casing is called. -/
def label : Casing → String
  | lowerUnderscore => "lower underscore"
  | upperCamel => "upper camel"
  | lowerCamel => "lower camel"
  | camel => "camel"

/-- Letters and digits of a lower underscore word. -/
def isLowerOrDigit (c : Char) : Bool := c.isLower || c.isDigit

/-- The words of a lower underscore fragment. -/
def underscoreWords (cs : List Char) : List (List Char) := Text.splitBy (· == '_') cs

/-- Whether a fragment is written in the casing. No fragment is empty. -/
def fits : Casing → List Char → Bool
  | lowerUnderscore, cs => (underscoreWords cs).all fun w => !w.isEmpty && w.all isLowerOrDigit
  | upperCamel, cs => cs.head?.any Char.isUpper && cs.all Char.isAlphanum
  | lowerCamel, cs => cs.head?.any Char.isLower && cs.all Char.isAlphanum
  | camel, cs => !cs.isEmpty && cs.all Char.isAlphanum

/-- Whether `c` begins a word when it stands between `before` and `after?`. -/
def beginsWord (before c : Char) (after? : Option Char) : Bool :=
  c.isUpper &&
    (before.isLower || before.isDigit || (before.isUpper && after?.any Char.isLower))

/-- The words of a camel cased fragment. -/
def camelWords : List Char → List (List Char)
  | [] => []
  | [c] => [[c]]
  | c :: d :: cs =>
    if beginsWord c d cs.head? then [c] :: camelWords (d :: cs)
    else match camelWords (d :: cs) with
      | [] => [[c]]
      | w :: ws => (c :: w) :: ws

theorem camelWords_cons_ne_nil (c : Char) (cs : List Char) : camelWords (c :: cs) ≠ [] := by
  cases cs with
  | nil => simp [camelWords]
  | cons d cs =>
    rw [camelWords]
    split
    · simp
    · split <;> simp

/-- Cutting loses no letter and adds none. -/
theorem flatten_camelWords (cs : List Char) : (camelWords cs).flatten = cs := by
  fun_induction camelWords cs with
  | case1 => rfl
  | case2 => rfl
  | case3 c d cs _ ih => simp [ih]
  | case4 c d cs _ h => exact absurd h (camelWords_cons_ne_nil d cs)
  | case5 c d cs _ w ws h ih => simp_all

theorem ne_nil_of_mem_camelWords {cs w : List Char} (hw : w ∈ camelWords cs) : w ≠ [] := by
  fun_induction camelWords cs with
  | case1 => simp at hw
  | case2 => simp_all
  | case3 c d cs _ ih =>
    rcases List.mem_cons.1 hw with rfl | hw
    · simp
    · exact ih hw
  | case4 c d cs _ h => simp_all
  | case5 c d cs _ v vs h ih =>
    rcases List.mem_cons.1 hw with rfl | hw
    · simp
    · exact ih (by simp [h, hw])

end Casing

end DiscoveryGrpc
