import DiscoveryGrpc.Proto.Message

/-!
# Field numbers

A field number is made from the name of the field alone, so that it stays when other fields come
and go: a polynomial hash over the UTF-16 units of the name, cut to 29 bits and moved out of the
range that the format reserves. If two names meet at one number, the later field in order takes the
next free one. The first member of an enum has number zero.
-/

namespace DiscoveryGrpc.Proto

namespace Number

/-- The number of field numbers: they have 29 bits. -/
def bound : Nat := 0x20000000

/-- Numbers that the format keeps for itself. -/
def isReserved (n : Nat) : Bool := 19000 ≤ n && n ≤ 19999

/-- The UTF-16 units of a character. -/
def units (c : Char) : List Nat :=
  let n := c.toNat
  if n < 0x10000 then [n] else [0xd800 + (n - 0x10000) / 0x400, 0xdc00 + (n - 0x10000) % 0x400]

/-- The hash of a text: its UTF-16 units as the digits of a number to the base 31, modulo 2^32. -/
def hash (s : String) : Nat :=
  (s.toList.flatMap units).foldl (fun h u => (h * 31 + u) % 0x100000000) 0

/-- A number cut to 29 bits, and moved if it is zero or reserved. -/
def normalize (n : Nat) : Nat :=
  let n := n % bound
  if n == 0 || isReserved n then 20000 + (n % 19000 + 1) * 536314 else n

/-- The first number from `n` on that is not taken, among `tries` of them. -/
def probe (taken : List Nat) : (tries : Nat) → (n : Nat) → Nat
  | 0, n => n
  | tries + 1, n => if taken.contains n then probe taken tries (normalize (n + 1)) else n

/-- The number for a name when some are taken. Of one more number than are taken, one is free. -/
def choose (taken : List Nat) (name : String) : Nat :=
  probe taken (taken.length + 1) (normalize (hash name))

/-! ### The range of numbers -/

theorem normalize_pos (n : Nat) : 0 < normalize n := by
  unfold normalize
  simp only [Bool.or_eq_true, beq_iff_eq]
  split <;> omega

theorem normalize_lt (n : Nat) : normalize n < bound := by
  unfold normalize isReserved
  simp only [Bool.or_eq_true, beq_iff_eq, Bool.and_eq_true, decide_eq_true_eq]
  have h : n % bound < bound := Nat.mod_lt _ (by decide)
  have hb : bound = 536870912 := rfl
  split <;> omega

theorem not_isReserved_normalize (n : Nat) : isReserved (normalize n) = false := by
  unfold normalize isReserved
  simp only [Bool.or_eq_true, beq_iff_eq, Bool.and_eq_true, decide_eq_true_eq]
  split
  · simp; omega
  · simp; omega

end Number

namespace Message

/-- Numbers for fields in order, each different from those taken. -/
def numberFrom (taken : List Nat) : List Field → List (Nat × Field)
  | [] => []
  | f :: fs =>
    let n := Number.choose taken f.name
    (n, f) :: numberFrom (n :: taken) fs

/-- The fields in order with their numbers. -/
def numbered (m : Message) : List (Nat × Field) :=
  match m.isEnum, m.fields with
  | true, f :: fs => (0, f) :: numberFrom [0] fs
  | _, fs => numberFrom [] fs

/-- The fields with their numbers, sorted by number. -/
def numberedAscending (m : Message) : List (Nat × Field) :=
  m.numbered.mergeSort fun a b => a.1 ≤ b.1

/-- The numbers by field name. Of two fields with one name the higher number counts. -/
def numbersByName (m : Message) : Table Nat :=
  Table.ofList (m.numberedAscending.map fun (n, f) => (f.name, n))

end Message

end DiscoveryGrpc.Proto
