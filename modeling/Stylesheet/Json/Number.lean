/-!
# Numbers in JSON

A number is written with digits, of which some may stand after a point or in an exponent. A number
written with digits only is exact as long as it has at most 64 bits. Any other number is taken for a
floating-point number of 53 bits, and has to lie in the range of these.

The size of a floating-point number is found from its first digits, as many as fit into 64 bits, and
from the power of ten that puts the point in its place. Either factor is rounded to 53 bits before
they are multiplied.
-/

namespace Stylesheet.Json

/-- The value of a digit. -/
def digitValue (c : Char) : Nat := c.toNat - '0'.toNat

/-- The natural number of some digits. -/
def naturalOf (digits : List Char) : Nat :=
  digits.foldl (fun n c => 10 * n + digitValue c) 0

/-- Whether there is a digit, and nothing else. -/
def areDigits (cs : List Char) : Bool := !cs.isEmpty && cs.all Char.isDigit

/-- Whether some characters are digits without a zero too many in front. -/
def isInteger (cs : List Char) : Bool :=
  areDigits cs && (cs.length == 1 || cs.head? != some '0')

/-- A number as it is written. -/
structure Literal where
  negative : Bool := false
  /-- The digits before the point. -/
  whole : List Char
  /-- The digits after the point, if there is one. -/
  fraction : Option (List Char) := none
  exponent : Option Int := none
deriving DecidableEq, Repr

namespace Literal

/-- The exponent that some characters are, if there are any. -/
def readExponent? : List Char → Option (Option Int)
  | [] => some none
  | e :: cs =>
    if e != 'e' && e != 'E' then none
    else
      match cs with
      | '-' :: digits => if areDigits digits then some (some (-(naturalOf digits : Int))) else none
      | '+' :: digits => if areDigits digits then some (some (naturalOf digits)) else none
      | digits => if areDigits digits then some (some (naturalOf digits)) else none

/-- Read a number without its sign. -/
def readUnsigned? (cs : List Char) : Option Literal :=
  let whole := cs.takeWhile Char.isDigit
  if !isInteger whole then none
  else
    match cs.dropWhile Char.isDigit with
    | '.' :: rest =>
      let fraction := rest.takeWhile Char.isDigit
      if fraction.isEmpty then none
      else do
        let exponent ← readExponent? (rest.dropWhile Char.isDigit)
        return { whole, fraction := some fraction, exponent }
    | rest => do return { whole, exponent := ← readExponent? rest }

/-- Read a number. -/
def read? : List Char → Option Literal
  | '-' :: cs => do return { ← readUnsigned? cs with negative := true }
  | cs => readUnsigned? cs

/-- The natural number of at most 64 bits that is written with digits only. -/
def natural? : Literal → Option Nat
  | ⟨false, whole, none, none⟩ =>
    if naturalOf whole < UInt64.size then some (naturalOf whole) else none
  | _ => none

/-- Put digits behind a number as long as it has at most 64 bits, and count those that were. -/
def appendDigits (n : Nat) : List Char → Nat × Nat
  | [] => (n, 0)
  | c :: cs =>
    let next := 10 * n + digitValue c
    if next < UInt64.size then
      let (m, count) := appendDigits next cs
      (m, count + 1)
    else (n, 0)

/-- The leading digits of a number, and the exponent of the power of ten that they are multiplied
by. A digit that is left out counts if it stands before the point. -/
def scaled (l : Literal) : Nat × Int :=
  let (n, kept) := appendDigits 0 l.whole
  let (m, added) := appendDigits n (l.fraction.getD [])
  (m, (l.whole.length - kept : Int) - added + l.exponent.getD 0)

/-- The nearest number with 53 significant bits, and of two that are as near the one that ends in
an even bit. -/
def round53 (n : Nat) : Nat :=
  let unit := Nat.pow 2 (n.log2 - 52)
  let below := n / unit
  let rest := n % unit
  if 2 * rest < unit ∨ (2 * rest = unit ∧ below % 2 = 0) then below * unit
  else (below + 1) * unit

/-- The least number that is rounded up beyond the floating-point numbers. -/
def overflow : Nat := Nat.pow 2 1024 - Nat.pow 2 970

/-- Whether a number is in the range of the floating-point numbers. -/
def isFinite (l : Literal) : Bool :=
  let (n, exponent) := l.scaled
  if n = 0 ∨ exponent < 0 then true
  else if 308 < exponent then false
  else round53 n * round53 (Nat.pow 10 exponent.toNat) < overflow

end Literal

end Stylesheet.Json
