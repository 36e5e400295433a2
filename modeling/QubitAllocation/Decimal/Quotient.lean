/-!
# Quotients in decimal

A quotient of two numbers is rounded to the nearest double and then written in decimal: with a
fixed number of places, a half going to the even neighbour, or with the fewest places that still
tell it from every other double.
-/

namespace QubitAllocation.Decimal

/-- Round `num / den` to the nearest number, a half to the even one. -/
def roundDiv (num den : Nat) : Nat :=
  let q := num / den
  let r := num % den
  if 2 * r < den then q
  else if 2 * r = den then if q % 2 = 0 then q else q + 1
  else q + 1

/-- A positive rational number, or zero. -/
structure Ratio where
  num : Nat
  den : Nat
  deriving DecidableEq, Repr

/-- A double: `mantissa` times two to the power `exponent`. -/
structure Binary where
  mantissa : Nat
  exponent : Int
  deriving DecidableEq, Repr

/-- `n` times two to the power `e`. -/
def scaled (n : Nat) (e : Int) : Ratio :=
  match e with
  | .ofNat k => ⟨n * Nat.pow 2 k, 1⟩
  | .negSucc k => ⟨n, Nat.pow 2 (k + 1)⟩

/-- The exact value of a double. -/
def Binary.value (b : Binary) : Ratio := scaled b.mantissa b.exponent

/-- The nearest double with the exponent `e`. -/
def nearestAt (num den : Nat) (e : Int) : Nat :=
  let unit := scaled 1 e
  roundDiv (num * unit.den) (den * unit.num)

/-- The nearest double of `num / den`, with a mantissa of 53 bits; a half goes to the even one. -/
def nearest (num den : Nat) : Binary :=
  if num = 0 then ⟨0, 0⟩
  else
    let e : Int := (Nat.log2 num : Int) - Nat.log2 den - 52
    let unit := scaled 1 e
    if num * unit.den < Nat.pow 2 52 * (den * unit.num) then ⟨nearestAt num den (e - 1), e - 1⟩
    else ⟨nearestAt num den e, e⟩

/-- `n` as digits with the last `places` of them after a point. -/
def pointed (n places : Nat) : String :=
  let digits := (toString n).toList
  let padded := List.replicate (places + 1 - digits.length) '0' ++ digits
  let cut := padded.length - places
  String.ofList (padded.take cut ++ '.' :: padded.drop cut)

/-- A double with a fixed number of places. -/
def Binary.fixed (b : Binary) (places : Nat) : String :=
  pointed (roundDiv (b.value.num * Nat.pow 10 places) b.value.den) places

/-- The decimal `n` with `places` places reads back as the double: it is within half a unit of its
last bit, or exactly half a unit away from an even mantissa. -/
def Binary.readsBack (b : Binary) (n places : Nat) : Bool :=
  let low := scaled (2 * b.mantissa - 1) (b.exponent - 1)
  let high := scaled (2 * b.mantissa + 1) (b.exponent - 1)
  let even := b.mantissa % 2 = 0
  let below := low.num * Nat.pow 10 places
  let above := high.num * Nat.pow 10 places
  if even then below ≤ n * low.den ∧ n * high.den ≤ above
  else below < n * low.den ∧ n * high.den < above

/-- The places of the shortest decimal that reads back, and its digits, trying `places` first. -/
def Binary.shortestFrom (b : Binary) (places : Nat) : Nat → Nat × Nat
  | 0 => (places, roundDiv (b.value.num * Nat.pow 10 places) b.value.den)
  | fuel + 1 =>
    let n := roundDiv (b.value.num * Nat.pow 10 places) b.value.den
    if b.readsBack n places then (places, n) else b.shortestFrom (places + 1) fuel

/-- The shortest decimal that reads back, with its whole part and the digits after the point; at
least one digit follows the point. -/
def Binary.shortest (b : Binary) : Nat × List Char :=
  let (places, n) := b.shortestFrom 0 20
  if places = 0 then (n, ['0'])
  else
    let fraction := (toString (n % Nat.pow 10 places)).toList
    (n / Nat.pow 10 places, List.replicate (places - fraction.length) '0' ++ fraction)

end QubitAllocation.Decimal
