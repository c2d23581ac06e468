import RuleTree.Number.Binary64

/-! # Shortest decimals

A floating point number is written with the fewest digits that read back as the
same number, and among those with the digits nearest to it.  The reals that
round to `m · 2 ^ e` form an interval, closed when `m` is even; for one digit,
two digits and so on the two neighbours of the number on that decimal grid are
tried, and the first grid with a neighbour in the interval wins.
-/
namespace RuleTree

/-- The decimal number `digits · 10 ^ exponent`. -/
structure Decimal where
  digits : Nat
  exponent : Int
  deriving DecidableEq

namespace Binary64

/-- A grid of decimals beside a grid of binary fractions: `d` steps of
`10 ^ p` against `x` steps of `2 ^ q`, both brought to integers. -/
structure Grids where
  p : Int
  q : Int

namespace Grids

/-- `d` decimal steps in the common unit. -/
def decimal (g : Grids) (d : Nat) : Nat :=
  d * Nat.pow 10 g.p.toNat * Nat.pow 2 (-g.q).toNat

/-- `x` binary steps in the common unit. -/
def binary (g : Grids) (x : Nat) : Nat :=
  x * Nat.pow 2 g.q.toNat * Nat.pow 10 (-g.p).toNat

end Grids

/-- The greatest `k` with `10 ^ k ≤ m · 2 ^ e`. -/
def floorLog10 (m : Nat) (e : Int) : Int :=
  let estimate := ((m.log2 : Int) + e) * 30103 / 100000
  let fits (k : Int) : Bool :=
    let g : Grids := ⟨k, e⟩
    g.decimal 1 ≤ g.binary m
  if fits (estimate + 1) then estimate + 1
  else if fits estimate then estimate
  else estimate - 1

/-- The neighbour of `m · 2 ^ e` on the grid of `10 ^ p` that rounds back to it,
the nearer one if both do. -/
def neighbour? (m : Nat) (e p : Int) : Option Nat :=
  let m4 := 4 * m
  let g : Grids := ⟨p, e - 2⟩
  let low := g.binary (if m = Nat.pow 2 52 ∧ leastExponent < e then m4 - 1 else m4 - 2)
  let high := g.binary (m4 + 2)
  let within (x : Nat) : Bool := if m % 2 = 0 then low ≤ x && x ≤ high else low < x && x < high
  let below := g.binary m4 / g.decimal 1
  match within (g.decimal below), within (g.decimal (below + 1)) with
  | true, false => some below
  | false, true => some (below + 1)
  | false, false => none
  | true, true =>
    let twice := 2 * g.binary m4
    let middle := g.decimal (2 * below + 1)
    if twice < middle then some below
    else if middle < twice then some (below + 1)
    else some (if below % 2 = 0 then below else below + 1)

/-- The shortest decimal that rounds to the positive number `m · 2 ^ e`.
Seventeen digits always suffice. -/
def shortest (m : Nat) (e : Int) : Decimal :=
  let top := floorLog10 m e
  let grids := (List.range 17).map fun (n : Nat) => top - (n : Int)
  (grids.findSome? fun p => (neighbour? m e p).map fun d => ⟨d, p⟩).getD ⟨m, 0⟩

end Binary64

namespace Decimal

/-- The same number with no zero at the end of its digits. -/
def trimZeros : Nat → Decimal → Decimal
  | 0, x => x
  | fuel + 1, x =>
    if x.digits % 10 = 0 ∧ x.digits ≠ 0 then trimZeros fuel ⟨x.digits / 10, x.exponent + 1⟩
    else x

/-- How a decimal is laid out: the exponents of the leading digit from
`positionalFrom` to below `positionalBelow` are written without an exponent
mark, and an exponent has at least `exponentWidth` digits after its sign. -/
structure Layout where
  positionalFrom : Int
  positionalBelow : Int
  exponentWidth : Nat

/-- At least `width` decimal digits of a number. -/
def padded (width n : Nat) : List Char :=
  let ds := Nat.toDigits 10 n
  List.replicate (width - ds.length) '0' ++ ds

/-- The text of a positive decimal. -/
def text (layout : Layout) (x : Decimal) : List Char :=
  let x := x.trimZeros 20
  let ds := Nat.toDigits 10 x.digits
  let point : Int := ds.length + x.exponent
  let lead := point - 1
  if layout.positionalFrom ≤ lead ∧ lead < layout.positionalBelow then
    if point ≤ 0 then '0' :: '.' :: List.replicate (-point).toNat '0' ++ ds
    else if ds.length ≤ point then
      ds ++ List.replicate (point.toNat - ds.length) '0' ++ ['.', '0']
    else ds.take point.toNat ++ '.' :: ds.drop point.toNat
  else
    let fraction := match ds with
      | d :: e :: es => d :: '.' :: e :: es
      | _ => ds
    fraction ++ 'e' :: (if lead < 0 then '-' else '+') :: padded layout.exponentWidth lead.natAbs

end Decimal
end RuleTree
