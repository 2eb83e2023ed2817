/-!
# Solution numbers

The bits of a solution, most significant first, spell a natural number of any size. It is held in
64-bit limbs and printed in decimal.
-/

namespace SpinGlass

/-- A natural number in little-endian limbs. -/
structure SolutionId where
  /-- The limbs, the most significant one last and not zero. -/
  limbs : List UInt64
  deriving DecidableEq

namespace SolutionId

/-- Doubles a number and adds `carry`. -/
def shiftIn (carry : UInt64) : List UInt64 → List UInt64
  | [] => if carry = 0 then [] else [carry]
  | limb :: rest => ((limb <<< 1) ||| carry) :: shiftIn (limb >>> 63) rest

/-- The number that bits spell, the most significant bit first. -/
def ofBits (bits : List Bool) : SolutionId :=
  ⟨bits.foldl (fun limbs b => shiftIn (if b then 1 else 0) limbs) []⟩

/-- Whether the number is zero. -/
def isZero (id : SolutionId) : Bool := id.limbs.isEmpty

/-- The power of ten by which the digits are taken off, nineteen at a time. -/
def chunk : Nat := 10000000000000000000

/-- Divides a number by `chunk`: the limbs of the quotient, and the remainder. -/
def divideChunk : List UInt64 → List UInt64 × Nat
  | [] => ([], 0)
  | limb :: rest =>
    let (quotient, above) := divideChunk rest
    let part := above * UInt64.size + limb.toNat
    (UInt64.ofNat (part / chunk) :: quotient, part % chunk)

/-- Drops the zero limbs at the top. -/
def trim : List UInt64 → List UInt64
  | [] => []
  | limb :: rest =>
    match trim rest with
    | [] => if limb = 0 then [] else [limb]
    | rest => limb :: rest

/-- The remainders of repeated division by `chunk`, the least significant first. Each division
takes more than 63 bits away, so twice as many steps as limbs are enough. -/
def chunks : Nat → List UInt64 → List Nat
  | 0, _ => []
  | _, [] => []
  | fuel + 1, limbs =>
    let (quotient, remainder) := divideChunk limbs
    remainder :: chunks fuel (trim quotient)

/-- A remainder with all its nineteen digits. -/
def paddedText (n : Nat) : String :=
  let digits := Nat.toDigits 10 n
  String.ofList (List.replicate (19 - digits.length) '0' ++ digits)

/-- The number in decimal. -/
def text (id : SolutionId) : String :=
  match (chunks (2 * id.limbs.length) id.limbs).reverse with
  | [] => "0"
  | first :: rest => toString first ++ String.join (rest.map paddedText)

/-- The order of numbers: more limbs make the larger number, and of equally many the highest that
differs decides. -/
def compare (a b : SolutionId) : Ordering :=
  (Ord.compare a.limbs.length b.limbs.length).then (Ord.compare a.limbs.reverse b.limbs.reverse)

instance : Ord SolutionId := ⟨compare⟩

end SolutionId

end SpinGlass
