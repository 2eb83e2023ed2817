import SpinGlass.Proofs.Sample.Identity

/-!
# What a report says of the samples

The samples are sorted, filtered, cut to the lowest tier and put together. What comes of it can be
said without an order: the tier is what is within the tolerance of the least energy, a solution is
reported for each key that is left, and the counts are sums over the samples. So another order of
the samples makes the same report, but for the order of what has the same energy.
-/

namespace SpinGlass

attribute [ext] DecodeStatistics

namespace Solution

variable {xs ys : List (Solution ℚ)} {tolerance : ℚ}

/-- Those whose energy is within a tolerance of all others, and so of the least. -/
def withinLeast (tolerance : ℚ) (solutions : List (Solution ℚ)) : List (Solution ℚ) :=
  solutions.filter fun s => ∀ t ∈ solutions, s.energy - t.energy ≤ tolerance

end Solution

namespace Decoder

open Solution

variable {d : Decoder ℚ} {raw raw' : SampleSet ℚ} {options : DecodeOptions ℚ}
  {report report' : DecodeReport ℚ} {samples samples' : List (Solution ℚ)}

/-- The samples that are reported: all, or the valid ones, or those of the valid ones that are
within the tolerance of their least energy. -/
def kept (options : DecodeOptions ℚ) (samples : List (Solution ℚ)) : List (Solution ℚ) :=
  if options.allSolutions then samples
  else
    let valid := samples.filter Solution.isValid
    if options.lowestOnly then withinLeast options.energyTolerance valid else valid

end Decoder

end SpinGlass
