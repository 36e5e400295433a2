import QubitAllocation.Allocator
import QubitAllocation.Decimal.Quotient
import QubitAllocation.Json.Printer
import QubitAllocation.Json.Records

/-!
# Reports of allocations

An allocation as a JSON object. A schedule and statistics are left out where there are none; the
price of a replay that was not asked for is `null`.
-/

namespace QubitAllocation

open JsonValue

/-- The mean number of swaps in a chain, zero without chains. -/
def PathGuided.Stats.mean (s : PathGuided.Stats) : Decimal.Binary :=
  if s.chains = 0 then ⟨0, 0⟩ else Decimal.nearest s.chainSwaps s.chains

/-- The statistics of a path-guided run as an object. -/
def PathGuided.Stats.toJson (s : PathGuided.Stats) : JsonValue :=
  let (whole, fraction) := s.mean.shortest
  record
    [("total_swap_cost", nat s.totalSwapCost), ("serial_swaps_count", nat s.chains),
      ("mean_swaps_size", .number ⟨false, whole, fraction, none⟩)]

/-- The allocation as an object. -/
def Allocation.toJson (a : Allocation) : JsonValue :=
  record <|
    [("allocator", JsonValue.text a.allocator.name), ("solution", a.solution.toJson)] ++
      (a.schedule.map fun s => ("schedule", .array (s.map nat))).toList ++
      (a.stats.map fun s => ("stats", s.toJson)).toList ++
      [("verified_cost", (a.verifiedCost.map nat).getD .null)]

end QubitAllocation
