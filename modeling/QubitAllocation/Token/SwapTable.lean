import QubitAllocation.Device.Route
import QubitAllocation.Token.Arrangement

/-!
# Exact token swapping

Tokens sit on the qubits of a device, one on each, and a swap exchanges the tokens of two coupled
qubits. A `SwapTable` holds the least number of swaps from the identity to every arrangement, and
the last of these swaps. A question about two arrangements is turned into one about the identity by
renaming tokens after their places in the first, which changes neither the swaps nor their number.
-/

namespace QubitAllocation

/-- The least number of swaps to each arrangement of a device's tokens, by rank. `moves` lists the
exchanges that the device allows; an origin has the rank of the arrangement before the last swap and
the place of this swap among the moves. -/
structure SwapTable where
  size : Nat
  moves : List (Nat × Nat)
  depths : Array (Option Nat)
  origins : Array (Option (Nat × Nat))

namespace SwapTable

/-- The largest device for which all arrangements are tabulated. -/
def maxSize : Nat := 9

/-- The table of no device; it holds no arrangement. -/
def empty : SwapTable := ⟨0, [], #[], #[]⟩

/-- The arrangements one swap away. -/
def successors (moves : List (Nat × Nat)) (values : List Nat) : List (List Nat) :=
  moves.map fun m => Arrangement.exchange values m.1 m.2

/-- The number of cells in the table of `n` qubits. Without qubits no arrangement is listed, also
not the empty one. -/
def cells (n : Nat) : Nat := if n = 0 then 0 else Arrangement.orders n

/-- The table of a device, by a search from the identity over all arrangements. -/
def build (d : Device) : Except DeviceError SwapTable :=
  if maxSize < d.size then .error (.tooLarge d.size maxSize)
  else
    match Search.run (cells d.size) Arrangement.rank (successors d.couplings) (fun _ => false)
        (Arrangement.identity d.size) with
    | some (_, found) => .ok ⟨d.size, d.couplings, found.depths, found.origins⟩
    | none => .error .outOfRange

/-- The table and outcome after it is set up anew for a device: a device that is too large leaves
it as it was, and one without qubits leaves the empty table. -/
def rebuild (t : SwapTable) (d : Device) : SwapTable × Except DeviceError Unit :=
  match build d with
  | .ok t' => (t', .ok ())
  | .error .outOfRange => (empty, .error .outOfRange)
  | .error e => (t, .error e)

/-- The number of arrangements in the table. -/
def count (t : SwapTable) : Nat := t.depths.size

/-- Refuse a list that is no arrangement of the table's tokens; the length is checked first. -/
def check (t : SwapTable) (values : List Nat) : Except DeviceError Unit :=
  if values.length ≠ t.size then .error (.sizeMismatch t.size values.length)
  else if Arrangement.isPermutation values then .ok ()
  else .error (.invalidPermutation t.size values)

/-- The lexicographic rank of an arrangement. -/
def idOf (t : SwapTable) (values : List Nat) : Except DeviceError Nat := do
  t.check values
  return Arrangement.rank values

/-- The second arrangement, with each token renamed after its place in the first. -/
def relabel (source target : List Nat) : List Nat :=
  target.map fun token => source.idxOf token

/-- The entry of an arrangement; the outer `none` says that the table has no such place. -/
def entry? (t : SwapTable) (values : List Nat) : Option (Option Nat) :=
  t.depths[Arrangement.rank values]?

/-- The least number of swaps between two arrangements. -/
def distance? (t : SwapTable) (source target : List Nat) : Option Nat :=
  (t.entry? (relabel source target)).join

/-- The least number of swaps from `source` to `target`. -/
def swapCount (t : SwapTable) (source target : List Nat) : Except DeviceError Nat := do
  t.check source
  t.check target
  match t.entry? (relabel source target) with
  | some (some k) => .ok k
  | some none => .error (.permutationUnreachable (relabel source target))
  | none => .error .outOfRange

/-- A shortest list of swaps from `source` to `target`, followed back from its end. -/
def find (t : SwapTable) (source target : List Nat) : Except DeviceError (List (Nat × Nat)) := do
  let k ← t.swapCount source target
  let steps := Search.retrace t.origins k (Arrangement.rank (relabel source target))
  return steps.filterMap fun step => t.moves[step.2]?

end SwapTable

end QubitAllocation
