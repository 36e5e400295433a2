import QubitAllocation.Device.Basic
import QubitAllocation.Search
import QubitAllocation.Text.Number

/-!
# Hops and routes

The hop distance of two qubits is the least number of couplings between them, directions ignored.
`Device.route` is a shortest route; among several it is the one that a search from its start finds
first, which goes through the neighbours of each qubit in the order in which they are listed.
-/

namespace QubitAllocation.Device

/-- The hop distance from `u` to every qubit; empty if `u` is no qubit of the device. -/
def hops (d : Device) (u : Nat) : Array (Option Nat) :=
  (Search.depths? d.size id d.neighbours u).getD #[]

/-- The entry of a hop table. -/
def hopsAt (table : Array (Option Nat)) (v : Nat) : Option Nat := (table[v]?).join

/-- The hop distance from `u` to `v`. -/
def distance (d : Device) (u v : Nat) : Option Nat := hopsAt (d.hops u) v

/-- The number that stands for "unreachable" where distances are added or listed. -/
def unreachableHops : Nat := Text.wordMax

/-- The hop tables of all qubits. -/
def hopTables (d : Device) : Array (Array (Option Nat)) :=
  (Array.range d.size).map d.hops

/-- An entry of all hop tables. -/
def hopsBetween (tables : Array (Array (Option Nat))) (u v : Nat) : Option Nat :=
  hopsAt (tables.getD u #[]) v

/-- All hop distances, row by row. -/
def distanceMatrix (d : Device) : List (List Nat) :=
  d.hopTables.toList.map fun row => row.toList.map fun cell => cell.getD unreachableHops

/-- A shortest route from `u` to `v`, both ends included: the search from `u` stops at `v`, and the
route is followed back from there. -/
def route (d : Device) (u v : Nat) : Except DeviceError (List Nat) :=
  if d.size ≤ u ∨ d.size ≤ v then .error (.unreachable u v)
  else if u = v then .ok [u]
  else
    match Search.run d.size id d.neighbours (fun w => w == v) u with
    | some (true, found) => .ok ((Search.retrace found.origins d.size v).map Prod.fst ++ [v])
    | some (false, _) => .error (.unreachable u v)
    | none => .error .outOfRange

/-- Every qubit can be reached from every other one, directions ignored. -/
def isConnected (d : Device) : Bool :=
  d.size ≤ 1 || (d.hops 0).all Option.isSome

end QubitAllocation.Device
