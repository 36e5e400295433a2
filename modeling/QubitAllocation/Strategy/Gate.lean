import QubitAllocation.Device.Route
import QubitAllocation.Plan.Solution

/-!
# The gate for a pair

Under a mapping, a pair on a native edge gets a plain gate, a pair on an edge of the other
direction a reversed one, and a pair two hops apart a gate over the qubit between them.
-/

namespace QubitAllocation.Gate

/-- The gate for a pair whose qubits are on `u` and `v`. -/
def between (d : Device) (p : Pair) (u v : Nat) : Except AllocError Operation :=
  if d.hasEdge u v then .ok (.cnot p.control p.target)
  else if d.hasEdge v u then .ok (.rev p.control p.target)
  else do
    let route ← AllocError.ofDevice (d.route u v)
    match route with
    | [_, bridge, _] => .ok (.longCnot p.control p.target bridge)
    | _ => .error (.outOfBridgeReach u v (route.length - 1))

/-- The gate for a pair under a mapping. -/
def under (d : Device) (mapping : List Nat) (p : Pair) : Except AllocError Operation := do
  let u ← AllocError.lookup mapping[p.control]?
  let v ← AllocError.lookup mapping[p.target]?
  between d p u v

/-- The gate for a pair whose qubits are on coupled physical qubits. -/
def adjacent (d : Device) (mapping : List Nat) (p : Pair) : Except AllocError Operation := do
  let u ← AllocError.lookup mapping[p.control]?
  let v ← AllocError.lookup mapping[p.target]?
  if d.hasEdge u v then .ok (.cnot p.control p.target)
  else if d.hasEdge v u then .ok (.rev p.control p.target)
  else .error (.notAdjacent u v)

end QubitAllocation.Gate
