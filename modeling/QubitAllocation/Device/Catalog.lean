import QubitAllocation.Device.Basic
import QubitAllocation.Text.Number

/-!
# Built-in devices

Two five-qubit devices and three families: `linear n`, `ring n` and `star n`. `Device.named` finds
a built-in device by its name; a family name is followed by the number of qubits.
-/

namespace QubitAllocation.Device

/-- A device with one register `q`, given by valid edges. -/
def single (size : Nat) (edges : List (Nat × Nat)) (valid : ∀ e ∈ edges, ValidEdge size e) :
    Device :=
  assemble size edges [⟨"q", size⟩] valid

/-- Five qubits, two triangles that share qubit 2. -/
def ibmqx2 : Device :=
  single 5 [(0, 1), (1, 2), (0, 2), (3, 2), (4, 2), (3, 4)] (by decide)

/-- Five qubits, the same couplings as `ibmqx2` in other directions. -/
def ibmqx4 : Device :=
  single 5 [(1, 0), (2, 0), (2, 1), (3, 2), (3, 4), (2, 4)] (by decide)

/-- The edges of a chain `0 → 1 → … → n - 1`. -/
def chainEdges (n : Nat) : List (Nat × Nat) :=
  (List.range (n - 1)).map fun i => (i, i + 1)

theorem chainEdges_valid (n : Nat) : ∀ e ∈ chainEdges n, ValidEdge n e := by
  intro e he
  obtain ⟨i, hi, rfl⟩ := List.mem_map.1 he
  have := List.mem_range.1 hi
  exact ⟨by simp only; omega, by simp only; omega, by simp⟩

/-- The chain `0 → 1 → … → n - 1`. -/
def linear (n : Nat) : Device := single n (chainEdges n) (chainEdges_valid n)

/-- The edges of a chain closed back onto qubit 0; two qubits stay a chain. -/
def ringEdges (n : Nat) : List (Nat × Nat) :=
  chainEdges n ++ if 2 < n then [(n - 1, 0)] else []

theorem ringEdges_valid (n : Nat) : ∀ e ∈ ringEdges n, ValidEdge n e := by
  intro e he
  rcases List.mem_append.1 he with he | he
  · exact chainEdges_valid n e he
  · split at he
    · rw [List.mem_singleton.1 he]
      exact ⟨by simp only; omega, by simp only; omega, by simp only; omega⟩
    · exact absurd he List.not_mem_nil

/-- The chain closed back onto qubit 0. -/
def ring (n : Nat) : Device := single n (ringEdges n) (ringEdges_valid n)

/-- The edges from qubit 0 to every other qubit. -/
def starEdges (n : Nat) : List (Nat × Nat) :=
  (List.range (n - 1)).map fun i => (0, i + 1)

theorem starEdges_valid (n : Nat) : ∀ e ∈ starEdges n, ValidEdge n e := by
  intro e he
  obtain ⟨i, hi, rfl⟩ := List.mem_map.1 he
  have := List.mem_range.1 hi
  exact ⟨by simp only; omega, by simp only; omega, by simp⟩

/-- Qubit 0 coupled with every other qubit. -/
def star (n : Nat) : Device := single n (starEdges n) (starEdges_valid n)

/-- The names of the built-in devices, families with a placeholder for their size. -/
def builtinNames : List String := ["ibmqx2", "ibmqx4", "linear<N>", "ring<N>", "star<N>"]

/-- The member of a family that a name gives, as in `ring6`. -/
def member? (name : List Char) (family : String) (device : Nat → Device) : Option Device :=
  if family.toList.isPrefixOf name then
    (Text.readWord? (name.drop family.length)).map device
  else none

/-- The built-in device of a name in lower case. -/
def lookup? (name : List Char) : Option Device :=
  if name = "ibmqx2".toList ∨ name = "qx2".toList then some ibmqx2
  else if name = "ibmqx4".toList ∨ name = "qx4".toList then some ibmqx4
  else member? name "linear" linear <|> member? name "ring" ring <|> member? name "star" star

/-- The built-in device called `name`, whatever the case of its ASCII letters. -/
def named (name : String) : Except DeviceError Device :=
  match lookup? (name.toList.map Char.toLower) with
  | some d => .ok d
  | none => .error (.unknownDevice name)

end QubitAllocation.Device
