import Yacl.Lib.Bits
import Yacl.Lib.StraightLine

/-!
# Bristol fashion circuits

`BFCircuit` of `yacl/io/circuit/bristol_fashion.h`. Wires have numbers: the input values lie on the
first wires, and the output values on the last ones, least significant bits first.

A circuit that is **well formed** for values of `w` bits is a straight line program (`Gate.instr`):
every gate reads wires that have a value, and gives a value to a new one. Its meaning is what solves
the equations of the gates for the inputs (`BFCircuit.Satisfies`), and `BFCircuit.outputValues` are
the numbers on the output wires.
-/

open Bits StraightLine

namespace Yacl.Io

/-- `BFCircuit::Op`. -/
inductive Op where
  | xor
  | and
  | inv
  | eq
  | eqw
  | mand
deriving DecidableEq, Repr

/-- `BFCircuit::Gate`. -/
structure Gate where
  /-- The input wires. -/
  iw : List ℕ
  /-- The output wires. -/
  ow : List ℕ
  op : Op
deriving DecidableEq, Repr

/-- `BFCircuit`: the gates in the order of their evaluation; the inputs are on the first wires and
the outputs on the last ones. -/
structure BFCircuit where
  /-- The number of wires. -/
  nw : ℕ
  /-- The number of input values. -/
  niv : ℕ
  /-- The numbers of wires of the input values. -/
  niw : List ℕ
  /-- The number of output values. -/
  nov : ℕ
  /-- The numbers of wires of the output values. -/
  now : List ℕ
  gates : List Gate
deriving DecidableEq, Repr

/-! ### Gates -/

namespace Gate

/-- The first input. -/
def in0 (gate : Gate) : ℕ := gate.iw.getD 0 0

/-- The second input. -/
def in1 (gate : Gate) : ℕ := gate.iw.getD 1 0

/-- The output wire. -/
def out (gate : Gate) : ℕ := gate.ow.getD 0 0

/-- The wires that a gate reads. The input of an `EQ` gate is a constant. -/
def wires (gate : Gate) : List ℕ :=
  match gate.op with
  | .xor | .and => [gate.in0, gate.in1]
  | .inv | .eqw => [gate.in0]
  | .eq | .mand => []

/-- What a gate puts on its output wire. -/
def value (gate : Gate) (val : ℕ → Bool) : Bool :=
  match gate.op with
  | .xor => val gate.in0 ^^ val gate.in1
  | .and => val gate.in0 && val gate.in1
  | .inv => !val gate.in0
  | .eq => decide (gate.in0 = 1)
  | .eqw => val gate.in0
  | .mand => false

/-- A gate as an equation for its output wire. -/
def instr (gate : Gate) : Instr ℕ Bool where
  out := gate.out
  reads := {a | a ∈ gate.wires}
  value := gate.value
  value_congr {f g} h := by
    simp only [Set.mem_ofPred_eq, wires] at h
    rw [value, value]
    cases hop : gate.op <;> simp only [hop] at h ⊢ <;> grind

/-- The number of inputs of an operation other than `MAND`. -/
def arity : Op → ℕ
  | .xor | .and => 2
  | .inv | .eq | .eqw | .mand => 1

/-- A gate with a single output that has the inputs of its operation. -/
structure WellShaped (nw : ℕ) (gate : Gate) : Prop where
  op_ne : gate.op ≠ .mand
  arity_eq : gate.iw.length = arity gate.op
  single : gate.ow.length = 1
  const : gate.op = .eq → gate.in0 ≤ 1
  lt : gate.out < nw

end Gate

/-! ### Circuits -/

namespace BFCircuit

/-- A circuit for input values of `w` bits and output values of at most `w` bits. -/
structure WellFormed (w : ℕ) (C : BFCircuit) : Prop where
  niw_eq : C.niw = List.replicate C.niv w
  nov_eq : C.now.length = C.nov
  width_le : ∀ n ∈ C.now, n ≤ w
  inputs_le : w * C.niv ≤ C.nw
  outputs_le : C.now.sum ≤ C.nw
  nw_lt : C.nw < 2 ^ 32
  gates : ∀ gate ∈ C.gates, gate.WellShaped C.nw
  ordered : Ordered {k | k < w * C.niv} (C.gates.map Gate.instr)
  outputs : ∀ k < C.nw, C.nw - C.now.sum ≤ k →
    k ∈ defined {k | k < w * C.niv} (C.gates.map Gate.instr)

/-- Values for all wires that agree with the inputs and with the gates. -/
structure Satisfies {w : ℕ} (C : BFCircuit) (inputs : List (BitVec w)) (val : ℕ → Bool) : Prop where
  input : ∀ v x, inputs[v]? = some x → ∀ j < w, val (w * v + j) = x.getLsbD j
  gate : ∀ gate ∈ C.gates, val gate.out = gate.value val

/-- The number of output value `v`, whose wires are followed by those of the later ones. -/
def outputValue (C : BFCircuit) (w : ℕ) (val : ℕ → Bool) (v : ℕ) : BitVec w :=
  bitsOf w fun j => decide (j < C.now.getD v 0) && val (C.nw - (C.now.drop v).sum + j)

/-- The numbers of all output values. -/
def outputValues (C : BFCircuit) (w : ℕ) (val : ℕ → Bool) : List (BitVec w) :=
  (List.range C.nov).map (C.outputValue w val)

theorem satisfies_iff {w : ℕ} {C : BFCircuit} {inputs : List (BitVec w)} {val : ℕ → Bool} :
    C.Satisfies inputs val ↔
      (∀ v x, inputs[v]? = some x → ∀ j < w, val (w * v + j) = x.getLsbD j) ∧
        Solves val (C.gates.map Gate.instr) := by
  constructor
  · rintro ⟨hinput, hgate⟩
    refine ⟨hinput, fun c hc => ?_⟩
    obtain ⟨gate, hgates, rfl⟩ := List.mem_map.mp hc
    exact hgate gate hgates
  · rintro ⟨hinput, hsolves⟩
    exact ⟨hinput, fun gate hgate => hsolves gate.instr (List.mem_map_of_mem hgate)⟩

end BFCircuit

end Yacl.Io
