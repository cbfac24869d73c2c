import PayyRollup.InsertCircuit
import PayyRollup.UtxoCircuit

/-!
Recursive aggregation of proofs. The succinct verifier of a snark yields an accumulator
that stands for that snark, and the accumulators read from its instances only when its
protocol was compiled with their indices. The circuits fold the accumulators and expose
the limbs of the result; the verifier itself is a parameter.
-/
namespace PayyRollup.Aggregation

open ScalarField ConstraintProgram Layouter Chips Notes UtxoCircuit InsertCircuit

inductive CircuitKind
  | signature
  | points
  | utxo
  | aggUtxo
  | aggAgg
  | burn
  | burnTo
  | mint
  deriving DecidableEq

/-- How a protocol is compiled: the rows of each instance column, and where the instances
carry an accumulator. -/
structure Config where
  numInstance : List ℕ
  accumulatorIndices : Option (List (ℕ × ℕ))
  deriving DecidableEq

def Config.kzg : Config := ⟨[], none⟩

def Config.withNumInstance (self : Config) (numInstance : List ℕ) : Config :=
  { self with numInstance }

structure Protocol where
  vk : CircuitKind
  config : Config
  deriving DecidableEq

def compile (vk : CircuitKind) (config : Config) : Protocol := ⟨vk, config⟩

structure Snark (Proof : Type) where
  protocol : Protocol
  instances : List (List Fr)
  proof : Proof

variable {Proof Accumulator : Type}

namespace Snark

/-- The protocol is compiled with the number of instances alone. -/
def fromWitness (vk : CircuitKind) (instances : List (List Fr)) (proof : Proof) :
    Snark Proof where
  protocol := compile vk (Config.kzg.withNumInstance (instances.map List.length))
  instances := instances
  proof := proof

/-- The first instance column; every circuit here has one. -/
def column (self : Snark Proof) : List Fr := self.instances.headD []

/-- A snark of a circuit whose one instance column has the given number of rows. -/
structure Shaped (s : Snark Proof) (vk : CircuitKind) (rows : ℕ) : Prop where
  protocol_eq : s.protocol = compile vk (Config.kzg.withNumInstance [rows])
  instances_eq : s.instances = [s.column]
  column_length : s.column.length = rows

end Snark

/-- The accumulation scheme of the external verifier. -/
structure SnarkVerifier (Proof Accumulator : Type) where
  succinctVerify : Protocol → List (List Fr) → Proof → Accumulator
  read : List Fr → Accumulator
  limbs : Accumulator → List Fr
  create : List Accumulator → Accumulator × Proof
  fold : List Accumulator → Proof → Option Accumulator

namespace SnarkVerifier

variable (V : SnarkVerifier Proof Accumulator)

/-- The accumulator that stands for a snark. -/
def own (s : Snark Proof) : Accumulator := V.succinctVerify s.protocol s.instances s.proof

/-- The accumulators a verification of the snark yields. -/
def accumulators (s : Snark Proof) : List Accumulator :=
  V.own s :: match s.protocol.config.accumulatorIndices with
    | none => []
    | some indices => [V.read (indices.map fun i => ((s.instances.getD i.1 []).getD i.2 0))]

theorem accumulators_fromWitness (vk : CircuitKind) (instances : List (List Fr))
    (proof : Proof) :
    V.accumulators (Snark.fromWitness vk instances proof) =
      [V.own (Snark.fromWitness vk instances proof)] := rfl

theorem accumulators_shaped (s : Snark Proof) (vk : CircuitKind) (rows : ℕ)
    (h : s.Shaped vk rows) : V.accumulators s = [V.own s] := by
  unfold accumulators
  rw [h.protocol_eq]
  rfl

/-- The limbs and the folding proof of the native accumulation. -/
def accumulatorNative (snarks : List (Snark Proof)) : List Fr × Proof :=
  let result := V.create (snarks.flatMap V.accumulators)
  (V.limbs result.1, result.2)

/-- The aggregation chip: a folding proof that does not fold leaves no assignment. -/
def aggregate (snarks : List (Snark Proof)) (asProof : Proof) :
    Layouter Fr (List Fr × List (List (List Fr))) :=
  match V.fold (snarks.flatMap V.accumulators) asProof with
  | none => do
      constrainZero (1 : Fr)
      return ([], [])
  | some acc => return (V.limbs acc, snarks.map Snark.instances)

theorem sat_aggregate (O : HashOracle Fr) (inst : List Fr) (snarks : List (Snark Proof))
    (asProof : Proof) (out : List Fr × List (List (List Fr))) :
    Sat O inst (V.aggregate snarks asProof) out ↔
      ∃ acc, V.fold (snarks.flatMap V.accumulators) asProof = some acc ∧
        out = (V.limbs acc, snarks.map Snark.instances) := by
  unfold aggregate
  cases hfold : V.fold (snarks.flatMap V.accumulators) asProof with
  | none => simp
  | some acc => simp [eq_comm]

theorem run_aggregate (hash : List Fr → Fr) (inst : List Fr) (snarks : List (Snark Proof))
    (asProof : Proof) :
    run hash inst (V.aggregate snarks asProof) =
      (V.fold (snarks.flatMap V.accumulators) asProof).map fun acc =>
        (V.limbs acc, snarks.map Snark.instances) := by
  unfold aggregate
  cases V.fold (snarks.flatMap V.accumulators) asProof with
  | none => simp
  | some acc => rfl

end SnarkVerifier

/-- Three UTXO proofs and the inserts of their leaves. -/
structure AggregateUtxo (Proof : Type) (N D L : ℕ) where
  utxo : Vector (Snark Proof) N
  insert : Batch L D
  aggInstances : List Fr
  proof : Proof

structure AggregateAgg (Proof : Type) (N : ℕ) where
  aggregates : Vector (Snark Proof) N
  aggInstances : List Element
  proof : Proof

/-- The cell of a row of an instance column. -/
def cellAt (column : List Fr) (row : ℕ) : Fr := column.getD row 0

namespace AggregateUtxo

variable {N D L : ℕ} (V : SnarkVerifier Proof Accumulator) (hash : List Fr → Fr)

def new (utxo : Vector (Snark Proof) N) (insert : Batch L D) : AggregateUtxo Proof N D L :=
  let native := V.accumulatorNative utxo.toList
  { utxo, insert, aggInstances := native.1, proof := native.2 }

/-- The root, mint or burn hash and value of a UTXO proof pass through. -/
def enforceSnark (counter : ℕ) (snark : List (List Fr) × ℕ) : Layouter Fr Unit := do
  let column := snark.1.headD []
  let base := counter + snark.2 * 3
  constrainInstance (cellAt column 0) base
  constrainInstance (cellAt column 1) (base + 1)
  constrainInstance (cellAt column 2) (base + 2)

def enforceConstraints (self : AggregateUtxo Proof N D L) :
    Layouter Fr BatchConstraintCells := do
  let (aggCells, utxoSnarks) ← V.aggregate self.utxo.toList self.proof
  let insert ← self.insert.enforceConstraints hash
  forAll (fun cell => constrainInstance cell.1 cell.2) aggCells.zipIdx
  let counter := aggCells.length
  constrainInstance insert.oldRoot counter
  constrainInstance insert.newRoot (counter + 1)
  forAll (enforceSnark (counter + 2)) utxoSnarks.zipIdx
  let utxoLeafs := utxoSnarks.flatMap fun snark => (snark.headD []).drop 3
  forAll (fun leaf => constrainEqual leaf.1 leaf.2) ((utxoLeafs.zip insert.leafs).take L)
  return insert

def utxoPublicInputs (self : AggregateUtxo Proof N D L) : List Fr :=
  self.utxo.toList.flatMap fun snark =>
    [cellAt snark.column 0, cellAt snark.column 1, cellAt snark.column 2]

def publicInputs (self : AggregateUtxo Proof N D L) : List Fr :=
  self.aggInstances ++ [self.insert.oldRoot hash, self.insert.newRoot hash] ++
    self.utxoPublicInputs

end AggregateUtxo

namespace AggregateAgg

variable {N : ℕ} (V : SnarkVerifier Proof Accumulator)

def new (aggregates : Vector (Snark Proof) N) : AggregateAgg Proof N :=
  let native := V.accumulatorNative aggregates.toList
  { aggregates, aggInstances := native.1.map Element.fromBase, proof := native.2 }

/-- The chain of roots; each aggregate passes on what follows its roots. -/
def enforceRoots (lastNewRoot : Fr) : List (List (List Fr)) → Layouter Fr (Fr × List Fr)
  | [] => return (lastNewRoot, [])
  | agg :: rest => do
      let column := agg.headD []
      constrainEqual lastNewRoot (cellAt column 12)
      let last ← enforceRoots (cellAt column 13) rest
      return (last.1, column.drop 14 ++ last.2)

def enforceConstraints (self : AggregateAgg Proof N) : Layouter Fr Unit := do
  let (aggCells, aggregates) ← V.aggregate self.aggregates.toList self.proof
  forAll (fun cell => constrainInstance cell.1 cell.2) aggCells.zipIdx
  let oldRoot := cellAt ((aggregates.headD []).headD []) 12
  let last ← enforceRoots oldRoot aggregates
  constrainInstance oldRoot 12
  constrainInstance last.1 13
  forAll (fun root => constrainInstance root.1 (14 + root.2)) last.2.zipIdx

def oldRoot (self : AggregateAgg Proof N) : Fr :=
  (self.aggregates.toList.head?.map fun snark => cellAt snark.column 12).getD 0

def newRoot (self : AggregateAgg Proof N) : Fr :=
  (self.aggregates.toList.getLast?.map fun snark => cellAt snark.column 13).getD 0

def utxoValues (self : AggregateAgg Proof N) : List Fr :=
  self.aggregates.toList.flatMap fun snark => snark.column.drop 14

def publicInputs (self : AggregateAgg Proof N) : List Fr :=
  self.aggInstances.map Element.toBase ++ [self.oldRoot, self.newRoot] ++ self.utxoValues

end AggregateAgg

section Laws

variable (V : SnarkVerifier Proof Accumulator) (O : HashOracle Fr) (inst : List Fr)

theorem sat_enforceSnark (counter : ℕ) (snark : List (List Fr) × ℕ) :
    Sat O inst (AggregateUtxo.enforceSnark counter snark) () ↔
      ∀ j < 3, inst[counter + snark.2 * 3 + j]? = some (cellAt (snark.1.headD []) j) := by
  simp only [AggregateUtxo.enforceSnark, sat_bind, sat_constrainInstance]
  constructor
  · rintro ⟨⟨⟩, h0, ⟨⟩, h1, h2⟩ j hj
    obtain rfl | rfl | rfl : j = 0 ∨ j = 1 ∨ j = 2 := by omega
    · exact h0
    · exact h1
    · exact h2
  · intro h
    exact ⟨(), h 0 (by omega), (), h 1 (by omega), h 2 (by omega)⟩

/-- What an aggregate of UTXO proofs forces on its witness and instances. -/
structure AggregatesUtxo {N D L : ℕ} (circuit : AggregateUtxo Proof N D L)
    (cells : BatchConstraintCells) (acc : Accumulator) : Prop where
  fold : V.fold (circuit.utxo.toList.flatMap V.accumulators) circuit.proof = some acc
  batch : Sat O inst (circuit.insert.enforceConstraints O.hash) cells
  limb : ∀ cell ∈ (V.limbs acc).zipIdx, inst[cell.2]? = some cell.1
  old_root : inst[(V.limbs acc).length]? = some cells.oldRoot
  new_root : inst[(V.limbs acc).length + 1]? = some cells.newRoot
  value : ∀ snark ∈ (circuit.utxo.toList.map Snark.instances).zipIdx, ∀ j < 3,
    inst[(V.limbs acc).length + 2 + snark.2 * 3 + j]? = some (cellAt (snark.1.headD []) j)
  leaf : ∀ leaf ∈ (((circuit.utxo.toList.map Snark.instances).flatMap fun snark =>
    (snark.headD []).drop 3).zip cells.leafs).take L, leaf.1 = leaf.2

theorem sat_aggregateUtxo {N D L : ℕ} (self : AggregateUtxo Proof N D L)
    (cells : BatchConstraintCells) :
    Sat O inst (self.enforceConstraints V O.hash) cells ↔
      ∃ acc, AggregatesUtxo V O inst self cells acc := by
  simp only [AggregateUtxo.enforceConstraints, sat_bind, V.sat_aggregate, sat_forAll,
    sat_constrainInstance, sat_enforceSnark, sat_constrainEqual, sat_pure]
  constructor
  · rintro ⟨out, ⟨acc, hfold, rfl⟩, batch, hbatch, ⟨⟩, hlimb, ⟨⟩, hold, ⟨⟩, hnew, ⟨⟩, hvalue,
      ⟨⟩, hleaf, rfl⟩
    exact ⟨acc, hfold, hbatch, hlimb, hold, hnew, hvalue, hleaf⟩
  · rintro ⟨acc, h⟩
    exact ⟨_, ⟨acc, h.fold, rfl⟩, cells, h.batch, (), h.limb, (), h.old_root, (), h.new_root,
      (), h.value, (), h.leaf, rfl⟩

/-- The chain of roots over instance columns: each new root is the next old root. -/
def RootsChained (lastNewRoot : Fr) : List (List Fr) → Fr → Prop
  | [], last => last = lastNewRoot
  | column :: rest, last =>
      lastNewRoot = cellAt column 12 ∧ RootsChained (cellAt column 13) rest last

theorem sat_enforceRoots (last : Fr) (aggregates : List (List (List Fr)))
    (out : Fr × List Fr) :
    Sat O inst (AggregateAgg.enforceRoots last aggregates) out ↔
      RootsChained last (aggregates.map fun agg => agg.headD []) out.1 ∧
        out.2 = (aggregates.map fun agg => agg.headD []).flatMap fun column =>
          column.drop 14 := by
  induction aggregates generalizing last out with
  | nil =>
    obtain ⟨r, vs⟩ := out
    simp [AggregateAgg.enforceRoots, RootsChained, Prod.ext_iff, eq_comm]
  | cons agg rest ih =>
    simp only [AggregateAgg.enforceRoots, sat_bind, sat_constrainEqual, sat_pure, ih,
      List.map_cons, RootsChained, List.flatMap_cons]
    constructor
    · rintro ⟨⟨⟩, heq, mid, ⟨hchain, hvals⟩, rfl⟩
      exact ⟨⟨heq, hchain⟩, by rw [hvals]⟩
    · rintro ⟨⟨heq, hchain⟩, hvals⟩
      let passed := (rest.map fun agg => agg.headD []).flatMap fun column => column.drop 14
      exact ⟨(), heq, (out.1, passed), ⟨hchain, rfl⟩, Prod.ext rfl hvals.symm⟩

/-- What an aggregate of aggregates forces on its witness and instances. -/
structure AggregatesAgg {N : ℕ} (circuit : AggregateAgg Proof N) (acc : Accumulator) : Prop where
  fold : V.fold (circuit.aggregates.toList.flatMap V.accumulators) circuit.proof = some acc
  limb : ∀ cell ∈ (V.limbs acc).zipIdx, inst[cell.2]? = some cell.1
  root : ∃ oldRoot newRoot, inst[12]? = some oldRoot ∧ inst[13]? = some newRoot ∧
    oldRoot = cellAt ((circuit.aggregates.toList.map Snark.column).headD []) 12 ∧
    RootsChained oldRoot (circuit.aggregates.toList.map Snark.column) newRoot
  value : ∀ v ∈ ((circuit.aggregates.toList.map Snark.column).flatMap fun column =>
    column.drop 14).zipIdx, inst[14 + v.2]? = some v.1

theorem sat_aggregateAgg {N : ℕ} (self : AggregateAgg Proof N) :
    Sat O inst (self.enforceConstraints V) () ↔ ∃ acc, AggregatesAgg V inst self acc := by
  have hcolumns : ((self.aggregates.toList.map Snark.instances).map fun agg => agg.headD []) =
      self.aggregates.toList.map Snark.column := by
    rw [List.map_map]
    rfl
  have hhead : ((self.aggregates.toList.map Snark.instances).headD []).headD [] =
      (self.aggregates.toList.map Snark.column).headD [] := by
    rw [← hcolumns]
    cases self.aggregates.toList <;> rfl
  simp only [AggregateAgg.enforceConstraints, sat_bind, V.sat_aggregate, sat_forAll,
    sat_constrainInstance, sat_enforceRoots]
  constructor
  · rintro ⟨out, ⟨acc, hfold, rfl⟩, ⟨⟩, hlimb, last, ⟨hchain, hvals⟩, ⟨⟩, hold, ⟨⟩, hnew,
      hvalue⟩
    rw [hcolumns] at hchain hvals
    rw [hhead] at hchain hold
    rw [hvals] at hvalue
    exact ⟨acc, hfold, hlimb, ⟨_, last.1, hold, hnew, rfl, hchain⟩, hvalue⟩
  · rintro ⟨acc, hfold, hlimb, ⟨oldRoot, newRoot, hold, hnew, hroot, hchain⟩, hvalue⟩
    subst hroot
    refine ⟨_, ⟨acc, hfold, rfl⟩, (), hlimb, (newRoot, _), ⟨?_, rfl⟩, (), ?_, (), hnew, ?_⟩
    · rw [hcolumns, hhead]
      exact hchain
    · rw [hhead]
      exact hold
    · rw [hcolumns]
      exact hvalue

end Laws
end PayyRollup.Aggregation
