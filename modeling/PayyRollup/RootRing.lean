import PayyRollup.RecordedRoots
import PayyRollup.RingBuffers

/-!
The recorded roots as a ring. The contract writes its roots round an array of sixty-four
slots, and a block is accepted only when the root of each of its transactions is found by a
scan of the whole array. The fourth version also accepts the root zero, which padding
carries. The scan is read here against the list of all roots added so far.
-/
namespace PayyRollup.RootRing

open ScalarField RollupState RecordedRoots RingBuffers

variable {τ : Type}

/-- The inner loop of the scan, from the next slot on. -/
def scanSlots (hit : Element → Element → Bool) (hash : Element) : List Element → Bool
  | [] => false
  | slot :: slots => if hit hash slot then true else scanSlots hit hash slots

/-- The last loop, which returns at the first entry that was not found. -/
def allFound : List Bool → Bool
  | [] => true
  | result :: results => if result = false then false else allFound results

def slotsOf (s : Rollup τ) : List Element := (List.finRange 64).map s.rootHashes

def containsRootHashesBy (hit : Element → Element → Bool) (s : Rollup τ)
    (hashes : Vector Element 6) : Bool :=
  allFound (hashes.toList.map fun hash => scanSlots hit hash (slotsOf s))

/-- The test of `RollupV4`, which overrides that of `RollupV1`. -/
def containsRootHashes (s : Rollup τ) (hashes : Vector Element 6) : Bool :=
  containsRootHashesBy (fun hash slot => hash = slot ∨ hash = 0#256) s hashes

/-- The contract before its first root. -/
def unused (s : Rollup τ) : Rollup τ :=
  { s with rootHashes := fun _ => 0#256, nextRootHashIndex := 0 }

def addRootHashes (s : Rollup τ) (roots : List Element) : Rollup τ :=
  roots.foldl Rollup.addRootHash s

theorem scanSlots_eq_true (hit : Element → Element → Bool) (hash : Element)
    (slots : List Element) :
    scanSlots hit hash slots = true ↔ ∃ slot ∈ slots, hit hash slot = true := by
  induction slots with
  | nil => simp [scanSlots]
  | cons slot slots ih =>
    by_cases hhit : hit hash slot = true
    · simp [scanSlots, hhit]
    · simp [scanSlots, hhit, ih]

theorem allFound_eq_true (results : List Bool) :
    allFound results = true ↔ ∀ result ∈ results, result = true := by
  induction results with
  | nil => simp [allFound]
  | cons result results ih => cases result <;> simp [allFound, ih]

theorem containsRootHashesBy_eq_true (hit : Element → Element → Bool) (s : Rollup τ)
    (hashes : Vector Element 6) :
    containsRootHashesBy hit s hashes = true ↔
      ∀ hash ∈ hashes.toList, ∃ j, hit hash (s.rootHashes j) = true := by
  unfold containsRootHashesBy slotsOf
  rw [allFound_eq_true]
  simp only [List.mem_map, forall_exists_index, and_imp, forall_apply_eq_imp_iff₂,
    scanSlots_eq_true, List.mem_finRange, true_and, exists_exists_eq_and]

/-- The scan agrees with the test that the calls of the contract make. -/
theorem containsRootHashes_eq (s : Rollup τ) (hashes : Vector Element 6) :
    containsRootHashes s hashes = s.containsRootHashes hashes.toList := by
  rw [Bool.eq_iff_iff]
  unfold containsRootHashes Rollup.containsRootHashes
  rw [containsRootHashesBy_eq_true, List.all_eq_true]
  simp only [decide_eq_true_eq]

/-- The array of the contract with its write position. -/
def ringOf (s : Rollup τ) : Ring 64 Element := ⟨s.rootHashes, s.nextRootHashIndex⟩

theorem ringOf_addRootHash (s : Rollup τ) (root : Element) :
    ringOf (s.addRootHash root) = (ringOf s).push root := rfl

theorem ringOf_addRootHashes (s : Rollup τ) (roots : List Element) :
    ringOf (addRootHashes s roots) = (ringOf s).pushAll roots := by
  induction roots generalizing s with
  | nil => rfl
  | cons root roots ih =>
    change ringOf (addRootHashes (s.addRootHash root) roots) = _
    rw [ih, ringOf_addRootHash]
    rfl

/-- The array records the roots added since the contract was unused. -/
theorem addRootHashes_records (s : Rollup τ) (roots : List Element) :
    (ringOf (addRootHashes (unused s) roots)).Records 0#256 roots := by
  rw [ringOf_addRootHashes]
  exact Ring.pushAll_records 0#256 roots

theorem exists_slot_iff (s : Rollup τ) (roots : List Element) (hash : Element) :
    (∃ j, (addRootHashes (unused s) roots).rootHashes j = hash) ↔
      hash ∈ roots.drop (roots.length - 64) ∨ roots.length < 64 ∧ hash = 0#256 :=
  (addRootHashes_records s roots).exists_slot hash

theorem addRootHashes_current (s : Rollup τ) (roots : List Element) :
    (addRootHashes (unused s) roots).currentRootHash = roots.getLastD 0#256 := by
  induction roots using List.reverseRecOn with
  | nil => rfl
  | append_singleton roots root =>
    rw [addRootHashes, List.foldl_append]
    change ((addRootHashes (unused s) roots).addRootHash root).currentRootHash = _
    rw [addRootHash_current]
    simp

theorem containsRootHashes_iff (s : Rollup τ) (roots : List Element)
    (hashes : Vector Element 6) :
    containsRootHashes (addRootHashes (unused s) roots) hashes = true ↔
      ∀ hash ∈ hashes.toList, hash = 0#256 ∨ hash ∈ roots.drop (roots.length - 64) := by
  unfold containsRootHashes
  rw [containsRootHashesBy_eq_true]
  refine forall₂_congr fun hash _ => ?_
  simp only [decide_eq_true_eq]
  constructor
  · rintro ⟨j, heq | hzero⟩
    · rcases (exists_slot_iff s roots hash).mp ⟨j, heq.symm⟩ with hmem | ⟨-, hzero⟩
      · exact Or.inr hmem
      · exact Or.inl hzero
    · exact Or.inl hzero
  · rintro (hzero | hmem)
    · exact ⟨0, Or.inr hzero⟩
    · obtain ⟨j, hj⟩ := (exists_slot_iff s roots hash).mpr (Or.inl hmem)
      exact ⟨j, Or.inl hj.symm⟩

/-- After any additions the last root is the current one, and the scan finds zero and the
last sixty-four roots. -/
theorem addRootHashes_ring (s : Rollup τ) (roots : List Element) :
    (addRootHashes (unused s) roots).currentRootHash = roots.getLastD 0#256 ∧
      ∀ hashes : Vector Element 6,
        containsRootHashes (addRootHashes (unused s) roots) hashes = true ↔
          ∀ hash ∈ hashes.toList, hash = 0#256 ∨ hash ∈ roots.drop (roots.length - 64) :=
  ⟨addRootHashes_current s roots, containsRootHashes_iff s roots⟩

end PayyRollup.RootRing
