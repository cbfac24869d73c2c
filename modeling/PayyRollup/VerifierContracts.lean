import PayyRollup.ScalarField

/-!
The verifier contracts. Each checks that its words are field elements and passes them with
the proof to the generated verifier; a call that reverts carries its reason. The four
contracts differ only in their words.
-/
namespace PayyRollup.VerifierContracts

open ScalarField

abbrev Bytes := List UInt8

/-- Why a call reverts: a reason of the contracts, or what an external call reverts with. -/
inductive Revert
  | reason (text : String)
  | bubbled (data : Bytes)
  deriving DecidableEq

def requireValidFieldElement (x : Element) : Except Revert Unit :=
  if x.toNat < modulus then .ok () else .error (.reason "Invalid field element")

variable {Proof : Type} (plonkVerifier : List Fr → Proof → Bool)

def requireValidFieldElements : List Element → Except Revert Unit
  | [] => .ok ()
  | x :: rest => do
      requireValidFieldElement x
      requireValidFieldElements rest

/-- The body of every verifier contract; the generated verifier reads the words modulo the
prime. -/
def verifyInstances (proof : Proof) (instances : List Element) : Except Revert Unit := do
  requireValidFieldElements instances
  if plonkVerifier (instances.map Element.toBase) proof then .ok ()
  else .error (.reason "VerificationFailed()")

def AggregateVerifierV1.instances (aggrInstances : Vector Element 12) (oldRoot newRoot : Element)
    (utxoHashes : Vector Element 18) : List Element :=
  aggrInstances.toList ++ [oldRoot, newRoot] ++ utxoHashes.toList

def AggregateVerifierV1.verify (aggrProof : Proof) (aggrInstances : Vector Element 12)
    (oldRoot newRoot : Element) (utxoHashes : Vector Element 18) : Except Revert Unit :=
  verifyInstances plonkVerifier aggrProof
    (AggregateVerifierV1.instances aggrInstances oldRoot newRoot utxoHashes)

def MintVerifierV1.verify (proof : Proof) (commitment value source : Element) :
    Except Revert Unit :=
  verifyInstances plonkVerifier proof [commitment, value, source]

def BurnVerifierV1.verify (proof : Proof) (toAddr nullifier value source sig : Element) :
    Except Revert Unit :=
  verifyInstances plonkVerifier proof [toAddr, nullifier, value, source, sig]

def BurnVerifierV2.verify (proof : Proof)
    (kind toAddr nullifier value source sig : Element) : Except Revert Unit :=
  verifyInstances plonkVerifier proof [kind, toAddr, nullifier, value, source, sig]

theorem requireValidFieldElements_ok (xs : List Element) (u : Unit) :
    requireValidFieldElements xs = .ok u ↔ ∀ x ∈ xs, x.toNat < modulus := by
  induction xs with
  | nil => simp [requireValidFieldElements]
  | cons x rest ih =>
    rw [List.forall_mem_cons, ← ih, requireValidFieldElements, requireValidFieldElement]
    by_cases h : x.toNat < modulus
    · simp [h, bind, Except.bind]
    · simp [h, bind, Except.bind]

/-- A verifier contract accepts field elements its generated verifier accepts. -/
theorem verifyInstances_ok (proof : Proof) (instances : List Element) (u : Unit) :
    verifyInstances plonkVerifier proof instances = .ok u ↔
      (∀ x ∈ instances, x.toNat < modulus) ∧
        plonkVerifier (instances.map Element.toBase) proof = true := by
  unfold verifyInstances
  rw [← requireValidFieldElements_ok instances ()]
  cases requireValidFieldElements instances with
  | error e => simp [bind, Except.bind]
  | ok v =>
    by_cases h : plonkVerifier (instances.map Element.toBase) proof = true
    · simp [bind, Except.bind, h]
    · simp [bind, Except.bind, h]

end PayyRollup.VerifierContracts
