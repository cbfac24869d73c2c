import PayyRollup.RollupState

/-!
The public calls of the rollup contract. Anyone may send a request, also a router while the
contract waits for it; blocks are verified by provers and the settings belong to the owner.
A router is a script of requests over the state it sees (one that makes any call is a script of
its own kind), and nested router calls end at the depth limit of the machine, where the innermost
one fails.
-/
namespace PayyRollup.RollupCalls

open ScalarField VerifierContracts Transactions RollupState

/-- A call anyone may make. -/
inductive Request
  | mint (proof : Bytes) (commitment value source : Element)
  | mintWithAuthorization (proof : Bytes) (commitment value source : Element) (sender : Address)
      (validAfter validBefore nonce v r s v2 r2 s2 : Element)
  | burn (toAddr : Address) (proof : Bytes) (nullifier value source sig : Element)
  | burnToAddress (kind toAddr : Element) (proof : Bytes) (nullifier value source sig : Element)
  | burnToRouter (kind msgHash : Element) (proof : Bytes) (nullifier value source sig : Element)
      (router : Address) (routerCalldata : Bytes) (returnAddress : Address)
  | substituteBurn (nullifier amount : Element)

/-- The arguments of a block verification; the gas per burn call is not read. -/
structure BlockArgs where
  aggrProof : Bytes
  aggrInstances : Vector Element 12
  oldRoot : Element
  newRoot : Element
  utxoHashes : Vector Element 18
  otherHashFromBlockHash : Element
  height : Element
  signatures : List Signature
  deriving DecidableEq

inductive Call (τ : Type)
  | request (r : Request)
  | verifyBlock2 (args : BlockArgs)
  | setRoot (newRoot : Element)
  | setValidators (validFrom : Element) (validators : List Address)
  | addProver (prover : Address)
  | addRouter (router : Address)
  | removeRouter (router : Address)
  | setGasPerRouterCall (gas : Element)
  | transferOwnership (newOwner : Address)
  | renounceOwnership
  | world (effect : τ → τ)

/-- What a router that verifies no blocks does when it is called: change the world around the
contract, send requests, and succeed or revert. -/
inductive RouterScript (τ : Type) where
  | stop (success : Bool)
  | world (effect : τ → τ) (next : RouterScript τ)
  | call (sender : Address) (request : Request) (next : Rollup τ → RouterScript τ)

/-- The calldata a router is called with, and what it does on it. -/
abbrev Routers (τ : Type) := Address → Bytes → Element → Rollup τ → RouterScript τ

variable {τ : Type}

section Requests

variable (env : Externals τ) (routerCall : Address → Bytes → Element → RollupM τ Bool)

def mintWithAuthorizationTypeHash : Element :=
  env.keccak256 ("MintWithAuthorization(bytes32 commitment,bytes32 value,bytes32 source,".append
    "address from,uint256 validAfter,uint256 validBefore,bytes32 nonce)").toUTF8.toList

/-- The registration that ends both mints. -/
def registerMint (commitment value : Element) : RollupM τ Unit :=
  modify fun s => { s with mints := Function.update s.mints commitment value }

def mint (sender : Address) (proof : Bytes) (commitment value source : Element) :
    RollupM τ Unit := do
  let s ← get
  require (s.mints commitment = 0#256) (.reason "Mint already exists")
  view (MintVerifierV1.verify env.mintPlonk proof commitment value source)
  tokenCall fun chain => env.transferFrom chain sender env.address value
  registerMint commitment value

def mintWithAuthorization (proof : Bytes) (commitment value source : Element)
    (payer : Address) (validAfter validBefore nonce v r s v2 r2 s2 : Element) :
    RollupM τ Unit := do
  let state ← get
  require (state.mints commitment = 0#256) (.reason "Mint already exists")
  let structHash := env.keccak256 (abiWord (mintWithAuthorizationTypeHash env) ++
    abiWord commitment ++ abiWord value ++ abiWord source ++ abiWord (addressWord payer) ++
    abiWord validAfter ++ abiWord validBefore ++ abiWord nonce)
  let computedHash := env.keccak256
    ([0x19, 0x01] ++ abiWord env.domainSeparator ++ abiWord structHash)
  let signer ← bubble (env.recover computedHash (UInt8.ofNat v2.toNat) r2 s2)
  require (signer = payer) (.reason "Invalid signer")
  view (MintVerifierV1.verify env.mintPlonk proof commitment value source)
  tokenCall fun chain => env.receiveWithAuthorization chain payer env.address value validAfter
    validBefore nonce (UInt8.ofNat v.toNat) r s
  registerMint commitment value

def burn (toAddr : Address) (proof : Bytes) (nullifier value source sig : Element) :
    RollupM τ Unit := do
  requireNotUSDCBlacklisted env toAddr
  view (BurnVerifierV1.verify env.burnPlonk proof (addressWord toAddr) nullifier value source sig)
  setBurnsKind nullifier 0#256
  setBurn nullifier ⟨toAddr, value⟩

def burnToAddress (kind toAddr : Element) (proof : Bytes)
    (nullifier value source sig : Element) : RollupM τ Unit := do
  require (kind = 0#256) (.reason "Invalid kind")
  let dest := bytes32ToAddress toAddr
  requireNotUSDCBlacklisted env dest
  view (BurnVerifierV2.verify env.burnPlonkV2 proof kind toAddr nullifier value source sig)
  setBurnsKind nullifier kind
  setBurn nullifier ⟨dest, value⟩

/-- The message a router burn is signed for, with the first three bits cleared. -/
def routerMessage (router : Address) (routerCalldata : Bytes) (returnAddress : Address) :
    Element :=
  env.keccak256 (abiEncodeRouterCall router routerCalldata returnAddress) &&&
    0x1FFFFFFFFFFFFFFFFFFFFFFFFFFFFFFFFFFFFFFFFFFFFFFFFFFFFFFFFFFFFFFF#256

def burnToRouter (kind msgHash : Element) (proof : Bytes) (nullifier value source sig : Element)
    (router : Address) (routerCalldata : Bytes) (returnAddress : Address) : RollupM τ Unit := do
  require (kind = 1#256) (.reason "Invalid kind")
  require (returnAddress ≠ 0#160) (.reason "Invalid return address")
  let s ← get
  require (s.isRouterWhitelisted router = true) (.reason "Router not whitelisted")
  requireNotUSDCBlacklisted env returnAddress
  require (routerMessage env router routerCalldata returnAddress = msgHash)
    (.reason "Invalid msg")
  view (BurnVerifierV2.verify env.burnPlonkV2 proof kind msgHash nullifier value source sig)
  setBurnsKind nullifier kind
  modify fun s => { s with
    burnsToRouter := Function.update s.burnsToRouter nullifier
      ⟨router, routerCalldata, value, returnAddress⟩ }

/-- The substitute pays the burn now and is paid when the block is rolled up. -/
def substituteBurn (sender : Address) (nullifier amount : Element) : RollupM τ Unit := do
  let s ← get
  require (s.substitutedBurns nullifier = false) (.reason "RollupV6: Burn already substituted")
  require (s.rolledUpLeafs nullifier = false) (.reason "RollupV6: Leaf already rolled up")
  tokenCall fun chain => env.transferFrom chain sender env.address amount
  modify fun s => { s with
    substitutedBurns := Function.update s.substitutedBurns nullifier true }
  let result ← executeBurn env routerCall nullifier amount
  require (result.1 = true ∧ result.2 = true) (.reason "RollupV6: Burn failed")
  modify fun s => { s with
    burnsKind := Function.update s.burnsKind nullifier 0#256
    burns := Function.update s.burns nullifier ⟨sender, amount⟩ }

def request (sender : Address) : Request → RollupM τ Unit
  | .mint proof commitment value source => mint env sender proof commitment value source
  | .mintWithAuthorization proof commitment value source payer validAfter validBefore nonce v r s
      v2 r2 s2 =>
      mintWithAuthorization env proof commitment value source payer validAfter validBefore nonce
        v r s v2 r2 s2
  | .burn toAddr proof nullifier value source sig =>
      burn env toAddr proof nullifier value source sig
  | .burnToAddress kind toAddr proof nullifier value source sig =>
      burnToAddress env kind toAddr proof nullifier value source sig
  | .burnToRouter kind msgHash proof nullifier value source sig router routerCalldata
      returnAddress =>
      burnToRouter env kind msgHash proof nullifier value source sig router routerCalldata
        returnAddress
  | .substituteBurn nullifier amount => substituteBurn env routerCall sender nullifier amount

end Requests

section Routers

variable (env : Externals τ) (routers : Routers τ)

/-- A script against the requests of the contract; a request that reverts changes nothing. -/
def RouterScript.run (send : Address → Request → RollupM τ Unit) :
    RouterScript τ → Rollup τ → Bool × Rollup τ
  | .stop success, s => (success, s)
  | .world effect next, s => RouterScript.run send next { s with chain := effect s.chain }
  | .call sender request next, s =>
      let s' := match send sender request s with
        | .ok result => result.2
        | .error _ => s
      RouterScript.run send (next s') s'

/-- A router call at some remaining depth; a failed call leaves no trace. -/
def routerCallAt : ℕ → Address → Bytes → Element → RollupM τ Bool
  | 0 => fun _ _ _ => return false
  | depth + 1 => fun router routerCalldata gas s =>
      let result := (routers router routerCalldata gas s).run
        (request env (routerCallAt depth)) s
      .ok (result.1, if result.1 = true then result.2 else s)

end Routers

section Blocks

variable (env : Externals τ) (routerCall : Address → Bytes → Element → RollupM τ Bool)

/-- The word of the six triples of root, hash and value. -/
def BlockArgs.utxoHash (args : BlockArgs) (i : ℕ) : Element := args.utxoHashes.toList.getD i 0#256

/-- Each signer is a validator and follows the previous one. -/
def verifySignatures (sigMsg : Element) (validatorSet : ValidatorSet) :
    Address → List Signature → RollupM τ Unit
  | _, [] => return ()
  | previous, signature :: rest => do
      let signer ← bubble (env.recover sigMsg (UInt8.ofNat signature.v.toNat) signature.r
        signature.s)
      require (signer ∈ validatorSet.validatorsArray) (.reason "Signer is not a validator")
      require (previous < signer) (.reason "Signers are not sorted")
      verifySignatures sigMsg validatorSet signer rest

def proposalHash (args : BlockArgs) : Element :=
  env.keccak256 (abiWord args.newRoot ++ abiWord args.height ++
    abiWord args.otherHashFromBlockHash)

/-- The message the validators of a block sign: the acceptance at the next height. -/
def sigMsg (args : BlockArgs) : Element :=
  env.keccak256 (encodePackedAccept (env.keccak256
    (abiWord (args.height + 1#256) ++ abiWord (proposalHash env args))))

def verifyBlock2 (sender : Address) (args : BlockArgs) : RollupM τ Unit := do
  onlyProver sender
  modify fun s => s.updateValidatorSetIndex args.height
  let s ← get
  let validatorSet := s.getValidators
  require (args.oldRoot = s.currentRootHash)
    (.reason "Old root does not match the current root")
  [0, 3, 6, 9, 12, 15].forM fun i =>
    verifyTxn env routerCall (args.utxoHash (i + 1)) (args.utxoHash (i + 2))
  let s' ← get
  require (s'.containsRootHashes ([0, 3, 6, 9, 12, 15].map args.utxoHash) = true)
    (.reason "Invalid recent roots")
  let minValidators := validatorSet.validatorsArray.length * 2 / 3 + 1
  require (minValidators ≤ args.signatures.length)
    (.reason "Not enough signatures from validators to verify block")
  require (args.height.toNat + 1 < 2 ^ 256) (.reason "Panic(0x11)")
  require (0 < args.signatures.length) (.reason "No signatures")
  verifySignatures env (sigMsg env args) validatorSet 0#160 args.signatures
  view (AggregateVerifierV1.verify env.aggregatePlonk args.aggrProof args.aggrInstances
    args.oldRoot args.newRoot args.utxoHashes)
  modify fun s => { s.addRootHash args.newRoot with
    blockHash := proposalHash env args
    blockHeight := args.height }

def setValidators (sender : Address) (validFrom : Element) (validators : List Address) :
    RollupM τ Unit := do
  onlyOwner sender
  let s ← get
  require ((s.validatorSets.getLast?.all fun last => decide (last.validFrom < validFrom)) = true)
    (.reason "New validator set must have a validFrom greater than the last set")
  require validators.Nodup (.reason "Validator already exists")
  set { s with validatorSets := s.validatorSets ++ [ValidatorSet.mk validators validFrom] }

def call (sender : Address) : Call τ → RollupM τ Unit
  | .request r => request env routerCall sender r
  | .verifyBlock2 args => verifyBlock2 env routerCall sender args
  | .setRoot newRoot => do
      onlyOwner sender
      modify fun s => s.addRootHash newRoot
  | .setValidators validFrom validators => setValidators sender validFrom validators
  | .addProver prover => do
      onlyOwner sender
      modify fun s => { s with provers := Function.update s.provers prover 1#256 }
  | .addRouter router => do
      onlyOwner sender
      let s ← get
      require (env.hasCode s.chain router = true) (.reason "Router has no code")
      set { s with routerWhitelist := Function.update s.routerWhitelist router true }
  | .removeRouter router => do
      onlyOwner sender
      modify fun s => { s with routerWhitelist := Function.update s.routerWhitelist router false }
  | .setGasPerRouterCall gas => do
      onlyOwner sender
      modify fun s => { s with gasPerRouterCall := gas }
  | .transferOwnership newOwner => do
      onlyOwner sender
      require (newOwner ≠ 0#160) (.reason "OwnableInvalidOwner(address)")
      modify fun s => { s with owner := newOwner }
  | .renounceOwnership => do
      onlyOwner sender
      modify fun s => { s with owner := 0#160 }
  | .world effect => modify fun s => { s with chain := effect s.chain }

end Blocks

/-- The storage after the initializers of all versions. -/
def initialState (chain : τ) (owner prover : Address) (initialValidators : List Address)
    (emptyMerkleTreeRootHash : Element) : Rollup τ :=
  let fresh : Rollup τ :=
    { chain, owner
      blockHash := 0#256
      blockHeight := 0#256
      rootHashes := fun _ => 0#256
      nextRootHashIndex := 0
      provers := Function.update (fun _ => 0#256) prover 1#256
      mints := fun _ => 0#256
      burns := fun _ => ⟨0#160, 0#256⟩
      validatorSets := [ValidatorSet.mk initialValidators 0#256]
      validatorSetIndex := 0
      burnsKind := fun _ => 0#256
      burnsToRouter := fun _ => ⟨0#160, [], 0#256, 0#160⟩
      routerWhitelist := fun _ => false
      substitutedBurns := fun _ => false
      rolledUpLeafs := fun _ => false
      gasPerRouterCall := 500000#256 }
  fresh.addRootHash emptyMerkleTreeRootHash

section Runs

variable (env : Externals τ) (routers : Routers τ) (depth : ℕ)

/-- One transaction of the chain; a call that reverts changes nothing. -/
def step (s : Rollup τ) (tx : Address × Call τ) : Rollup τ :=
  match call env (routerCallAt env routers depth) tx.1 tx.2 s with
  | .ok result => result.2
  | .error _ => s

def runCalls (s : Rollup τ) (txs : List (Address × Call τ)) : Rollup τ :=
  txs.foldl (step env routers depth) s

/-- The block a transaction verifies, if it is accepted. -/
def acceptedBlock (s : Rollup τ) (tx : Address × Call τ) : Option BlockArgs :=
  match call env (routerCallAt env routers depth) tx.1 tx.2 s, tx.2 with
  | .ok _, .verifyBlock2 args => some args
  | _, _ => none

/-- The blocks verified in a run, in order. -/
def acceptedBlocks (s : Rollup τ) : List (Address × Call τ) → List BlockArgs
  | [] => []
  | tx :: rest =>
      (acceptedBlock env routers depth s tx).toList ++
        acceptedBlocks (step env routers depth s tx) rest

end Runs
end PayyRollup.RollupCalls
