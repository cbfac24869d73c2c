import PayyRollup.PaymentEffects

/-!
The fifth version of the rollup contract, with its payments noted. It registers burns
without looking for an earlier one, and forgets a mint or burn when it is rolled up; the
marks of the sixth version are not there yet, and the upgrade only sets the gas of router
calls. The calls that the versions share are those of the sixth.
-/
namespace PayyRollup.RollupV5

open ScalarField VerifierContracts Transactions RollupState RollupCalls CallBacks PaymentLog
  PaymentEffects

variable {τ : Type}

inductive CallV5 (τ : Type)
  | mint (proof : Bytes) (commitment value source : Element)
  | mintWithAuthorization (proof : Bytes) (commitment value source : Element) (sender : Address)
      (validAfter validBefore nonce v r s v2 r2 s2 : Element)
  | burn (toAddr : Address) (proof : Bytes) (nullifier value source sig : Element)
  | burnToAddress (kind toAddr : Element) (proof : Bytes) (nullifier value source sig : Element)
  | burnToRouter (kind msgHash : Element) (proof : Bytes) (nullifier value source sig : Element)
      (router : Address) (routerCalldata : Bytes) (returnAddress : Address)
  | verifyBlock (args : BlockArgs)
  | verifyBlock2 (args : BlockArgs) (gasPerBurnCall : Element)
  | setRoot (newRoot : Element)
  | setValidators (validFrom : Element) (validators : List Address)
  | addProver (prover : Address)
  | addRouter (router : Address)
  | removeRouter (router : Address)
  | transferOwnership (newOwner : Address)
  | renounceOwnership
  | world (effect : τ → τ)

section Requests

variable (env : Externals τ)

def burn (toAddr : Address) (proof : Bytes) (nullifier value source sig : Element) :
    RollupM τ Unit := do
  requireNotUSDCBlacklisted env toAddr
  view (BurnVerifierV1.verify env.burnPlonk proof (addressWord toAddr) nullifier value source sig)
  setBurn nullifier ⟨toAddr, value⟩

def burnToAddress (kind toAddr : Element) (proof : Bytes)
    (nullifier value source sig : Element) : RollupM τ Unit := do
  require (kind = 0#256) (.reason "Invalid kind")
  let dest := bytes32ToAddress toAddr
  requireNotUSDCBlacklisted env dest
  view (BurnVerifierV2.verify env.burnPlonkV2 proof kind toAddr nullifier value source sig)
  modify fun s => { s with burnsKind := Function.update s.burnsKind nullifier kind }
  setBurn nullifier ⟨dest, value⟩

def burnToRouter (kind msgHash : Element) (proof : Bytes) (nullifier value source sig : Element)
    (router : Address) (routerCalldata : Bytes) (returnAddress : Address) : RollupM τ Unit := do
  require (kind = 1#256) (.reason "Invalid kind")
  require (returnAddress ≠ 0#160) (.reason "Invalid return address")
  let s ← get
  require (s.isRouterWhitelisted router = true) (.reason "Router not whitelisted")
  require (routerMessage env router routerCalldata returnAddress = msgHash)
    (.reason "Invalid msg")
  view (BurnVerifierV2.verify env.burnPlonkV2 proof kind msgHash nullifier value source sig)
  modify fun s => { s with
    burnsKind := Function.update s.burnsKind nullifier kind
    burnsToRouter := Function.update s.burnsToRouter nullifier
      ⟨router, routerCalldata, value, returnAddress⟩ }

end Requests

section Blocks

variable (env : Externals τ) (router : Address × Bytes × Element → LoggedM τ Bool)

/-- No transfer to the zero address or to a blacklisted one. -/
def transferBurn (mb : Element) (b : Burn) : LoggedM τ Unit := do
  let s ← silently get
  if b.toAddr ≠ 0#160 ∧ env.isBlacklisted s.chain b.toAddr = false then do
    silently (tokenCall fun chain => env.transfer chain b.toAddr b.amount)
    note (.paid mb b.toAddr b.amount)
  else return ()

/-- The burn to an address is forgotten whether or not anything was transferred. -/
def rollUpToAddress (mb value : Element) : LoggedM τ Unit := do
  let s ← silently get
  let b := s.burns mb
  silently (require (b.amount = value) (.reason "Invalid burn amount"))
  note (.rolledUp mb value)
  transferBurn env mb b
  silently (setBurn mb ⟨0#160, 0#256⟩)

/-- The allowance is reset only after a failed router call. -/
def settleRouterCall (mb : Element) (b : BurnToRouter) (routerCallSuccess : Bool) :
    LoggedM τ Unit := do
  if routerCallSuccess = true then note (.paid mb b.router b.amount)
  else do
    silently (tokenCall fun chain => env.approve chain b.router 0#256)
    silently (tokenCall fun chain => env.transfer chain b.returnAddress b.amount)
    note (.paid mb b.returnAddress b.amount)

def rollUpToRouter (mb value gasPerBurnCall : Element) : LoggedM τ Unit := do
  let s ← silently get
  let b := s.burnsToRouter mb
  silently (require (b.amount = value) (.reason "Invalid burn amount"))
  note (.rolledUp mb value)
  silently (tokenCall fun chain => env.approve chain b.router b.amount)
  let routerCallSuccess ← loggedRouterCallIfWhitelisted router b.router b.routerCalldata
    gasPerBurnCall
  settleRouterCall env mb b routerCallSuccess
  silently (modify fun s => { s with burnsKind := Function.update s.burnsKind mb 0#256 })

def verifyTxn (mb value gasPerBurnCall : Element) : LoggedM τ Unit := do
  if value = 0#256 then return ()
  else do
    let s ← silently get
    if s.mints mb ≠ 0#256 then do
      silently (require (s.mints mb = value) (.reason "Invalid mint amount"))
      silently (modify fun s => { s with mints := Function.update s.mints mb 0#256 })
    else if s.burnsKind mb = 0#256 ∧ (s.burns mb).amount ≠ 0#256 then
      rollUpToAddress env mb value
    else if s.burnsKind mb = 1#256 then rollUpToRouter env router mb value gasPerBurnCall
    else throw (.reason "Invalid mint/burn")

def verifyBlock2 (sender : Address) (args : BlockArgs) (gasPerBurnCall : Element) :
    LoggedM τ Unit := do
  silently (onlyProver sender)
  silently (modify fun s => s.updateValidatorSetIndex args.height)
  let s ← silently get
  let validatorSet := s.getValidators
  silently (require (args.oldRoot = s.currentRootHash)
    (.reason "Old root does not match the current root"))
  [0, 3, 6, 9, 12, 15].forM fun i =>
    verifyTxn env router (args.utxoHash (i + 1)) (args.utxoHash (i + 2)) gasPerBurnCall
  silently do
    let s' ← get
    require (s'.containsRootHashes ([0, 3, 6, 9, 12, 15].map args.utxoHash) = true)
      (.reason "Invalid recent roots")
    let minValidators := validatorSet.validatorsArray.length * 2 / 3 + 1
    require (minValidators ≤ args.signatures.length)
      (.reason "Not enough signatures from validators to verify block")
    require (args.height.toNat + 1 < 2 ^ 256) (.reason "Panic(0x11)")
    require (0 < args.signatures.length) (.reason "No signatures")
    verifySignatures env (sigMsg env args) validatorSet 0#160 args.signatures
    view (AggregateVerifierV1.verify env.aggregatePlonk args.aggrProof args.aggrInstances
      args.oldRoot args.newRoot args.utxoHashes)
    modify fun s => { s.addRootHash args.newRoot with
      blockHash := proposalHash env args
      blockHeight := args.height }

/-- The calls shared with the sixth version reach no router. -/
def call (sender : Address) : CallV5 τ → LoggedM τ Unit
  | .mint proof commitment value source =>
      silently (mint env sender proof commitment value source)
  | .mintWithAuthorization proof commitment value source payer validAfter validBefore nonce v r s
      v2 r2 s2 =>
      silently (mintWithAuthorization env proof commitment value source payer validAfter
        validBefore nonce v r s v2 r2 s2)
  | .burn toAddr proof nullifier value source sig => do
      silently (burn env toAddr proof nullifier value source sig)
      note (.registered nullifier value)
  | .burnToAddress kind toAddr proof nullifier value source sig => do
      silently (burnToAddress env kind toAddr proof nullifier value source sig)
      note (.registered nullifier value)
  | .burnToRouter kind msgHash proof nullifier value source sig address routerCalldata
      returnAddress => do
      silently (burnToRouter env kind msgHash proof nullifier value source sig address
        routerCalldata returnAddress)
      note (.registered nullifier value)
  | .verifyBlock args => do
      silently (onlyProver sender)
      verifyBlock2 env router sender args 500000#256
  | .verifyBlock2 args gasPerBurnCall => verifyBlock2 env router sender args gasPerBurnCall
  | .setRoot newRoot => silently (RollupCalls.call env (fun _ _ _ => return false) sender
      (.setRoot newRoot))
  | .setValidators validFrom validators => silently (RollupCalls.call env
      (fun _ _ _ => return false) sender (.setValidators validFrom validators))
  | .addProver prover => silently (RollupCalls.call env (fun _ _ _ => return false) sender
      (.addProver prover))
  | .addRouter address => silently (RollupCalls.call env (fun _ _ _ => return false) sender
      (.addRouter address))
  | .removeRouter address => silently (RollupCalls.call env (fun _ _ _ => return false) sender
      (.removeRouter address))
  | .transferOwnership newOwner => silently (RollupCalls.call env (fun _ _ _ => return false)
      sender (.transferOwnership newOwner))
  | .renounceOwnership => silently (RollupCalls.call env (fun _ _ _ => return false) sender
      .renounceOwnership)
  | .world effect => silently (RollupCalls.call env (fun _ _ _ => return false) sender
      (.world effect))

end Blocks

section Runs

abbrev RouterCallsV5 (τ : Type) :=
  Callees (Rollup τ) Address (CallV5 τ) (Address × Bytes × Element)

def run (env : Externals τ) (routers : RouterCallsV5 τ) (depth : ℕ) (p : Logged τ)
    (txs : List (Address × CallV5 τ)) : Logged τ :=
  runNested Prod.fst (call env) routers depth p txs

/-- The storage after the initializers up to the fifth version. -/
def initialState (chain : τ) (owner prover : Address) (initialValidators : List Address)
    (emptyMerkleTreeRootHash : Element) : Rollup τ :=
  { RollupCalls.initialState chain owner prover initialValidators emptyMerkleTreeRootHash with
    gasPerRouterCall := 0#256 }

/-- The upgrade to the sixth version, with its initializer. -/
def initializeV6 (s : Rollup τ) : Rollup τ := { s with gasPerRouterCall := 500000#256 }

end Runs
end PayyRollup.RollupV5
