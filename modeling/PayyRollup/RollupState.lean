import Mathlib.Logic.Function.Basic
import PayyRollup.Transactions
import PayyRollup.VerifierContracts

/-!
The rollup contract: its storage, the calls it makes to other contracts, and the internal
functions of its versions up to the sixth. A router call is a parameter here, because the
router may call back; the calls themselves are put together in the next module. Events and
the one-off initializers are left out.
-/
namespace PayyRollup.RollupState

open ScalarField VerifierContracts Transactions

abbrev Address := BitVec 160

instance address_lawfulBEq : LawfulBEq Address := inferInstance

/-- The number of slots for root hashes. -/
instance slots_neZero : NeZero 64 := ⟨by decide⟩

structure Burn where
  toAddr : Address
  amount : Element
  deriving DecidableEq

structure BurnToRouter where
  router : Address
  routerCalldata : Bytes
  amount : Element
  returnAddress : Address
  deriving DecidableEq

structure Signature where
  r : Element
  s : Element
  v : Element
  deriving DecidableEq

/-- A validator set; the mapping of the source holds exactly the addresses of the array. -/
structure ValidatorSet where
  validatorsArray : List Address
  validFrom : Element

/-- The storage of the contract, and the state of the chain around it. -/
structure Rollup (τ : Type) where
  chain : τ
  owner : Address
  blockHash : Element
  blockHeight : Element
  rootHashes : Fin 64 → Element
  nextRootHashIndex : Fin 64
  provers : Address → Element
  mints : Element → Element
  burns : Element → Burn
  validatorSets : List ValidatorSet
  validatorSetIndex : ℕ
  burnsKind : Element → Element
  burnsToRouter : Element → BurnToRouter
  routerWhitelist : Address → Bool
  substitutedBurns : Element → Bool
  rolledUpLeafs : Element → Bool
  gasPerRouterCall : Element

/-- What the contract calls: precompiles, generated verifiers and the token. The calls to
the token are made by the contract itself; a failed call returns its revert data. -/
structure Externals (τ : Type) where
  address : Address
  mintPlonk : List Fr → Bytes → Bool
  burnPlonk : List Fr → Bytes → Bool
  burnPlonkV2 : List Fr → Bytes → Bool
  aggregatePlonk : List Fr → Bytes → Bool
  keccak256 : Bytes → Element
  recover : Element → UInt8 → Element → Element → Except Bytes Address
  domainSeparator : Element
  hasCode : τ → Address → Bool
  isBlacklisted : τ → Address → Bool
  transfer : τ → Address → Element → Except Bytes τ
  transferFrom : τ → Address → Address → Element → Except Bytes τ
  approve : τ → Address → Element → Except Bytes τ
  receiveWithAuthorization : τ → Address → Address → Element → Element → Element → Element →
    UInt8 → Element → Element → Except Bytes τ

variable {τ : Type}

abbrev RollupM (τ α : Type) := Transaction Revert (Rollup τ) α

/-- A call whose revert data bubbles up. -/
def bubble {α : Type} (x : Except Bytes α) : RollupM τ α := view (x.mapError Revert.bubbled)

/-- A call of the contract to the token. -/
def tokenCall (call : τ → Except Bytes τ) : RollupM τ Unit := do
  let s ← get
  let chain ← bubble (call s.chain)
  set { s with chain }

/-- The big-endian bytes of a word. -/
def abiWord (x : Element) : Bytes :=
  (List.range 32).map fun i => UInt8.ofNat (x.toNat / 256 ^ (31 - i))

def addressWord (a : Address) : Element := a.setWidth 256

def bytes32ToAddress (x : Element) : Address := x.setWidth 160

/-- `abi.encode(router, routerCalldata, returnAddress)`: the calldata follows the head with
its length, padded to whole words. -/
def abiEncodeRouterCall (router : Address) (routerCalldata : Bytes) (returnAddress : Address) :
    Bytes :=
  let padding := (32 - routerCalldata.length % 32) % 32
  abiWord (addressWord router) ++ abiWord 96#256 ++ abiWord (addressWord returnAddress) ++
    abiWord (BitVec.ofNat 256 routerCalldata.length) ++ routerCalldata ++
    List.replicate padding 0

def networkBytes : Bytes := "Polybase".toUTF8.toList

/-- `abi.encodePacked(NETWORK_LEN, NETWORK, acceptMsg)` with a 64-bit length. -/
def encodePackedAccept (acceptMsg : Element) : Bytes :=
  [0, 0, 0, 0, 0, 0, 0, 8] ++ networkBytes ++ abiWord acceptMsg

/-- The ring index before the next one. -/
def currentRootIndex (next : Fin 64) : Fin 64 :=
  if h : 0 < next.val then ⟨next.val - 1, by omega⟩ else 63

namespace Rollup

def currentRootHash (s : Rollup τ) : Element :=
  s.rootHashes (currentRootIndex s.nextRootHashIndex)

/-- Every hash is zero or one of the recorded roots. -/
def containsRootHashes (s : Rollup τ) (hashes : List Element) : Bool :=
  hashes.all fun hash => decide (∃ j, hash = s.rootHashes j ∨ hash = 0#256)

def getMint (s : Rollup τ) (key : Element) : Element := s.mints key

def hasBurn (s : Rollup τ) (nullifier : Element) : Bool :=
  if s.burnsKind nullifier = 0#256 then decide ((s.burns nullifier).amount ≠ 0#256) else true

def wasBurnSubstituted (s : Rollup τ) (nullifier : Element) : Bool :=
  s.substitutedBurns nullifier

def isRouterWhitelisted (s : Rollup τ) (router : Address) : Bool := s.routerWhitelist router

def getValidators (s : Rollup τ) : ValidatorSet :=
  s.validatorSets.getD s.validatorSetIndex ⟨[], 0#256⟩

def addRootHash (s : Rollup τ) (rootHash : Element) : Rollup τ :=
  { s with
    rootHashes := Function.update s.rootHashes s.nextRootHashIndex rootHash
    nextRootHashIndex := s.nextRootHashIndex + 1 }

/-- The loop advances over the following sets that are valid at the height. -/
def updateValidatorSetIndex (s : Rollup τ) (height : Element) : Rollup τ :=
  let valid := (s.validatorSets.drop (s.validatorSetIndex + 1)).takeWhile fun set =>
    decide (set.validFrom ≤ height)
  { s with validatorSetIndex := s.validatorSetIndex + valid.length }

end Rollup

section Internal

variable (env : Externals τ)

def onlyProver (sender : Address) : RollupM τ Unit := do
  let s ← get
  require (s.provers sender = 1#256) (.reason "You are not a prover")

def onlyOwner (sender : Address) : RollupM τ Unit := do
  let s ← get
  require (sender = s.owner) (.reason "OwnableUnauthorizedAccount(account)")

def requireNotUSDCBlacklisted (account : Address) : RollupM τ Unit := do
  let s ← get
  require (env.isBlacklisted s.chain account = false)
    (.reason "account is blacklisted by USDC")

def setBurnsKind (nullifier kind : Element) : RollupM τ Unit := do
  let s ← get
  require (s.burnsKind nullifier = 0#256 ∧ (s.burns nullifier).amount = 0#256)
    (.reason "Burn already exists")
  modify fun s => { s with burnsKind := Function.update s.burnsKind nullifier kind }

def setBurn (nullifier : Element) (burn : Burn) : RollupM τ Unit :=
  modify fun s => { s with burns := Function.update s.burns nullifier burn }

def setRolledUp (mb : Element) : RollupM τ Unit :=
  modify fun s => { s with rolledUpLeafs := Function.update s.rolledUpLeafs mb true }

/-- A transfer that reverts is caught. -/
def executeBurnToAddress (nullifier value : Element) : RollupM τ Bool := do
  let s ← get
  let b := s.burns nullifier
  if b.amount = 0#256 then return false
  else do
    require (b.amount = value) (.reason "RollupV6: Invalid burn amount")
    match env.transfer s.chain b.toAddr value with
    | .ok chain => do
        set { s with chain }
        return true
    | .error _ => return false

variable (routerCall : Address → Bytes → Element → RollupM τ Bool)

def routerCallIfWhitelisted (router : Address) (routerCalldata : Bytes) (gas : Element) :
    RollupM τ Bool := do
  let s ← get
  if s.isRouterWhitelisted router = true then routerCall router routerCalldata gas
  else return false

/-- The allowance is reset after the router call; a failed call returns the funds. -/
def executeBurnToRouter (nullifier value : Element) : RollupM τ Bool := do
  let s ← get
  let b := s.burnsToRouter nullifier
  require (b.amount = value) (.reason "RollupV6: Invalid burn amount")
  tokenCall fun chain => env.approve chain b.router value
  let routerCallSuccess ← routerCallIfWhitelisted routerCall b.router b.routerCalldata
    s.gasPerRouterCall
  tokenCall fun chain => env.approve chain b.router 0#256
  if routerCallSuccess = true then return true
  else do
    let s' ← get
    if env.isBlacklisted s'.chain b.returnAddress = true then return false
    else do
      tokenCall fun chain => env.transfer chain b.returnAddress b.amount
      return true

/-- Whether the burn was found, and whether it succeeded. -/
def executeBurn (mb value : Element) : RollupM τ (Bool × Bool) := do
  let s ← get
  if s.burnsKind mb = 0#256 then
    if (s.burns mb).amount = 0#256 then return (false, false)
    else do
      let success ← executeBurnToAddress env mb value
      return (true, success)
  else if s.burnsKind mb = 1#256 then do
    let success ← executeBurnToRouter env routerCall mb value
    return (true, success)
  else return (true, false)

/-- A registered mint with another value reverts; otherwise the burn is executed. -/
def verifyTxn (mb value : Element) : RollupM τ Unit := do
  if value = 0#256 then return ()
  else do
    setRolledUp mb
    let s ← get
    if s.mints mb ≠ 0#256 then
      require (s.mints mb = value) (.reason "RollupV6: Invalid mint amount")
    else do
      let result ← executeBurn env routerCall mb value
      require (result.1 = true) (.reason "RollupV6: Burn was not found")

end Internal
end PayyRollup.RollupState
