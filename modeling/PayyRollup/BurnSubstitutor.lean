import PayyRollup.PaymentLog
import PayyRollup.PendingTxns
import PayyRollup.Sessions

/-!
The burn substitutor. A tick asks the node for the transactions after its cursor, substitutes
each burn among them that is not substituted yet, and moves the cursor behind them; an error
ends it early. Before each answer the node may store new blocks and anyone may call the
contract, and the answer may fail to come. A transaction counts as confirmed once it is
mined, whether it reverted or not. The block height the cursor started from, the burns whose
substitution was sent and those whose substitution was mined in vain are kept beside it.
-/
namespace PayyRollup.BurnSubstitutor

open NodeBlocks hiding Error
open ScalarField Transactions RollupState RollupCalls CallBacks PaymentLog
open SmirkTree (Outcome)
open BlockStoreDb hiding Error
open TxnPages PendingTxns Sessions

inductive Event (τ : Type)
  | block (b : BlockFormat)
  | call (sender : RollupState.Address) (c : Call τ)

/-- What happens before an answer, what the node reads of its clock and of its height, and
whether the answer fails to come. A mined transaction may run out of gas. -/
structure Turn (τ : Type) where
  events : List (Event τ)
  now : ℕ
  maxHeight : Height
  fails : Bool
  outOfGas : Bool

structure State (τ : Type) where
  cursor : Option (CursorChoice ListTxnsPosition)
  start : Option Height
  db : Db BlockFormat TxnFormat
  contract : Logged τ
  sent : List Element
  reverted : List Element
  turns : List (Turn τ)

/-- The node, the contract with the routers it calls, and the account of the substitutor. -/
structure Setup (τ : Type) where
  node : NodeEnv
  env : Externals τ
  routers : RouterCalls τ
  depth : ℕ
  signerAddress : RollupState.Address

/-- The step of a tick that failed. -/
inductive Error
  | blockHeight
  | transactions
  | wasBurnSubstituted
  | substituteBurn
  | waitForConfirm
  deriving DecidableEq

section Burns

def inputs (txn : UtxoProof) : List Element :=
  [txn.inputLeaves.1, txn.inputLeaves.2].filter fun e => decide (e ≠ 0#256)

def hasOnlyOneInput (txn : UtxoProof) : Bool := (inputs txn).length == 1

def hasNoOutputs (txn : UtxoProof) : Bool :=
  [txn.outputLeaves.1, txn.outputLeaves.2].all fun e => decide (e = 0#256)

def hasMb (txn : UtxoProof) : Bool := decide (txn.mbHash ≠ 0#256) && decide (txn.mbValue ≠ 0#256)

def isBurn (txn : UtxoProof) : Bool := hasOnlyOneInput txn && hasNoOutputs txn && hasMb txn

def nullifier (txn : UtxoProof) : Element := (inputs txn).headD 0#256

end Burns

section Answers

variable {τ : Type} (setup : Setup τ)

abbrev TickM (τ α : Type) := Session Error (State τ) α

/-- One transaction of the chain. -/
def transact (contract : Logged τ) (sender : RollupState.Address) (c : Call τ) : Logged τ :=
  runLogged setup.env setup.routers setup.depth contract [(sender, c)]

/-- Whether a call would be mined without reverting. -/
def wouldSucceed (contract : Logged τ) (sender : RollupState.Address) (c : Call τ) : Bool :=
  (loggedCall setup.env (calleeAt Prod.fst (loggedCall setup.env) setup.routers setup.depth)
    sender c contract).isOk

def happen (s : State τ) : Event τ → State τ
  | .block b => { s with db := storeNew setup.node s.db b }
  | .call sender c => { s with contract := transact setup s.contract sender c }

def quietTurn : Turn τ := ⟨[], 0, 0, false, false⟩

def nextTurn : TickM τ (Turn τ) := fun s =>
  match s.turns with
  | [] => (.ok quietTurn, s)
  | turn :: turns => (.ok turn, { turn.events.foldl (happen setup) s with turns })

/-- Wait for an answer, which may be an error. -/
def await (e : Error) : TickM τ (Turn τ) := do
  let turn ← nextTurn setup
  if turn.fails = true then throw e else return turn

/-- The height is read as a machine word. -/
def fetchLastRollupBlock : TickM τ Height := do
  let _ ← await setup .blockHeight
  let s ← get
  return Fin.ofNat (2 ^ 64) s.contract.1.blockHeight.toNat

def fetchTransactions (limit : Option ℕ) (cursor : Option (CursorChoice ListTxnsPosition)) :
    TickM τ (List UtxoProof × Cursor ListTxnsPosition) := do
  let turn ← await setup .transactions
  let s ← get
  match listTxns setup.node turn.now turn.maxHeight s.db ⟨limit, cursor, .oldestToNewest⟩ with
  | .ok (cursor, txns) => return (txns.map (·.proof), cursor)
  | .error _ => throw .transactions

def wasBurnSubstituted (nullifier : Element) : TickM τ Bool := do
  let _ ← await setup .wasBurnSubstituted
  let s ← get
  return s.contract.1.wasBurnSubstituted nullifier

/-- The gas is estimated first, which fails for a call that would revert. The transaction may
reach the chain also when the answer to it does not come. -/
def substituteBurn (nullifier amount : Element) : TickM τ Unit := do
  let _ ← await setup .substituteBurn
  let s ← get
  if wouldSucceed setup s.contract setup.signerAddress
      (.request (.substituteBurn nullifier amount)) = true then do
    modify fun s => { s with sent := s.sent ++ [nullifier] }
    let _ ← await setup .substituteBurn
    return ()
  else throw .substituteBurn

/-- The transaction is mined; whether it reverted is not looked at. -/
def waitForConfirm (nullifier amount : Element) : TickM τ Unit := do
  let turn ← await setup .waitForConfirm
  modify fun s =>
    let c : Call τ := .request (.substituteBurn nullifier amount)
    if (wouldSucceed setup s.contract setup.signerAddress c && !turn.outOfGas) = true then
      { s with contract := transact setup s.contract setup.signerAddress c }
    else { s with reverted := s.reverted ++ [nullifier] }

end Answers

section Ticks

variable {τ : Type} (setup : Setup τ)

def startCursor (lastRollup : Height) : CursorChoiceAfter ListTxnsPosition :=
  .after ⟨lastRollup, 2 ^ 64 - 1⟩

def initCursor : TickM τ (CursorChoice ListTxnsPosition) := do
  let s ← get
  match s.cursor with
  | some cursor => return cursor
  | none => do
      let lastRollup ← fetchLastRollupBlock setup
      modify fun s => { s with
        cursor := some (.after (startCursor lastRollup))
        start := some lastRollup }
      return .after (startCursor lastRollup)

def substituteTxn (txn : UtxoProof) : TickM τ (Option Element) := do
  if isBurn txn = true then do
    let wasSubstituted ← wasBurnSubstituted setup (nullifier txn)
    if wasSubstituted = true then return none
    else do
      substituteBurn setup (nullifier txn) txn.mbValue
      waitForConfirm setup (nullifier txn) txn.mbValue
      return some (nullifier txn)
  else return none

def substituteTxns : List UtxoProof → TickM τ (List Element)
  | [] => return []
  | txn :: txns => do
      let substituted ← substituteTxn setup txn
      let others ← substituteTxns txns
      return substituted.toList ++ others

def tick : TickM τ (List Element) := do
  let cursor ← initCursor setup
  let (txns, cursor) ← fetchTransactions setup none (some cursor)
  let substitutedBurns ← substituteTxns setup txns
  if txns.isEmpty = true then return substitutedBurns
  else do
    modify fun s => { s with cursor := cursor.after.map .after }
    return substitutedBurns

/-- A tick with what happens during it. -/
def tickWith (s : State τ) (turns : List (Turn τ)) : Except Error (List Element) × State τ :=
  tick setup { s with turns }

def runTicks (s : State τ) : List (List (Turn τ)) → List (Except Error (List Element)) × State τ
  | [] => ([], s)
  | turns :: rest =>
      let first := tickWith setup s turns
      let others := runTicks first.2 rest
      (first.1 :: others.1, others.2)

/-- The ticks that ended without an error. -/
def completed (results : List (Except Error (List Element))) : ℕ := results.countP (·.isOk)

def new (db : Db BlockFormat TxnFormat) (contract : Rollup τ) : State τ :=
  { cursor := none, start := none, db, contract := (contract, []), sent := [], reverted := []
    turns := [] }

end Ticks
end PayyRollup.BurnSubstitutor
