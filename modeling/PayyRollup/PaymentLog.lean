import PayyRollup.CallBacks
import PayyRollup.RollupEffects

/-!
The payments of the rollup contract. A router may make any call of the contract while the
contract waits for it, block verifications included. Beside the state something takes note of
what burns cost and bring: registrations, advances of substitutes, payments, transfers the
token refused, finished substitutions and burns rolled up. A router whose call succeeds counts
as paid the whole allowance. The log of payments keeps all of these. Without what is noted,
the noting contract is the contract.
-/
namespace PayyRollup.PaymentLog

open ScalarField VerifierContracts Transactions RollupState RollupCalls CallBacks

inductive Entry
  | minted (commitment amount : Element)
  | registered (nullifier amount : Element)
  | advanced (nullifier : Element) (sender : Address) (amount : Element)
  | paid (nullifier : Element) (payee : Address) (amount : Element)
  | refused (nullifier : Element) (payee : Address) (amount : Element)
  | substituted (nullifier : Element) (sender : Address) (amount : Element)
  | rolledUp (nullifier amount : Element)
  deriving DecidableEq

variable {τ α : Type}

/-- What a router does, when it may make every call. -/
abbrev RouterCalls (τ : Type) := Callees (Rollup τ) Address (Call τ) (Address × Bytes × Element)

section Nested

variable (env : Externals τ)

def nestedCall (router : Address × Bytes × Element → RollupM τ Bool) (sender : Address)
    (c : Call τ) : RollupM τ Unit :=
  call env (fun address routerCalldata gas => router (address, routerCalldata, gas)) sender c

def runNestedCalls (routers : RouterCalls τ) (depth : ℕ) (s : Rollup τ)
    (txs : List (Address × Call τ)) : Rollup τ :=
  runNested id (nestedCall env) routers depth s txs

/-- A script of requests as a script of calls. -/
def ofRouterScript : RouterScript τ → Script (Rollup τ) Address (Call τ)
  | .stop success => .stop success
  | .world effect next => .call 0#160 (.world effect) fun _ => ofRouterScript next
  | .call sender r next => .call sender (.request r) fun s => ofRouterScript (next s)

def ofRouters (routers : Routers τ) : RouterCalls τ :=
  fun args s => ofRouterScript (routers args.1 args.2.1 args.2.2 s)

theorem ofRouterScript_run (router : Address × Bytes × Element → RollupM τ Bool)
    (script : RouterScript τ) (s : Rollup τ) :
    (ofRouterScript script).run id (nestedCall env router) s =
      script.run (request env fun address routerCalldata gas =>
        router (address, routerCalldata, gas)) s := by
  induction script generalizing s with
  | stop success => rfl
  | world effect next ih => exact ih _
  | call sender r next ih =>
    simp only [ofRouterScript, Script.run, RouterScript.run]
    cases h : request env (fun address routerCalldata gas =>
        router (address, routerCalldata, gas)) sender r s with
    | error reason =>
      have hattempt : attempt (nestedCall env router sender (.request r)) s = s :=
        attempt_error h
      rw [hattempt]
      exact ih _ _
    | ok result =>
      have hattempt : attempt (nestedCall env router sender (.request r)) s = result.2 :=
        attempt_ok h
      rw [hattempt]
      exact ih _ _

theorem routerCallAt_eq (routers : Routers τ) (depth : ℕ) (router : Address)
    (routerCalldata : Bytes) (gas : Element) :
    routerCallAt env routers depth router routerCalldata gas =
      calleeAt id (nestedCall env) (ofRouters routers) depth (router, routerCalldata, gas) := by
  induction depth generalizing router routerCalldata gas with
  | zero => rfl
  | succ depth ih =>
    funext s
    have hcall : routerCallAt env routers depth = fun address data g =>
        calleeAt id (nestedCall env) (ofRouters routers) depth (address, data, g) := by
      funext address data g
      exact ih address data g
    have hrun := ofRouterScript_run env (calleeAt id (nestedCall env) (ofRouters routers) depth)
      (routers router routerCalldata gas s) s
    rw [← hcall] at hrun
    simp only [routerCallAt, calleeAt]
    change _ = Except.ok (((ofRouterScript (routers router routerCalldata gas s)).run id
      (nestedCall env (calleeAt id (nestedCall env) (ofRouters routers) depth)) s).1, _)
    rw [← hrun]
    rfl

/-- Runs whose routers only send requests are runs with nested calls. -/
theorem runCalls_eq_nested (routers : Routers τ) (depth : ℕ) (s : Rollup τ)
    (txs : List (Address × Call τ)) :
    runCalls env routers depth s txs =
      runNestedCalls env (ofRouters routers) depth s txs := by
  have hcall : routerCallAt env routers depth = fun address data g =>
      calleeAt id (nestedCall env) (ofRouters routers) depth (address, data, g) := by
    funext address data g
    exact routerCallAt_eq env routers depth address data g
  have hstep : step env routers depth = fun t tx => attempt (nestedCall env
      (calleeAt id (nestedCall env) (ofRouters routers) depth) tx.1 tx.2) t := by
    funext t tx
    unfold step
    rw [hcall]
    cases h : call env (fun address data g =>
        calleeAt id (nestedCall env) (ofRouters routers) depth (address, data, g)) tx.1 tx.2 t with
    | error reason => exact (attempt_error h).symm
    | ok result => exact (attempt_ok h).symm
  unfold runCalls runNestedCalls runNested
  rw [hstep]

end Nested

section Logged

/-- Something that takes note of entries. -/
class Notes (ω : Type) where
  add : ω → Entry → ω

instance notes_list : Notes (List Entry) := ⟨fun log e => log ++ [e]⟩

abbrev NotedM (τ ω α : Type) := Transaction Revert (Rollup τ × ω) α

abbrev Logged (τ : Type) := Rollup τ × List Entry

abbrev LoggedM (τ α : Type) := Transaction Revert (Logged τ) α

variable {ω : Type}

def silently (x : RollupM τ α) : NotedM τ ω α :=
  fun p => (x p.1).map fun r => (r.1, (r.2, p.2))

variable [Notes ω]

def note (e : Entry) : NotedM τ ω Unit := modify fun p => (p.1, Notes.add p.2 e)

variable (env : Externals τ) (router : Address × Bytes × Element → NotedM τ ω Bool)

def loggedExecuteBurnToAddress (nullifier value : Element) : NotedM τ ω Bool := do
  let s ← silently get
  let b := s.burns nullifier
  let success ← silently (executeBurnToAddress env nullifier value)
  note (if success = true then .paid nullifier b.toAddr value
    else .refused nullifier b.toAddr value)
  return success

def loggedRouterCallIfWhitelisted (address : Address) (routerCalldata : Bytes) (gas : Element) :
    NotedM τ ω Bool := do
  let s ← silently get
  if s.isRouterWhitelisted address = true then router (address, routerCalldata, gas)
  else return false

def loggedExecuteBurnToRouter (nullifier value : Element) : NotedM τ ω Bool := do
  let s ← silently get
  let b := s.burnsToRouter nullifier
  silently (require (b.amount = value) (.reason "RollupV6: Invalid burn amount"))
  silently (tokenCall fun chain => env.approve chain b.router value)
  let routerCallSuccess ← loggedRouterCallIfWhitelisted router b.router b.routerCalldata
    s.gasPerRouterCall
  silently (tokenCall fun chain => env.approve chain b.router 0#256)
  if routerCallSuccess = true then do
    note (.paid nullifier b.router value)
    return true
  else do
    let s' ← silently get
    if env.isBlacklisted s'.chain b.returnAddress = true then return false
    else do
      silently (tokenCall fun chain => env.transfer chain b.returnAddress b.amount)
      note (.paid nullifier b.returnAddress b.amount)
      return true

def loggedExecuteBurn (mb value : Element) : NotedM τ ω (Bool × Bool) := do
  let s ← silently get
  if s.burnsKind mb = 0#256 then
    if (s.burns mb).amount = 0#256 then return (false, false)
    else do
      let success ← loggedExecuteBurnToAddress env mb value
      return (true, success)
  else if s.burnsKind mb = 1#256 then do
    let success ← loggedExecuteBurnToRouter env router mb value
    return (true, success)
  else return (true, false)

def loggedVerifyTxn (mb value : Element) : NotedM τ ω Unit := do
  if value = 0#256 then return ()
  else do
    silently (setRolledUp mb)
    let s ← silently get
    if s.mints mb ≠ 0#256 then
      silently (require (s.mints mb = value) (.reason "RollupV6: Invalid mint amount"))
    else do
      note (.rolledUp mb value)
      let result ← loggedExecuteBurn env router mb value
      silently (require (result.1 = true) (.reason "RollupV6: Burn was not found"))

def loggedSubstituteBurn (sender : Address) (nullifier amount : Element) : NotedM τ ω Unit := do
  let s ← silently get
  silently (require (s.substitutedBurns nullifier = false)
    (.reason "RollupV6: Burn already substituted"))
  silently (require (s.rolledUpLeafs nullifier = false)
    (.reason "RollupV6: Leaf already rolled up"))
  silently (tokenCall fun chain => env.transferFrom chain sender env.address amount)
  note (.advanced nullifier sender amount)
  silently (modify fun s => { s with
    substitutedBurns := Function.update s.substitutedBurns nullifier true })
  let result ← loggedExecuteBurn env router nullifier amount
  silently (require (result.1 = true ∧ result.2 = true) (.reason "RollupV6: Burn failed"))
  silently (modify fun s => { s with
    burnsKind := Function.update s.burnsKind nullifier 0#256
    burns := Function.update s.burns nullifier ⟨sender, amount⟩ })
  note (.substituted nullifier sender amount)

/-- The registration a request ends with, if it is one. -/
def registration : Request → List Entry
  | .mint _ commitment value _ => [.minted commitment value]
  | .mintWithAuthorization _ commitment value _ _ _ _ _ _ _ _ _ _ _ =>
      [.minted commitment value]
  | .burn _ _ nullifier value _ _ => [.registered nullifier value]
  | .burnToAddress _ _ _ nullifier value _ _ => [.registered nullifier value]
  | .burnToRouter _ _ _ nullifier value _ _ _ _ _ => [.registered nullifier value]
  | .substituteBurn _ _ => []

def loggedVerifyBlock2 (sender : Address) (args : BlockArgs) : NotedM τ ω Unit := do
  silently (onlyProver sender)
  silently (modify fun s => s.updateValidatorSetIndex args.height)
  let s ← silently get
  let validatorSet := s.getValidators
  silently (require (args.oldRoot = s.currentRootHash)
    (.reason "Old root does not match the current root"))
  [0, 3, 6, 9, 12, 15].forM fun i =>
    loggedVerifyTxn env router (args.utxoHash (i + 1)) (args.utxoHash (i + 2))
  silently do
    let s' ← get
    require (s'.containsRootHashes ([0, 3, 6, 9, 12, 15].map args.utxoHash) = true)
      (.reason "Invalid recent roots")
    let minValidators := validatorSet.validatorsArray.length * 2 / 3 + 1
    require (minValidators ≤ args.signatures.length)
      (.reason "Not enough signatures from validators to verify block")
    require (args.height.toNat + 1 < 2 ^ 256) (.reason "Panic(0x11)")
    require (0 < args.signatures.length) (.reason "No signatures")
    verifySignatures env (sigMsg env args) validatorSet 0#160 args.signatures
    view (AggregateVerifierV1.verify env.aggregatePlonk args.aggrProof args.aggrInstances
      args.oldRoot args.newRoot args.utxoHashes)
    modify fun s => { s.addRootHash args.newRoot with
      blockHash := proposalHash env args
      blockHeight := args.height }

/-- Calls that reach no router are made without one. -/
def loggedCall (sender : Address) : Call τ → NotedM τ ω Unit
  | .request (.substituteBurn nullifier amount) =>
      loggedSubstituteBurn env router sender nullifier amount
  | .request r => do
      silently (request env (fun _ _ _ => return false) sender r)
      (registration r).forM note
  | .verifyBlock2 args => loggedVerifyBlock2 env router sender args
  | c => silently (call env (fun _ _ _ => return false) sender c)

def runLogged (routers : RouterCalls τ) (depth : ℕ) (p : Logged τ)
    (txs : List (Address × Call τ)) : Logged τ :=
  runNested Prod.fst (loggedCall env) routers depth p txs

end Logged

section Erasure

variable {ω : Type}

/-- The state without what is noted beside it. -/
abbrev erasing (ω : Type) : Rollup τ × ω → Rollup τ := Prod.fst

theorem silently_erases (x : RollupM τ α) : Erases (erasing ω) (silently x) x := by
  refine ⟨fun p => ?_⟩
  unfold silently
  cases x p.1 with
  | error reason => rfl
  | ok r => rfl

theorem bind_pure_erases {x : NotedM τ ω Unit} {y : NotedM τ ω Unit} {z : RollupM τ Unit}
    (hx : Erases (erasing ω) x z) (hy : Erases (erasing ω) y (pure () : RollupM τ Unit)) :
    Erases (erasing ω) (x >>= fun _ => y) z := by
  have h := erases_bind hx fun _ => hy
  rwa [bind_pure_unit] at h

variable [Notes ω]

theorem note_erases (e : Entry) :
    Erases (erasing ω) (note e : NotedM τ ω Unit) (pure () : RollupM τ Unit) := ⟨fun _ => rfl⟩

/-- A note before a transaction is not seen by the state. -/
theorem note_bind_erases (e : Entry) {x : NotedM τ ω α} {y : RollupM τ α}
    (h : Erases (erasing ω) x y) :
    Erases (erasing ω) (note e >>= fun _ => x) y := ⟨fun p => h.erased (p.1, Notes.add p.2 e)⟩

variable (env : Externals τ) {router : Address × Bytes × Element → NotedM τ ω Bool}
  {router' : Address × Bytes × Element → RollupM τ Bool}

theorem loggedExecuteBurnToAddress_erases (nullifier value : Element) :
    Erases (erasing ω) (loggedExecuteBurnToAddress env nullifier value)
      (executeBurnToAddress env nullifier value) := by
  have h : Erases (erasing ω) (loggedExecuteBurnToAddress env nullifier value)
      ((get : RollupM τ (Rollup τ)) >>= fun _ =>
        executeBurnToAddress env nullifier value >>= pure) := by
    unfold loggedExecuteBurnToAddress
    apply erases_bind (silently_erases get)
    intro s
    apply erases_bind (silently_erases _)
    intro success
    exact note_bind_erases _ (erases_pure success)
  rw [bind_pure] at h
  exact h

variable (hrouter : ∀ args, Erases (erasing ω) (router args) (router' args))

include hrouter

theorem loggedExecuteBurnToRouter_erases (nullifier value : Element) :
    Erases (erasing ω) (loggedExecuteBurnToRouter env router nullifier value)
      (executeBurnToRouter env (fun address routerCalldata gas =>
        router' (address, routerCalldata, gas)) nullifier value) := by
  unfold loggedExecuteBurnToRouter executeBurnToRouter
  apply erases_bind (silently_erases get)
  intro s
  apply erases_bind (silently_erases _)
  intro _
  apply erases_bind (silently_erases _)
  intro _
  apply erases_bind
  · apply erases_bind (silently_erases get)
    intro t
    exact erases_ite _ (hrouter _) (erases_pure false)
  intro success
  apply erases_bind (silently_erases _)
  intro _
  apply erases_ite
  · exact note_bind_erases _ (erases_pure true)
  · apply erases_bind (silently_erases get)
    intro s'
    apply erases_ite _ (erases_pure false)
    apply erases_bind (silently_erases _)
    intro _
    exact note_bind_erases _ (erases_pure true)

theorem loggedExecuteBurn_erases (mb value : Element) :
    Erases (erasing ω) (loggedExecuteBurn env router mb value)
      (executeBurn env (fun address routerCalldata gas =>
        router' (address, routerCalldata, gas)) mb value) := by
  unfold loggedExecuteBurn executeBurn
  apply erases_bind (silently_erases get)
  intro s
  apply erases_ite
  · apply erases_ite _ (erases_pure _)
    exact erases_bind (loggedExecuteBurnToAddress_erases env mb value) fun _ => erases_pure _
  · apply erases_ite _ _ (erases_pure _)
    exact erases_bind (loggedExecuteBurnToRouter_erases env hrouter mb value)
      fun _ => erases_pure _

theorem loggedVerifyTxn_erases (mb value : Element) :
    Erases (erasing ω) (loggedVerifyTxn env router mb value)
      (verifyTxn env (fun address routerCalldata gas =>
        router' (address, routerCalldata, gas)) mb value) := by
  unfold loggedVerifyTxn verifyTxn
  apply erases_ite _ (erases_pure ())
  apply erases_bind (silently_erases _)
  intro _
  apply erases_bind (silently_erases get)
  intro s
  apply erases_ite _ (silently_erases _)
  apply note_bind_erases
  exact erases_bind (loggedExecuteBurn_erases env hrouter mb value) fun _ => silently_erases _

theorem loggedSubstituteBurn_erases (sender : Address) (nullifier amount : Element) :
    Erases (erasing ω) (loggedSubstituteBurn env router sender nullifier amount)
      (substituteBurn env (fun address routerCalldata gas =>
        router' (address, routerCalldata, gas)) sender nullifier amount) := by
  unfold loggedSubstituteBurn substituteBurn
  apply erases_bind (silently_erases get)
  intro s
  apply erases_bind (silently_erases _)
  intro _
  apply erases_bind (silently_erases _)
  intro _
  apply erases_bind (silently_erases _)
  intro _
  apply note_bind_erases
  apply erases_bind (silently_erases _)
  intro _
  apply erases_bind (loggedExecuteBurn_erases env hrouter nullifier amount)
  intro result
  apply erases_bind (silently_erases _)
  intro _
  exact bind_pure_erases (silently_erases _) (note_erases _)

theorem loggedVerifyBlock2_erases (sender : Address) (args : BlockArgs) :
    Erases (erasing ω) (loggedVerifyBlock2 env router sender args)
      (verifyBlock2 env (fun address routerCalldata gas =>
        router' (address, routerCalldata, gas)) sender args) := by
  unfold loggedVerifyBlock2 verifyBlock2
  apply erases_bind (silently_erases _)
  intro _
  apply erases_bind (silently_erases _)
  intro _
  apply erases_bind (silently_erases get)
  intro s
  apply erases_bind (silently_erases _)
  intro _
  apply erases_bind
  · exact erases_forM _ fun i => loggedVerifyTxn_erases env hrouter _ _
  · intro _
    exact silently_erases _

theorem loggedCall_erases (sender : Address) (c : Call τ) :
    Erases (erasing ω) (loggedCall env router sender c) (nestedCall env router' sender c) := by
  have hnotes : ∀ entries : List Entry,
      Erases (erasing ω) (entries.forM (note : Entry → NotedM τ ω Unit))
        (pure () : RollupM τ Unit) := by
    intro entries
    induction entries with
    | nil => exact erases_pure ()
    | cons e rest ih => exact note_bind_erases e ih
  cases c with
  | request r =>
    cases r with
    | substituteBurn nullifier amount =>
      exact loggedSubstituteBurn_erases env hrouter sender nullifier amount
    | _ => exact bind_pure_erases (silently_erases _) (hnotes _)
  | verifyBlock2 args => exact loggedVerifyBlock2_erases env hrouter sender args
  | _ => exact silently_erases _

omit hrouter in
/-- The log is written beside the state of the contract. -/
theorem runLogged_state (routers : RouterCalls τ) (depth : ℕ) (s : Rollup τ)
    (log : List Entry) (txs : List (Address × Call τ)) :
    (runLogged env routers depth (s, log) txs).1 = runNestedCalls env routers depth s txs :=
  runNested_erases id routers (fun _ _ h sender c => loggedCall_erases env h sender c) depth
    (s, log) txs

end Erasure
end PayyRollup.PaymentLog
