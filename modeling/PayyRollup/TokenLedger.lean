import Mathlib.Algebra.BigOperators.Group.Finset.Piecewise
import Mathlib.Data.FinEnum
import PayyRollup.PaymentEffects

/-!
The money of the rollup contract. A ledger reads the balance of the contract and the
allowances it has given off the token; a transfer moves the exact amount or reverts, and
the world around the contract spends no more of its balance than of its allowances. Then
what is left after the allowances never falls behind the deposits and advances less the
payments, on every run with nested calls.
-/
namespace PayyRollup.TokenLedger

open ScalarField VerifierContracts Transactions RollupState RollupCalls CallBacks
  PaymentLog PaymentEffects

variable {τ : Type}

/-- The token as the contract knows it: its own balance, and what others may take of it. -/
structure Ledger (env : Externals τ) where
  balance : τ → ℕ
  allowance : τ → Address → ℕ
  transfer : ∀ c toAddr x c', env.transfer c toAddr x = .ok c' →
    balance c' + (if toAddr = env.address then 0 else x.toNat) = balance c ∧
      allowance c' = allowance c
  approve : ∀ c spender x c', env.approve c spender x = .ok c' →
    balance c' = balance c ∧ allowance c' = Function.update (allowance c) spender x.toNat
  transferFrom : ∀ c sender x c', sender ≠ env.address →
    env.transferFrom c sender env.address x = .ok c' →
    balance c' = balance c + x.toNat ∧ allowance c' = allowance c
  transferFrom_self : ∀ c x c', env.transferFrom c env.address env.address x = .ok c' →
    balance c' = balance c ∧ x.toNat ≤ allowance c env.address ∧
      allowance c' = Function.update (allowance c) env.address
        (allowance c env.address - x.toNat)
  receiveWithAuthorization : ∀ c payer x validAfter validBefore nonce v r s c',
    env.receiveWithAuthorization c payer env.address x validAfter validBefore nonce v r s =
      .ok c' →
    balance c' = balance c + x.toNat ∧ allowance c' = allowance c

/-- What the amounts of the entries of one kind come to. -/
def total (amountIn : Entry → ℕ) (log : List Entry) : ℕ := (log.map amountIn).sum

def mintedIn : Entry → ℕ
  | .minted _ a => a.toNat
  | _ => 0

def advancedIn : Entry → ℕ
  | .advanced _ _ a => a.toNat
  | _ => 0

def paidIn : Entry → ℕ
  | .paid _ _ a => a.toNat
  | _ => 0

def rolledUpIn : Entry → ℕ
  | .rolledUp _ a => a.toNat
  | _ => 0

@[simp] theorem total_append (amountIn : Entry → ℕ) (log more : List Entry) :
    total amountIn (log ++ more) = total amountIn log + total amountIn more := by
  unfold total
  rw [List.map_append, List.sum_append]

@[simp] theorem total_nil (amountIn : Entry → ℕ) : total amountIn [] = 0 := rfl

@[simp] theorem total_singleton (amountIn : Entry → ℕ) (e : Entry) :
    total amountIn [e] = amountIn e := by
  unfold total
  rw [List.map_singleton, List.sum_singleton]

section Funds

variable {env : Externals τ} (ledger : Ledger env)

/-- What others may take of the balance together. -/
def Ledger.allowed (c : τ) : ℕ := ∑ spender, ledger.allowance c spender

/-- The world spends of the balance at most what it uses up of the allowances. -/
def Ledger.Fair (effect : τ → τ) : Prop :=
  ∀ c, ledger.balance c + ledger.allowed (effect c) ≤ ledger.balance (effect c) + ledger.allowed c

/-- The deposits and payments of the log are covered in the later state if they were in the
earlier one. -/
def Ledger.Covers (p p' : Logged τ) : Prop :=
  ledger.balance p.1.chain + total paidIn p.2 + ledger.allowed p'.1.chain +
      total mintedIn p'.2 + total advancedIn p'.2 ≤
    ledger.balance p'.1.chain + total paidIn p'.2 + ledger.allowed p.1.chain +
      total mintedIn p.2 + total advancedIn p.2

instance : IsPreorder (Logged τ) ledger.Covers where
  refl _ := le_refl _
  trans p p' p'' h h' := by
    unfold Ledger.Covers at *
    omega

theorem sum_update_add (f : Address → ℕ) (spender : Address) (x : ℕ) :
    ∑ a, Function.update f spender x a + f spender = ∑ a, f a + x := by
  have hmem := Finset.mem_univ spender
  have hrest := Finset.add_sum_erase Finset.univ f hmem
  rw [Finset.sum_update_of_mem hmem, Finset.sdiff_singleton_eq_erase]
  omega

theorem approve_allowed {c c' : τ} {spender : Address} {x : Element}
    (h : env.approve c spender x = .ok c') :
    ledger.balance c' = ledger.balance c ∧
      ledger.allowed c' + ledger.allowance c spender = ledger.allowed c + x.toNat := by
  obtain ⟨hbalance, hallowance⟩ := ledger.approve c spender x c' h
  refine ⟨hbalance, ?_⟩
  unfold Ledger.allowed
  rw [hallowance]
  exact sum_update_add _ spender _

/-- An allowance that is reset before anyone spends of it costs nothing. -/
theorem reset_allowed {c c₁ c₂ : τ} {spender : Address} {x : Element}
    (happrove : env.approve c spender x = .ok c₁) (hreset : env.approve c₁ spender 0#256 = .ok c₂) :
    ledger.balance c₂ = ledger.balance c ∧ ledger.allowed c₂ ≤ ledger.allowed c := by
  obtain ⟨hbalance, hsum⟩ := approve_allowed ledger happrove
  obtain ⟨hbalance', hsum'⟩ := approve_allowed ledger hreset
  obtain ⟨-, hallowance⟩ := ledger.approve c spender x c₁ happrove
  have hspender : ledger.allowance c₁ spender = x.toNat := by
    rw [hallowance, Function.update_self]
  have hzero : (0#256 : Element).toNat = 0 := rfl
  omega

theorem transfer_balance {c c' : τ} {toAddr : Address} {x : Element}
    (h : env.transfer c toAddr x = .ok c') :
    ledger.balance c ≤ ledger.balance c' + x.toNat ∧ ledger.allowed c' = ledger.allowed c := by
  obtain ⟨hbalance, hallowance⟩ := ledger.transfer c toAddr x c' h
  refine ⟨?_, ?_⟩
  · split at hbalance <;> omega
  · unfold Ledger.allowed
    rw [hallowance]

theorem transferFrom_balance {c c' : τ} {sender : Address} {x : Element}
    (h : env.transferFrom c sender env.address x = .ok c') :
    ledger.balance c + x.toNat + ledger.allowed c' ≤ ledger.balance c' + ledger.allowed c := by
  by_cases hself : sender = env.address
  · subst hself
    obtain ⟨hbalance, hle, hallowance⟩ := ledger.transferFrom_self c x c' h
    have hsum := sum_update_add (ledger.allowance c) env.address
      (ledger.allowance c env.address - x.toNat)
    unfold Ledger.allowed
    rw [hallowance]
    omega
  · obtain ⟨hbalance, hallowance⟩ := ledger.transferFrom c sender x c' hself h
    unfold Ledger.allowed
    rw [hallowance, hbalance]

theorem deposit_balance {c c' : τ} {x : Element} (h : Deposits env c x c') :
    ledger.balance c + x.toNat + ledger.allowed c' ≤ ledger.balance c' + ledger.allowed c := by
  rcases h with ⟨sender, hdeposit⟩ | ⟨payer, _, _, _, _, _, _, hdeposit⟩
  · exact transferFrom_balance ledger hdeposit
  · obtain ⟨hbalance, hallowance⟩ := ledger.receiveWithAuthorization _ _ _ _ _ _ _ _ _ _ hdeposit
    unfold Ledger.allowed
    rw [hallowance, hbalance]

variable {router : Address × Bytes × Element → LoggedM τ Bool} {p p' : Logged τ}
  {n v : Element}

/-- A payment is noted for what it costs. -/
theorem pays_covers
    (hrouter : ∀ args s s', Commits (router args) s true s' → ledger.Covers s s')
    {result : Bool × Bool} (h : Pays env router n v p result p') : ledger.Covers p p' := by
  unfold Ledger.Covers at *
  cases h with
  | missing _ _ => exact le_refl _
  | transferred chain _ _ _ htransfer =>
    obtain ⟨hbalance, hallowed⟩ := transfer_balance ledger htransfer
    simp only [total_append, total_singleton, paidIn, mintedIn, advancedIn]
    omega
  | refused _ _ _ =>
    simp only [total_append, total_singleton, paidIn, mintedIn, advancedIn]
    omega
  | routed chain chain' t _ _ happrove hcalled hreset =>
    obtain ⟨hbalance, hallowed⟩ := approve_allowed ledger happrove
    obtain ⟨hbalance', hallowed'⟩ := approve_allowed ledger hreset
    have hstep := hrouter _ _ _ hcalled
    have hzero : (0#256 : Element).toNat = 0 := rfl
    simp only [total_append, total_singleton, paidIn, mintedIn, advancedIn] at hstep ⊢
    omega
  | returned chain₁ chain₂ chain₃ _ _ happrove hreset htransfer =>
    obtain ⟨hbalance, hallowed⟩ := reset_allowed ledger happrove hreset
    obtain ⟨hbalance', hallowed'⟩ := transfer_balance ledger htransfer
    simp only [total_append, total_singleton, paidIn, mintedIn, advancedIn]
    omega
  | withheld chain₁ chain₂ _ _ happrove hreset =>
    obtain ⟨hbalance, hallowed⟩ := reset_allowed ledger happrove hreset
    dsimp only
    omega
  | unknown _ _ => exact le_refl _

/-- Every step of the contract keeps its money covered. -/
theorem covers_lawful : Lawful env ledger.Fair ledger.Covers := by
  refine ⟨?_, ?_, ?_, ?_, ?_⟩
  · intro p s' hsame
    unfold Ledger.Covers
    rw [hsame.chain]
  · intro p effect hfair
    have h := hfair p.1.chain
    unfold Ledger.Covers
    dsimp only
    omega
  · intro p p' h
    unfold Ledger.Covers
    cases h with
    | mint chain commitment v _ hdeposit =>
      have h := deposit_balance ledger hdeposit
      simp only [total_append, total_singleton, paidIn, mintedIn, advancedIn]
      omega
    | toAddress n v toAddr _ _ _ =>
      simp only [total_append, total_singleton, paidIn, mintedIn, advancedIn]
      omega
    | toRouter n v address routerCalldata returnAddress _ _ _ =>
      simp only [total_append, total_singleton, paidIn, mintedIn, advancedIn]
      omega
  · intro router hrouter sender n v p p' h
    obtain ⟨chain, t, hadvance, hpays, rfl⟩ := h.executed
    have hdeposit := transferFrom_balance ledger hadvance
    have hpaid := pays_covers ledger
      (fun args s s' hs => (hrouter args).relates s true s' hs) hpays
    unfold Ledger.Covers at *
    simp only [total_append, total_singleton, paidIn, mintedIn, advancedIn] at hpaid ⊢
    omega
  · intro router hrouter n v p p' h
    cases h with
    | nothing _ => exact refl_of ledger.Covers p
    | mint _ => exact refl_of ledger.Covers p
    | burn success p' _ hpays =>
      have hpaid := pays_covers ledger
        (fun args s s' hs => (hrouter args).relates s true s' hs) hpays
      unfold Ledger.Covers at *
      simp only [total_append, total_singleton, paidIn, mintedIn, advancedIn] at hpaid ⊢
      omega

end Funds
end PayyRollup.TokenLedger
