import PayyRollup.SnapshotSenders

/-!
The routes that look up elements of the notes tree. An element is answered with the block that
its mark names: the height, the root and the transaction that has the element among its leaves.
Wherever a node stands on a chain, the transaction is found for every element that a committed
block brought, and the block is missing for every element that came with a snapshot, since its
mark is zero and the block of genesis is not stored. A list of elements passes over those that
are not in the tree, and fails with the first whose block is missing.
-/
namespace PayyRollup.ElementRoutes

open ScalarField SparseMerkle ElementHash SmirkTree NodeBlocks BlockValidation NodeRuns
  ChainHistory SnapshotSenders
open SmirkValues (elementHash)

variable {D : ℕ}

section Routes

variable (env : NodeEnv)

structure ElementResponse where
  element : Element
  height : ℕ
  rootHash : Element
  txnHash : CryptoHash
  deriving DecidableEq

inductive LookupError
  | elementNotInTree (element : Element)
  | blockNotFound (block : ℕ)
  | elementNotInTxn (element : Element) (blockHeight : ℕ)
  deriving DecidableEq

/-- The block is that of the mark of the element. -/
def getElementResponse (state : MarkedNode D) (element : Element) :
    Except LookupError ElementResponse :=
  if state.notesTree.tree.containsElement element = false then
    .error (.elementNotInTree element)
  else
    match state.blockStore.get (state.insertedIn element) with
    | none => .error (.blockNotFound (state.insertedIn element))
    | some block =>
        match block.content.state.txns.find? fun txn => decide (element ∈ txn.leaves) with
        | none => .error (.elementNotInTxn element block.height)
        | some txn =>
            .ok ⟨element, state.insertedIn element, block.rootHash, txn.hash env⟩

/-- The elements of a query once they are parsed; the first failure that is not a missing
element ends the list. -/
def listElements (state : MarkedNode D) : List Element → Except LookupError (List ElementResponse)
  | [] => .ok []
  | element :: rest =>
      match getElementResponse env state element with
      | .ok response => (listElements state rest).map (response :: ·)
      | .error (.elementNotInTree _) => listElements state rest
      | .error e => .error e

end Routes

section Lists

variable {env : NodeEnv} {state : MarkedNode D}

/-- What a lookup contributes to a list. -/
def found (env : NodeEnv) (state : MarkedNode D) (element : Element) : Option ElementResponse :=
  (getElementResponse env state element).toOption

/-- A list is answered when no element of it fails but for not being in the tree, and then has
the elements that are found, in the order of the query. -/
theorem listElements_ok (elements : List Element) (responses : List ElementResponse) :
    listElements env state elements = .ok responses ↔
      responses = elements.filterMap (found env state) ∧
        ∀ e ∈ elements, ∀ error, getElementResponse env state e = .error error →
          ∃ missing, error = .elementNotInTree missing := by
  induction elements generalizing responses with
  | nil =>
    rw [listElements, Except.ok.injEq, List.filterMap_nil]
    exact ⟨fun h => ⟨h.symm, by simp⟩, fun h => h.1.symm⟩
  | cons element rest ih =>
    rw [listElements, List.forall_mem_cons]
    cases hget : getElementResponse env state element with
    | ok response =>
      have hfound : found env state element = some response := by
        rw [found, hget]
        rfl
      rw [List.filterMap_cons_some hfound]
      cases hrest : listElements env state rest with
      | error e =>
        refine iff_of_false (by simp [Except.map]) ?_
        rintro ⟨-, -, hall⟩
        rw [(ih _).mpr ⟨rfl, hall⟩] at hrest
        cases hrest
      | ok others =>
        obtain ⟨rfl, hall⟩ := (ih others).mp hrest
        simp only [Except.map, Except.ok.injEq]
        exact ⟨fun h => ⟨h.symm, by simp, hall⟩, fun h => h.1.symm⟩
    | error e =>
      have hfound : found env state element = none := by
        rw [found, hget]
        rfl
      rw [List.filterMap_cons_none hfound]
      cases e with
      | elementNotInTree missing =>
        refine (ih responses).trans (and_congr_right fun _ => ?_)
        refine (and_iff_right fun error herror => ?_).symm
        exact ⟨missing, (Except.error.inj herror).symm⟩
      | blockNotFound block =>
        refine iff_of_false (by simp) ?_
        rintro ⟨-, hfirst, -⟩
        obtain ⟨missing, hmissing⟩ := hfirst _ rfl
        cases hmissing
      | elementNotInTxn element height =>
        refine iff_of_false (by simp) ?_
        rintro ⟨-, hfirst, -⟩
        obtain ⟨missing, hmissing⟩ := hfirst _ rfl
        cases hmissing

/-- A list is answered when no element of it fails but for not being in the tree. -/
theorem listElements_answered (elements : List Element) :
    (∃ responses, listElements env state elements = .ok responses) ↔
      ∀ e ∈ elements, ∀ error, getElementResponse env state e = .error error →
        ∃ missing, error = .elementNotInTree missing := by
  constructor
  · rintro ⟨responses, hok⟩
    exact ((listElements_ok elements responses).mp hok).2
  · intro hall
    exact ⟨_, (listElements_ok elements _).mpr ⟨rfl, hall⟩⟩

end Lists

/-- What a node on a chain answers for an element. -/
inductive Answered (env : NodeEnv) (badBlocks : List ℕ) (chain : ℕ → Block) (s : MarkedNode D)
    (e : Element) : Except LookupError ElementResponse → Prop
  | missing : e ∉ leavesUpTo badBlocks chain s.height →
      Answered env badBlocks chain s e (.error (.elementNotInTree e))
  | fromSnapshot : e ∈ leavesUpTo badBlocks chain s.height → s.insertedIn e = 0 →
      Answered env badBlocks chain s e (.error (.blockNotFound 0))
  | brought (height : ℕ) (txn : UtxoProof) : e ∈ leavesUpTo badBlocks chain s.height →
      s.insertedIn e = height → e ∈ leavesUpTo badBlocks chain height →
      (∀ below < height, e ∉ leavesUpTo badBlocks chain below) →
      txn ∈ (chain height).content.state.txns → e ∈ txn.leaves →
      Answered env badBlocks chain s e
        (.ok ⟨e, height, (chain height).rootHash, txn.hash env⟩)

section Reached

variable {env : NodeEnv} {config : Config} {chain : ℕ → Block} {s : MarkedNode D}

/-- The block that brought an element has it in one of its transactions. -/
theorem mem_txn_of_brought (badBlocks : List ℕ) (height : ℕ) (e : Element)
    (he : e ∈ leavesUpTo badBlocks chain height)
    (hfirst : ∀ below < height, e ∉ leavesUpTo badBlocks chain below) :
    ∃ txn ∈ (chain height).content.state.txns, e ∈ txn.leaves := by
  cases height with
  | zero => cases he
  | succ below =>
    have hadded := (List.mem_append.mp he).resolve_left (hfirst below (Nat.lt_succ_self below))
    have hleaf := ((mem_addedLeaves _ _ e).mp (Or.inr hadded)).resolve_left
      (hfirst below (Nat.lt_succ_self below))
    exact List.mem_flatMap.mp ((mem_nonNull _ e).mp hleaf).1

/-- The lookup finds the block of the mark and the transaction in it. -/
theorem answered_of_follows (hchain : Finalized D config.badBlocks chain env)
    (h : Follows env config.badBlocks chain s) (e : Element) :
    Answered env config.badBlocks chain s e (getElementResponse env s e) := by
  unfold getElementResponse
  by_cases hin : e ∈ leavesUpTo config.badBlocks chain s.height
  · have hcontains := (h.contains_iff hchain e).mpr hin
    rw [if_neg (by rw [hcontains]; exact Bool.noConfusion)]
    rcases h.marked e hin with hzero | ⟨hstored, hborn, hfirst⟩
    · have hgenesis : s.blockStore.get 0 = none := by
        by_contra hsome
        obtain ⟨block, hblock⟩ := Option.ne_none_iff_exists'.mp hsome
        exact absurd (h.shelved.block_eq 0 block hblock).2 (Nat.lt_irrefl 0)
      rw [hzero, hgenesis]
      exact .fromSnapshot hin hzero
    · obtain ⟨block, hblock⟩ := Option.ne_none_iff_exists'.mp hstored
      obtain ⟨rfl, -⟩ := h.shelved.block_eq _ block hblock
      rw [hblock]
      dsimp only
      cases hfind : (chain (s.insertedIn e)).content.state.txns.find? fun txn =>
          decide (e ∈ txn.leaves) with
      | none =>
        obtain ⟨txn, htxn, hleaf⟩ := mem_txn_of_brought _ _ e hborn hfirst
        have hnone := List.find?_eq_none.mp hfind txn htxn
        exact absurd (decide_eq_true hleaf) hnone
      | some txn =>
        have hleaf : decide (e ∈ txn.leaves) = true :=
          List.find?_some (p := fun txn : UtxoProof => decide (e ∈ txn.leaves)) hfind
        exact .brought _ txn hin rfl hborn hfirst (List.mem_of_find?_eq_some hfind)
          (of_decide_eq_true hleaf)
  · have hcontains : s.notesTree.tree.containsElement e = false := by
      rw [← Bool.not_eq_true, h.contains_iff hchain]
      exact hin
    rw [if_pos hcontains]
    exact .missing hin

/-- A list is answered unless it names an element of a snapshot. -/
theorem list_answered_iff (hchain : Finalized D config.badBlocks chain env)
    (h : Follows env config.badBlocks chain s) (elements : List Element) :
    (∃ responses, listElements env s elements = .ok responses) ↔
      ∀ e ∈ elements, e ∈ leavesUpTo config.badBlocks chain s.height → s.insertedIn e ≠ 0 := by
  rw [listElements_answered]
  refine forall₂_congr fun e _ => ?_
  have hanswer := answered_of_follows hchain h e
  generalize hresult : getElementResponse env s e = result at hanswer
  cases hanswer with
  | missing hout =>
    refine iff_of_true (fun error herror => ?_) fun hin => absurd hin hout
    exact ⟨e, (Except.error.inj herror).symm⟩
  | fromSnapshot hin hzero =>
    refine iff_of_false (fun herrors => ?_) fun hmark => hmark hin hzero
    obtain ⟨missing, hmissing⟩ := herrors _ rfl
    cases hmissing
  | brought height txn hin hmark hborn hfirst htxn hleaf =>
    refine iff_of_true (fun error herror => by cases herror) fun _ hzero => ?_
    rw [← hmark, hzero] at hborn
    cases hborn

end Reached

/-- Wherever a node of a chain stands, a lookup of an element finds the block and the transaction
that brought it, says that it is not in the tree, or lacks the block of a snapshot's element; the
error that the tree and the blocks disagree never occurs. A list fails for the last kind only. -/
theorem lookups_answered (env : NodeEnv) (config : Config) (overflowChecks : Bool)
    (chain : ℕ → Block) (pairs : Set (Element × Element))
    (hinj : (elementHash env.poseidon pairs).Injective)
    (hhashed : ∀ height, RootHashed (elementHash env.poseidon pairs) (D - 1)
      (chainTree D config.badBlocks chain height).leaf)
    (hchain : Finalized D config.badBlocks chain env) (s : MarkedNode D)
    (hs : Reachable env config overflowChecks chain s) :
    (∀ e, Answered env config.badBlocks chain s e (getElementResponse env s e)) ∧
      ∀ elements, (∃ responses, listElements env s elements = .ok responses) ↔
        ∀ e ∈ elements, e ∈ leavesUpTo config.badBlocks chain s.height → s.insertedIn e ≠ 0 := by
  have hfollows := hs.follows hchain (rootsApart_of_injective hinj hhashed)
  exact ⟨answered_of_follows hchain hfollows, list_answered_iff hchain hfollows⟩

section Jumped

open ProverRecovery

/-- After the jump to the third block, the element of the first is found and a third one is
passed over, but a list with the element of the second fails. -/
theorem lookups_answered_jumped :
    (∀ e, Answered sumEnv [] sumChain jumpedAhead e (getElementResponse sumEnv jumpedAhead e)) ∧
      (∃ responses, listElements sumEnv jumpedAhead [2, 3] = .ok responses) ∧
      ¬∃ responses, listElements sumEnv jumpedAhead [2, 1] = .ok responses := by
  obtain ⟨hanswered, hlists⟩ := lookups_answered sumEnv sumConfig true sumChain
    {pair | pair ∈ SmirkStorage.sumPairs} SmirkStorage.sumHash_injective sumChain_hashed
    sumChain_finalized jumpedAhead jumpedAhead_reachable
  have hheight : jumpedAhead.height = 0 + 2 := by decide +kernel
  have hleaves : leavesUpTo sumConfig.badBlocks sumChain jumpedAhead.height = [2, 1] := by
    rw [hheight]
    exact sumChain_leaves 0
  have hfirst : jumpedAhead.insertedIn 2 = 1 := by decide +kernel
  have hsecond : jumpedAhead.insertedIn 1 = 0 := by decide +kernel
  refine ⟨hanswered, (hlists [2, 3]).mpr fun e he hin => ?_, fun hlist => ?_⟩
  · rw [hleaves] at hin
    have htwo : e = 2 := by
      rcases List.mem_pair.mp he with rfl | rfl
      · rfl
      · exact absurd hin (by decide)
    rw [htwo, hfirst]
    exact Nat.one_ne_zero
  · exact (hlists [2, 1]).mp hlist 1 (by decide) (by rw [hleaves]; decide) hsecond

end Jumped

end PayyRollup.ElementRoutes
