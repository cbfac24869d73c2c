import PayyRollup.ElementRoutes
import PayyRollup.SlowSync

/-!
The faucet route puts the commitment of a new note straight into the notes tree of the node that
is asked, past the blocks. No block of the chain brings the note, so from then on the roots of
the node are not those of the chain: it takes no further block and no snapshot, whatever else it
is asked, and stays at its height with the blocks it has. No lookup finds the note. A restart
finds the tree out of step with the store and starts from genesis, or panics where the block
before the last is not stored.
-/
namespace PayyRollup.FaucetForks

open ScalarField RollupState SparseMerkle ElementHash Notes SmirkTree NodeBlocks BlockCaches
  BlockValidation BlockCommit NodeRuns FastSync ChainHistory SlowSync ElementRoutes
open SmirkNode hiding Node
open SmirkValues (elementHash)

variable {D : ℕ}

section Faucet

def noteRcmExt : Fr := 0

def restore (address psi value source : Element) : Note := ⟨address, psi, value, source⟩

/-- The seed is drawn at random. -/
def newWithSource (hash : List Fr → Fr) (rseed : Fr) (address value source : Element) : Note :=
  restore address (Element.fromBase (hash [rseed, noteRcmExt])) value source

def newNote (hash : List Fr → Fr) (rseed : Fr) (address value : Element) : Note :=
  newWithSource hash rseed address value address

structure FaucetRequest where
  address : Element
  amount : ℕ

inductive FaucetError
  | batch (source : CollisionError)
  | insert (source : StorageError)

structure FaucetResponse where
  amount : ℕ
  address : Element
  psi : Element
  value : Element
  commitment : Element

variable (env : NodeEnv)

def faucetNote (rseed : Fr) (req : FaucetRequest) : Note :=
  newNote env.poseidon rseed req.address (BitVec.ofNat 256 req.amount)

def faucetCommitment (rseed : Fr) (req : FaucetRequest) : Element :=
  (faucetNote env rseed req).commitment env.poseidon

/-- Insert the note into the tree, with no block and no transaction. -/
def faucet (written : Bool) (rseed : Fr) (req : FaucetRequest) (self : Node D) :
    Node D × Outcome FaucetError FaucetResponse :=
  match Batch.fromEntries D [faucetCommitment env rseed req] with
  | .error collision => (self, .error (.err (.batch collision)))
  | .ok batch =>
      let inserted := self.ledger.notesTree.insertBatch env.poseidon batch written
      ({ self with ledger := ⟨self.ledger.blockStore, inserted.1⟩ },
        (inserted.2.mapError (Failure.map FaucetError.insert)).map fun _ =>
          ⟨req.amount, req.address, (faucetNote env rseed req).psi,
            (faucetNote env rseed req).value, faucetCommitment env rseed req⟩)

/-- The note is marked with the height of the node. -/
def markedFaucet (written : Bool) (rseed : Fr) (req : FaucetRequest) (self : MarkedNode D) :
    MarkedNode D :=
  ⟨(faucet env written rseed req self.node).1, self.marks self.height⟩

end Faucet

section Insertion

variable {env : NodeEnv} {s : Node D} (h : s.ledger.notesTree.tree.Valid env.poseidon)
  (written : Bool) (rseed : Fr) (req : FaucetRequest)

/-- A call of the faucet that inserts its note, whether or not the note is written. -/
structure Inserted (env : NodeEnv) (s s' : Node D)
    (h : s.ledger.notesTree.tree.Valid env.poseidon) (written : Bool) (c : Element) : Prop where
  cache : s'.blockCache = s.blockCache
  store : s'.ledger.blockStore = s.ledger.blockStore
  not_null : c ≠ Element.nullHash
  vacant : h.sparse.leaf (bits D c) = 0
  laid : ∃ h' : s'.ledger.notesTree.tree.Valid env.poseidon, h'.sparse = h.sparse.laid [c]
  db : s'.ledger.notesTree.db =
    if written then s.ledger.notesTree.db ++ [c] else s.ledger.notesTree.db

/-- A written note keeps the tree and its database in step. -/
theorem Inserted.stored {s s' : Node D} {h : s.ledger.notesTree.tree.Valid env.poseidon}
    {written : Bool} {c : Element} (hinserted : Inserted env s s' h written c)
    (hstored : s.ledger.notesTree.Stored env.poseidon) (hwritten : written = true) :
    s'.ledger.notesTree.Stored env.poseidon := by
  obtain ⟨h', hlaid⟩ := hinserted.laid
  have hdb := hinserted.db
  rw [if_pos hwritten] at hdb
  refine hstored.append [c] (fun e he => ?_) ⟨List.pairwise_singleton _ c, fun e he => ?_⟩ h'
    hlaid hdb
  · rw [List.mem_singleton.mp he]
    exact hinserted.not_null
  · rw [List.mem_singleton.mp he]
    exact hinserted.vacant

theorem fromEntries_singleton (e : Element) :
    Batch.fromEntries D [e] = .ok ⟨[e], List.pairwise_singleton _ e⟩ :=
  (Batch.fromEntries_ok _ _).mpr ⟨List.pairwise_singleton _ e, rfl⟩

/-- A call inserts its note into a free slot and is answered if the note is written; a note
without value panics there, and a taken slot fails. -/
theorem faucet_cases :
    let result := faucet env written rseed req s
    let c := faucetCommitment env rseed req
    (Inserted env s result.1 h written c ∧ ((∃ response, result.2 = .ok response) ↔
        written = true)) ∨
      (result.1 = s ∧ (∃ failure, result.2 = .error failure) ∧
        (c = Element.nullHash ∨ h.sparse.leaf (bits D c) ≠ 0)) := by
  intro result c
  let batch : Batch D := ⟨[c], List.pairwise_singleton _ c⟩
  have hbatch : Batch.fromEntries D [c] = .ok batch := fromEntries_singleton c
  have hresult : result = ({ s with ledger := ⟨s.ledger.blockStore,
        (s.ledger.notesTree.insertBatch env.poseidon batch written).1⟩ },
      ((s.ledger.notesTree.insertBatch env.poseidon batch written).2.mapError
        (Failure.map FaucetError.insert)).map fun _ =>
          ⟨req.amount, req.address, (faucetNote env rseed req).psi,
            (faucetNote env rseed req).value, c⟩) := by
    simp only [result, faucet]
    rw [hbatch]
  by_cases hvacant : h.sparse.leaf (bits D c) = 0
  · have hall : ∀ e ∈ batch.entries, h.sparse.leaf (bits D e) = 0 := by
      intro e he
      rwa [List.mem_singleton.mp he]
    by_cases hnull : c = Element.nullHash
    · have hpanic := insertBatch_null h batch (hnull ▸ List.mem_singleton_self c) hall written
      rw [hresult, hpanic]
      exact Or.inr ⟨rfl, ⟨_, rfl⟩, Or.inl hnull⟩
    · obtain ⟨hlaid, hok, -, hdb⟩ := insertBatch_free h batch
        (fun e he => by rwa [List.mem_singleton.mp he]) hall written
      rw [hresult]
      refine Or.inl ⟨⟨rfl, rfl, hnull, hvacant, hlaid, hdb⟩, ?_⟩
      rw [← hok.trans (or_iff_left (List.cons_ne_nil c []))]
      dsimp only
      generalize (s.ledger.notesTree.insertBatch env.poseidon batch written).2 = outcome
      cases outcome with
      | ok u => exact iff_of_true ⟨_, rfl⟩ rfl
      | error e => exact iff_of_false (by simp [Except.mapError, Except.map]) (by simp)
  · obtain ⟨failure, hcollision⟩ := insertBatch_collision h batch
      (fun hall => hvacant (hall c (List.mem_singleton_self c))) written
    rw [hresult, hcollision]
    exact Or.inr ⟨rfl, ⟨_, rfl⟩, Or.inr hvacant⟩

end Insertion

section Forked

variable (env : NodeEnv) (config : Config) (chain : ℕ → Block)

/-- What a node that is not a validator may be asked for. -/
inductive NodeCall
  | receiveProposal (block : Block)
  | tick (input : TickInput)
  | turn (validatorsForHeight : ℕ → List Address) (io : CommitIo)
  | snapshotChunk (written : Bool) (chunk : SnapshotChunkFast)
  | faucet (written : Bool) (rseed : Fr) (req : FaucetRequest)

def call (overflowChecks : Bool) (self : Node D) : NodeCall → Node D
  | .receiveProposal block => NodeRuns.receiveProposal env config block self
  | .tick input => NodeRuns.tick env config input self
  | .turn validatorsForHeight io => (commitNext env config validatorsForHeight io self).1
  | .snapshotChunk written chunk =>
      (handleSnapshotChunkFast env config overflowChecks written chunk self).1
  | .faucet written rseed req => (faucet env written rseed req self).1

def calls (overflowChecks : Bool) (self : Node D) (events : List NodeCall) : Node D :=
  events.foldl (call env config overflowChecks) self

/-- Elements that contain the leaves of the chain. The pairs hashed in trees of them do not
collide. -/
structure Collisionless (D : ℕ) (badBlocks : List ℕ) (pairs : Set (Element × Element))
    (known : Set Element) : Prop where
  injective : (elementHash env.poseidon pairs).Injective
  hashed : ∀ T : SparseTree Element (bits D), (∀ e ∈ T, e ∈ known) →
    RootHashed (elementHash env.poseidon pairs) (D - 1) T.leaf
  leaves : ∀ height, ∀ e ∈ leavesUpTo badBlocks chain height, e ∈ known

/-- The blocks are of the chain, and the elements of the known ones. Where the writes are to
succeed, those of the faucet do. -/
def Honest (known : Set Element) (durable : Bool) : NodeCall → Prop
  | .receiveProposal block => ∃ k < 2 ^ 64, block = chain k
  | .tick _ => True
  | .turn _ _ => True
  | .snapshotChunk _ chunk => (∀ e ∈ chunk.elements, e ∈ known) ∧
      ∀ block, chunk.block = some block → ∃ k, 0 < k ∧ block = chain k
  | .faucet written rseed req => faucetCommitment env rseed req ∈ known ∧
      (durable = true → written = true)

/-- A node that follows the chain, and has heard only its blocks. -/
structure OnTrack (s : Node D) : Prop where
  follows : ∃ insertedIn, Follows env config.badBlocks chain ⟨s, insertedIn⟩
  carries : Carries env chain s.blockCache

/-- A node whose tree has an element of its own. -/
structure Forked (known : Set Element) (durable : Bool) (c : Element) (height : ℕ)
    (store : BlockStore) (s : Node D) : Prop where
  valid : s.ledger.notesTree.tree.Valid env.poseidon
  known : ∀ e ∈ valid.sparse, e ∈ known
  own : c ∈ valid.sparse
  carries : Carries env chain s.blockCache
  height_eq : s.blockCache.height = height
  store_eq : s.ledger.blockStore = store
  stored : durable = true → s.ledger.notesTree.Stored env.poseidon

end Forked

section Roots

variable {env : NodeEnv} {badBlocks : List ℕ} {chain : ℕ → Block}

/-- What is laid over a tree leaves its elements where they are, and brings no others. -/
theorem mem_laid_of_mem (T : SparseTree Element (bits D)) (xs : List Element) (e : Element)
    (he : e ∈ T) : e ∈ T.laid xs := by
  obtain ⟨hne, hleaf⟩ := he
  refine ⟨hne, ?_⟩
  rw [SparseTree.laid_leaf, overlay, if_neg (by rwa [hleaf]), hleaf]

theorem mem_of_mem_laid (T : SparseTree Element (bits D)) (xs : List Element) (e : Element)
    (he : e ∈ T.laid xs) : e ∈ T ∨ e ∈ xs := by
  obtain ⟨hne, hleaf⟩ := he
  rw [SparseTree.laid_leaf, overlay] at hleaf
  split at hleaf
  · right
    unfold resident at hleaf
    cases hfind : xs.find? fun x => bits D x = bits D e with
    | none =>
      rw [hfind] at hleaf
      exact absurd hleaf.symm hne
    | some found =>
      rw [hfind, Option.getD_some] at hleaf
      exact hleaf ▸ List.mem_of_find?_eq_some hfind
  · exact Or.inl ⟨hne, hleaf⟩

variable {pairs : Set (Element × Element)} {known : Set Element}
  (hknown : Collisionless env chain D badBlocks pairs known)
  (hchain : Finalized D badBlocks chain env)

include hknown hchain

/-- The root of a tree with an element of its own is none of the chain. -/
theorem root_ne_of_own (T : SparseTree Element (bits D)) (hT : ∀ e ∈ T, e ∈ known) (c : Element)
    (hc : c ∈ T) (hnew : ∀ height, c ∉ leavesUpTo badBlocks chain height) (height : ℕ)
    (hpos : 0 < height) :
    root (elementNode env.poseidon) (D - 1) T.leaf ≠ (chain height).rootHash := by
  obtain ⟨below, rfl⟩ : ∃ below, height = below + 1 := ⟨height - 1, by omega⟩
  rw [hchain.root_eq]
  intro hsame
  have hchained : ∀ e ∈ chainTree D badBlocks chain (below + 1), e ∈ known :=
    fun e he => hknown.leaves _ e ((hchain.mem_chainTree _ e).mp he)
  have hleaf := root_inj hknown.injective (D - 1) _ _ (hknown.hashed T hT)
    (hknown.hashed _ hchained) hsame (bits D c) (bits_length D c)
  refine hnew (below + 1) ((hchain.mem_chainTree _ c).mp ⟨hc.1, ?_⟩)
  rw [← hleaf, hc.2]

end Roots

section Steps

variable {env : NodeEnv} {config : Config} {chain : ℕ → Block} {pairs : Set (Element × Element)}
  {known : Set Element} {durable : Bool} {c : Element} {height : ℕ} {store : BlockStore}
  {s : Node D}
  (hknown : Collisionless env chain D config.badBlocks pairs known)
  (hchain : Finalized D config.badBlocks chain env) (hdistinct : Distinct env chain)
  (hmode : config.mode ≠ Mode.validator)
  (hnew : ∀ k, c ∉ leavesUpTo config.badBlocks chain k)
  (hgood : height + 1 ∉ config.badBlocks)
  (h : Forked env chain known durable c height store s)

include h

/-- Only the cache changes. -/
theorem Forked.withCache (blockCache : BlockCache) (hcarries : Carries env chain blockCache)
    (hheight : blockCache.height = s.blockCache.height) :
    Forked env chain known durable c height store { s with blockCache } :=
  ⟨h.valid, h.known, h.own, hcarries, hheight.trans h.height_eq, h.store_eq, h.stored⟩

include hdistinct hmode in
theorem Forked.receive (k : ℕ) (hk : k < 2 ^ 64) :
    Forked env chain known durable c height store (receiveProposal env config (chain k) s) := by
  rw [receiveProposal_of_mode hmode]
  exact h.withCache _ (h.carries.insert hdistinct k hk) (insert_height _)

include hknown hchain hnew hgood

/-- The block after the fork is never valid. -/
theorem Forked.rejects (validatorsForHeight : ℕ → List Address) :
    validateBlock env config validatorsForHeight (chain (height + 1)) s.ledger ≠ .ok () := by
  intro hok
  rcases validateBlock_ok validatorsForHeight _ s.ledger hok with hbad | ⟨-, hvalid⟩
  · rw [hchain.height_eq] at hbad
    exact hgood hbad
  · obtain ⟨-, hroot⟩ := (validate_ok _ _ _ _).mp hvalid
    obtain ⟨-, hlaid⟩ := (newRootHash_eq_some h.valid _ _).mp hroot
    refine root_ne_of_own hknown hchain (h.valid.sparse.laid
      (chain (height + 1)).content.state.leavesNonNull) ?_ c (mem_laid_of_mem _ _ c h.own) hnew
      (height + 1) (Nat.succ_pos height) hlaid.symm
    intro e he
    rcases mem_of_mem_laid _ _ e he with hold | hadded
    · exact h.known e hold
    · refine hknown.leaves (height + 1) e (List.mem_append_right _ ?_)
      rw [addedLeaves, if_neg (by rwa [hchain.height_eq])]
      exact hadded

theorem Forked.turn (validatorsForHeight : ℕ → List Address) (io : CommitIo) :
    Forked env chain known durable c height store
      (commitNext env config validatorsForHeight io s).1 := by
  rcases @commitNext_cases D env config validatorsForHeight io s with
    ⟨hsame, -⟩ | ⟨block, hnext, ⟨-, hturn⟩ | ⟨hok, -⟩⟩
  · rw [hsame]
    exact h
  · rw [hturn]
    exact h.withCache _ (h.carries.remove _) (remove_height _)
  · obtain rfl := h.carries.next block hnext
    rw [h.height_eq] at hok
    exact absurd hok (h.rejects hknown hchain hnew hgood validatorsForHeight)

theorem Forked.loop (validatorsForHeight : ℕ → List Address) (turns : ℕ) (io : ℕ → CommitIo) :
    Forked env chain known durable c height store
      (commitLoop env config validatorsForHeight turns io s) := by
  induction turns generalizing io s with
  | zero => exact h
  | succ turns ih =>
    have hturn := h.turn hknown hchain hnew hgood validatorsForHeight (io 0)
    rw [commitLoop]
    split
    · exact ih hturn _
    · exact hturn

include hmode in
theorem Forked.tick (input : TickInput) :
    Forked env chain known durable c height store (tick env config input s) := by
  have hvalidator : isValidatorForHeight config input.validatorsForHeight
      (s.blockCache.height + 1) = false := decide_eq_false fun hboth => hmode hboth.1
  unfold NodeRuns.tick
  rw [if_pos hvalidator]
  exact h.loop hknown hchain hnew hgood _ _ _

omit hgood

/-- A snapshot of the chain never has the root of the tree. -/
theorem Forked.snapshotChunk (overflowChecks written : Bool) (chunk : SnapshotChunkFast)
    (helements : ∀ e ∈ chunk.elements, e ∈ known)
    (hblock : ∀ block, chunk.block = some block → ∃ k, 0 < k ∧ block = chain k) :
    (handleSnapshotChunkFast env config overflowChecks written chunk s).1 = s := by
  cases hcase : chunk.block with
  | none =>
    unfold handleSnapshotChunkFast
    rw [hcase]
  | some block =>
    obtain ⟨k, hpos, rfl⟩ := hblock block hcase
    by_cases hcrowded : Crowded (bits D) h.valid.sparse.leaf
        (newElements s.ledger.notesTree.tree chunk.elements)
    · rw [handle_crowded h.valid _ overflowChecks written chunk hcase hcrowded]
    · have hrejected : ¬Accepted h.valid (chain k) chunk.elements := by
        intro haccepted
        refine root_ne_of_own hknown hchain _ (fun e he => ?_) c (mem_laid_of_mem _ _ c h.own)
          hnew k hpos haccepted.root
        rcases mem_of_mem_laid _ _ e he with hold | hadded
        · exact h.known e hold
        · exact helements e (List.mem_dedup.mp (List.mem_of_mem_filter hadded))
      obtain ⟨outcome, hhandled, -⟩ := handle_rejected h.valid _ overflowChecks written chunk hcase
        hcrowded hrejected
      rw [hhandled]

omit hknown hchain hnew

/-- The faucet puts in another element or none. -/
theorem Forked.faucet (written : Bool) (rseed : Fr) (req : FaucetRequest)
    (hcommitment : faucetCommitment env rseed req ∈ known)
    (hwritten : durable = true → written = true) :
    Forked env chain known durable c height store (faucet env written rseed req s).1 := by
  rcases faucet_cases h.valid written rseed req with ⟨hinserted, -⟩ | ⟨hsame, -⟩
  · obtain ⟨hvalid, hlaid⟩ := hinserted.laid
    refine ⟨hvalid, fun e he => ?_, hlaid ▸ mem_laid_of_mem _ _ c h.own,
      hinserted.cache ▸ h.carries, hinserted.cache ▸ h.height_eq,
      hinserted.store.trans h.store_eq, fun hdurable => ?_⟩
    · rw [hlaid] at he
      rcases mem_of_mem_laid _ _ e he with hold | hadded
      · exact h.known e hold
      · rwa [List.mem_singleton.mp hadded]
    · exact hinserted.stored (h.stored hdurable) (hwritten hdurable)
  · rw [hsame]
    exact h

include hknown hchain hdistinct hmode hnew hgood

theorem Forked.call (overflowChecks : Bool) (event : NodeCall)
    (hevent : Honest env chain known durable event) :
    Forked env chain known durable c height store (call env config overflowChecks s event) := by
  cases event with
  | receiveProposal block =>
    obtain ⟨k, hk, rfl⟩ := hevent
    exact h.receive hdistinct hmode k hk
  | tick input => exact h.tick hknown hchain hmode hnew hgood input
  | turn validatorsForHeight io => exact h.turn hknown hchain hnew hgood validatorsForHeight io
  | snapshotChunk written chunk =>
    have hsame := h.snapshotChunk hknown hchain hnew overflowChecks written chunk hevent.1 hevent.2
    change Forked env chain known durable c height store
      (handleSnapshotChunkFast env config overflowChecks written chunk s).1
    rw [hsame]
    exact h
  | faucet written rseed req => exact h.faucet written rseed req hevent.1 hevent.2

theorem Forked.calls (overflowChecks : Bool) (events : List NodeCall)
    (hevents : ∀ event ∈ events, Honest env chain known durable event) :
    Forked env chain known durable c height store (calls env config overflowChecks s events) := by
  induction events generalizing s with
  | nil => exact h
  | cons event rest ih =>
    obtain ⟨hfirst, hrest⟩ := List.forall_mem_cons.mp hevents
    exact ih (h.call hknown hchain hdistinct hmode hnew hgood overflowChecks event hfirst) hrest

end Steps

section Start

variable {env : NodeEnv} {config : Config} {chain : ℕ → Block} {pairs : Set (Element × Element)}
  {known : Set Element} {s : Node D}
  (hknown : Collisionless env chain D config.badBlocks pairs known)
  (hchain : Finalized D config.badBlocks chain env) (h : OnTrack env config chain s)
  (written : Bool) (rseed : Fr) (req : FaucetRequest)
  (hcommitment : faucetCommitment env rseed req ∈ known)
  (hnew : ∀ k, faucetCommitment env rseed req ∉ leavesUpTo config.badBlocks chain k)
  (hin : (faucet env written rseed req s).1.ledger.notesTree.tree.containsElement
    (faucetCommitment env rseed req) = true)

include hknown hchain h hcommitment hnew hin

/-- A node on the chain forks with the note of the faucet, and stores what it stored. -/
theorem OnTrack.forks : Forked env chain known written (faucetCommitment env rseed req)
    s.blockCache.height s.ledger.blockStore (faucet env written rseed req s).1 := by
  obtain ⟨insertedIn, hfollows⟩ := h.follows
  have hvalid := hfollows.stored.valid
  have hbefore : ∀ e ∈ hvalid.sparse, e ∈ known := by
    intro e he
    rw [hfollows.tree_eq, hchain.mem_chainTree] at he
    exact hknown.leaves _ e he
  rcases faucet_cases hvalid written rseed req with ⟨hinserted, -⟩ | ⟨hsame, -⟩
  · obtain ⟨hvalid', hlaid⟩ := hinserted.laid
    refine ⟨hvalid', fun e he => ?_, (hvalid'.mem_sparse _).mpr hin,
      hinserted.cache ▸ h.carries, congrArg BlockCache.height hinserted.cache, hinserted.store,
      hinserted.stored hfollows.stored⟩
    rw [hlaid] at he
    rcases mem_of_mem_laid _ _ e he with hold | hadded
    · exact hbefore e hold
    · rwa [List.mem_singleton.mp hadded]
  · rw [hsame] at hin
    exact absurd ((hfollows.contains_iff hchain _).mp hin) (hnew _)

end Start

/-- A node that the faucet has put a note into takes nothing more of the chain. In whatever order
it hears its blocks and snapshots, ticks and is asked for other notes, it stays at its height with
the blocks it has, and its root is that of no block, whether or not the note could be written. -/
theorem faucet_forks (env : NodeEnv) (config : Config) (chain : ℕ → Block)
    (hchain : Finalized D config.badBlocks chain env) (hdistinct : Distinct env chain)
    (pairs : Set (Element × Element)) (known : Set Element)
    (hknown : Collisionless env chain D config.badBlocks pairs known)
    (hmode : config.mode ≠ Mode.validator) (overflowChecks : Bool) (s : Node D)
    (hs : OnTrack env config chain s) (hgood : s.blockCache.height + 1 ∉ config.badBlocks)
    (written : Bool) (rseed : Fr) (req : FaucetRequest)
    (hcommitment : faucetCommitment env rseed req ∈ known)
    (hnew : ∀ k, faucetCommitment env rseed req ∉ leavesUpTo config.badBlocks chain k)
    (hin : (faucet env written rseed req s).1.ledger.notesTree.tree.containsElement
      (faucetCommitment env rseed req) = true) (events : List NodeCall)
    (hevents : ∀ event ∈ events, Honest env chain known false event) :
    let s' := calls env config overflowChecks (faucet env written rseed req s).1 events
    s'.blockCache.height = s.blockCache.height ∧
      s'.ledger.blockStore = s.ledger.blockStore ∧
      s'.ledger.notesTree.tree.containsElement (faucetCommitment env rseed req) = true ∧
      ∀ k, 0 < k → s'.ledger.notesTree.tree.rootHash env.poseidon ≠ (chain k).rootHash := by
  intro s'
  have hforked := hs.forks hknown hchain written rseed req hcommitment hnew hin
  have hstart : Forked env chain known false (faucetCommitment env rseed req) s.blockCache.height
      s.ledger.blockStore (faucet env written rseed req s).1 :=
    { hforked with stored := fun hdurable => Bool.noConfusion hdurable }
  have hrun : Forked env chain known false (faucetCommitment env rseed req) s.blockCache.height
      s.ledger.blockStore s' :=
    hstart.calls hknown hchain hdistinct hmode hnew hgood overflowChecks events hevents
  refine ⟨hrun.height_eq, hrun.store_eq, (hrun.valid.mem_sparse _).mp hrun.own, fun k hpos => ?_⟩
  rw [hrun.valid.rootHash_eq]
  exact root_ne_of_own hknown hchain _ hrun.known _ hrun.own hnew k hpos

section NotedChain

/-- A chain whose first block brings the leaf 2, and the others none. -/
def notedChain : ℕ → Block
  | 0 => Block.genesis
  | 1 => leafBlock 1 0#256 2#256 2#256
  | height + 2 => ⟨⟨⟨height + 2, 0#256, 0, 0#256, []⟩, ⟨2#256, []⟩⟩, Vector.replicate 65 0⟩

theorem notedChain_height (height : ℕ) : (notedChain height).height = height := by
  rcases height with _ | _ | height <;> rfl

theorem notedChain_leaves (height : ℕ) : leavesUpTo [] notedChain (height + 1) = [2#256] := by
  induction height with
  | zero => decide
  | succ height ih =>
    rw [leavesUpTo, ih, addedLeaves, if_neg List.not_mem_nil]
    rfl

theorem notedChain_finalized : Finalized 2 [] notedChain leafEnv := by
  refine ⟨rfl, notedChain_height, fun height => ?_, fun height => ?_⟩
  · cases height with
    | zero => exact List.Pairwise.nil
    | succ height =>
      rw [notedChain_leaves]
      exact List.pairwise_singleton _ _
  · have hroot : (notedChain (height + 1)).rootHash = 2#256 := by cases height <;> rfl
    rw [hroot, chainTree, notedChain_leaves]
    refine Eq.trans ?_ (root_summing le_rfl [2#256] (by simp)
      ⟨List.pairwise_singleton _ _, fun _ _ => rfl⟩).symm
    decide

theorem notedChain_distinct : Distinct leafEnv notedChain :=
  ⟨notedChain_height, (signedEnv_distinct notedChain notedChain_height).hash_inj⟩

theorem notedChain_endorsed : Endorsed leafEnv nodeConfig notedChain := by
  have hfirst : ∀ height, ∀ txn ∈ (notedChain (height + 1)).content.state.txns,
      txn = leafTxn 2#256 := by
    intro height txn htxn
    cases height with
    | zero => exact List.mem_singleton.mp htxn
    | succ height => cases htxn
  refine ⟨fun height _ txn htxn => rfl, fun height _ txn htxn => ?_, fun height _ txn htxn => ?_⟩
  · rw [hfirst height txn htxn]
    exact Or.inl rfl
  · rw [hfirst height txn htxn]
    exact leafTxn_sized 2#256 (by norm_num [modulus])

theorem notedChain_clean : Clean leafEnv nodeConfig notedChain (tickWrites ⟨true, true⟩) := by
  refine ⟨fun height _ => ⟨1#160, ?_, ?_⟩, rfl⟩
  · change [1#160][(height + 1) % 1]? = _
    rw [Nat.mod_one]
    rfl
  · cases height <;> rfl

/-- A node that has committed the first two blocks. -/
def notedNode : Node 2 :=
  tick leafEnv nodeConfig (tickWrites ⟨true, true⟩)
    (receiveProposal leafEnv nodeConfig (notedChain 2)
      (receiveProposal leafEnv nodeConfig (notedChain 1)
        ⟨BlockCache.new leafEnv Block.genesis 10000, freshLedger 2⟩))

theorem notedNode_onTrack : OnTrack leafEnv nodeConfig notedChain notedNode := by
  have hstart : Synced leafEnv nodeConfig notedChain
      ⟨BlockCache.new leafEnv Block.genesis 10000, freshLedger 2⟩ :=
    ⟨⟨fun _ => 0, (@ProverRecovery.safe_fresh 2 leafEnv nodeConfig notedChain 0).follows⟩,
      fun k hpos hle => absurd hle (Nat.not_le.mpr hpos),
      carries_new notedChain_distinct 0 (by norm_num) 10000⟩
  have hsynced := (((hstart.receive notedChain_distinct (by decide) 1 (by norm_num)).1.receive
    notedChain_distinct (by decide) 2 (by norm_num)).1.tick notedChain_finalized
    notedChain_distinct notedChain_endorsed (by decide) _ notedChain_clean).1
  exact ⟨hsynced.follows, hsynced.carries⟩

/-- A request whose note has the commitment 21, with the seed 0. -/
def noteRequest : FaucetRequest := ⟨7, 5⟩

theorem noteRequest_commitment : faucetCommitment leafEnv 0 noteRequest = 21#256 := by decide

theorem noteRequest_new (k : ℕ) :
    faucetCommitment leafEnv 0 noteRequest ∉ leavesUpTo nodeConfig.badBlocks notedChain k := by
  rw [noteRequest_commitment]
  cases k with
  | zero => exact List.not_mem_nil
  | succ k =>
    change 21#256 ∉ leavesUpTo [] notedChain (k + 1)
    rw [notedChain_leaves]
    decide

/-- The pairs of the trees with the leaf, the note, both or none. -/
def notedPairs : Set (Element × Element) :=
  {(0#256, 0#256), (2#256, 0#256), (0#256, 21#256), (2#256, 21#256)}

theorem notedPairs_injective : (elementHash leafEnv.poseidon notedPairs).Injective := by
  rintro a b c d (hab | hab | hab | hab) (hcd | hcd | hcd | hcd) heq
  all_goals
    obtain ⟨rfl, rfl⟩ := Prod.mk.inj hab
    obtain ⟨rfl, rfl⟩ := Prod.mk.inj hcd
    revert heq
    decide

theorem notedChain_collisionless : Collisionless leafEnv notedChain 2 nodeConfig.badBlocks
    notedPairs {2#256, 21#256} := by
  refine ⟨notedPairs_injective, fun T hT => ?_, fun height e he => ?_⟩
  · have hleaf : ∀ p, T.leaf p = 0 ∨ (T.leaf p = 2 ∨ T.leaf p = 21) ∧ bits 2 (T.leaf p) = p := by
      intro p
      by_cases hzero : T.leaf p = 0
      · exact Or.inl hzero
      · exact Or.inr ⟨hT _ (T.leaf_mem p hzero), T.placed p hzero⟩
    have hleft : T.leaf [false] = 0#256 ∨ T.leaf [false] = 2#256 := by
      rcases hleaf [false] with hzero | ⟨htwo | hnote, hslot⟩
      · exact Or.inl hzero
      · exact Or.inr htwo
      · rw [hnote] at hslot
        exact absurd hslot (by decide)
    have hright : T.leaf [true] = 0#256 ∨ T.leaf [true] = 21#256 := by
      rcases hleaf [true] with hzero | ⟨htwo | hnote, hslot⟩
      · exact Or.inl hzero
      · rw [htwo] at hslot
        exact absurd hslot (by decide)
      · exact Or.inr hnote
    refine ⟨?_, trivial, trivial⟩
    change (T.leaf [false], T.leaf [true]) ∈ notedPairs
    rcases hleft with hleft | hleft <;> rcases hright with hright | hright <;>
      rw [hleft, hright] <;> simp [notedPairs]
  · cases height with
    | zero => cases he
    | succ height =>
      change e ∈ leavesUpTo [] notedChain (height + 1) at he
      rw [notedChain_leaves] at he
      exact Or.inl (List.mem_singleton.mp he)

theorem noteRequest_known : faucetCommitment leafEnv 0 noteRequest ∈
    ({2#256, 21#256} : Set Element) := Or.inr noteRequest_commitment

/-- The third block comes in, and the node ticks. -/
def notedCalls : List NodeCall :=
  [.receiveProposal (notedChain 3), .tick (tickWrites ⟨true, true⟩)]

theorem notedCalls_honest (durable : Bool) :
    ∀ event ∈ notedCalls, Honest leafEnv notedChain {2#256, 21#256} durable event := by
  intro event hevent
  rcases List.mem_pair.mp hevent with rfl | rfl
  · exact ⟨3, by norm_num, rfl⟩
  · exact trivial

/-- After a note the third block is dropped. -/
theorem faucet_forks_noted :
    let s' := calls leafEnv nodeConfig true (faucet leafEnv false 0 noteRequest notedNode).1
      notedCalls
    s'.blockCache.height = 2 ∧ s'.ledger.blockStore.get 3 = none ∧ ∀ k, 0 < k →
      s'.ledger.notesTree.tree.rootHash leafEnv.poseidon ≠ (notedChain k).rootHash := by
  obtain ⟨hheight, hstore, -, hroots⟩ := faucet_forks leafEnv nodeConfig notedChain
    notedChain_finalized notedChain_distinct notedPairs _ notedChain_collisionless (by decide) true
    notedNode notedNode_onTrack List.not_mem_nil false 0 noteRequest noteRequest_known
    noteRequest_new (by decide +kernel) notedCalls (notedCalls_honest false)
  refine ⟨hheight.trans (by decide +kernel), ?_, hroots⟩
  rw [hstore]
  decide +kernel

end NotedChain

section Lookups

/-- The leaves of the transactions of a block are among those of the chain up to it. -/
theorem mem_leavesUpTo_of_txn {chain : ℕ → Block} (badBlocks : List ℕ) (height : ℕ)
    (hpos : 0 < height) (e : Element) (hnull : e ≠ Element.nullHash) (txn : UtxoProof)
    (htxn : txn ∈ (chain height).content.state.txns) (he : e ∈ txn.leaves) :
    e ∈ leavesUpTo badBlocks chain height := by
  obtain ⟨below, rfl⟩ : ∃ below, height = below + 1 := ⟨height - 1, by omega⟩
  rw [leavesUpTo, List.mem_append]
  exact (mem_addedLeaves _ _ e).mpr
    (Or.inr ((mem_nonNull _ e).mpr ⟨List.mem_flatMap.mpr ⟨txn, htxn, he⟩, hnull⟩))

variable {env : NodeEnv} {badBlocks : List ℕ} {chain : ℕ → Block} {s : MarkedNode D}
  {written : Bool} {rseed : Fr} {req : FaucetRequest}
  {h : s.notesTree.tree.Valid env.poseidon} (hinserted : Inserted env s.node
    (faucet env written rseed req s.node).1 h written (faucetCommitment env rseed req))

include hinserted

theorem contains_faucet (e : Element) :
    (markedFaucet env written rseed req s).notesTree.tree.containsElement e = true ↔
      e = faucetCommitment env rseed req ∨ s.notesTree.tree.containsElement e = true := by
  obtain ⟨h', hlaid⟩ := hinserted.laid
  have hfree : h.sparse.Free [faucetCommitment env rseed req] :=
    ⟨List.pairwise_singleton _ _, fun e he => by
      rw [List.mem_singleton.mp he]
      exact hinserted.vacant⟩
  have hmem := SparseTree.mem_laid [faucetCommitment env rseed req]
    (fun e he => List.mem_singleton.mp he ▸ hinserted.not_null) hfree e
  rwa [List.mem_singleton, ← hlaid, h'.mem_sparse, h.mem_sparse] at hmem

/-- Every other element is answered as before. -/
theorem lookup_other (e : Element) (he : e ≠ faucetCommitment env rseed req) :
    getElementResponse env (markedFaucet env written rseed req s) e =
      getElementResponse env s e := by
  have hstore : (markedFaucet env written rseed req s).blockStore = s.blockStore :=
    hinserted.store
  have hcontains := (contains_faucet hinserted e).trans (or_iff_right he)
  unfold getElementResponse
  by_cases hin : s.notesTree.tree.containsElement e = true
  · have hmark : (markedFaucet env written rseed req s).insertedIn e = s.insertedIn e :=
      if_pos hin
    rw [hcontains.mpr hin, hin, hstore, hmark]
  · rw [if_pos (Bool.not_eq_true _ ▸ hcontains.not.mpr hin), if_pos (Bool.not_eq_true _ ▸ hin)]

/-- The note is looked up in the block at the height of the node, which does not have it. -/
theorem lookup_note (hchain : Finalized D badBlocks chain env)
    (hshelved : Shelved chain s.blockStore)
    (hbefore : s.notesTree.tree.containsElement (faucetCommitment env rseed req) = false)
    (hnew : faucetCommitment env rseed req ∉ leavesUpTo badBlocks chain s.height) :
    getElementResponse env (markedFaucet env written rseed req s)
        (faucetCommitment env rseed req) =
      .error (if s.blockStore.get s.height = none then .blockNotFound s.height
        else .elementNotInTxn (faucetCommitment env rseed req) s.height) := by
  have hstore : (markedFaucet env written rseed req s).blockStore = s.blockStore :=
    hinserted.store
  have hmark : (markedFaucet env written rseed req s).insertedIn
      (faucetCommitment env rseed req) = s.height := if_neg (by rw [hbefore]; exact nofun)
  have hcontains := (contains_faucet hinserted (faucetCommitment env rseed req)).mpr (Or.inl rfl)
  unfold getElementResponse
  rw [if_neg (by rw [hcontains]; exact nofun), hstore, hmark]
  cases hblock : s.blockStore.get s.height with
  | none => rw [if_pos rfl]
  | some block =>
    obtain ⟨rfl, hpos⟩ := hshelved.block_eq _ block hblock
    have hfind : ((chain s.height).content.state.txns.find? fun txn =>
        decide (faucetCommitment env rseed req ∈ txn.leaves)) = none := by
      refine List.find?_eq_none.mpr fun txn htxn hleaf => hnew ?_
      exact mem_leavesUpTo_of_txn badBlocks _ hpos _ hinserted.not_null txn htxn
        (of_decide_eq_true hleaf)
    rw [if_neg (Option.some_ne_none _)]
    dsimp only
    rw [hfind]
    dsimp only
    rw [hchain.height_eq]

end Lookups

/-- A start from genesis with no block stored. -/
theorem genesis_loaded (env : NodeEnv) (blockStore : BlockStore)
    (hempty : ∀ k, blockStore.get k = none) :
    ∃ data : NodeRecovery.LoadedData D,
      NodeRecovery.startFromGenesis env D blockStore = .ok data ∧ data.block = Block.genesis ∧
        data.persistentTree.db = [] ∧ ∀ k, data.blockStore.get k = none := by
  obtain ⟨r, hload, -, hdb⟩ := @NodeRecovery.startFromGenesis_ok D env blockStore
  exact ⟨_, hload, rfl, hdb, hempty⟩

/-- Where the notes of the faucet are written, a restart finds a root that is neither that of the
last block nor that of the one before. It gives up the tree and the blocks and starts from
genesis, but panics if the block before the last is not stored. -/
theorem restart_after_faucet (env : NodeEnv) (config : Config) (chain : ℕ → Block)
    (hchain : Finalized D config.badBlocks chain env) (hdistinct : Distinct env chain)
    (pairs : Set (Element × Element)) (known : Set Element)
    (hknown : Collisionless env chain D config.badBlocks pairs known)
    (hmode : config.mode ≠ Mode.validator) (overflowChecks : Bool) (s : Node D)
    (hs : OnTrack env config chain s) (hgood : s.blockCache.height + 1 ∉ config.badBlocks)
    (rseed : Fr) (req : FaucetRequest) (hcommitment : faucetCommitment env rseed req ∈ known)
    (hnew : ∀ k, faucetCommitment env rseed req ∉ leavesUpTo config.badBlocks chain k)
    (hin : (faucet env true rseed req s).1.ledger.notesTree.tree.containsElement
      (faucetCommitment env rseed req) = true) (events : List NodeCall)
    (hevents : ∀ event ∈ events, Honest env chain known true event) :
    let s' := calls env config overflowChecks (faucet env true rseed req s).1 events
    let loaded := NodeRecovery.loadDbAndSmirk env D config.badBlocks
      (NodeRecovery.Ledger.disk s'.ledger)
    let panics := ∃ height, s.ledger.blockStore.maxHeight = some height ∧
      s.ledger.blockStore.get (NodeRecovery.previousHeight height) = none
    (panics → loaded = .error .panic) ∧
      (¬panics → ∃ data, loaded = .ok data ∧ data.block = Block.genesis ∧
        data.persistentTree.db = [] ∧ ∀ k, data.blockStore.get k = none) := by
  intro s' loaded panics
  have hforked := hs.forks hknown hchain true rseed req hcommitment hnew hin
  have hrun : Forked env chain known true (faucetCommitment env rseed req) s.blockCache.height
      s.ledger.blockStore s' :=
    hforked.calls hknown hchain hdistinct hmode hnew hgood overflowChecks events hevents
  obtain ⟨insertedIn, hfollows⟩ := hs.follows
  have hshelved : Shelved chain s.ledger.blockStore := hfollows.shelved
  obtain ⟨q, hq, hstored, hsame⟩ := NodeRecovery.loadSmirk_stored (hrun.stored rfl)
  have hroot : ∀ k block, s.ledger.blockStore.get k = some block →
      q.tree.rootHash env.poseidon ≠ block.rootHash := by
    intro k block hblock
    obtain ⟨rfl, hpos⟩ := hshelved.block_eq k block hblock
    rw [hsame.rootHash_eq, hrun.valid.rootHash_eq]
    exact root_ne_of_own hknown hchain _ hrun.known _ hrun.own hnew k hpos
  have hloaded : loaded = NodeRecovery.loadDbAndSmirk env D config.badBlocks
      ⟨s.ledger.blockStore, s'.ledger.notesTree.db⟩ := by
    simp only [loaded, NodeRecovery.Ledger.disk, hrun.store_eq]
  rw [hloaded]
  cases hmax : s.ledger.blockStore.maxHeight with
  | none =>
    refine ⟨fun hpanics => ?_, fun _ => ?_⟩
    · obtain ⟨height, hheight, -⟩ := hpanics
      cases hmax.symm.trans hheight
    · rw [NodeRecovery.load_without_blocks hq hmax]
      exact genesis_loaded env _ (hshelved.empty hmax)
  | some height =>
    obtain ⟨⟨last, hlast⟩, -⟩ := hshelved.greatest height hmax
    have hother := hroot height last hlast
    cases hprevious : s.ledger.blockStore.get (NodeRecovery.previousHeight height) with
    | none =>
      exact ⟨fun _ => NodeRecovery.load_panics hq hmax hlast hother hprevious,
        fun hfine => absurd ⟨height, hmax, hprevious⟩ hfine⟩
    | some previous =>
      refine ⟨fun hpanics => ?_, fun _ => ?_⟩
      · obtain ⟨height', hheight', hmissing⟩ := hpanics
        obtain rfl := Option.some.inj (hmax.symm.trans hheight')
        cases hprevious.symm.trans hmissing
      · rw [NodeRecovery.load_resets hq hmax hlast hother hprevious (hroot _ previous hprevious)]
        exact genesis_loaded env BlockStore.empty fun _ => rfl

/-- With two blocks stored, the restart gives up both and the note. -/
theorem restart_after_faucet_noted :
    let s' := calls leafEnv nodeConfig true (faucet leafEnv true 0 noteRequest notedNode).1
      notedCalls
    notedNode.ledger.blockStore.maxHeight = some 2 ∧ s'.ledger.notesTree.db = [2#256, 21#256] ∧
      ∃ data, NodeRecovery.loadDbAndSmirk leafEnv 2 nodeConfig.badBlocks
        (NodeRecovery.Ledger.disk s'.ledger) = .ok data ∧ data.persistentTree.db = [] ∧
          ∀ k, data.blockStore.get k = none := by
  have hmax : notedNode.ledger.blockStore.maxHeight = some 2 := by decide +kernel
  obtain ⟨-, hgenesis⟩ := restart_after_faucet leafEnv nodeConfig notedChain notedChain_finalized
    notedChain_distinct notedPairs _ notedChain_collisionless (by decide) true notedNode
    notedNode_onTrack List.not_mem_nil 0 noteRequest noteRequest_known noteRequest_new
    (by decide +kernel) notedCalls (notedCalls_honest true)
  obtain ⟨data, hload, -, hdb, hstore⟩ := hgenesis fun hpanics => by
    obtain ⟨height, hheight, hmissing⟩ := hpanics
    obtain rfl := Option.some.inj (hmax.symm.trans hheight)
    revert hmissing
    decide +kernel
  exact ⟨hmax, by decide +kernel, data, hload, hdb, hstore⟩

/-- The lookups after a call of the faucet. Wherever a node of a chain stands, the other elements
are answered as before. The note is never found: the block at the height of the node is missing,
or is there and does not have it, an answer that no node on a chain gives otherwise. So a list is
answered as before, unless it names the note. -/
theorem faucet_lookups (env : NodeEnv) (config : Config) (overflowChecks : Bool)
    (chain : ℕ → Block) (pairs : Set (Element × Element))
    (hinj : (elementHash env.poseidon pairs).Injective)
    (hhashed : ∀ height, RootHashed (elementHash env.poseidon pairs) (D - 1)
      (chainTree D config.badBlocks chain height).leaf)
    (hchain : Finalized D config.badBlocks chain env) (s : MarkedNode D)
    (hs : SnapshotSenders.Reachable env config overflowChecks chain s) (written : Bool)
    (rseed : Fr) (req : FaucetRequest)
    (hbefore : s.notesTree.tree.containsElement (faucetCommitment env rseed req) = false)
    (hin : (markedFaucet env written rseed req s).notesTree.tree.containsElement
      (faucetCommitment env rseed req) = true) :
    let c := faucetCommitment env rseed req
    let s' := markedFaucet env written rseed req s
    (∀ e, e ≠ c → getElementResponse env s' e = getElementResponse env s e) ∧
      (getElementResponse env s' c = .error (if s.blockStore.get s.height = none then
        .blockNotFound s.height else .elementNotInTxn c s.height)) ∧
      ∀ elements, (∃ responses, listElements env s' elements = .ok responses) ↔
        c ∉ elements ∧ ∃ responses, listElements env s elements = .ok responses := by
  intro c s'
  have hfollows := hs.follows hchain (rootsApart_of_injective hinj hhashed)
  have hnew : c ∉ leavesUpTo config.badBlocks chain s.height := by
    rw [← hfollows.contains_iff hchain, hbefore]
    exact nofun
  obtain ⟨hinserted, -⟩ | ⟨hsame, -⟩ := faucet_cases hfollows.stored.valid written rseed req
  · have hother : ∀ e, e ≠ c → getElementResponse env s' e = getElementResponse env s e :=
      fun e he => lookup_other hinserted e he
    have hnote := lookup_note hinserted hchain hfollows.shelved hbefore hnew
    refine ⟨hother, hnote, fun elements => ?_⟩
    have hfails : ¬∀ error, getElementResponse env s' c = .error error →
        ∃ missing, error = .elementNotInTree missing := by
      intro hall
      obtain ⟨missing, hmissing⟩ := hall _ hnote
      split at hmissing <;> cases hmissing
    rw [listElements_answered, listElements_answered]
    constructor
    · intro hall
      have hout : c ∉ elements := fun hmem => hfails (hall c hmem)
      exact ⟨hout, fun e he => hother e (fun hsame => hout (hsame ▸ he)) ▸ hall e he⟩
    · rintro ⟨hout, hall⟩ e he
      exact (hother e fun hsame => hout (hsame ▸ he)).symm ▸ hall e he
  · have hkept : s'.notesTree = s.notesTree := congrArg (fun node => node.ledger.notesTree) hsame
    rw [hkept, hbefore] at hin
    cases hin

/-- After the first block a note is not found in it. -/
theorem faucet_lookups_first :
    let s := commitBlock leafEnv nodeConfig (notedChain 1) (SnapshotSenders.genesisStart leafEnv 2)
    let c := faucetCommitment leafEnv 0 noteRequest
    let s' := markedFaucet leafEnv true 0 noteRequest s
    getElementResponse leafEnv s' c = .error (.elementNotInTxn c 1) ∧
      ¬∃ responses, listElements leafEnv s' [2#256, c] = .ok responses := by
  intro s c s'
  have hheight : s.height = 1 := by decide +kernel
  have hblock : s.blockStore.get 1 = some (notedChain 1) := by decide +kernel
  have hreached : SnapshotSenders.Reachable leafEnv nodeConfig true notedChain s := by
    refine .step _ (.commit (notedChain 1)) .genesis ?_
    change notedChain 1 = notedChain ((SnapshotSenders.genesisStart leafEnv 2).height + 1)
    rw [show (SnapshotSenders.genesisStart leafEnv 2).height = 0 by decide +kernel]
  obtain ⟨-, hnote, hlists⟩ := faucet_lookups leafEnv nodeConfig true notedChain notedPairs
    notedChain_collisionless.injective
    (fun height => notedChain_collisionless.hashed _ fun e he =>
      notedChain_collisionless.leaves height e
        ((notedChain_finalized.mem_chainTree height e).mp he))
    notedChain_finalized s hreached true 0 noteRequest (by decide +kernel) (by decide +kernel)
  rw [hheight, hblock, if_neg (Option.some_ne_none _)] at hnote
  exact ⟨hnote, fun hlist => ((hlists [2#256, c]).mp hlist).1
    (List.mem_cons_of_mem _ List.mem_cons_self)⟩

end PayyRollup.FaucetForks
