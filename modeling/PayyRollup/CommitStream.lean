import PayyRollup.BlockCommit
import PayyRollup.BlockStorePages

/-!
The stream of committed blocks. A commit writes the block into the store, applies it to the
tree and then notifies the listeners. A subscriber registers its channel, waits for the first
notification, and puts the stored blocks from the height it asked for up to that block before
it. Blocks are committed one at a time and above the ones committed before. The stream opens
with the first commit after the subscription, and from then on it holds every committed block
once and in order; until then it yields nothing, whatever is stored.
-/
namespace PayyRollup.CommitStream

open NodeBlocks hiding Error
open BlockCommit (trustingEnv)
open SmirkTree KeyValueStore BlockStoreDb

def ht (block : Block) : Height := Fin.ofNat (2 ^ 64) block.height

/-- A subscriber with its channel; the blocks before are read once. -/
structure Listener where
  fromHeight : Option Height
  received : List Block
  blocksBefore : Option (List (Outcome Error Block))

/-- The store, the commit that is under way and the subscriber. The blocks committed so far
and those whose commit failed after the store write are recorded. -/
structure State where
  blockStore : Db BlockFormat TxnFormat
  writing : Option Block
  listener : Option Listener
  committed : List Block
  failed : List Block

inductive Event
  | storeWrite (block : Block) (timestampUnixS : ℕ)
  | applyFails
  | notify
  | commitStream (fromHeight : Option Height)
  | poll

def fetchBlocks (db : Db BlockFormat TxnFormat) (range : HeightRange) (order : BlockListOrder) :
    List (Outcome Error BlockFormat) :=
  (list db range order).map fun r => r.map Prod.snd

section Steps

variable (env : NodeEnv)

def readBefore (db : Db BlockFormat TxnFormat) (fromHeight : Option Height) (firstCommit : Block) :
    List (Outcome Error Block) :=
  match fromHeight with
  | some h =>
      (fetchBlocks db ⟨.included h, .excluded (ht firstCommit)⟩ .lowestToHighest).map fun r =>
        r.map BlockFormat.intoBlock
  | none => []

/-- The wait for the first commit ends when there is one. -/
def Listener.poll (db : Db BlockFormat TxnFormat) (l : Listener) : Listener :=
  match l.blocksBefore, l.received with
  | none, firstCommit :: _ =>
      { l with blocksBefore := some (readBefore db l.fromHeight firstCommit) }
  | _, _ => l

def Listener.send (block : Block) (l : Listener) : Listener :=
  { l with received := l.received ++ [block] }

def step (s : State) : Event → State
  | .storeWrite block timestampUnixS =>
      if s.writing = none ∧ ∀ c ∈ s.committed, ht c < ht block then
        match BlockStoreDb.set (nodeApi env) s.blockStore (.v2 block (some timestampUnixS)) with
        | .ok blockStore => { s with blockStore, writing := some block }
        | .error _ => s
      else s
  | .applyFails =>
      match s.writing with
      | some block => { s with writing := none, failed := s.failed ++ [block] }
      | none => s
  | .notify =>
      match s.writing with
      | some block =>
          { s with
            writing := none
            committed := s.committed ++ [block]
            listener := s.listener.map (Listener.send block) }
      | none => s
  | .commitStream fromHeight =>
      match s.listener with
      | none => { s with listener := some ⟨fromHeight, [], none⟩ }
      | some _ => s
  | .poll => { s with listener := s.listener.map (Listener.poll s.blockStore) }

def run (s : State) (events : List Event) : State := events.foldl (step env) s

end Steps

def keeps (fromHeight : Option Height) : Outcome Error Block → Bool
  | .ok block => fromHeight.all fun h => decide (h ≤ ht block)
  | .error _ => true

/-- All that the stream has yielded or can yield without another commit, once it is open. -/
def Listener.delivered (l : Listener) : Option (List (Outcome Error Block)) :=
  l.blocksBefore.map fun blocksBefore =>
    (blocksBefore ++ l.received.map .ok).filter (keeps l.fromHeight)

/-- A node has been started on a store: the stored blocks are the committed ones. -/
structure Started (env : NodeEnv) (s : State) : Prop where
  content : ∃ calls, Content (nodeApi env) calls s.blockStore
  committed : ∀ b, b ∈ s.committed ↔
    ∃ f, get s.blockStore (ht b) = .ok (some f) ∧ f.intoBlock = b
  sorted : s.committed.Pairwise fun b c => ht b < ht c
  writing : s.writing = none
  listener : s.listener = none
  failed : s.failed = []

section Store

variable (env : NodeEnv) {calls : List BlockFormat} {db : Db BlockFormat TxnFormat}

theorem stored_ht (h : Content (nodeApi env) calls db) (k : Height) (f : BlockFormat)
    (hf : get db k = .ok (some f)) : ht f.intoBlock = k := (h.stored k f hf).1

/-- The blocks that are read before a first commit. -/
theorem readBefore_blocks (h : Content (nodeApi env) calls db) (k : Height) (first : Block) :
    ∃ blocks : List Block, readBefore db (some k) first = blocks.map .ok ∧
      (blocks.Pairwise fun b c => ht b < ht c) ∧
        ∀ b, b ∈ blocks ↔ (∃ f, get db (ht b) = .ok (some f) ∧ f.intoBlock = b) ∧
          k ≤ ht b ∧ ht b < ht first := by
  have hget : ∀ h' f, get db h' = .ok (some f) ↔
      db.lookup (keyBlock.toKey h') = some (.block f) := by
    intro h' f
    change _ ↔ db.lookup (.block h') = _
    rw [h.get, h.block, Except.ok.injEq, Option.map_eq_some_iff]
    constructor
    · intro hlast
      exact ⟨f, hlast, rfl⟩
    · rintro ⟨f', hlast, heq⟩
      rwa [← Value.block.inj heq]
  obtain ⟨filed, hfiled⟩ := exists_filed keyBlock db fun h' v hv => by
    change db.lookup (.block h') = some v at hv
    rw [h.block, Option.map_eq_some_iff] at hv
    obtain ⟨f, -, rfl⟩ := hv
    exact ⟨f, rfl⟩
  have hmem : ∀ h' f, (h', f) ∈ filed ↔ get db h' = .ok (some f) := by
    intro h' f
    rw [hget, hfiled.lookup_iff]
    constructor
    · intro hin
      exact ⟨f, rfl, hin⟩
    · rintro ⟨f', heq, hin⟩
      rwa [Value.block.inj heq]
  have hplaced : ∀ g ∈ filed, ht g.2.intoBlock = g.1 := fun g hg =>
    stored_ht env h g.1 g.2 ((hmem g.1 g.2).mp hg)
  refine ⟨(filed.filter fun g => decide (HeightRange.Contains
    ⟨.included k, .excluded (ht first)⟩ g.1)).map fun g => g.2.intoBlock, ?_, ?_, fun b => ?_⟩
  · unfold readBefore fetchBlocks list
    dsimp only
    rw [hfiled.listBlocks]
    simp only [BlockListOrder.asked, BlockListOrder.isIndexedOrder, if_true, List.map_map]
    rfl
  · rw [List.pairwise_map]
    apply (hfiled.sorted.filter _).imp_of_mem
    intro g g' hg hg' hlt
    rwa [hplaced g (List.mem_of_mem_filter hg), hplaced g' (List.mem_of_mem_filter hg')]
  · rw [List.mem_map]
    constructor
    · rintro ⟨g, hg, rfl⟩
      rw [List.mem_filter, decide_eq_true_eq] at hg
      rw [hplaced g hg.1]
      exact ⟨⟨g.2, (hmem g.1 g.2).mp hg.1, rfl⟩, hg.2⟩
    · rintro ⟨⟨f, hf, rfl⟩, hlow, hhigh⟩
      refine ⟨(ht f.intoBlock, f), ?_, rfl⟩
      rw [List.mem_filter, decide_eq_true_eq]
      exact ⟨(hmem _ f).mpr hf, hlow, hhigh⟩

/-- A store write changes what is stored at the height of its block. -/
theorem get_set (h : Content (nodeApi env) calls db) (block : Block) (timestampUnixS : ℕ) :
    ∃ db', BlockStoreDb.set (nodeApi env) db (.v2 block (some timestampUnixS)) = .ok db' ∧
      (∃ calls', Content (nodeApi env) calls' db') ∧
        get db' (ht block) = .ok (some (.v2 block (some timestampUnixS))) ∧
          ∀ k, k ≠ ht block → get db' k = get db k := by
  obtain ⟨db', hset, hcontent⟩ := h.set (.v2 block (some timestampUnixS))
  refine ⟨db', hset, ⟨_, hcontent⟩, ?_, fun k hk => ?_⟩
  · have hsame : (nodeApi env).blockHeight (.v2 block (some timestampUnixS)) = ht block := rfl
    rw [hcontent.get, lastWith_concat, if_pos (decide_eq_true hsame)]
  · rw [hcontent.get, h.get, lastWith_concat, if_neg]
    intro heq
    exact hk (of_decide_eq_true heq).symm

end Store

section Invariant

variable (env : NodeEnv)

/-- The history of a listener: the committed blocks from its height up to its first one, and
perhaps blocks whose commit failed. -/
structure History (committed failed : List Block) (h : Height) (first : Block)
    (blocks : List Block) : Prop where
  sorted : blocks.Pairwise fun b c => ht b < ht c
  origin : ∀ b ∈ blocks, h ≤ ht b ∧ ht b < ht first ∧ (b ∈ committed ∨ b ∈ failed)
  complete : ∀ c ∈ committed, h ≤ ht c → ht c < ht first → c ∈ blocks

/-- What a listener has received are the blocks committed since it subscribed. -/
structure ListenerInv (committed failed : List Block) (l : Listener) : Prop where
  received : ∃ older, committed = older ++ l.received
  history : ∀ items, l.blocksBefore = some items → ∃ first rest, l.received = first :: rest ∧
    ∀ h, l.fromHeight = some h → ∃ blocks, items = blocks.map .ok ∧
      History committed failed h first blocks

structure Inv (s : State) : Prop where
  content : ∃ calls, Content (nodeApi env) calls s.blockStore
  sorted : s.committed.Pairwise fun b c => ht b < ht c
  stored : ∀ c ∈ s.committed, ∃ f, get s.blockStore (ht c) = .ok (some f) ∧ f.intoBlock = c
  origin : ∀ k f, get s.blockStore k = .ok (some f) →
    f.intoBlock ∈ s.committed ∨ f.intoBlock ∈ s.failed ∨ s.writing = some f.intoBlock
  writing : ∀ b, s.writing = some b → (∀ c ∈ s.committed, ht c < ht b) ∧
    ∃ f, get s.blockStore (ht b) = .ok (some f) ∧ f.intoBlock = b
  listener : ∀ l, s.listener = some l → ListenerInv s.committed s.failed l

variable {env}

theorem Started.inv {s : State} (h : Started env s) : Inv env s := by
  refine ⟨h.content, h.sorted, fun c hc => (h.committed c).mp hc, fun k f hf => ?_, ?_, ?_⟩
  · obtain ⟨calls, hcontent⟩ := h.content
    left
    rw [h.committed, stored_ht env hcontent k f hf]
    exact ⟨f, hf, rfl⟩
  · rw [h.writing]
    intro b hb
    cases hb
  · rw [h.listener]
    intro l hl
    cases hl

variable {s : State} (h : Inv env s)

include h

theorem Inv.storeWrite (block : Block) (timestampUnixS : ℕ) :
    Inv env (step env s (.storeWrite block timestampUnixS)) := by
  unfold step
  dsimp only
  split
  · rename_i hguard
    obtain ⟨hidle, habove⟩ := hguard
    obtain ⟨calls, hcontent⟩ := h.content
    obtain ⟨db', hset, hcontent', hnew, hold⟩ := get_set env hcontent block timestampUnixS
    rw [hset]
    refine ⟨hcontent', h.sorted, fun c hc => ?_, fun k f hf => ?_, fun b hb => ?_, fun l hl => ?_⟩
    · obtain ⟨f, hf, rfl⟩ := h.stored c hc
      exact ⟨f, by rw [hold _ (habove _ hc).ne, hf], rfl⟩
    · by_cases hk : k = ht block
      · subst hk
        have hf' : get db' (ht block) = .ok (some f) := hf
        rw [hnew, Except.ok.injEq, Option.some_inj] at hf'
        rw [← hf']
        exact Or.inr (Or.inr rfl)
      · have hf' : get db' k = .ok (some f) := hf
        rw [hold k hk] at hf'
        rcases h.origin k f hf' with hcommitted | hfailed | hwriting
        · exact Or.inl hcommitted
        · exact Or.inr (Or.inl hfailed)
        · rw [hidle] at hwriting
          cases hwriting
    · obtain rfl := Option.some.inj hb
      exact ⟨habove, _, hnew, rfl⟩
    · exact h.listener l hl
  · exact h

theorem Inv.applyFails : Inv env (step env s .applyFails) := by
  unfold step
  dsimp only
  split
  · rename_i block hwriting
    refine ⟨h.content, h.sorted, h.stored, fun k f hf => ?_, fun b hb => ?_, fun l hl => ?_⟩
    · rcases h.origin k f hf with hcommitted | hfailed | hw
      · exact Or.inl hcommitted
      · exact Or.inr (Or.inl (List.mem_append_left _ hfailed))
      · rw [hwriting, Option.some_inj] at hw
        exact Or.inr (Or.inl (List.mem_append_right _ (List.mem_singleton.mpr hw.symm)))
    · cases hb
    · have hl' := h.listener l hl
      refine ⟨hl'.received, fun items hitems => ?_⟩
      obtain ⟨first, rest, hreceived, hhistory⟩ := hl'.history items hitems
      refine ⟨first, rest, hreceived, fun from' hfrom => ?_⟩
      obtain ⟨blocks, hblocks, hsorted, horigin, hcomplete⟩ := hhistory from' hfrom
      refine ⟨blocks, hblocks, hsorted, fun b hb => ?_, hcomplete⟩
      obtain ⟨hlow, hhigh, hfrom'⟩ := horigin b hb
      exact ⟨hlow, hhigh, hfrom'.imp_right (List.mem_append_left _)⟩
  · exact h

theorem Inv.notify : Inv env (step env s .notify) := by
  unfold step
  dsimp only
  split
  · rename_i block hwriting
    obtain ⟨habove, hstored⟩ := h.writing block hwriting
    refine ⟨h.content, ?_, fun c hc => ?_, fun k f hf => ?_, fun b hb => ?_, fun l hl => ?_⟩
    · change (s.committed ++ [block]).Pairwise _
      rw [List.pairwise_append]
      refine ⟨h.sorted, List.pairwise_singleton _ _, fun c hc b hb => ?_⟩
      rw [List.mem_singleton.mp hb]
      exact habove c hc
    · rcases List.mem_append.mp hc with hc | hc
      · exact h.stored c hc
      · rw [List.mem_singleton.mp hc]
        exact hstored
    · rcases h.origin k f hf with hcommitted | hfailed | hw
      · exact Or.inl (List.mem_append_left _ hcommitted)
      · exact Or.inr (Or.inl hfailed)
      · rw [hwriting, Option.some_inj] at hw
        exact Or.inl (List.mem_append_right _ (List.mem_singleton.mpr hw.symm))
    · cases hb
    · obtain ⟨l', hl', rfl⟩ := Option.map_eq_some_iff.mp hl
      have hinv := h.listener l' hl'
      obtain ⟨older, holder⟩ := hinv.received
      refine ⟨⟨older, ?_⟩, fun items hitems => ?_⟩
      · change s.committed ++ [block] = older ++ (l'.received ++ [block])
        rw [holder, List.append_assoc]
      · obtain ⟨first, rest, hreceived, hhistory⟩ := hinv.history items hitems
        refine ⟨first, rest ++ [block], ?_, fun from' hfrom => ?_⟩
        · change l'.received ++ [block] = _
          rw [hreceived, List.cons_append]
        · obtain ⟨blocks, hblocks, hsorted, horigin, hcomplete⟩ := hhistory from' hfrom
          have hfirst : first ∈ s.committed := by
            rw [holder, hreceived]
            simp
          refine ⟨blocks, hblocks, hsorted, fun b hb => ?_, fun c hc hlow hhigh => ?_⟩
          · obtain ⟨hlow, hhigh, hfrom'⟩ := horigin b hb
            exact ⟨hlow, hhigh, hfrom'.imp_left (List.mem_append_left _)⟩
          · rcases List.mem_append.mp hc with hc | hc
            · exact hcomplete c hc hlow hhigh
            · rw [List.mem_singleton.mp hc] at hhigh
              exact absurd (habove first hfirst) hhigh.asymm
  · exact h

theorem Inv.commitStream (fromHeight : Option Height) :
    Inv env (step env s (.commitStream fromHeight)) := by
  unfold step
  dsimp only
  split
  · refine ⟨h.content, h.sorted, h.stored, h.origin, h.writing, fun l hl => ?_⟩
    obtain rfl := Option.some.inj hl
    refine ⟨⟨s.committed, (List.append_nil _).symm⟩, fun items hitems => ?_⟩
    cases hitems
  · exact h

theorem Inv.poll : Inv env (step env s .poll) := by
  refine ⟨h.content, h.sorted, h.stored, h.origin, h.writing, fun l hl => ?_⟩
  obtain ⟨l', hl', rfl⟩ := Option.map_eq_some_iff.mp hl
  have hinv := h.listener l' hl'
  unfold Listener.poll
  split
  · rename_i first rest hbefore hreceived
    refine ⟨hinv.received, fun items hitems => ⟨first, rest, hreceived, fun from' hfrom => ?_⟩⟩
    obtain ⟨calls, hcontent⟩ := h.content
    obtain ⟨blocks, hblocks, hsorted, hmem⟩ :=
      readBefore_blocks env hcontent from' first
    have hfirst : first ∈ s.committed := by
      obtain ⟨older, holder⟩ := hinv.received
      rw [holder, hreceived]
      simp
    refine ⟨blocks, ?_, hsorted, fun b hb => ?_, fun c hc hlow hhigh => ?_⟩
    · have hfrom' : l'.fromHeight = some from' := hfrom
      rw [← hblocks, ← hfrom']
      exact (Option.some.inj hitems).symm
    · obtain ⟨⟨f, hf, rfl⟩, hlow, hhigh⟩ := (hmem b).mp hb
      refine ⟨hlow, hhigh, ?_⟩
      rcases h.origin _ f hf with hcommitted | hfailed | hw
      · exact Or.inl hcommitted
      · exact Or.inr hfailed
      · exact absurd ((h.writing _ hw).1 first hfirst) hhigh.asymm
    · exact (hmem c).mpr ⟨h.stored c hc, hlow, hhigh⟩
  · exact hinv

theorem Inv.step (e : Event) : Inv env (step env s e) := by
  cases e with
  | storeWrite block timestampUnixS => exact h.storeWrite block timestampUnixS
  | applyFails => exact h.applyFails
  | notify => exact h.notify
  | commitStream fromHeight => exact h.commitStream fromHeight
  | poll => exact h.poll

theorem Inv.run (events : List Event) : Inv env (run env s events) := by
  induction events generalizing s with
  | nil => exact h
  | cons e events ih => exact ih (h.step e)

end Invariant

section Delivery

/-- The blocks of a stream from a height: in order, with every committed one, and besides these
at most blocks whose commit failed. -/
structure Delivers (s : State) (h : Height) (blocks : List Block) : Prop where
  in_order : blocks.Pairwise fun b c => ht b < ht c
  complete : ∀ c ∈ s.committed, h ≤ ht c → c ∈ blocks
  origin : ∀ b ∈ blocks, h ≤ ht b ∧ (b ∈ s.committed ∨ b ∈ s.failed)
  exact_of_no_failure : s.failed = [] → blocks = s.committed.filter fun c => decide (h ≤ ht c)

variable {env : NodeEnv} {s : State} {l : Listener} {h : Height}

theorem delivered_some (before : List Block) (hbefore : l.blocksBefore = some (before.map .ok))
    (hfrom : l.fromHeight = some h) : l.delivered =
      some (((before ++ l.received).filter fun b => decide (h ≤ ht b)).map .ok) := by
  unfold Listener.delivered
  rw [hbefore, hfrom, Option.map_some, ← List.map_append, List.filter_map]
  rfl

/-- An open stream. -/
theorem ListenerInv.delivers (hinv : Inv env s) (hl : ListenerInv s.committed s.failed l)
    (items : List (Outcome Error Block)) (hitems : l.blocksBefore = some items)
    (hfrom : l.fromHeight = some h) :
    ∃ blocks, l.delivered = some (blocks.map .ok) ∧ Delivers s h blocks := by
  obtain ⟨first, rest, hreceived, hhistory⟩ := hl.history items hitems
  obtain ⟨before, rfl, hbefore⟩ := hhistory h hfrom
  obtain ⟨older, holder⟩ := hl.received
  have hsorted := hinv.sorted
  rw [holder, List.pairwise_append] at hsorted
  have hfirst : ∀ b ∈ l.received, ht first ≤ ht b := by
    intro b hb
    have hrest := hsorted.2.1
    rw [hreceived] at hb hrest
    rcases List.mem_cons.mp hb with rfl | hb
    · exact le_refl _
    · exact ((List.pairwise_cons.mp hrest).1 b hb).le
  have hin_order : ((before ++ l.received).filter fun b => decide (h ≤ ht b)).Pairwise
      fun b c => ht b < ht c := by
    apply List.Pairwise.filter
    rw [List.pairwise_append]
    refine ⟨hbefore.sorted, hsorted.2.1, fun b hb c hc => ?_⟩
    exact (hbefore.origin b hb).2.1.trans_le (hfirst c hc)
  have hcomplete : ∀ c ∈ s.committed, h ≤ ht c →
      c ∈ (before ++ l.received).filter fun b => decide (h ≤ ht b) := by
    intro c hc hlow
    rw [List.mem_filter, List.mem_append, decide_eq_true_eq]
    refine ⟨?_, hlow⟩
    have hc' := hc
    rw [holder] at hc'
    rcases List.mem_append.mp hc' with hold | hnew
    · have hlt : ht c < ht first := hsorted.2.2 c hold first (by rw [hreceived]; simp)
      exact Or.inl (hbefore.complete c hc hlow hlt)
    · exact Or.inr hnew
  have horigin : ∀ b ∈ (before ++ l.received).filter fun b => decide (h ≤ ht b),
      h ≤ ht b ∧ (b ∈ s.committed ∨ b ∈ s.failed) := by
    intro b hb
    rw [List.mem_filter, List.mem_append, decide_eq_true_eq] at hb
    refine ⟨hb.2, ?_⟩
    rcases hb.1 with hb | hb
    · exact (hbefore.origin b hb).2.2
    · left
      rw [holder]
      exact List.mem_append_right _ hb
  refine ⟨_, delivered_some before hitems hfrom, hin_order, hcomplete, horigin, fun hnone => ?_⟩
  apply KeyValueStore.eq_of_increasing ht _ _ hin_order (hinv.sorted.filter _)
  intro b
  constructor
  · intro hb
    obtain ⟨hlow, hcommitted | hfailed⟩ := horigin b hb
    · exact List.mem_filter.mpr ⟨hcommitted, decide_eq_true hlow⟩
    · rw [hnone] at hfailed
      cases hfailed
  · intro hb
    obtain ⟨hc, hlow⟩ := List.mem_filter.mp hb
    exact hcomplete b hc (of_decide_eq_true hlow)

/-- Whatever happens in which order: before a commit after the subscription a stream yields
nothing, and after one it holds every committed block from its height on once and in order. -/
theorem commitStream_delivers (env : NodeEnv) (s₀ : State) (hs₀ : Started env s₀)
    (events : List Event) (l : Listener) (h : Height)
    (hlistener : (run env s₀ events).listener = some l) (hfrom : l.fromHeight = some h) :
    let polled := l.poll (run env s₀ events).blockStore
    (l.received = [] → polled.delivered = none) ∧
      (l.received ≠ [] → ∃ blocks, polled.delivered = some (blocks.map .ok) ∧
        Delivers (run env s₀ events) h blocks) := by
  intro polled
  have hinv := hs₀.inv.run events
  have hl := hinv.listener l hlistener
  have hpolled := hinv.poll.listener polled (by
    change (run env s₀ events).listener.map _ = _
    rw [hlistener]
    rfl)
  refine ⟨fun hnil => ?_, fun hne => ?_⟩
  · have hnone : l.blocksBefore = none := by
      cases hbefore : l.blocksBefore with
      | none => rfl
      | some items =>
        obtain ⟨first, rest, hreceived, -⟩ := hl.history items hbefore
        rw [hnil] at hreceived
        cases hreceived
    simp [polled, Listener.poll, Listener.delivered, hnil, hnone]
  · obtain ⟨first, rest, hreceived⟩ := List.exists_cons_of_ne_nil hne
    have hopen : ∃ items, polled.blocksBefore = some items ∧ polled.fromHeight = some h := by
      cases hbefore : l.blocksBefore with
      | none =>
        exact ⟨readBefore (run env s₀ events).blockStore l.fromHeight first,
          by simp only [polled, Listener.poll, hbefore, hreceived],
          by simp only [polled, Listener.poll, hbefore, hreceived, hfrom]⟩
      | some items => exact ⟨items, by simp only [polled, Listener.poll, hbefore],
          by simp only [polled, Listener.poll, hbefore, hfrom]⟩
    obtain ⟨items, hitems, hfrom'⟩ := hopen
    exact ListenerInv.delivers hinv hpolled items hitems hfrom'

end Delivery

section Examples

/-- A node without blocks. -/
def freshState : State := ⟨create _ _, none, none, [], []⟩

theorem freshState_started (env : NodeEnv) : Started env freshState := by
  have hcontent : Content (nodeApi env) [] freshState.blockStore := create_content
  refine ⟨⟨_, hcontent⟩, fun b => ?_, List.Pairwise.nil, rfl, rfl, rfl⟩
  rw [hcontent.get]
  constructor
  · intro hb
    cases hb
  · rintro ⟨f, hf, -⟩
    cases hf

def firstBlock : Block := ⟨⟨⟨1, 0#256, 0, 0#256, []⟩, ⟨0#256, []⟩⟩, Vector.replicate 65 0⟩

theorem commitStream_delivers_first :
    let s := run trustingEnv freshState
      [.commitStream (some 0), .storeWrite firstBlock 7, .notify]
    let polled := Listener.poll s.blockStore ⟨some 0, [firstBlock], none⟩
    ([firstBlock] = [] → polled.delivered = none) ∧
      ([firstBlock] ≠ [] → ∃ blocks, polled.delivered = some (blocks.map .ok) ∧
        Delivers s 0 blocks) := by
  obtain ⟨db', hset, -⟩ := get_set trustingEnv create_content firstBlock 7
  exact commitStream_delivers trustingEnv freshState (freshState_started trustingEnv)
    [.commitStream (some 0), .storeWrite firstBlock 7, .notify] ⟨some 0, [firstBlock], none⟩ 0
    (by simp [run, step, freshState, hset, Listener.send]) rfl

/-- A subscriber that asks for a block committed before it subscribed waits for another one. -/
theorem not_commitStream_delivers :
    ¬∀ (env : NodeEnv) (s₀ : State), Started env s₀ → ∀ (events : List Event) (l : Listener)
      (h : Height), (run env s₀ events).listener = some l → l.fromHeight = some h →
        ∀ c ∈ (run env s₀ events).committed, h ≤ ht c →
          ∃ items, (l.poll (run env s₀ events).blockStore).delivered = some items ∧
            .ok c ∈ items := by
  intro hclaim
  obtain ⟨db', hset, -⟩ := get_set trustingEnv create_content firstBlock 7
  have hrun : run trustingEnv freshState
      [.storeWrite firstBlock 7, .notify, .commitStream (some 0)] =
        ⟨db', none, some ⟨some 0, [], none⟩, [firstBlock], []⟩ := by
    simp [run, step, freshState, hset]
  obtain ⟨items, hitems, -⟩ := hclaim trustingEnv freshState (freshState_started trustingEnv)
    [.storeWrite firstBlock 7, .notify, .commitStream (some 0)] ⟨some 0, [], none⟩ 0
    (by rw [hrun]) rfl firstBlock (by rw [hrun]; simp) (Fin.zero_le _)
  cases hitems

end Examples
end PayyRollup.CommitStream
