import Mathlib.Data.List.Nodup
import Mathlib.Logic.Function.Basic
import PayyRollup.PrefixRuns

/-!
The peers that the network thinks it is connected to. The swarm reports connections, and a peer
may have several; the network keeps a set of peers. Each established connection puts its peer
into the set, and each closed one takes the peer out, whatever connections are left. The set is
therefore right along a run exactly while no connection closes beside another one of its peer.
-/
namespace PayyRollup.PeerConnections

open PrefixRuns

variable {PeerId Event : Type} [DecidableEq PeerId] [DecidableEq Event]

/-- The peers of a hash set, in some order of iteration. -/
structure PeerSet (PeerId : Type) where
  peers : List PeerId
  nodup : peers.Nodup

namespace PeerSet

def empty : PeerSet PeerId := ⟨[], List.nodup_nil⟩

def insert (self : PeerSet PeerId) (peer : PeerId) : PeerSet PeerId :=
  if h : peer ∈ self.peers then self else ⟨peer :: self.peers, self.nodup.cons h⟩

def remove (self : PeerSet PeerId) (peer : PeerId) : PeerSet PeerId :=
  ⟨self.peers.erase peer, self.nodup.erase peer⟩

theorem mem_insert (self : PeerSet PeerId) (peer other : PeerId) :
    other ∈ (self.insert peer).peers ↔ other = peer ∨ other ∈ self.peers := by
  by_cases h : peer ∈ self.peers
  · rw [insert, dif_pos h]
    constructor
    · exact Or.inr
    · rintro (rfl | hmem)
      · exact h
      · exact hmem
  · rw [insert, dif_neg h]
    exact List.mem_cons

theorem mem_remove (self : PeerSet PeerId) (peer other : PeerId) :
    other ∈ (self.remove peer).peers ↔ other ≠ peer ∧ other ∈ self.peers :=
  self.nodup.mem_erase_iff

end PeerSet

/-- What the swarm reports; every other event is only logged. -/
inductive SwarmEvent (PeerId : Type)
  | connectionEstablished (peer : PeerId)
  | connectionClosed (peer : PeerId)
  | other

inductive Command (PeerId Event : Type)
  | send (peer : PeerId) (event : Event)
  | dial (peer : PeerId)
  deriving DecidableEq

structure NetworkShared (PeerId : Type) where
  connectedPeers : PeerSet PeerId

namespace NetworkShared

def addPeer (self : NetworkShared PeerId) (peer : PeerId) : NetworkShared PeerId :=
  { self with connectedPeers := self.connectedPeers.insert peer }

def removePeer (self : NetworkShared PeerId) (peer : PeerId) : NetworkShared PeerId :=
  { self with connectedPeers := self.connectedPeers.remove peer }

def handle (self : NetworkShared PeerId) : SwarmEvent PeerId → NetworkShared PeerId
  | .connectionEstablished peer => self.addPeer peer
  | .connectionClosed peer => self.removePeer peer
  | .other => self

end NetworkShared

/-- A message to the node itself is not sent. -/
def send (localPeerId peer : PeerId) (event : Event) : Option (Command PeerId Event) :=
  if localPeerId = peer then none else some (.send peer event)

def sendAll (localPeerId : PeerId) (shared : NetworkShared PeerId) (event : Event) :
    List (Command PeerId Event) :=
  shared.connectedPeers.peers.filterMap fun peer => send localPeerId peer event

/-- The swarm's open connections of each peer, beside what the network keeps. -/
structure Network (PeerId : Type) where
  established : PeerId → ℕ
  shared : NetworkShared PeerId

namespace Network

def initial : Network PeerId := ⟨fun _ => 0, ⟨PeerSet.empty⟩⟩

def step (self : Network PeerId) (event : SwarmEvent PeerId) : Network PeerId where
  established := match event with
    | .connectionEstablished peer =>
      Function.update self.established peer (self.established peer + 1)
    | .connectionClosed peer =>
      Function.update self.established peer (self.established peer - 1)
    | .other => self.established
  shared := self.shared.handle event

end Network

/-- The set is the set of connected peers, and a message to all goes once to each of them. -/
structure Accurate (Event : Type) [DecidableEq Event] (localPeerId : PeerId)
    (network : Network PeerId) : Prop where
  mem_iff : ∀ peer, peer ∈ network.shared.connectedPeers.peers ↔ 0 < network.established peer
  once : ∀ (event : Event) (peer : PeerId), 0 < network.established peer →
    (sendAll localPeerId network.shared event).count (.send peer event) = 1
  only : ∀ (event : Event), ∀ command ∈ sendAll localPeerId network.shared event,
    ∃ peer, 0 < network.established peer ∧ command = .send peer event

/-- The closed connection is the last one of its peer. -/
def ClosesLast (network : Network PeerId) : SwarmEvent PeerId → Prop
  | .connectionClosed peer => network.established peer ≤ 1
  | _ => True

section Sending

omit [DecidableEq Event] in
theorem mem_sendAll (localPeerId : PeerId) (shared : NetworkShared PeerId) (event : Event)
    (command : Command PeerId Event) :
    command ∈ sendAll localPeerId shared event ↔
      ∃ peer ∈ shared.connectedPeers.peers, localPeerId ≠ peer ∧ command = .send peer event := by
  rw [sendAll, List.mem_filterMap]
  refine exists_congr fun peer => and_congr_right fun _ => ?_
  by_cases h : localPeerId = peer
  · simp [send, h]
  · simp [send, h, eq_comm]

omit [DecidableEq Event] in
theorem sendAll_nodup (localPeerId : PeerId) (shared : NetworkShared PeerId) (event : Event) :
    (sendAll localPeerId shared event).Nodup := by
  refine List.Nodup.filterMap ?_ shared.connectedPeers.nodup
  intro first second command hfirst hsecond
  unfold send at hfirst hsecond
  split at hfirst
  · cases hfirst
  · split at hsecond
    · cases hsecond
    · cases hfirst
      cases hsecond
      rfl

/-- The set is right, and the node has no connection to itself. -/
structure Right (localPeerId : PeerId) (network : Network PeerId) : Prop where
  mem_iff : ∀ peer, peer ∈ network.shared.connectedPeers.peers ↔ 0 < network.established peer
  no_self : network.established localPeerId = 0

theorem Right.accurate {localPeerId : PeerId} {network : Network PeerId}
    (h : Right localPeerId network) : Accurate Event localPeerId network := by
  refine ⟨h.mem_iff, ?_, ?_⟩
  · intro event peer hpeer
    have hne : localPeerId ≠ peer := by
      rintro rfl
      exact absurd h.no_self hpeer.ne'
    have hmem : Command.send peer event ∈ sendAll localPeerId network.shared event :=
      (mem_sendAll _ _ _ _).mpr ⟨peer, (h.mem_iff peer).mpr hpeer, hne, rfl⟩
    exact List.count_eq_one_of_mem (sendAll_nodup _ _ _) hmem
  · intro event command hmem
    obtain ⟨peer, hpeer, -, hcommand⟩ := (mem_sendAll _ _ _ _).mp hmem
    exact ⟨peer, (h.mem_iff peer).mp hpeer, hcommand⟩

end Sending

section Runs

/-- After an event the set is right exactly where the event did not close one of several
connections. -/
theorem step_mem_iff (network : Network PeerId) (event : SwarmEvent PeerId)
    (h : ∀ peer, peer ∈ network.shared.connectedPeers.peers ↔ 0 < network.established peer) :
    (∀ peer, peer ∈ (network.step event).shared.connectedPeers.peers ↔
        0 < (network.step event).established peer) ↔ ClosesLast network event := by
  cases event with
  | connectionEstablished peer =>
    refine iff_of_true (fun other => ?_) trivial
    refine (PeerSet.mem_insert _ _ _).trans ?_
    change _ ↔ 0 < Function.update network.established peer (network.established peer + 1) other
    by_cases hsame : other = peer
    · subst hsame
      simp
    · rw [Function.update_of_ne hsame, or_iff_right hsame]
      exact h other
  | connectionClosed peer =>
    have hremove : ∀ other,
        other ∈ (network.step (.connectionClosed peer)).shared.connectedPeers.peers ↔
          other ≠ peer ∧ 0 < network.established other := fun other =>
      (PeerSet.mem_remove _ _ _).trans (and_congr_right fun _ => h other)
    constructor
    · intro hnext
      have hgone : ¬ 0 < Function.update network.established peer
          (network.established peer - 1) peer := by
        intro hpos
        exact ((hremove peer).mp ((hnext peer).mpr hpos)).1 rfl
      rw [Function.update_self] at hgone
      change network.established peer ≤ 1
      omega
    · intro hlast other
      rw [hremove other]
      change _ ↔ 0 < Function.update network.established peer (network.established peer - 1) other
      by_cases hsame : other = peer
      · subst hsame
        have hle : network.established other ≤ 1 := hlast
        rw [Function.update_self]
        constructor
        · intro hne
          exact absurd rfl hne.1
        · intro hpos
          omega
      · rw [Function.update_of_ne hsame]
        exact and_iff_right hsame
  | other => exact iff_of_true h trivial

theorem accurate_criterion (localPeerId : PeerId) :
    Criterion Network.step (fun network => network.established localPeerId = 0)
      (Right localPeerId) (Accurate Event localPeerId) ClosesLast where
  good := fun _ h => h.accurate
  necessary := fun network event _ _ hinv hgood =>
    (step_mem_iff network event hinv.mem_iff).mp hgood.mem_iff
  sufficient := fun network event _ hself hinv hok =>
    ⟨(step_mem_iff network event hinv.mem_iff).mpr hok, hself⟩

/-- Along a run from the start, of events of a swarm that never connects a node to itself, the
connected peers are accurate after each event exactly when every connection that closes is the
last one of its peer. -/
theorem run_accurate_iff (localPeerId : PeerId) (events : List (SwarmEvent PeerId))
    (hself : ∀ before, before <+: events →
      (before.foldl Network.step Network.initial).established localPeerId = 0) :
    (∀ before, before <+: events →
        Accurate Event localPeerId (before.foldl Network.step Network.initial)) ↔
      ∀ before event, before ++ [event] <+: events →
        ClosesLast (before.foldl Network.step Network.initial) event := by
  refine forall_prefix_iff (accurate_criterion localPeerId) ⟨fun peer => ?_, rfl⟩ hself
  exact iff_of_false List.not_mem_nil (lt_irrefl 0)

/-- Two peers connect and one of them leaves. -/
def oneLeaves : List (SwarmEvent ℕ) :=
  [.connectionEstablished 1, .connectionEstablished 2, .connectionClosed 1]

theorem run_accurate_iff_oneLeaves :
    ((oneLeaves.foldl Network.step Network.initial).established 0 = 0) ∧
      Accurate Unit 0 (oneLeaves.foldl Network.step Network.initial) := by
  have hself : ∀ before, before <+: oneLeaves →
      (before.foldl Network.step Network.initial).established 0 = 0 := by
    intro before hprefix
    have hmem := (List.mem_inits before oneLeaves).mpr hprefix
    simp only [oneLeaves, List.inits, List.map_cons, List.map_nil, List.mem_cons,
      List.not_mem_nil, or_false] at hmem
    rcases hmem with rfl | rfl | rfl | rfl <;> rfl
  refine ⟨hself _ List.prefix_rfl, ?_⟩
  refine (@run_accurate_iff ℕ Unit _ _ 0 oneLeaves hself).mpr ?_ _ List.prefix_rfl
  simp only [oneLeaves, forall_prefix_cons, forall_prefix_nil]
  exact ⟨trivial, trivial, Nat.le_refl 1, trivial⟩

/-- A peer that has two connections is dropped when one of them closes. -/
theorem not_accurate_second_connection :
    ¬ Accurate Unit 0 (([.connectionEstablished 1, .connectionEstablished 1,
      .connectionClosed 1] : List (SwarmEvent ℕ)).foldl Network.step Network.initial) := by
  intro h
  exact absurd ((h.mem_iff 1).mpr (by decide)) (by decide)

end Runs

end PayyRollup.PeerConnections
