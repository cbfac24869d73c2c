import Mathlib.Algebra.Order.Group.Multiset
import Mathlib.Data.List.Perm.Basic
import Mathlib.Tactic.Abel
import PayyRollup.PrefixRuns

/-!
A pool of values that are lent out in guards. A guard that is dropped holds the pool's lock
while it looks for a waiter: it takes a sender from the queue, passes over it if the receiver is
closed, and otherwise sends the value. A receiver that is dropped between the check and the send
makes the send fail, and the failed message is itself a guard, which is dropped under the lock
that its drop wants to take. Every step between two such moments is a step of its own here, so
a run is an interleaving; a step that has to wait changes nothing. The channel is taken as
documented: a send to a receiver that is not dropped succeeds, and dropping a receiver drops the
message it has not read.
-/
namespace PayyRollup.ResourcePool

open PrefixRuns

/-- A waiter's channel: whether its receiver is alive, and the guard that was sent. -/
structure Channel (T : Type) where
  receiver : Bool
  message : Option T

/-- Where the drop that holds the lock is: at the head of its loop, between the closed check and
the send, or waiting for the lock it holds. -/
inductive Holder (T : Type)
  | scanning (value : T)
  | sending (channel : ℕ) (value : T)
  | reentered (value : T)

structure PoolState (T : Type) where
  values : List T
  waiters : List ℕ
  channels : List (Channel T)
  guards : List T
  dropping : List T
  holder : Option (Holder T)

variable {T : Type}

namespace PoolState

def new (values : List T) : PoolState T := ⟨values, [], [], [], [], none⟩

/-- The part of `get` under the lock: a value from the free list, or a place in the queue. -/
def get (self : PoolState T) : PoolState T :=
  match self.holder, self.values with
  | none, value :: rest => { self with values := rest, guards := self.guards ++ [value] }
  | none, [] =>
    { self with waiters := self.waiters ++ [self.channels.length],
                channels := self.channels ++ [⟨true, none⟩] }
  | some _, _ => self

/-- A waiter receives its guard and drops its receiver. -/
def wake (self : PoolState T) (channel : ℕ) : PoolState T :=
  match self.channels[channel]? with
  | some ⟨true, some value⟩ =>
    { self with channels := self.channels.set channel ⟨false, none⟩,
                guards := self.guards ++ [value] }
  | _ => self

/-- The future of a waiter is dropped, and with it the guard it has not received. -/
def cancel (self : PoolState T) (channel : ℕ) : PoolState T :=
  match self.channels[channel]? with
  | some ⟨true, message⟩ =>
    { self with channels := self.channels.set channel ⟨false, none⟩,
                dropping := self.dropping ++ message.toList }
  | _ => self

/-- The drop of a guard is called. -/
def release (self : PoolState T) (guard : ℕ) : PoolState T :=
  match self.guards[guard]? with
  | some value =>
    { self with guards := self.guards.eraseIdx guard, dropping := self.dropping ++ [value] }
  | none => self

/-- A drop that waits for the lock takes it. -/
def acquire (self : PoolState T) (guard : ℕ) : PoolState T :=
  match self.holder, self.dropping[guard]? with
  | none, some value =>
    { self with dropping := self.dropping.eraseIdx guard, holder := some (.scanning value) }
  | _, _ => self

def isClosed (self : PoolState T) (channel : ℕ) : Bool :=
  match self.channels[channel]? with
  | some ⟨true, _⟩ => false
  | _ => true

/-- The next step of the drop that holds the lock. -/
def advance (self : PoolState T) : PoolState T :=
  match self.holder with
  | none => self
  | some (.scanning value) =>
    match self.waiters with
    | [] => { self with values := self.values ++ [value], holder := none }
    | channel :: rest =>
      { self with waiters := rest,
                  holder := if self.isClosed channel then some (.scanning value)
                    else some (.sending channel value) }
  | some (.sending channel value) =>
    if self.isClosed channel then { self with holder := some (.reentered value) }
    else { self with channels := self.channels.set channel ⟨true, some value⟩, holder := none }
  | some (.reentered _) => self

end PoolState

inductive Action
  | get
  | wake (channel : ℕ)
  | cancel (channel : ℕ)
  | release (guard : ℕ)
  | acquire (guard : ℕ)
  | advance

def PoolState.step (self : PoolState T) : Action → PoolState T
  | .get => self.get
  | .wake channel => self.wake channel
  | .cancel channel => self.cancel channel
  | .release guard => self.release guard
  | .acquire guard => self.acquire guard
  | .advance => self.advance

/-- The steps of drops that have been called. -/
def Action.ofDrop : Action → Prop
  | .acquire _ => True
  | .advance => True
  | _ => False

/-- A run of drops alone. -/
def Drops (actions : List Action) : Prop := ∀ action ∈ actions, action.ofDrop

def Holder.value : Holder T → T
  | .scanning value => value
  | .sending _ value => value
  | .reentered value => value

/-- The values of the waiters' channels. -/
def sent (channels : List (Channel T)) : Multiset T := channels.filterMap Channel.message

/-- Every value of the pool with its place: the free list, a live guard (one whose drop has
begun included), or a waiter's channel. -/
def PoolState.places (self : PoolState T) : Multiset T :=
  (self.values : Multiset T) + (self.guards : Multiset T) + (self.dropping : Multiset T) +
    sent self.channels + ((self.holder.map Holder.value).toList : Multiset T)

/-- What is promised of a pool of the given values: each is in one place, no drop takes the lock
twice, a cancelled waiter has no value, and the drops that have been called can end. -/
structure Sound (values : List T) (pool : PoolState T) : Prop where
  places_eq : pool.places = values
  no_reentry : ∀ value, pool.holder ≠ some (.reentered value)
  closed_empty : ∀ channel ∈ pool.channels, channel.receiver = false → channel.message = none
  drops_end : ∃ actions, Drops actions ∧ (actions.foldl PoolState.step pool).holder = none ∧
      (actions.foldl PoolState.step pool).dropping = []

/-- No waiter is cancelled between the check and the send of a drop. -/
def Undisturbed (self : PoolState T) : Action → Prop
  | .cancel channel => ∀ value, self.holder ≠ some (.sending channel value)
  | _ => True

section Channels

theorem sent_set (channels : List (Channel T)) (i : ℕ) (old new : Channel T)
    (h : channels[i]? = some old) :
    sent (channels.set i new) + (old.message.toList : Multiset T) =
      sent channels + (new.message.toList : Multiset T) := by
  induction channels generalizing i with
  | nil => cases h
  | cons first rest ih =>
    have hcons : ∀ (channel : Channel T) (others : List (Channel T)),
        sent (channel :: others) = (channel.message.toList : Multiset T) + sent others := by
      intro channel others
      obtain ⟨receiver, message⟩ := channel
      cases message with
      | none => exact (zero_add _).symm
      | some value => rfl
    cases i with
    | zero =>
      cases h
      rw [List.set_cons_zero, hcons, hcons]
      abel
    | succ i =>
      have hrest := ih i h
      rw [List.set_cons_succ, hcons, hcons, add_assoc, hrest, add_assoc]

theorem sent_append (channels : List (Channel T)) (channel : Channel T) :
    sent (channels ++ [channel]) = sent channels + (channel.message.toList : Multiset T) := by
  rw [sent, List.filterMap_append]
  obtain ⟨receiver, message⟩ := channel
  cases message with
  | none => rfl
  | some value => rfl

theorem coe_concat (values : List T) (value : T) :
    ((values ++ [value] : List T) : Multiset T) = values + {value} :=
  (Multiset.coe_add values [value]).symm

theorem coe_cons (values : List T) (value : T) :
    ((value :: values : List T) : Multiset T) = values + {value} := by
  rw [← Multiset.cons_coe, ← Multiset.singleton_add, add_comm]

theorem coe_eraseIdx (values : List T) (i : ℕ) (value : T) (h : values[i]? = some value) :
    (values.eraseIdx i : Multiset T) + {value} = values := by
  obtain ⟨hi, rfl⟩ := List.getElem?_eq_some_iff.mp h
  rw [add_comm, Multiset.singleton_add, Multiset.cons_coe]
  exact Multiset.coe_eq_coe.mpr (List.getElem_cons_eraseIdx_perm hi)

end Channels

section Invariant

/-- The channels whose sender is not used: that of the send under way, and the queue. -/
def PoolState.queue (self : PoolState T) : List ℕ :=
  match self.holder with
  | some (.sending channel _) => channel :: self.waiters
  | _ => self.waiters

/-- The invariant of the pool: a sender that is not used belongs to a channel without a message,
and the receiver of a send under way is alive. -/
structure Inv (values : List T) (pool : PoolState T) : Prop where
  places_eq : pool.places = values
  no_reentry : ∀ value, pool.holder ≠ some (.reentered value)
  closed_empty : ∀ channel ∈ pool.channels, channel.receiver = false → channel.message = none
  queue_nodup : pool.queue.Nodup
  queue_empty : ∀ channel ∈ pool.queue, ∃ receiver, pool.channels[channel]? = some ⟨receiver, none⟩
  sending_alive : ∀ channel value, pool.holder = some (.sending channel value) →
    pool.channels[channel]? = some ⟨true, none⟩

variable {values : List T} {pool : PoolState T}

theorem Inv.new (values : List T) : Inv values (PoolState.new values) := by
  refine ⟨?_, nofun, nofun, List.nodup_nil, nofun, nofun⟩
  change (values : Multiset T) + 0 + 0 + 0 + 0 = values
  abel

theorem isClosed_eq_false (channel : ℕ) :
    pool.isClosed channel = false ↔ ∃ message, pool.channels[channel]? = some ⟨true, message⟩ := by
  unfold PoolState.isClosed
  split
  · next message heq => simp [heq]
  · next hne =>
    refine iff_of_false Bool.noConfusion ?_
    rintro ⟨message, heq⟩
    exact hne message heq

/-- A channel that is set and is not in the queue changes nothing for the queue. -/
theorem Inv.queue_set (h : Inv values pool) (channel : ℕ) (old new : Channel T)
    (hold : pool.channels[channel]? = some old) (hnew : new.message = none ∨ channel ∉ pool.queue) :
    ∀ other ∈ pool.queue, ∃ receiver,
      (pool.channels.set channel new)[other]? = some ⟨receiver, none⟩ := by
  intro other hmem
  obtain ⟨hlt, -⟩ := List.getElem?_eq_some_iff.mp hold
  by_cases hsame : other = channel
  · subst hsame
    rw [List.getElem?_set_self hlt]
    rcases hnew with hnone | hout
    · exact ⟨new.receiver, by rw [← hnone]⟩
    · exact absurd hmem hout
  · rw [List.getElem?_set_ne (Ne.symm hsame)]
    exact h.queue_empty other hmem

theorem Inv.closed_set (h : Inv values pool) (channel : ℕ) (new : Channel T)
    (hnew : new.receiver = false → new.message = none) :
    ∀ c ∈ pool.channels.set channel new, c.receiver = false → c.message = none := by
  intro c hmem
  rcases List.mem_or_eq_of_mem_set hmem with hold | rfl
  · exact h.closed_empty c hold
  · exact hnew

theorem Inv.get (h : Inv values pool) : Inv values pool.get := by
  obtain ⟨free, waiters, channels, guards, dropping, holder⟩ := pool
  cases holder with
  | some holder => exact h
  | none =>
    obtain ⟨hplaces, -, hclosed, hnodup, hempty, -⟩ := h
    cases free with
    | cons value rest =>
      refine ⟨?_, nofun, hclosed, hnodup, hempty, nofun⟩
      rw [← hplaces]
      change (rest : Multiset T) + ↑(guards ++ [value]) + dropping + sent channels + 0 =
        ↑(value :: rest) + guards + dropping + sent channels + 0
      rw [coe_concat, coe_cons]
      abel
    | nil =>
      have hlt : ∀ channel ∈ waiters, channel < channels.length := by
        intro channel hmem
        obtain ⟨receiver, heq⟩ := hempty channel hmem
        exact (List.getElem?_eq_some_iff.mp heq).1
      refine ⟨?_, nofun, ?_, ?_, ?_, nofun⟩
      · rw [← hplaces]
        change _ + sent (channels ++ [⟨true, none⟩]) + _ = _ + sent channels + _
        rw [sent_append]
        exact congrArg (· + _) (congrArg (_ + ·) (add_zero _))
      · intro channel hmem
        rcases List.mem_append.mp hmem with hold | hnew
        · exact hclosed channel hold
        · obtain rfl := List.mem_singleton.mp hnew
          exact fun _ => rfl
      · refine List.nodup_append.mpr ⟨hnodup, List.nodup_singleton _, ?_⟩
        intro channel hmem other hother
        obtain rfl := List.mem_singleton.mp hother
        exact (hlt channel hmem).ne
      · intro channel hmem
        rcases List.mem_append.mp hmem with hold | hnew
        · obtain ⟨receiver, heq⟩ := hempty channel hold
          exact ⟨receiver, (List.getElem?_append_left (hlt channel hold)).trans heq⟩
        · obtain rfl := List.mem_singleton.mp hnew
          exact ⟨true, List.getElem?_concat_length⟩

theorem Inv.alive_set (h : Inv values pool) (channel : ℕ) (new : Channel T)
    (hne : ∀ value, pool.holder ≠ some (.sending channel value)) :
    ∀ other value, pool.holder = some (.sending other value) →
      (pool.channels.set channel new)[other]? = some ⟨true, none⟩ := by
  intro other value hother
  have hdistinct : channel ≠ other := by
    rintro rfl
    exact hne value hother
  rw [List.getElem?_set_ne hdistinct]
  exact h.sending_alive other value hother

theorem Inv.wake (h : Inv values pool) (channel : ℕ) : Inv values (pool.wake channel) := by
  unfold PoolState.wake
  split
  · next value heq =>
    have hne : ∀ v, pool.holder ≠ some (.sending channel v) := by
      intro v hholder
      have halive := h.sending_alive channel v hholder
      rw [heq] at halive
      cases halive
    refine ⟨?_, h.no_reentry, h.closed_set channel _ fun _ => rfl, h.queue_nodup,
      h.queue_set channel _ _ heq (Or.inl rfl), h.alive_set channel _ hne⟩
    have hset := sent_set pool.channels channel _ ⟨false, none⟩ heq
    change sent (pool.channels.set channel ⟨false, none⟩) + {value} = sent pool.channels + 0 at hset
    rw [add_zero] at hset
    rw [← h.places_eq]
    change _ + ((pool.guards ++ [value] : List T) : Multiset T) + _ +
      sent (pool.channels.set channel ⟨false, none⟩) + _ = _ + sent pool.channels + _
    rw [coe_concat, ← hset]
    abel
  · exact h

theorem Inv.cancel (h : Inv values pool) (channel : ℕ)
    (hok : ∀ value, pool.holder ≠ some (.sending channel value)) :
    Inv values (pool.cancel channel) := by
  unfold PoolState.cancel
  split
  · next message heq =>
    refine ⟨?_, h.no_reentry, h.closed_set channel _ fun _ => rfl, h.queue_nodup,
      h.queue_set channel _ _ heq (Or.inl rfl), h.alive_set channel _ hok⟩
    have hset := sent_set pool.channels channel _ ⟨false, none⟩ heq
    change sent (pool.channels.set channel ⟨false, none⟩) + (message.toList : Multiset T) =
      sent pool.channels + 0 at hset
    rw [add_zero] at hset
    rw [← h.places_eq]
    change _ + ((pool.dropping ++ message.toList : List T) : Multiset T) +
      sent (pool.channels.set channel ⟨false, none⟩) + _ = _ + sent pool.channels + _
    rw [← Multiset.coe_add, ← hset]
    abel
  · exact h

theorem Inv.release (h : Inv values pool) (guard : ℕ) : Inv values (pool.release guard) := by
  unfold PoolState.release
  split
  · next value heq =>
    refine ⟨?_, h.no_reentry, h.closed_empty, h.queue_nodup, h.queue_empty, h.sending_alive⟩
    rw [← h.places_eq]
    change _ + (pool.guards.eraseIdx guard : Multiset T) +
      ((pool.dropping ++ [value] : List T) : Multiset T) + _ + _ = _ + (pool.guards : Multiset T) +
        _ + _ + _
    rw [coe_concat, ← coe_eraseIdx pool.guards guard value heq]
    abel
  · exact h

theorem Inv.acquire (h : Inv values pool) (guard : ℕ) : Inv values (pool.acquire guard) := by
  obtain ⟨free, waiters, channels, guards, dropping, holder⟩ := pool
  unfold PoolState.acquire
  split
  · next value hholder heq =>
    obtain rfl : holder = none := hholder
    refine ⟨?_, nofun, h.closed_empty, h.queue_nodup, h.queue_empty, nofun⟩
    rw [← h.places_eq]
    change _ + (dropping.eraseIdx guard : Multiset T) + _ + {value} =
      _ + (dropping : Multiset T) + _ + 0
    rw [← coe_eraseIdx dropping guard value heq]
    abel
  · exact h

theorem Inv.advance (h : Inv values pool) : Inv values pool.advance := by
  obtain ⟨free, waiters, channels, guards, dropping, holder⟩ := pool
  cases holder with
  | none => exact h
  | some holder =>
    cases holder with
    | reentered value => exact absurd rfl (h.no_reentry value)
    | scanning value =>
      cases waiters with
      | nil =>
        refine ⟨?_, nofun, h.closed_empty, h.queue_nodup, h.queue_empty, nofun⟩
        rw [← h.places_eq]
        change ((free ++ [value] : List T) : Multiset T) + _ + _ + _ + 0 = free + _ + _ + _ + {value}
        rw [coe_concat]
        abel
      | cons channel rest =>
        obtain ⟨hplaces, -, hclosed, hnodup, hempty, -⟩ := h
        change Inv values (PoolState.mk free rest channels guards dropping
          (if PoolState.isClosed _ channel then _ else _))
        split
        · refine ⟨hplaces, nofun, hclosed, (List.nodup_cons.mp hnodup).2, ?_, nofun⟩
          intro other hmem
          exact hempty other (List.mem_cons_of_mem channel hmem)
        · next hopen =>
          refine ⟨hplaces, nofun, hclosed, hnodup, hempty, ?_⟩
          intro other v hholder
          cases hholder
          obtain ⟨receiver, heq⟩ := hempty channel List.mem_cons_self
          obtain ⟨message, halive⟩ := (isClosed_eq_false channel).mp (Bool.eq_false_of_not_eq_true hopen)
          rw [heq] at halive ⊢
          cases halive
          rfl
    | sending channel value =>
      have halive := h.sending_alive channel value rfl
      obtain ⟨hlt, -⟩ := List.getElem?_eq_some_iff.mp halive
      obtain ⟨hplaces, -, hclosed, hnodup, hempty, -⟩ := id h
      obtain ⟨hout, hrest⟩ := List.nodup_cons.mp hnodup
      have hopen : PoolState.isClosed ⟨free, waiters, channels, guards, dropping,
          some (.sending channel value)⟩ channel = false :=
        (isClosed_eq_false channel).mpr ⟨none, halive⟩
      unfold PoolState.advance
      dsimp only
      rw [hopen, if_neg Bool.false_ne_true]
      refine ⟨?_, nofun, h.closed_set channel _ nofun, hrest, ?_, nofun⟩
      · have hset := sent_set channels channel _ ⟨true, some value⟩ halive
        change sent (channels.set channel ⟨true, some value⟩) + 0 = sent channels + {value} at hset
        rw [add_zero] at hset
        rw [← hplaces]
        change _ + sent (channels.set channel ⟨true, some value⟩) + 0 = _ + sent channels + {value}
        rw [hset]
        abel
      · intro other hmem
        have hne : channel ≠ other := by
          rintro rfl
          exact hout hmem
        rw [List.getElem?_set_ne hne]
        exact hempty other (List.mem_cons_of_mem channel hmem)

theorem Inv.step (h : Inv values pool) (action : Action) (hok : Undisturbed pool action) :
    Inv values (pool.step action) := by
  cases action with
  | get => exact h.get
  | wake channel => exact h.wake channel
  | cancel channel => exact h.cancel channel hok
  | release guard => exact h.release guard
  | acquire guard => exact h.acquire guard
  | advance => exact h.advance

end Invariant

section Progress

variable {values : List T} {pool : PoolState T}

theorem Drops.append {first second : List Action} (hfirst : Drops first) (hsecond : Drops second) :
    Drops (first ++ second) := List.forall_mem_append.mpr ⟨hfirst, hsecond⟩

theorem drops_advance : Drops [Action.advance] := List.forall_mem_singleton.mpr trivial

theorem undisturbed_ofDrop (action : Action) (h : action.ofDrop) : Undisturbed pool action := by
  cases action with
  | cancel channel => exact absurd h id
  | _ => trivial

theorem Inv.run (actions : List Action) (h : Inv values pool) (hdrops : Drops actions) :
    Inv values (actions.foldl PoolState.step pool) := by
  induction actions generalizing pool with
  | nil => exact h
  | cons action rest ih =>
    obtain ⟨hfirst, hrest⟩ := List.forall_mem_cons.mp hdrops
    exact ih (h.step action (undisturbed_ofDrop action hfirst)) hrest

theorem Inv.sent_unlocks (h : Inv values pool) (channel : ℕ) (value : T)
    (hholder : pool.holder = some (.sending channel value)) :
    pool.advance.holder = none ∧ pool.advance.dropping = pool.dropping := by
  have hopen : pool.isClosed channel = false :=
    (isClosed_eq_false channel).mpr ⟨none, h.sending_alive channel value hholder⟩
  unfold PoolState.advance
  rw [hholder]
  dsimp only
  rw [hopen, if_neg Bool.false_ne_true]
  exact ⟨rfl, rfl⟩

/-- A drop that holds the lock gives it up after a bounded number of its steps. -/
theorem Inv.unlocks (h : Inv values pool) :
    ∃ actions, Drops actions ∧ (actions.foldl PoolState.step pool).holder = none ∧
      (actions.foldl PoolState.step pool).dropping = pool.dropping := by
  obtain ⟨free, waiters, channels, guards, dropping, holder⟩ := pool
  induction waiters generalizing free holder with
  | nil =>
    cases holder with
    | none => exact ⟨[], nofun, rfl, rfl⟩
    | some holder =>
      cases holder with
      | reentered value => exact absurd rfl (h.no_reentry value)
      | scanning value => exact ⟨[.advance], drops_advance, rfl, rfl⟩
      | sending channel value => exact ⟨[.advance], drops_advance, h.sent_unlocks channel value rfl⟩
  | cons channel rest ih =>
    cases holder with
    | none => exact ⟨[], nofun, rfl, rfl⟩
    | some holder =>
      cases holder with
      | reentered value => exact absurd rfl (h.no_reentry value)
      | sending channel value => exact ⟨[.advance], drops_advance, h.sent_unlocks channel value rfl⟩
      | scanning value =>
        obtain ⟨actions, hdrops, hholder, hdropping⟩ := ih _ _ h.advance
        exact ⟨.advance :: actions, drops_advance.append hdrops, hholder, hdropping⟩

/-- The drops that have been called can end. -/
theorem Inv.drops_end (h : Inv values pool) :
    ∃ actions, Drops actions ∧ (actions.foldl PoolState.step pool).holder = none ∧
      (actions.foldl PoolState.step pool).dropping = [] := by
  induction hcount : pool.dropping.length generalizing pool with
  | zero =>
    obtain ⟨actions, hdrops, hholder, hdropping⟩ := h.unlocks
    exact ⟨actions, hdrops, hholder, hdropping.trans (List.length_eq_zero_iff.mp hcount)⟩
  | succ count ih =>
    obtain ⟨first, hfirst, hholder, hdropping⟩ := h.unlocks
    have hnext := h.run first hfirst
    have hlength : ((first.foldl PoolState.step pool).acquire 0).dropping.length = count := by
      unfold PoolState.acquire
      rw [hholder, hdropping]
      cases hlist : pool.dropping with
      | nil =>
        rw [hlist] at hcount
        cases hcount
      | cons value rest =>
        rw [hlist, List.length_cons] at hcount
        exact Nat.succ.inj hcount
    obtain ⟨rest, hrest, hend⟩ := ih (hnext.acquire 0) hlength
    refine ⟨first ++ .acquire 0 :: rest, hfirst.append ?_, ?_⟩
    · exact List.forall_mem_cons.mpr ⟨trivial, hrest⟩
    · rw [List.foldl_append]
      exact hend

theorem Inv.sound (h : Inv values pool) : Sound values pool :=
  ⟨h.places_eq, h.no_reentry, h.closed_empty, h.drops_end⟩

/-- A drop that will wait for its own lock, or does. -/
def Doomed (pool : PoolState T) : Prop :=
  match pool.holder with
  | some (.sending channel _) => pool.isClosed channel = true
  | some (.reentered _) => True
  | _ => False

theorem Doomed.step (h : Doomed pool) (action : Action) (hdrop : action.ofDrop) :
    Doomed (pool.step action) := by
  obtain ⟨free, waiters, channels, guards, dropping, holder⟩ := pool
  cases holder with
  | none => exact absurd h id
  | some holder =>
    cases action with
    | acquire guard => exact h
    | advance =>
      cases holder with
      | scanning value => exact absurd h id
      | reentered value => trivial
      | sending channel value =>
        have hclosed : PoolState.isClosed ⟨free, waiters, channels, guards, dropping,
            some (.sending channel value)⟩ channel = true := h
        change Doomed (PoolState.advance _)
        unfold PoolState.advance
        dsimp only
        rw [hclosed, if_pos rfl]
        trivial
    | _ => exact absurd hdrop id

/-- The receiver is dropped after the check. -/
theorem Inv.cancel_doomed (h : Inv values pool) (channel : ℕ) (value : T)
    (hholder : pool.holder = some (.sending channel value)) : Doomed (pool.cancel channel) := by
  have halive := h.sending_alive channel value hholder
  obtain ⟨hlt, -⟩ := List.getElem?_eq_some_iff.mp halive
  unfold PoolState.cancel
  rw [halive]
  unfold Doomed
  dsimp only
  rw [hholder]
  dsimp only [PoolState.isClosed]
  rw [List.getElem?_set_self hlt]

theorem Doomed.locked (h : Doomed pool) : pool.holder ≠ none := by
  intro hnone
  unfold Doomed at h
  rw [hnone] at h
  exact h

theorem Doomed.not_sound (h : Doomed pool) : ¬ Sound values pool := by
  intro hsound
  obtain ⟨actions, hdrops, hholder, -⟩ := hsound.drops_end
  have hrun : Doomed (actions.foldl PoolState.step pool) := by
    clear hholder hsound
    induction actions generalizing pool with
    | nil => exact h
    | cons action rest ih =>
      obtain ⟨hfirst, hrest⟩ := List.forall_mem_cons.mp hdrops
      exact ih (h.step action hfirst) hrest
  exact hrun.locked hholder

end Progress

section Runs

theorem sound_criterion (values : List T) :
    Criterion PoolState.step (fun _ => True) (Inv values) (Sound values) Undisturbed where
  good := fun _ h => h.sound
  necessary := by
    intro pool action _ _ hinv hsound
    cases action with
    | cancel channel =>
      intro value hholder
      exact (hinv.cancel_doomed channel value hholder).not_sound hsound
    | _ => trivial
  sufficient := fun _ action _ _ hinv hok => hinv.step action hok

/-- Along a run of the pool every state is sound exactly when no waiter is cancelled between the
check and the send of a drop. -/
theorem run_pool_iff (values : List T) (actions : List Action) :
    (∀ before, before <+: actions →
        Sound values (before.foldl PoolState.step (PoolState.new values))) ↔
      ∀ before action, before ++ [action] <+: actions →
        Undisturbed (before.foldl PoolState.step (PoolState.new values)) action :=
  forall_prefix_iff (sound_criterion values) (Inv.new values) fun _ _ => trivial

/-- One value: lent, waited for, handed over, returned by a waiter that is cancelled. -/
def handOver : List Action :=
  [.get, .get, .release 0, .acquire 0, .advance, .advance, .cancel 0, .acquire 0, .advance]

/-- A waiter that is cancelled after the send has its value returned to the free list. -/
theorem run_pool_iff_handOver :
    (handOver.foldl PoolState.step (PoolState.new [7])).values = [7] ∧
      Sound [7] (handOver.foldl PoolState.step (PoolState.new [7])) := by
  refine ⟨rfl, (run_pool_iff [7] handOver).mpr ?_ _ List.prefix_rfl⟩
  simp only [handOver, forall_prefix_cons, forall_prefix_nil]
  exact ⟨trivial, trivial, trivial, trivial, trivial, trivial, nofun, trivial, trivial, trivial⟩

/-- A waiter is cancelled between the check and the send. -/
def cancelBetween : List Action :=
  [.get, .get, .release 0, .acquire 0, .advance, .cancel 0, .advance]

theorem not_sound_cancelBetween :
    (cancelBetween.foldl PoolState.step (PoolState.new [7])).holder = some (.reentered 7) ∧
      ¬ Sound [7] (cancelBetween.foldl PoolState.step (PoolState.new [7])) := by
  constructor
  · rfl
  · intro h
    exact h.no_reentry 7 rfl

end Runs

end PayyRollup.ResourcePool
