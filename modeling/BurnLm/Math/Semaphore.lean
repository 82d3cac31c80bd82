/-
# An optimistic semaphore

One shared counter hands out permits, without a lock. Whoever wants a permit adds
one first and then looks at what was there before: below the limit the one stays and
is the permit, otherwise it is taken back. So the counter runs ahead of the permits
by those who have added and not made up their minds, and it may pass the limit. The
permits may not: whoever is let in saw a count that had everybody in it who was let
in before.

The ledger says which party changed the counter, and by how much. It is there to be
reasoned about.
-/

import Mathlib.Algebra.BigOperators.Group.List.Basic
import Mathlib.Data.Multiset.Count
import Mathlib.Data.Multiset.MapFold
import Mathlib.Logic.Relation
import Mathlib.Tactic.Ring

namespace BurnLm.Math

open Relation (ReflTransGen)

universe u

/-- A counter, and who has a share in it. -/
@[ext]
structure Semaphore (ι : Type u) where
  limit : ℕ
  counter : ℤ
  /-- Who has added one and not decided, and the count each saw. -/
  undecided : Multiset (ι × ℤ)
  permits : Multiset ι
  ledger : List (ι × ℤ)

namespace Semaphore

variable {ι : Type u}

/-- Nobody there. -/
def new (limit : ℕ) : Semaphore ι := ⟨limit, 0, 0, 0, []⟩

/-- One atomic step of one party. -/
inductive Step (semaphore : Semaphore ι) : Semaphore ι → Prop
  | enter (party : ι) :
      Step semaphore
        { semaphore with
          counter := semaphore.counter + 1
          undecided := (party, semaphore.counter) ::ₘ semaphore.undecided
          ledger := semaphore.ledger ++ [(party, 1)] }
  | refuse (party : ι) (seen : ℤ) (undecided : Multiset (ι × ℤ))
      (hundecided : semaphore.undecided = (party, seen) ::ₘ undecided)
      (hfull : semaphore.limit ≤ seen) :
      Step semaphore
        { semaphore with
          counter := semaphore.counter - 1
          undecided
          ledger := semaphore.ledger ++ [(party, -1)] }
  | permit (party : ι) (seen : ℤ) (undecided : Multiset (ι × ℤ))
      (hundecided : semaphore.undecided = (party, seen) ::ₘ undecided)
      (hroom : seen < semaphore.limit) :
      Step semaphore { semaphore with undecided, permits := party ::ₘ semaphore.permits }
  | release (party : ι) (permits : Multiset ι) (hpermits : semaphore.permits = party ::ₘ permits) :
      Step semaphore
        { semaphore with
          counter := semaphore.counter - 1
          permits
          ledger := semaphore.ledger ++ [(party, -1)] }

theorem Step.of_eq {semaphore next other : Semaphore ι} (hstep : semaphore.Step next)
    (hother : other = next) : semaphore.Step other := hother ▸ hstep

theorem limit_of_reachable {limit : ℕ} {semaphore : Semaphore ι}
    (hreachable : ReflTransGen Step (new limit) semaphore) : semaphore.limit = limit := by
  induction hreachable with
  | refl => rfl
  | tail _ hstep ih => cases hstep <;> exact ih

/-- What a party has added to the counter, all in all. -/
def share [DecidableEq ι] (semaphore : Semaphore ι) (party : ι) : ℤ :=
  ((semaphore.ledger.filter fun entry => entry.1 = party).map Prod.snd).sum

/-- Those who will be let in. -/
def winners (semaphore : Semaphore ι) : ℕ :=
  semaphore.undecided.countP fun entry => entry.2 < (semaphore.limit : ℤ)

/-- One change of the counter is one change of one share. -/
theorem share_of_ledger [DecidableEq ι] {semaphore next : Semaphore ι} {party : ι} {change : ℤ}
    (hledger : next.ledger = semaphore.ledger ++ [(party, change)]) (other : ι) :
    next.share other = semaphore.share other + if other = party then change else 0 := by
  rw [share, share, hledger, List.filter_append, List.map_append, List.sum_append]
  by_cases hother : other = party
  · simp [hother]
  · simp [hother, Ne.symm hother]

/-- The counter is accounted for, and there is room for whoever will be let in. -/
structure Sound [DecidableEq ι] (semaphore : Semaphore ι) : Prop where
  balance : semaphore.counter = semaphore.permits.card + semaphore.undecided.card
  room : semaphore.permits.card + semaphore.winners ≤ semaphore.limit
  total : semaphore.counter = (semaphore.ledger.map Prod.snd).sum
  share_eq : ∀ party, semaphore.share party =
    semaphore.permits.count party + (semaphore.undecided.map Prod.fst).count party

variable [DecidableEq ι]

theorem sound_new (limit : ℕ) : (new limit : Semaphore ι).Sound := by
  constructor
  case room => exact Nat.zero_le limit
  all_goals simp [new, share]

theorem Step.sound {semaphore next : Semaphore ι} (hstep : semaphore.Step next)
    (hsound : semaphore.Sound) : next.Sound := by
  obtain ⟨hbalance, hroom, htotal, hshare⟩ := hsound
  cases hstep with
  | enter party =>
      constructor
      case balance => simp [hbalance, add_assoc]
      case room =>
        -- the count seen had every permit in it and everybody who will be let in
        have hwinners : semaphore.winners ≤ semaphore.undecided.card := Multiset.countP_le_card _ _
        simp only [winners, Multiset.countP_cons] at hwinners hroom ⊢
        split <;> omega
      case total => simp [htotal]
      case share_eq =>
        intro other
        rw [share_of_ledger rfl other, hshare other, Multiset.map_cons, Multiset.count_cons]
        split <;> simp [add_assoc]
  | refuse party seen undecided hundecided hfull =>
      rw [winners] at hroom
      rw [hundecided] at hbalance hroom hshare
      constructor
      case balance =>
        rw [hbalance, Multiset.card_cons, Nat.cast_succ]
        ring
      case room => rwa [Multiset.countP_cons, if_neg (not_lt.mpr hfull)] at hroom
      case total => simp [htotal, sub_eq_add_neg]
      case share_eq =>
        intro other
        rw [share_of_ledger rfl other, hshare other, Multiset.map_cons, Multiset.count_cons]
        split <;> simp [add_assoc]
  | permit party seen undecided hundecided hopen =>
      rw [winners] at hroom
      rw [hundecided] at hbalance hroom hshare
      constructor
      case balance =>
        rw [hbalance, Multiset.card_cons, Multiset.card_cons, Nat.cast_succ, Nat.cast_succ]
        ring
      case room =>
        rw [Multiset.countP_cons, if_pos hopen] at hroom
        simp only [winners, Multiset.card_cons]
        omega
      case total => exact htotal
      case share_eq =>
        intro other
        have hother := hshare other
        rw [Multiset.map_cons, Multiset.count_cons, Nat.cast_add] at hother
        rw [Multiset.count_cons, Nat.cast_add, add_right_comm, add_assoc]
        exact hother
  | release party permits hpermits =>
      rw [hpermits] at hbalance hroom hshare
      constructor
      case balance =>
        rw [hbalance, Multiset.card_cons, Nat.cast_succ]
        ring
      case room =>
        rw [Multiset.card_cons] at hroom
        exact (Nat.add_le_add_right (Nat.le_succ _) _).trans hroom
      case total => simp [htotal, sub_eq_add_neg]
      case share_eq =>
        intro other
        rw [share_of_ledger rfl other, hshare other, Multiset.count_cons, Nat.cast_add]
        split <;> simp [add_right_comm]

theorem sound_of_reachable {limit : ℕ} {semaphore : Semaphore ι}
    (hreachable : ReflTransGen Step (new limit) semaphore) : semaphore.Sound := by
  induction hreachable with
  | refl => exact sound_new limit
  | tail _ hstep ih => exact hstep.sound ih

namespace Sound

variable {semaphore : Semaphore ι} (hsound : semaphore.Sound)

include hsound

theorem permits_le : semaphore.permits.card ≤ semaphore.limit :=
  le_trans (Nat.le_add_right _ _) hsound.room

theorem counter_nonneg : 0 ≤ semaphore.counter := by
  rw [hsound.balance]
  exact Int.natCast_nonneg _

/-- Who has no permit and nothing to decide left the counter as it was. -/
theorem share_eq_zero {party : ι} (hpermit : party ∉ semaphore.permits)
    (hundecided : party ∉ semaphore.undecided.map Prod.fst) : semaphore.share party = 0 := by
  rw [hsound.share_eq, Multiset.count_eq_zero.mpr hpermit, Multiset.count_eq_zero.mpr hundecided]
  rfl

end Sound

end Semaphore

end BurnLm.Math
