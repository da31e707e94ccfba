import Mathlib.Algebra.BigOperators.Fin
import Mathlib.Algebra.Order.BigOperators.Group.Multiset

/-!
# Counting messages to detect termination

A channel to one receiver: sources add messages until they close, the receiver takes them out in
any order.  Nothing is lost or duplicated (`Conserves`), so once all sources have closed the
receiver knows from the numbers alone that it has everything:

* `settled_of_card`: with all sources closed and as many messages delivered as were sent, nothing is
  in transit.
* `Settled.delivered_eq`: then exactly the messages sent have been delivered.
* `Step.settled`: and this stays so.

Sources and messages are arbitrary.
-/

namespace ParcoachRma.Counting

/-- A channel to one receiver: what each source has sent, which sources have closed, and where the
messages are. -/
@[ext] structure Channel (ι M : Type*) where
  sent : ι → Multiset M
  closed : ι → Prop
  transit : Multiset M
  delivered : Multiset M

namespace Channel

variable {ι M : Type*} {c c' : Channel ι M}

/-- All sources have closed. -/
def AllClosed (c : Channel ι M) : Prop := ∀ q, c.closed q

/-- All sources have closed and nothing is in transit. -/
def Settled (c : Channel ι M) : Prop := c.AllClosed ∧ c.transit = 0

/-! ## Steps -/

section Steps

variable [DecidableEq ι]

/-- What can happen to a channel.  A step may close any number of sources, also none. -/
inductive Step (c : Channel ι M) : Channel ι M → Prop
  | send (q : ι) (m : M) (isOpen : ¬ c.closed q) :
      Step c { c with
        sent := Function.update c.sent q (m ::ₘ c.sent q)
        transit := m ::ₘ c.transit }
  | close (closed : ι → Prop) (mono : ∀ q, c.closed q → closed q) :
      Step c { c with closed := closed }
  | deliver (m : M) (rest : Multiset M) (taken : c.transit = m ::ₘ rest) :
      Step c { c with transit := rest, delivered := m ::ₘ c.delivered }

theorem Step.refl (c : Channel ι M) : Step c c := .close c.closed fun _ h => h

/-- A closed source stays closed. -/
theorem Step.closed (h : Step c c') {q : ι} (hq : c.closed q) : c'.closed q := by
  cases h with
  | send r m isOpen => exact hq
  | close closed mono => exact mono q hq
  | deliver m rest taken => exact hq

/-- A closed source sends nothing. -/
theorem Step.sent_of_closed (h : Step c c') {q : ι} (hq : c.closed q) : c'.sent q = c.sent q := by
  cases h with
  | send r m isOpen =>
      have hne : q ≠ r := fun heq => isOpen (heq ▸ hq)
      exact Function.update_of_ne hne _ _
  | close closed mono => rfl
  | deliver m rest taken => rfl

theorem Step.allClosed (h : Step c c') (hc : c.AllClosed) : c'.AllClosed :=
  fun q => h.closed (hc q)

/-- Nothing more happens on a channel that has settled. -/
theorem Step.settled (h : Step c c') (hc : c.Settled) : c'.Settled := by
  refine ⟨h.allClosed hc.1, ?_⟩
  cases h with
  | send q m isOpen => exact absurd (hc.1 q) isOpen
  | close closed mono => exact hc.2
  | deliver m rest taken => exact absurd (taken.symm.trans hc.2) Multiset.cons_ne_zero

end Steps

/-! ## Numbers -/

section Numbers

variable [Fintype ι]

/-- The number of messages sent. -/
def total (c : Channel ι M) : ℕ := ∑ q, (c.sent q).card

/-- Every message sent is in transit or delivered, and nothing else is. -/
def Conserves (c : Channel ι M) : Prop := ∑ q, c.sent q = c.transit + c.delivered

theorem Conserves.total_eq (hc : c.Conserves) :
    c.total = c.transit.card + c.delivered.card := by
  rw [← Multiset.card_add, ← hc, Multiset.card_sum]
  rfl

/-- Where all sources have closed, as many messages delivered as sent means that none is in
transit. -/
theorem settled_of_card (hc : c.Conserves) (closed : c.AllClosed)
    (count : c.delivered.card = c.total) : c.Settled := by
  refine ⟨closed, Multiset.card_eq_zero.mp ?_⟩
  have := hc.total_eq
  omega

/-- On a channel that has settled, exactly the messages sent have been delivered. -/
theorem Settled.delivered_eq (h : c.Settled) (hc : c.Conserves) :
    c.delivered = ∑ q, c.sent q := by
  rw [hc, h.2, zero_add]

variable [DecidableEq ι]

theorem Step.total_of_allClosed (h : Step c c') (hc : c.AllClosed) : c'.total = c.total :=
  Finset.sum_congr rfl fun q _ => congrArg Multiset.card (h.sent_of_closed (hc q))

theorem Step.conserves (h : Step c c') (hc : c.Conserves) : c'.Conserves := by
  unfold Conserves at *
  cases h with
  | send q m isOpen =>
      rw [Finset.sum_update_of_mem (Finset.mem_univ q), Finset.sdiff_singleton_eq_erase,
        Multiset.cons_add, Finset.add_sum_erase _ _ (Finset.mem_univ q), hc, Multiset.cons_add]
  | close closed mono => exact hc
  | deliver m rest taken =>
      rw [taken] at hc
      rw [hc, Multiset.cons_add, Multiset.add_cons]

end Numbers

end Channel

end ParcoachRma.Counting
