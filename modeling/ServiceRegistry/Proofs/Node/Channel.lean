import Mathlib.Data.List.Basic
import ServiceRegistry.Broadcast

/-! # What a channel carries

A channel is followed by the list of all messages that were ever sent. It keeps the newest of
them, and a receiver is at some place in that list: it gets the message at its place, or is told
how many it passes over.
-/

namespace ServiceRegistry

set_option autoImplicit false

namespace Broadcast

variable {α : Type} {c : Broadcast α} {sent : List α} {r : Receiver}

def sendAll (c : Broadcast α) (messages : List α) : Broadcast α := messages.foldl send c

theorem sendAll_append (c : Broadcast α) (before after : List α) :
    c.sendAll (before ++ after) = (c.sendAll before).sendAll after := List.foldl_append ..

@[simp]
theorem capacity_sendAll (c : Broadcast α) (messages : List α) :
    (c.sendAll messages).capacity = c.capacity := by
  induction messages generalizing c with
  | nil => rfl
  | cons a rest ih => exact ih (c.send a)

/-- Of all the messages sent, the channel keeps as many of the newest as there is room for. -/
structure Carries (sent : List α) (c : Broadcast α) : Prop where
  count : c.sent = sent.length
  kept : c.kept = sent.drop (sent.length - c.capacity)

namespace Carries

theorem ofCapacity (capacity : Nat) : Carries [] (.ofCapacity capacity : Broadcast α) :=
  ⟨rfl, List.drop_nil.symm⟩

theorem send (h : c.Carries sent) (a : α) : (c.send a).Carries (sent ++ [a]) where
  count := by
    rw [List.length_append, List.length_singleton, ← h.count]
    rfl
  kept := by
    simp only [Broadcast.send, h.kept]
    rw [← List.drop_append_of_le_length (Nat.sub_le ..), List.drop_drop]
    congr 1
    simp only [List.length_drop, List.length_append, List.length_singleton]
    omega

theorem sendAll (h : c.Carries sent) (messages : List α) :
    (c.sendAll messages).Carries (sent ++ messages) := by
  induction messages generalizing c sent with
  | nil =>
    rw [List.append_nil]
    exact h
  | cons a rest ih =>
    have hrest := ih (h.send a)
    rw [List.append_assoc] at hrest
    exact hrest

theorem oldest_eq (h : c.Carries sent) : c.oldest = sent.length - c.capacity := by
  rw [oldest, h.count, h.kept, List.length_drop]
  omega

theorem oldest_le (h : c.Carries sent) : c.oldest ≤ sent.length := by
  rw [h.oldest_eq]
  exact Nat.sub_le ..

theorem kept_drop (h : c.Carries sent) {place : Nat} (hplace : c.oldest ≤ place) :
    c.kept.drop (place - c.oldest) = sent.drop place := by
  rw [h.kept, List.drop_drop, ← h.oldest_eq]
  congr 1
  omega

end Carries

/-- What a receiver is delivered next, and where it is afterwards. -/
inductive Reads (sent : List α) (c : Broadcast α) (r : Receiver) :
    Delivery α → Receiver → Prop where
  | message {a : α} : c.oldest ≤ r.next → sent[r.next]? = some a →
    Reads sent c r (.message a) ⟨r.next + 1⟩
  | lagged : r.next < c.oldest → Reads sent c r (.lagged (c.oldest - r.next)) ⟨c.oldest⟩
  | empty : r.next = sent.length → Reads sent c r .empty r

namespace Carries

theorem reads (h : c.Carries sent) (hr : r.next ≤ sent.length) :
    Reads sent c r (c.receive r).1 (c.receive r).2 := by
  unfold receive
  split
  · rename_i hbehind
    exact .lagged hbehind
  · rename_i hbehind
    have hplace : c.kept[r.next - c.oldest]? = sent[r.next]? := by
      have hhead := congrArg List.head? (h.kept_drop (Nat.le_of_not_lt hbehind))
      rwa [List.head?_drop, List.head?_drop] at hhead
    rw [hplace]
    split
    · rename_i a ha
      exact .message (Nat.le_of_not_lt hbehind) ha
    · rename_i hnone
      exact .empty (Nat.le_antisymm hr (List.getElem?_eq_none_iff.mp hnone))

theorem hasNews_eq_false_iff (h : c.Carries sent) (hr : r.next ≤ sent.length) :
    c.hasNews r = false ↔ r.next = sent.length := by
  have hreads := h.reads hr
  unfold hasNews
  generalize (c.receive r).1 = d at hreads ⊢
  generalize (c.receive r).2 = r' at hreads
  cases hreads with
  | message _ ha =>
    have hlt := (List.getElem?_eq_some_iff.mp ha).1
    exact iff_of_false nofun (by omega)
  | lagged hbehind =>
    have hle := h.oldest_le
    exact iff_of_false nofun (by omega)
  | empty hnext => exact iff_of_true rfl hnext

/-- To read everything is to be told once of what is passed over, and then of all the rest. -/
theorem readAll_eq (h : c.Carries sent) (r : Receiver) :
    c.readAll r =
      ((if c.oldest ≤ r.next then [] else [.lagged (c.oldest - r.next)]) ++
        (sent.drop (max r.next c.oldest)).map .message, ⟨sent.length⟩) := by
  have hrest : c.kept.drop (r.next - c.oldest) = sent.drop (max r.next c.oldest) := by
    rw [← h.kept_drop (Nat.le_max_right ..)]
    congr 1
    omega
  simp only [readAll, hrest, h.count, Nat.sub_eq_zero_iff_le]

theorem skim_le (h : c.Carries sent) (r : Receiver) : (c.skim r).next ≤ sent.length := by
  unfold skim
  split
  · exact h.oldest_le
  · exact Nat.le_of_eq h.count

end Carries

namespace Reads

variable {d : Delivery α} {r' : Receiver}

theorem le_length (h : Reads sent c r d r') (hc : c.Carries sent) : r'.next ≤ sent.length := by
  cases h with
  | message _ ha => exact (List.getElem?_eq_some_iff.mp ha).1
  | lagged _ => exact hc.oldest_le
  | empty hnext => exact Nat.le_of_eq hnext

end Reads

end Broadcast

end ServiceRegistry
