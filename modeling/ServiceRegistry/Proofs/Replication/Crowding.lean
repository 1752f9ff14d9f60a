import Mathlib.Data.List.Induction
import ServiceRegistry.Proofs.Replication.Calls
import ServiceRegistry.Proofs.Replication.Redelivery

/-! # How many items wait for one instance

An item merges into the latest one of its instance, whatever waits before that. So a registration
that takes over the place of a removal stands behind an earlier registration, and the next removal
opens one more place. `waiting_le_two_iff` says which pushes lead beyond two places, and that one
instance may come to fill the queue in this way.
-/

namespace ServiceRegistry.Replication

set_option autoImplicit false

namespace Pending

variable {i : Item} {items : List Item} {k : Key}

theorem length_filter_key (items : List Item) (k : Key) :
    (items.filter (·.key = k)).length = (items.map Item.key).count k := by
  rw [List.count, List.countP_map, List.countP_eq_length_filter]
  congr 2
  ext i
  exact (beq_eq_decide i.key k).symm

theorem place_eq_append_or (i : Item) (items : List Item) :
    place i items = items ++ [i] ∨ (place i items).map Item.key = items.map Item.key := by
  rcases split_last (fun j : Item => j.key = i.key) items with
    hnone | ⟨before, j, after, rfl, hj, hafter⟩
  · exact .inl (place_of_absent hnone)
  · rw [place_of_split hj hafter]
    cases habsorb : j.absorb i with
    | none => exact .inl rfl
    | some merged =>
      right
      have hkey : merged.key = j.key := (Item.key_absorb hj habsorb).trans hj.symm
      simp only [List.map_append, List.map_cons, hkey]

theorem Lined.place_eq_append_iff (h : Lined items) (hi : i.key = k)
    (htwo : (items.filter (·.key = k)).length = 2) :
    Pending.place i items = items ++ [i] ↔
      (items.filter (·.key = k)).map (·.operation) = [.register, .register] ∧
        i.operation = .deleteStatusOverride := by
  obtain ⟨a, b, hab⟩ := List.length_eq_two.mp htwo
  have ha : a.operation = .register := h k a (by rw [hab]; exact List.mem_singleton_self a)
  have hplace : (Pending.place i items).filter (·.key = k) = enqueue i [a, b] := by
    rw [filter_place, if_pos hi, hab]
  have hkeys : (Pending.place i items).map Item.key = items.map Item.key →
      (enqueue i [a, b]).length = 2 := by
    intro hkeys
    rw [← hplace, length_filter_key, hkeys, ← length_filter_key, htwo]
  have hiff : Pending.place i items = items ++ [i] ↔ b.absorb i = none := by
    constructor
    · intro hown
      rw [hown, List.filter_append, hab, List.filter_cons_of_pos (by simpa using hi)] at hplace
      cases habsorb : b.absorb i with
      | none => rfl
      | some merged => simp [enqueue, habsorb] at hplace
    · intro habsorb
      refine (place_eq_append_or i items).resolve_right fun hsame => ?_
      have hlength := hkeys hsame
      simp [enqueue, habsorb] at hlength
  rw [hiff, Item.absorb_eq_none_iff, hab]
  simp [ha]

end Pending

namespace Queue

variable {q : Queue} {i : Item} {k : Key}

theorem length_waiting (q : Queue) (k : Key) :
    (q.waiting k).length = (q.toList.map Item.key).count k := Pending.length_filter_key q.toList k

theorem Tidy.push_eq (h : q.Tidy) (i : Item) :
    (q.push i).2.capacity = q.capacity ∧ (q.push i).2.toList =
      (Pending.place i q.toList).drop ((Pending.place i q.toList).length - q.capacity) :=
  have hpending := (h.push i).2.2
  ⟨congrArg Pending.capacity hpending, congrArg Pending.items hpending⟩

theorem Tidy.drain_eq (h : q.Tidy) (most : Nat) :
    (q.drain most).2.capacity = q.capacity ∧ (q.drain most).2.toList = q.toList.drop most :=
  have hpending := (h.drain most).2.2
  ⟨congrArg Pending.capacity hpending, congrArg Pending.items hpending⟩

structure Kept (q : Queue) : Prop extends q.Roomy where
  within : q.toList.length ≤ q.capacity
  lined : Pending.Lined q.toList

theorem kept_ofCapacity (capacity : Nat) : (ofCapacity capacity).Kept :=
  ⟨roomy_ofCapacity capacity, Nat.zero_le _, fun _ _ hi => nomatch hi⟩

theorem Kept.push (h : q.Kept) (i : Item) : (q.push i).2.Kept := by
  obtain ⟨hcapacity, hitems⟩ := h.tidy.push_eq i
  refine ⟨h.toRoomy.push i, ?_, (h.lined.place i).segment (h.tidy.toList_push i)⟩
  rw [hitems, hcapacity, List.length_drop]
  omega

theorem Kept.drain (h : q.Kept) (most : Nat) : (q.drain most).2.Kept := by
  obtain ⟨hcapacity, hitems⟩ := h.tidy.drain_eq most
  refine ⟨h.toRoomy.drain most, ?_, h.lined.segment (h.tidy.toList_drain most).2⟩
  rw [hitems, hcapacity, List.length_drop]
  exact Nat.le_trans (Nat.sub_le ..) h.within

/-- An item that comes to a full line drives out its head, if that is about the instance. -/
def Keeps (q : Queue) (k : Key) : Prop :=
  q.toList.length < q.capacity ∨ q.toList.head?.map Item.key ≠ some k

instance (q : Queue) (k : Key) : Decidable (q.Keeps k) := by
  unfold Keeps
  infer_instance

/-- The removal of an override comes for an instance of which two registrations wait, and does not
drive out the first of these. -/
structure Crowds (q : Queue) (k : Key) (i : Item) : Prop where
  key : i.key = k
  removal : i.operation = .deleteStatusOverride
  pair : (q.waiting k).map (·.operation) = [.register, .register]
  keeps : q.Keeps k

theorem Kept.length_waiting_push_own (h : q.Kept)
    (hown : Pending.place i q.toList = q.toList ++ [i]) (k : Key) :
    ((q.push i).2.waiting k).length =
      (q.waiting k).length - (if q.Keeps k then 0 else 1) + if i.key = k then 1 else 0 := by
  obtain ⟨-, hitems⟩ := h.tidy.push_eq i
  rw [hown, List.length_append, List.length_singleton] at hitems
  rw [length_waiting, length_waiting, hitems]
  have hnew : ([i].map Item.key).count k = if i.key = k then 1 else 0 := by
    simp [List.count_singleton]
  by_cases hroom : q.toList.length < q.capacity
  · have hkeeps : q.Keeps k := .inl hroom
    rw [Nat.sub_eq_zero_of_le hroom, List.drop_zero, List.map_append, List.count_append, hnew,
      if_pos hkeeps, Nat.sub_zero]
  · have hlength : q.toList.length = q.capacity :=
      Nat.le_antisymm h.within (Nat.le_of_not_lt hroom)
    have hne : q.toList ≠ [] := List.ne_nil_of_length_pos (hlength ▸ h.room)
    rw [hlength, Nat.add_sub_cancel_left, List.drop_one, List.tail_append_of_ne_nil hne,
      List.map_append, List.count_append, hnew, List.map_tail, List.count_tail, List.head?_map]
    by_cases hhead : q.toList.head?.map Item.key = some k
    · have hkeeps : ¬ q.Keeps k := fun hkeeps => hkeeps.elim hroom fun hne => hne hhead
      rw [if_neg hkeeps, hhead, if_pos (beq_self_eq_true _)]
    · have hkeeps : q.Keeps k := .inr hhead
      rw [if_pos hkeeps, beq_false_of_ne hhead, if_neg Bool.false_ne_true]

theorem Kept.two_lt_push_iff (h : q.Kept) (htwo : (q.waiting k).length ≤ 2) (i : Item) :
    2 < ((q.push i).2.waiting k).length ↔ q.Crowds k i := by
  constructor
  · intro hlt
    rcases Pending.place_eq_append_or i q.toList with hown | hsame
    · rw [h.length_waiting_push_own hown] at hlt
      have hkey : i.key = k := by
        by_contra hne
        rw [if_neg hne] at hlt
        omega
      rw [if_pos hkey] at hlt
      have hkeeps : q.Keeps k := by
        by_contra hnot
        rw [if_neg hnot] at hlt
        omega
      rw [if_pos hkeeps] at hlt
      have hexact : (q.waiting k).length = 2 := by omega
      obtain ⟨hpair, hremoval⟩ := (h.lined.place_eq_append_iff hkey hexact).mp hown
      exact ⟨hkey, hremoval, hpair, hkeeps⟩
    · have hsegment := ((h.tidy.toList_push i).map Item.key).sublist.count_le k
      rw [← length_waiting, hsame, ← length_waiting] at hsegment
      omega
  · rintro ⟨hkey, hremoval, hpair, hkeeps⟩
    have hexact : (q.waiting k).length = 2 := by
      rw [← List.length_map (·.operation), hpair]
      rfl
    have hown := (h.lined.place_eq_append_iff hkey hexact).mpr ⟨hpair, hremoval⟩
    rw [h.length_waiting_push_own hown, hexact, if_pos hkeeps, if_pos hkey]
    decide

def after (q : Queue) (calls : List Call) : Queue := calls.foldl (fun q c => (buffer.call q c).2) q

theorem after_append (q : Queue) (before calls : List Call) :
    q.after (before ++ calls) = (q.after before).after calls := List.foldl_append ..

theorem Kept.after (h : q.Kept) (calls : List Call) :
    (q.after calls).Kept ∧ (q.after calls).capacity = q.capacity := by
  induction calls generalizing q with
  | nil => exact ⟨h, rfl⟩
  | cons c calls ih =>
    cases c with
    | push i =>
      obtain ⟨hkept, hcapacity⟩ := ih (h.push i)
      exact ⟨hkept, hcapacity.trans (h.tidy.push_eq i).1⟩
    | drain most =>
      obtain ⟨hkept, hcapacity⟩ := ih (h.drain most)
      exact ⟨hkept, hcapacity.trans (h.tidy.drain_eq most).1⟩

theorem place_removal {removal registration : Item}
    (hremoval : removal.operation = .deleteStatusOverride)
    (hregistration : registration.operation = .register)
    (hkey : registration.key = removal.key) (n : Nat) :
    Pending.place removal (List.replicate n registration) =
      List.replicate n registration ++ [removal] := by
  cases n with
  | zero => rfl
  | succ n =>
    have habsorb := Item.absorb_eq_none_iff.mpr ⟨hregistration, hremoval⟩
    rw [List.replicate_succ', Pending.place_of_split hkey (List.forall_mem_nil _), habsorb]

theorem Kept.toList_round (h : q.Kept) {removal registration : Item}
    (hremoval : removal.operation = .deleteStatusOverride)
    (hregistration : registration.operation = .register)
    (hkey : registration.key = removal.key) {n : Nat}
    (hq : q.toList = List.replicate (min n q.capacity) registration) :
    (q.after [.push removal, .push registration]).toList =
      List.replicate (min (n + 1) q.capacity) registration := by
  have hroom := h.room
  obtain ⟨hcapacity, hitems⟩ := h.tidy.push_eq removal
  have hfirst : (q.push removal).2.toList =
      List.replicate (min (n + 1) q.capacity - 1) registration ++ [removal] := by
    rw [hitems, hq, place_removal hremoval hregistration hkey, List.length_append,
      List.length_replicate, List.length_singleton, List.drop_append_of_le_length,
      List.drop_replicate]
    · congr 2
      omega
    · rw [List.length_replicate]
      omega
  obtain ⟨hcapacity', hitems'⟩ := (h.push removal).tidy.push_eq registration
  have habsorb : removal.absorb registration = some registration :=
    Slot.absorb_eq_incoming (.inl hregistration)
  have hplace : Pending.place registration (q.push removal).2.toList =
      List.replicate (min (n + 1) q.capacity) registration := by
    rw [hfirst, Pending.place_of_split hkey.symm (List.forall_mem_nil _), habsorb]
    simp only
    rw [← List.replicate_succ']
    congr 1
    omega
  change ((q.push removal).2.push registration).2.toList = _
  rw [hitems', hplace, hcapacity, List.length_replicate,
    Nat.sub_eq_zero_of_le (Nat.min_le_right ..), List.drop_zero]

theorem Kept.toList_rounds (h : q.Kept) {removal registration : Item}
    (hremoval : removal.operation = .deleteStatusOverride)
    (hregistration : registration.operation = .register)
    (hkey : registration.key = removal.key) (hempty : q.toList = []) (rounds : Nat) :
    (q.after (List.replicate rounds [.push removal, .push registration]).flatten).toList =
      List.replicate (min rounds q.capacity) registration := by
  induction rounds with
  | zero =>
    rw [Nat.zero_min]
    exact hempty
  | succ n ih =>
    obtain ⟨hkept, hcapacity⟩ :=
      h.after (List.replicate n [.push removal, .push registration]).flatten
    rw [← hcapacity] at ih ⊢
    rw [List.replicate_succ', List.flatten_append, List.flatten_singleton, after_append]
    exact hkept.toList_round hremoval hregistration hkey ih

/-- All items that wait for an instance but the last are registrations. There come to be more than
two of them just when one crowds the instance, and an instance that does this often enough fills
the queue. -/
theorem waiting_le_two_iff (capacity : Nat) (calls : List Call) (k : Key) :
    (∀ i ∈ (((ofCapacity capacity).after calls).waiting k).dropLast, i.operation = .register) ∧
    ((∀ before, before <+: calls →
        (((ofCapacity capacity).after before).waiting k).length ≤ 2) ↔
      ∀ before i, before ++ [.push i] <+: calls →
        ¬ ((ofCapacity capacity).after before).Crowds k i) ∧
    ∀ removal registration : Item, removal.operation = .deleteStatusOverride →
      registration.operation = .register → removal.key = k → registration.key = k →
      ∀ rounds, (((ofCapacity capacity).after
          (List.replicate rounds [.push removal, .push registration]).flatten).waiting k).length =
        min rounds (max capacity 1) := by
  have hkept (calls : List Call) : ((ofCapacity capacity).after calls).Kept :=
    ((kept_ofCapacity capacity).after calls).1
  refine ⟨(hkept calls).lined k, ⟨fun hall before i hprefix => ?_, fun hnone => ?_⟩, ?_⟩
  · have hbefore := hall before ((List.prefix_append _ _).trans hprefix)
    have hafter := hall _ hprefix
    rw [after_append] at hafter
    rw [← (hkept before).two_lt_push_iff hbefore i]
    exact Nat.not_lt.mpr hafter
  · intro before
    induction before using List.reverseRecOn with
    | nil => exact fun _ => Nat.zero_le 2
    | append_singleton before c ih =>
      intro hprefix
      have hbefore := ih ((List.prefix_append _ _).trans hprefix)
      rw [after_append]
      cases c with
      | push i =>
        have hcrowds := hnone before i hprefix
        rw [← (hkept before).two_lt_push_iff hbefore i] at hcrowds
        exact Nat.not_lt.mp hcrowds
      | drain most =>
        have hsegment := ((hkept before).tidy.toList_drain most).2
        exact Nat.le_trans (hsegment.filter _).length_le hbefore
  · intro removal registration hremoval hregistration hk hk' rounds
    have hrounds := (kept_ofCapacity capacity).toList_rounds hremoval hregistration
      (hk'.trans hk.symm) rfl rounds
    rw [waiting, hrounds, List.filter_eq_self.mpr, List.length_replicate]
    · exact congrArg (min rounds) rfl
    · intro i hi
      rw [List.eq_of_mem_replicate hi]
      exact decide_eq_true hk'

/-- A registration, the release of an override behind it, and both once more. -/
theorem waiting_le_two_iff_piled :
    let x : Instance := .named "WEB" "web-1" "host" 80
    let register := Item.of .register x 1
    let release := Item.of .deleteStatusOverride x 2
    let before : List Call := [.push register, .push release, .push register]
    let calls := before ++ [.push release]
    let k : Key := ("WEB", "web-1")
    ((ofCapacity 8).after before).Crowds k release ∧
      (((ofCapacity 8).after calls).waiting k).map (·.operation) =
        [.register, .register, .deleteStatusOverride] ∧
      (¬ ∀ before, before <+: calls → (((ofCapacity 8).after before).waiting k).length ≤ 2) ∧
      (((ofCapacity 8).after
        (List.replicate 20 [.push release, .push register]).flatten).waiting k).length = 8 := by
  intro x register release before calls k
  have hcrowds : ((ofCapacity 8).after before).Crowds k release :=
    ⟨by decide, by decide, by decide +kernel, by decide +kernel⟩
  obtain ⟨-, hiff, hrounds⟩ := waiting_le_two_iff 8 calls k
  exact ⟨hcrowds, by decide +kernel,
    fun hall => hiff.mp hall before release List.prefix_rfl hcrowds,
    hrounds release register rfl rfl rfl rfl 20⟩

end Queue

end ServiceRegistry.Replication
