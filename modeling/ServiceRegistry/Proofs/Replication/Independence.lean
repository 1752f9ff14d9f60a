import ServiceRegistry.Proofs.Registry.Receipt

/-! # Independence of instances

What a batch makes of an instance depends on the items that touch it, and on their order, only.
The log, the versions and the applications are shared, but no outcome and no lease shows it:
`receiveAll_rearranged` says so of any two orders of a batch that agree for each instance.
-/

namespace ServiceRegistry

set_option autoImplicit false

open Replication

/-- Two lists have the same elements, and those of each key in the same order. -/
structure Rearranged {α : Type} (key : α → Option Key) (xs ys : List α) : Prop where
  perm : xs.Perm ys
  order : ∀ k, xs.filter (key · = some k) = ys.filter (key · = some k)

theorem perm_of_filter {α κ : Type} [DecidableEq α] [DecidableEq κ] (key : α → κ) {xs ys : List α}
    (h : ∀ k, (xs.filter (key · = k)).Perm (ys.filter (key · = k))) : xs.Perm ys := by
  rw [List.perm_iff_count]
  intro a
  have hcount := (h (key a)).count_eq a
  rwa [List.count_filter (by simp), List.count_filter (by simp)] at hcount

/-- The instance that an item is about: that of its record, if it registers one. -/
def Replication.Item.touched? (i : Item) : Option Key :=
  match i.operation with
  | .register => i.record.map fun record => Registry.keyOf record.app record.id
  | _ => some (Registry.keyOf i.app i.id)

theorem Replication.Item.touched?_of_command {i : Item} {c : Command} (h : i.command? = some c) :
    i.touched? = some c.key := by
  unfold Item.command? at h
  unfold Item.touched?
  cases hop : i.operation with
  | register =>
    rw [hop] at h
    obtain ⟨record, hrecord, rfl⟩ := Option.map_eq_some_iff.mp h
    rw [hrecord]
    rfl
  | statusUpdate =>
    rw [hop] at h
    obtain ⟨status, -, rfl⟩ := Option.map_eq_some_iff.mp h
    rfl
  | heartbeat | cancel | deleteStatusOverride =>
    rw [hop] at h
    cases h
    rfl

/-- The outcome that an answer is reported as, given the slot that the command left. -/
def CommandAnswer.outcome (after : Slot) : CommandAnswer → Outcome
  | .registered (.ok _) => .success
  | .registered (.error e) => .rejected e.requestMessage
  | .renewed .renewed => .success
  | .renewed .notFound => .notFound
  | .renewed (.conflict record) => .conflict (some record)
  | .removed found => if found then .success else .notFound
  | .changed .success => .success
  | .changed .notFound => .notFound
  | .changed .conflict => .conflict (after.held.map (·.holder))

namespace Registry

variable {r r' : Registry} {now : Millis} {i : Item}

theorem receive_answer {c : Command} (hc : i.command? = some c) :
    (r.receive now i).answer =
      (r.perform now c).answer.outcome ((r.perform now c).registry.slot c.key) := by
  unfold Item.command? at hc
  unfold receive
  cases hop : i.operation with
  | register =>
    rw [hop] at hc
    obtain ⟨record, hrecord, rfl⟩ := Option.map_eq_some_iff.mp hc
    rw [hrecord]
    simp only [perform]
    cases r.register now .peer record i.lease <;> rfl
  | heartbeat =>
    rw [hop] at hc
    cases hc
    simp only [perform, Response.map]
    cases (r.renew now .peer i.app i.id (positive i.dirtyAt)).answer <;> rfl
  | cancel =>
    rw [hop] at hc
    cases hc
    rfl
  | statusUpdate =>
    rw [hop] at hc
    obtain ⟨status, hstatus, rfl⟩ := Option.map_eq_some_iff.mp hc
    rw [hstatus]
    simp only [perform, Response.map, statusOutcome]
    cases (r.updateStatus now .peer i.app i.id status (positive i.dirtyAt)).answer <;> rfl
  | deleteStatusOverride =>
    rw [hop] at hc
    cases hc
    simp only [perform, Response.map, statusOutcome]
    cases (r.deleteOverride now .peer i.app i.id (i.status.getD .unknown)
      (positive i.dirtyAt)).answer <;> rfl

theorem receive_answer_of_none (hnone : i.command? = none) (r r' : Registry) (now : Millis) :
    (r.receive now i).answer = (r'.receive now i).answer := by
  unfold Item.command? at hnone
  unfold receive
  cases hop : i.operation with
  | register =>
    rw [hop] at hnone
    rw [Option.map_eq_none_iff.mp hnone]
  | statusUpdate =>
    rw [hop] at hnone
    rw [Option.map_eq_none_iff.mp hnone]
  | heartbeat | cancel | deleteStatusOverride =>
    rw [hop] at hnone
    cases hnone

def renews (r : Registry) (i : Item) : Bool :=
  i.operation = .heartbeat && (r.held? (keyOf i.app i.id)).isSome

theorem renewals_register {origin : Origin} {record : Instance} {duration : Option UInt64}
    {s : Response Unit} (h : r.register now origin record duration = .ok s) :
    s.registry.renewals = r.renewals := by
  rw [register_eq] at h
  cases haccept : Slot.accept now record duration with
  | error e =>
    rw [haccept] at h
    cases h
  | ok x =>
    rw [haccept] at h
    cases h
    rfl

theorem renewals_changeStatus (r : Registry) (now : Millis) (origin : Origin)
    (operation : Operation) (key : Key) (dirtyAt : Option Millis)
    (change : KeyMap Key Status → Instance → Option (KeyMap Key Status × Instance)) :
    (r.changeStatus now origin operation key dirtyAt change).registry.renewals = r.renewals := by
  unfold changeStatus
  split
  · rfl
  split
  · rfl
  split <;> rfl

theorem renewals_withdraw (r : Registry) (now : Millis) (origin : Origin) (key : Key)
    (evicted : Bool) (test : Lease Instance → Bool) :
    (r.withdraw now origin key evicted test).registry.renewals = r.renewals := by
  unfold withdraw
  split
  · rfl
  · simp only [Registry.record, Registry.remove]
    split <;> rfl

theorem renewals_renew (r : Registry) (now : Millis) (origin : Origin) (app id : String)
    (dirtyAt : Option Millis) :
    (r.renew now origin app id dirtyAt).registry.renewals =
      if (r.held? (keyOf app id)).isSome then r.renewals.increment else r.renewals := by
  cases h : r.held? (keyOf app id) with
  | none => simp [renew, h]
  | some l =>
    simp only [renew, h, Option.isSome_some, if_true]
    split
    · rfl
    split <;> rfl

theorem renewals_receive (r : Registry) (now : Millis) (i : Item) :
    (r.receive now i).registry.renewals =
      if r.renews i then r.renewals.increment else r.renewals := by
  unfold receive renews
  cases hop : i.operation with
  | register =>
    cases i.record with
    | none => rfl
    | some record =>
      simp only
      split
      · rename_i s h
        exact renewals_register h
      · rfl
  | heartbeat =>
    simp only [Response.map, decide_true, Bool.true_and]
    exact renewals_renew ..
  | cancel => exact renewals_withdraw ..
  | statusUpdate =>
    cases i.status with
    | none => rfl
    | some status => exact renewals_changeStatus ..
  | deleteStatusOverride => exact renewals_changeStatus ..

def reply (r : Registry) (now : Millis) (i : Item) : Outcome × Bool :=
  ((r.receive now i).answer, r.renews i)

theorem renews_congr (h : ∀ k, i.touched? = some k → r.slot k = r'.slot k) :
    r.renews i = r'.renews i := by
  unfold renews
  by_cases hop : i.operation = .heartbeat
  · have htouched : i.touched? = some (keyOf i.app i.id) := by
      rw [Item.touched?, hop]
    rw [← slot_held, ← slot_held, h _ htouched]
  · simp [hop]

theorem Sound.reply_congr (hr : r.Sound) (hr' : r'.Sound) (now : Millis)
    (h : ∀ k, i.touched? = some k → r.slot k = r'.slot k) : r.reply now i = r'.reply now i := by
  have hanswer : (r.receive now i).answer = (r'.receive now i).answer := by
    cases hc : i.command? with
    | none => exact receive_answer_of_none hc r r' now
    | some c =>
      have hacts := perform_acts hr.filed now c
      have hacts' := perform_acts hr'.filed now c
      rw [receive_answer hc, receive_answer hc, hacts.answer, hacts'.answer, hacts.slot,
        hacts'.slot, if_pos rfl, if_pos rfl, h c.key (Item.touched?_of_command hc)]
  rw [reply, reply, hanswer, renews_congr h]

theorem Sound.slot_receive_congr (hr : r.Sound) (hr' : r'.Sound) (now : Millis) (i : Item) {k : Key}
    (h : r.slot k = r'.slot k) :
    (r.receive now i).registry.slot k = (r'.receive now i).registry.slot k := by
  cases hc : i.command? with
  | none =>
    rw [receive_registry, receive_registry, hc]
    exact h
  | some c => rw [hr.slot_receive now hc, hr'.slot_receive now hc, h]

theorem Sound.slot_receive_other (hr : r.Sound) (now : Millis) {k : Key}
    (h : i.touched? ≠ some k) : (r.receive now i).registry.slot k = r.slot k := by
  cases hc : i.command? with
  | none => rw [receive_registry, hc]
  | some c =>
    rw [hr.slot_receive now hc, if_neg]
    rintro rfl
    exact h (Item.touched?_of_command hc)

def replies (r : Registry) (now : Millis) : List Item → List (Item × Outcome × Bool)
  | [] => []
  | i :: rest => (i, r.reply now i) :: (r.receive now i).registry.replies now rest

theorem length_receiveAll (r : Registry) (now : Millis) (items : List Item) :
    (r.receiveAll now items).answer.length = items.length := by
  induction items generalizing r with
  | nil => rfl
  | cons i rest ih => exact congrArg (· + 1) (ih (r.receive now i).registry)

theorem zip_receiveAll (r : Registry) (now : Millis) (items : List Item) :
    items.zip (r.receiveAll now items).answer =
      (r.replies now items).map fun p => (p.1, p.2.1) := by
  induction items generalizing r with
  | nil => rfl
  | cons i rest ih => exact congrArg _ (ih (r.receive now i).registry)

theorem renewals_receiveAll (r : Registry) (now : Millis) (items : List Item) :
    (r.receiveAll now items).registry.renewals =
      ⟨r.renewals.last, r.renewals.current + (r.replies now items).countP (·.2.2)⟩ := by
  induction items generalizing r with
  | nil => rfl
  | cons i rest ih =>
    refine (ih (r.receive now i).registry).trans ?_
    rw [renewals_receive, replies, List.countP_cons, reply]
    cases r.renews i with
    | true =>
      simp only [RenewalRate.increment, if_true, RenewalRate.mk.injEq, true_and]
      omega
    | false => rfl

/-- The items that touch one instance fare as if they were the whole batch, and so does the
instance. The same holds of the items that touch none. -/
theorem Sound.receiveAll_filter (hr : r.Sound) (hr' : r'.Sound) (now : Millis) {o : Option Key}
    (h : ∀ k, o = some k → r.slot k = r'.slot k) (items : List Item) :
    (r.replies now items).filter (·.1.touched? = o) =
        r'.replies now (items.filter (·.touched? = o)) ∧
      ∀ k, o = some k → (r.receiveAll now items).registry.slot k =
        (r'.receiveAll now (items.filter (·.touched? = o))).registry.slot k := by
  induction items generalizing r r' with
  | nil => exact ⟨rfl, h⟩
  | cons i rest ih =>
    by_cases hi : i.touched? = o
    · subst hi
      obtain ⟨hreplies, hslot⟩ := ih (hr.receive now i) (hr'.receive now i) fun k hk =>
        hr.slot_receive_congr hr' now i (h k hk)
      rw [List.filter_cons_of_pos (by simp)]
      refine ⟨?_, hslot⟩
      rw [replies, List.filter_cons_of_pos (by simp), replies, hr.reply_congr hr' now h, hreplies]
    · obtain ⟨hreplies, hslot⟩ := ih (hr.receive now i) hr' fun k hk =>
        (hr.slot_receive_other now (hk ▸ hi)).trans (h k hk)
      rw [List.filter_cons_of_neg (by simpa using hi)]
      refine ⟨?_, hslot⟩
      rw [replies, List.filter_cons_of_neg (by simpa using hi), hreplies]

theorem Sound.replies_untouching (hr : r.Sound) (now : Millis) {items : List Item}
    (h : ∀ i ∈ items, i.touched? = none) :
    r.replies now items = items.map fun i => (i, r.reply now i) := by
  have hrun {r' : Registry} (hr' : r'.Sound) :
      r'.replies now items = items.map fun i => (i, r.reply now i) := by
    induction items generalizing r' with
    | nil => rfl
    | cons i rest ih =>
      obtain ⟨hi, hrest⟩ := List.forall_mem_cons.mp h
      rw [replies, List.map_cons, ih hrest (hr'.receive now i),
        hr'.reply_congr hr now fun k hk => nomatch hi.symm.trans hk]
  exact hrun hr

theorem Sound.replies_rearranged (hr : r.Sound) (now : Millis) {items items' : List Item}
    (h : Rearranged Item.touched? items items') :
    Rearranged (·.1.touched?) (r.replies now items) (r.replies now items') := by
  have hsame (o : Option Key) (items : List Item) :=
    (hr.receiveAll_filter hr now (o := o) (fun _ _ => rfl) items).1
  have horder (k : Key) : (r.replies now items).filter (·.1.touched? = some k) =
      (r.replies now items').filter (·.1.touched? = some k) := by
    rw [hsame, hsame, h.order k]
  refine ⟨perm_of_filter (·.1.touched?) fun o => ?_, horder⟩
  cases o with
  | some k => exact .of_eq (horder k)
  | none =>
    have huntouching (items : List Item) : ∀ i ∈ items.filter (·.touched? = none),
        i.touched? = none := fun i hi => by simpa using (List.mem_filter.mp hi).2
    rw [hsame, hsame, hr.replies_untouching now (huntouching items),
      hr.replies_untouching now (huntouching items')]
    exact (h.perm.filter _).map _

/-- Two orders of a batch that agree for each instance leave the same leases, the same imposed
statuses and the same count of renewals, and every item has the same outcome in both. -/
theorem Reachable.receiveAll_rearranged (hr : r.Reachable) (now : Millis)
    {items items' : List Item} (h : Rearranged Item.touched? items items') :
    let s := r.receiveAll now items
    let s' := r.receiveAll now items'
    (∀ k, s.registry.stored? k = s'.registry.stored? k) ∧
      (∀ k, s.registry.overrides.get? k = s'.registry.overrides.get? k) ∧
      s.registry.renewals = s'.registry.renewals ∧
      s.answer.length = items.length ∧ s'.answer.length = items'.length ∧
      Rearranged (·.1.touched?) (items.zip s.answer) (items'.zip s'.answer) := by
  intro s s'
  have hslot (k : Key) : s.registry.slot k = s'.registry.slot k := by
    have hsame (items : List Item) :=
      (hr.sound.receiveAll_filter hr.sound now (o := some k) (fun _ _ => rfl) items).2 k rfl
    refine (hsame items).trans (Eq.trans ?_ (hsame items').symm)
    rw [h.order k]
  obtain ⟨hperm, horder⟩ := hr.sound.replies_rearranged now h
  refine ⟨fun k => congrArg Slot.lease (hslot k), fun k => congrArg Slot.override (hslot k), ?_,
    length_receiveAll .., length_receiveAll .., ?_⟩
  · rw [renewals_receiveAll, renewals_receiveAll, hperm.countP_eq]
  · rw [zip_receiveAll, zip_receiveAll]
    refine ⟨hperm.map _, fun k => ?_⟩
    rw [List.filter_map, List.filter_map]
    exact congrArg _ (horder k)

/-- The heartbeat of one instance overtakes the status update of another, under two spellings of
their application, but the cancellation does not overtake the update. -/
theorem receiveAll_rearranged_two_instances :
    let beat : Item := { operation := .heartbeat, app := "WEB", id := "a", dirtyAt := 2, time := 4 }
    let update : Item :=
      { operation := .statusUpdate, app := "web", id := "b", status := some .down, dirtyAt := 4
        time := 4 }
    let cancel : Item := { operation := .cancel, app := "WEB", id := "b", time := 4 }
    let r := ((Registry.start {} 1).perform 2
      (.register .client (.named "web" "b" "host" 80) none)).registry
    let s := r.receiveAll 5 [update, beat, cancel]
    let s' := r.receiveAll 5 [beat, update, cancel]
    r.Reachable ∧ Rearranged Item.touched? [update, beat, cancel] [beat, update, cancel] ∧
      (∀ k, s.registry.stored? k = s'.registry.stored? k) ∧
      s.registry.renewals = s'.registry.renewals ∧
      Rearranged (·.1.touched?) ([update, beat, cancel].zip s.answer)
        ([beat, update, cancel].zip s'.answer) := by
  intro beat update cancel r s s'
  have hr : r.Reachable := .perform 2 _ (.start {} 1)
  have hbeat : beat.touched? = some ("WEB", "a") := by decide +kernel
  have hupdate : update.touched? = some ("WEB", "b") := by decide +kernel
  have hcancel : cancel.touched? = some ("WEB", "b") := by decide +kernel
  have hrearranged :
      Rearranged Item.touched? [update, beat, cancel] [beat, update, cancel] := by
    refine ⟨.swap .., fun k => ?_⟩
    simp only [List.filter_cons, hbeat, hupdate, hcancel]
    by_cases hk : some ("WEB", "a") = some k
    · cases hk
      simp
    · simp [hk]
  obtain ⟨hleases, -, hrenewals, -, -, houtcomes⟩ := hr.receiveAll_rearranged 5 hrearranged
  exact ⟨hr, hrearranged, hleases, hrenewals, houtcomes⟩

end Registry

end ServiceRegistry
