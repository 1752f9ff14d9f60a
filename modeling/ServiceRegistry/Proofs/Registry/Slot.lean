import ServiceRegistry.Proofs.Registry.Command

/-! # Slots

A slot is all that a registry holds for one instance: its lease, and the status imposed on it.
`Slot.move` says what a command makes of the slot of its instance. `perform_acts` says that this
is all a command does to the registrations, and which change it logs and tells of.
-/

namespace ServiceRegistry

set_option autoImplicit false

/-- A record apart from what its registry notes of the last change. -/
def Instance.content (x : Instance) : Instance := { x with lastChange := none, updatedAt := 0 }

structure Slot where
  lease : Option (Lease Instance) := none
  override : Option Status := none
  deriving DecidableEq, Repr

/-- What a command makes of the slot of its instance. -/
structure Move where
  answer : CommandAnswer
  slot : Slot
  /-- The change to be logged, and the lease duration that peers are told with it. -/
  change : Option (ChangeKind × Instance × UInt64) := none

namespace Lease

@[simp]
theorem isEvicted_renew (l : Lease Instance) (now : Millis) :
    (l.renew now).isEvicted = l.isEvicted := rfl

end Lease

namespace Slot

def held (s : Slot) : Option (Lease Instance) := s.lease.filter fun l => !l.isEvicted

def settle (override : Option Status) (origin : Origin) (r : Instance) : Option Status × Instance :=
  match origin, override, Registry.imposed r with
  | .peer, _, some s => (some s, { r with status := s })
  | .peer, _, none => (none, { r with overridden := none })
  | .client, some s, _ => (some s, { r with overridden := some s, status := s })
  | .client, none, some s => (some s, { r with status := s })
  | .client, none, none => (none, r)

def chosen (s : Slot) (incoming : Instance) : Instance :=
  match s.held with
  | some l => Registry.newer l.holder incoming
  | none => incoming

def enrolled (s : Slot) (now : Millis) (origin : Origin) (incoming : Instance) :
    ChangeKind × Option Status × Instance :=
  let kind : ChangeKind := if s.held.isSome then .modified else .added
  let (override, settled) := settle s.override origin (s.chosen incoming)
  (kind, override, { settled with lastChange := some kind, updatedAt := now })

theorem content_enrolled (s : Slot) (now : Millis) (origin : Origin) (incoming : Instance) :
    (s.enrolled now origin incoming).2.2.content =
      (settle s.override origin (s.chosen incoming)).2.content := rfl

def enroll (s : Slot) (now : Millis) (origin : Origin) (incoming : Instance) (duration : UInt64) :
    Move :=
  let (kind, override, record) := s.enrolled now origin incoming
  let upSince := (s.held.map (·.upSince)).getD 0
  { answer := .registered (.ok ())
    slot := ⟨some (Registry.leaseFor record duration now upSince), override⟩
    change := some (kind, record, duration) }

def renewalAnswer (origin : Origin) (dirtyAt : Option Millis) (r : Instance) : RenewalAnswer :=
  if dirtyAt.any fun d => r.dirtyAt < d then .notFound
  else if (dirtyAt.any fun d => d < r.dirtyAt) && origin = .peer then .conflict r
  else .renewed

def renew (s : Slot) (now : Millis) (origin : Origin) (dirtyAt : Option Millis) : Move :=
  match s.held with
  | none => ⟨.renewed .notFound, s, none⟩
  | some l =>
    let l := l.renew now
    ⟨.renewed (renewalAnswer origin dirtyAt l.holder), { s with lease := some l }, none⟩

def withdraw (s : Slot) (now : Millis) (test : Lease Instance → Bool) : Move :=
  match s.lease.filter test with
  | none => ⟨.removed false, s, none⟩
  | some l =>
    ⟨.removed true, {},
      some (.deleted, { l.holder with lastChange := some .deleted, updatedAt := now },
        l.holder.terms.duration)⟩

def impose (s : Status) (_ : Option Status) (r : Instance) : Option (Option Status × Instance) :=
  if r.status = s ∧ r.overridden = some s then none
  else some (some s, { r with overridden := some s, status := s })

def release (s : Status) (override : Option Status) (r : Instance) :
    Option (Option Status × Instance) :=
  if override = none ∧ r.overridden = none ∧ r.status = s then none
  else some (none, { r with overridden := none, status := s })

section Statuses

variable {status : Status} {override : Option Status} {x : Instance} {p : Option Status × Instance}

theorem impose_eq_none (h : impose status override x = none) :
    x.status = status ∧ x.overridden = some status := by
  unfold impose at h
  split at h
  · assumption
  · cases h

theorem impose_eq_some (h : impose status override x = some p) :
    p = (some status, { x with overridden := some status, status }) := by
  unfold impose at h
  split at h
  · cases h
  · exact (Option.some.inj h).symm

theorem release_eq_none (h : release status override x = none) :
    override = none ∧ x.overridden = none ∧ x.status = status := by
  unfold release at h
  split at h
  · assumption
  · cases h

theorem release_eq_some (h : release status override x = some p) :
    p = (none, { x with overridden := none, status }) := by
  unfold release at h
  split at h
  · cases h
  · exact (Option.some.inj h).symm

end Statuses

/-- The imposed status and the record after a change of the status; `none` if it is in place. -/
abbrev StatusChange : Type := Option Status → Instance → Option (Option Status × Instance)

def stamp (now : Millis) (dirtyAt : Option Millis) (r : Instance) : Instance :=
  { r with dirtyAt := dirtyAt.getD now, lastChange := some .modified, updatedAt := now }

def relabel (l : Lease Instance) (now : Millis) (holder : Instance) : Lease Instance :=
  if holder.status = .up then ({ l with holder } : Lease Instance).markUp now else { l with holder }

def changeStatus (s : Slot) (now : Millis) (dirtyAt : Option Millis)
    (change : StatusChange) : Move :=
  match s.held with
  | none => ⟨.changed .notFound, s, none⟩
  | some l =>
    if dirtyAt.any (· < l.holder.dirtyAt) then ⟨.changed .conflict, s, none⟩
    else match change s.override l.holder with
      | none => ⟨.changed .success, s, none⟩
      | some (override, changed) =>
        let holder := stamp now dirtyAt changed
        let lease := relabel l now holder
        ⟨.changed .success, ⟨some lease, override⟩, some (.modified, holder, lease.duration)⟩

def accept (now : Millis) (record : Instance) (duration : Option UInt64) :
    Except Invalid (Instance × UInt64) := do
  let incoming := { record with app := Text.upper record.app }
  incoming.check
  let granted := Registry.grantedDuration duration incoming
  checkLease incoming.id granted
  return (if incoming.dirtyAt = 0 then { incoming with dirtyAt := now } else incoming, granted)

def move (s : Slot) (now : Millis) : Command → Move
  | .register origin record duration =>
    match accept now record duration with
    | .error e => ⟨.registered (.error e), s, none⟩
    | .ok (incoming, granted) => s.enroll now origin incoming granted
  | .renew origin _ _ dirtyAt => s.renew now origin dirtyAt
  | .cancel .. => s.withdraw now fun _ => true
  | .evict seen _ _ grace => s.withdraw now fun l => l.isExpired seen.toInt grace
  | .updateStatus _ _ _ status dirtyAt => s.changeStatus now dirtyAt (impose status)
  | .deleteOverride _ _ _ status dirtyAt => s.changeStatus now dirtyAt (release status)

end Slot

end ServiceRegistry
