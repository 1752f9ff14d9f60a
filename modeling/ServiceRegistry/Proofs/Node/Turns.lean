import ServiceRegistry.Proofs.Node.Acts

/-! # Turns of a node

A node takes turns: it acts, or one of its chores is done. A chore is an act as well, unless it is
the recorder's (`Chore.perform_acts`). So over all its turns a node tells of its changes one by one
(`Node.Follows.spend`).
-/

namespace ServiceRegistry

set_option autoImplicit false

/-- Chores are acts, but for the recorder, who reads events and counts them. -/
theorem Chore.perform_acts (n : Node) (now : Nat) {chore : Chore} (h : chore.kind ≠ .recorder) :
    ∃ acts, (chore.perform n now).2 = n.run acts := by
  cases chore with
  | cache events tick quiet =>
    cases quiet with
    | some quiet => exact ⟨[.refresh], rfl⟩
    | none =>
      simp only [perform]
      split
      · exact ⟨[.refresh], rfl⟩
      · split
        · exact ⟨[], rfl⟩
        · exact ⟨[.rebuild], rfl⟩
        · exact ⟨[], rfl⟩
  | eviction tick => exact ⟨[.evict .first], rfl⟩
  | renewals tick window => exact ⟨[.rotate], rfl⟩
  | recorder events => exact absurd rfl h
  | discovery tick => exact ⟨[.syncPeers], rfl⟩

namespace Node

inductive Turn where
  | act (a : Act)
  | chore (now place : Nat)

def turn (n : Node) : Turn → Node
  | .act a => n.act a
  | .chore now place => n.doChore now place

def spend (n : Node) (turns : List Turn) : Node := turns.foldl turn n

theorem spend_append (n : Node) (before after : List Turn) :
    n.spend (before ++ after) = (n.spend before).spend after := List.foldl_append

theorem spend_acts (n : Node) (acts : List Act) : n.spend (acts.map .act) = n.run acts :=
  List.foldl_map

variable {n : Node} {history : List Change} {sent : List Event}

theorem Follows.congr (h : n.Follows history sent) {n' : Node}
    (hregistry : n'.registry = n.registry) (hevents : n'.events = n.events) :
    n'.Follows history sent where
  reachable := hregistry ▸ h.reachable
  registry := hregistry ▸ h.registry
  channel := hevents ▸ h.channel
  announced := h.announced

theorem Follows.run (h : n.Follows history sent) (acts : List Act) :
    ∃ more told, (n.run acts).Follows (history ++ more) (sent ++ told) := by
  induction acts generalizing n history sent with
  | nil =>
    refine ⟨[], [], ?_⟩
    rw [List.append_nil, List.append_nil]
    exact h
  | cons a rest ih =>
    obtain ⟨more, told, hrest⟩ := ih (h.act a)
    rw [List.append_assoc, List.append_assoc] at hrest
    exact ⟨_, _, hrest⟩

theorem Follows.doChore (h : n.Follows history sent) (now place : Nat) :
    ∃ more told, (n.doChore now place).Follows (history ++ more) (sent ++ told) := by
  simp only [Node.doChore]
  split
  · exact h.run []
  · rename_i chore _
    by_cases hkind : chore.kind = .recorder
    · cases chore with
      | recorder events =>
        obtain ⟨more, told, hsame⟩ := h.run []
        exact ⟨more, told, hsame.congr rfl rfl⟩
      | cache | eviction | renewals | discovery => cases hkind
    · obtain ⟨acts, hacts⟩ := chore.perform_acts n now hkind
      obtain ⟨more, told, hafter⟩ := h.run acts
      rw [← hacts] at hafter
      exact ⟨more, told, hafter.congr rfl rfl⟩

theorem Follows.spend (h : n.Follows history sent) (turns : List Turn) :
    ∃ more told, (n.spend turns).Follows (history ++ more) (sent ++ told) := by
  induction turns generalizing n history sent with
  | nil => exact h.run []
  | cons t rest ih =>
    have hturn : ∃ more told, (n.turn t).Follows (history ++ more) (sent ++ told) := by
      cases t with
      | act a => exact ⟨_, _, h.act a⟩
      | chore now place => exact h.doChore now place
    obtain ⟨more, told, hturn⟩ := hturn
    obtain ⟨more', told', hrest⟩ := ih hturn
    rw [List.append_assoc, List.append_assoc] at hrest
    exact ⟨_, _, hrest⟩

end Node

end ServiceRegistry
