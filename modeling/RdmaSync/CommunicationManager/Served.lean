import RdmaSync.CommunicationManager.Incoming

/-!
This module contains the proof that the connections that are established are served once each, in
runs in which no attempt among those that are copied has failed.
-/

namespace CommunicationManager.Incoming

open Threads

variable {W Id : Type}

@[simp]
theorem Cm.stop_context (cm : Cm Id) : cm.stop.context = cm.context := by
  unfold stop
  split <;> rfl

@[simp]
theorem Cm.stop_incomingIds (cm : Cm Id) : cm.stop.incomingIds = cm.incomingIds := by
  unfold stop
  split <;> rfl

@[simp]
theorem Cm.stop_numberConnections (cm : Cm Id)
    : cm.stop.numberConnections = cm.numberConnections := by
  unfold stop
  split <;> rfl

@[simp]
theorem Cm.stop_numberConnectionsEstablished (cm : Cm Id)
    : cm.stop.numberConnectionsEstablished = cm.numberConnectionsEstablished := by
  unfold stop
  split <;> rfl

theorem Cm.stop_running {cm : Cm Id} (hrunning : cm.running = true)
    (h : cm.stop.running = false) : cm.stop.numberConnections = 0 := by
  unfold stop at *
  split at h
  . next hzero =>
    rw [if_pos hzero]
    exact hzero
  . rw [hrunning] at h
    simp at h

def Counts (stage : Id → Stage) (p : Stage → Bool) (n : Nat) : Prop :=
  ∃ ids : Finset Id, ids.card = n ∧ ∀ id, id ∈ ids ↔ p (stage id) = true

section

variable [DecidableEq Id] {stage : Id → Stage} {p : Stage → Bool} {n : Nat} {id : Id} {new : Stage}

theorem Counts.add (h : Counts stage p n) (hold : p (stage id) = false) (hnew : p new = true)
    : Counts (Function.update stage id new) p (n + 1) := by
  obtain ⟨ids, rfl, hids⟩ := h
  have hmem : id ∉ ids := by simp [hids, hold]
  refine ⟨insert id ids, Finset.card_insert_of_notMem hmem, ?_⟩
  intro id'
  rw [Finset.mem_insert, hids, Function.update_apply]
  split
  . next heq => simp [heq, hnew]
  . next hne => simp [hne]

theorem Counts.remove (h : Counts stage p n) (hold : p (stage id) = true) (hnew : p new = false)
    : Counts (Function.update stage id new) p (n - 1) := by
  obtain ⟨ids, rfl, hids⟩ := h
  have hmem : id ∈ ids := by simp [hids, hold]
  refine ⟨ids.erase id, Finset.card_erase_of_mem hmem, ?_⟩
  intro id'
  rw [Finset.mem_erase, hids, Function.update_apply]
  split
  . next heq => simp [heq, hnew]
  . next hne => simp [hne]

theorem stage_update {α : Type} (p : Stage → α) (h : p new = p (stage id)) (id' : Id)
    : p (Function.update stage id new id') = p (stage id') := by
  rw [Function.update_apply]
  split
  . next heq => rw [heq, h]
  . rfl

theorem Counts.keep (h : Counts stage p n) (heq : p new = p (stage id))
    : Counts (Function.update stage id new) p n := by
  obtain ⟨ids, hcard, hids⟩ := h
  refine ⟨ids, hcard, ?_⟩
  intro id'
  rw [hids, stage_update p heq]

theorem deliver_eq_some {s s' : State W Id} {event : EventType} {response : RdmaInfo}
    (h : s.deliver event id response new = some s')
    : s.cm.running = true ∧ ∃ connections cm,
        ({ s.cm with connections }).switch event id response = some cm ∧
        s' = { s with cm := cm.stop, stage := Function.update s.stage id new } := by
  simp only [State.deliver, Cm.handle, Option.map_eq_some_iff] at h
  obtain ⟨cm', hcm', rfl⟩ := h
  split at hcm'
  . next hguard =>
    obtain ⟨cm, hcm, rfl⟩ := Option.map_eq_some_iff.mp hcm'
    refine ⟨hguard.1, (s.cm.connect event id).connections, cm, ?_, rfl⟩
    unfold Cm.connect at hcm ⊢
    split at hcm
    . next heq =>
      rw [if_pos heq]
      exact hcm
    . next hne =>
      rw [if_neg hne]
      exact hcm
  . simp at hcm'

theorem slot_ne_none {s s' : State W Id} {w : W} (h : s.slot w ≠ none)
    (hconn : s'.conn w = s.conn w) (hperformed : s'.performed = s.performed)
    : s'.slot w ≠ none := by
  simp only [State.slot, hconn, hperformed] at *
  exact h

theorem slot_eq_true {s : State W Id} {w : W} (h : s.slot w = some true)
    : ∃ id, s.conn w false = some id ∧ id ∈ s.performed := by
  unfold State.slot at h
  split at h
  . simp at h
  . next id hsome =>
    split at h
    . next hguard => exact ⟨id, hsome, hguard.1⟩
    . simp at h

theorem slot_eq_some {s : State W Id} {w : W} {b : Bool} (h : s.slot w = some b)
    : s.conn w b = none := by
  unfold State.slot at h
  split at h
  . next hnone =>
    cases h
    exact hnone
  . next id hsome =>
    split at h
    . next hguard =>
      cases h
      exact hguard.2
    . simp at h

end

/--
What the handler knows: `incomingIds` holds every attempt, the counters count the attempts that were
accepted and the open connections, and the contexts of established connections have the type of a
worker.
-/
structure Inv [DecidableEq Id] (s : State W Id) : Prop where
  published : ∀ id, id ∈ s.cm.incomingIds ↔ s.stage id ≠ .unused
  nodup : s.cm.incomingIds.Nodup
  pending : ∀ id, s.stage id = .requested ↔ ∃ w, s.pending w = some id
  pending_inj : ∀ w w' id, s.pending w = some id → s.pending w' = some id → w = w'
  pending_slot : ∀ w, s.pending w ≠ none → s.slot w ≠ none
  conn : ∀ id, (s.stage id).wasEstablished = true ↔ ∃ w b, s.conn w b = some id
  second : ∀ w id, s.conn w true = some id → ∃ id', s.conn w false = some id' ∧ id' ∈ s.performed
  type : ∀ id, (s.stage id).wasEstablished = true ↔ (s.cm.context id).type = .worker
  established : Counts s.stage Stage.connected s.cm.numberConnectionsEstablished
  accepted : Counts s.stage Stage.accepted s.cm.numberConnections
  stopped : s.cm.running = false → s.cm.numberConnections = 0
  served : ∀ id ∈ s.performed, (s.stage id).wasEstablished = true

theorem inv_init [DecidableEq Id] : Inv (.init : State W Id) := by
  constructor
  . simp [State.init, Cm.init]
  . exact List.nodup_nil
  . simp [State.init]
  . simp [State.init]
  . simp [State.init]
  . simp [State.init, Stage.wasEstablished]
  . simp [State.init]
  . simp [State.init, Cm.init, Stage.wasEstablished, RdmaContext.new]
  . exact ⟨∅, rfl, by simp [State.init, Stage.connected]⟩
  . exact ⟨∅, rfl, by simp [State.init, Stage.accepted]⟩
  . simp [State.init, Cm.init]
  . simp [State.init]

section

variable [DecidableEq Id] {s s' : State W Id} {w : W} {id : Id}

theorem wasEstablished_update {stage new : Stage} (hold : s.stage id = stage)
    (h : stage.wasEstablished = true → new.wasEstablished = true) (id' : Id)
    (hid : (s.stage id').wasEstablished = true)
    : (Function.update s.stage id new id').wasEstablished = true := by
  rw [Function.update_apply]
  split
  . next heq =>
    rw [heq, hold] at hid
    exact h hid
  . exact hid

theorem failed_update {stage : Stage} (new : Stage) (hold : s.stage id = stage)
    (hne : stage ≠ .failed) (id' : Id) (hid : s.stage id' = .failed) : Function.update s.stage id new id' = .failed := by
  rw [Function.update_apply, if_neg, hid]
  rintro rfl
  exact hne (hold.symm.trans hid)

theorem switch_failure {cm cm' : Cm Id} {event : EventType} {response : RdmaInfo}
    (hevent : event.failure = true) (h : cm.switch event id response = some cm') : cm' = cm := by
  cases event <;> simp [EventType.failure] at hevent <;> simpa [Cm.switch] using h.symm

theorem Inv.of_established (h : Inv s) {old new : Stage} {cm : Cm Id} (hold : s.stage id = old)
    (hwas : old.wasEstablished = true ∧ new.wasEstablished = true)
    (hcontext : cm.context = s.cm.context) (hids : cm.incomingIds = s.cm.incomingIds)
    (hestablished : Counts (Function.update s.stage id new) Stage.connected
      cm.numberConnectionsEstablished)
    (haccepted : Counts (Function.update s.stage id new) Stage.accepted cm.numberConnections)
    (hstopped : cm.running = false → cm.numberConnections = 0)
    : Inv { s with cm, stage := Function.update s.stage id new } := by
  have hwas' : new.wasEstablished = (s.stage id).wasEstablished := by rw [hold, hwas.1, hwas.2]
  have hrequested : (new = .requested) = (s.stage id = .requested) := by
    rw [hold]
    cases old <;> cases new <;> simp [Stage.wasEstablished] at hwas ⊢
  have hunused : (new ≠ .unused) = (s.stage id ≠ .unused) := by
    rw [hold]
    cases old <;> cases new <;> simp [Stage.wasEstablished] at hwas ⊢
  constructor
  . intro id'
    rw [stage_update (· ≠ Stage.unused) hunused, hids]
    exact h.published id'
  . rw [hids]
    exact h.nodup
  . intro id'
    rw [stage_update (· = Stage.requested) hrequested]
    exact h.pending id'
  . exact h.pending_inj
  . intro w hw
    exact slot_ne_none (h.pending_slot w hw) rfl rfl
  . intro id'
    rw [stage_update Stage.wasEstablished hwas']
    exact h.conn id'
  . exact h.second
  . intro id'
    rw [stage_update Stage.wasEstablished hwas', hcontext]
    exact h.type id'
  . exact hestablished
  . exact haccepted
  . exact hstopped
  . intro id' hid'
    rw [stage_update Stage.wasEstablished hwas']
    exact h.served id' hid'

theorem slot_ne_none_of_subset {s s' : State W Id} {w : W} (h : s.slot w ≠ none)
    (hconn : s'.conn = s.conn) (hperformed : s.performed ⊆ s'.performed) : s'.slot w ≠ none := by
  unfold State.slot at *
  rw [hconn]
  split
  . simp
  . next id hsome =>
    simp only [hsome] at h
    split at h
    . next hguard =>
      rw [if_pos ⟨hperformed hguard.1, hguard.2⟩]
      simp
    . exact absurd rfl h

theorem Inv.of_server (h : Inv s) (hcm : s'.cm = s.cm) (hstage : s'.stage = s.stage)
    (hpending : s'.pending = s.pending) (hconn : s'.conn = s.conn)
    (hperformed : s.performed ⊆ s'.performed)
    (hserved : ∀ id ∈ s'.performed, (s.stage id).wasEstablished = true) : Inv s' := by
  constructor
  . rw [hcm, hstage]
    exact h.published
  . rw [hcm]
    exact h.nodup
  . rw [hstage, hpending]
    exact h.pending
  . rw [hpending]
    exact h.pending_inj
  . rw [hpending]
    intro w hw
    exact slot_ne_none_of_subset (h.pending_slot w hw) hconn hperformed
  . rw [hstage, hconn]
    exact h.conn
  . rw [hconn]
    intro w id hw
    obtain ⟨id', hid', hmem⟩ := h.second w id hw
    exact ⟨id', hid', hperformed hmem⟩
  . rw [hcm, hstage]
    exact h.type
  . rw [hcm, hstage]
    exact h.established
  . rw [hcm, hstage]
    exact h.accepted
  . rw [hcm]
    exact h.stopped
  . rw [hstage]
    exact hserved

variable [DecidableEq W]

theorem pending_clear (h : Inv s) {stage : Stage} (hid : s.pending w = some id)
    (hstage : stage ≠ .requested) (id' : Id)
    : Function.update s.stage id stage id' = .requested ↔
        ∃ w', Function.update s.pending w none w' = some id' := by
  simp only [Function.update_apply]
  split
  . next heq =>
    subst heq
    apply iff_of_false hstage
    rintro ⟨w', hw'⟩
    split at hw'
    . simp at hw'
    . next hne => exact hne (h.pending_inj w' w id' hw' hid)
  . next hne =>
    rw [h.pending]
    constructor
    . rintro ⟨w', hw'⟩
      refine ⟨w', ?_⟩
      rw [if_neg, hw']
      rintro rfl
      rw [hid] at hw'
      exact hne (Option.some.inj hw').symm
    . rintro ⟨w', hw'⟩
      split at hw'
      . simp at hw'
      . exact ⟨w', hw'⟩

theorem pending_clear_inj (h : Inv s) {w₁ w₂ : W}
    (h₁ : Function.update s.pending w none w₁ = some id)
    (h₂ : Function.update s.pending w none w₂ = some id) : w₁ = w₂ := by
  simp only [Function.update_apply] at h₁ h₂
  split at h₁
  . simp at h₁
  . split at h₂
    . simp at h₂
    . exact h.pending_inj w₁ w₂ id h₁ h₂

end

section

variable [DecidableEq W] [DecidableEq Id] [Fintype W] {x : Config W} {s s' : State W Id} {w : W}
  {id : Id}

theorem step_request (h : step x s (.request w id) = some s')
    : s.stage id = .unused ∧ s.pending w = none ∧ s.slot w ≠ none ∧ s.cm.running = true ∧
        ∃ connections, s' =
          { s with
            cm := Cm.stop
              { s.cm with
                connections
                numberConnections := s.cm.numberConnections + 1
                context := Function.update s.cm.context id .new
                incomingIds := s.cm.incomingIds ++ [id] }
            stage := Function.update s.stage id .requested
            pending := Function.update s.pending w (some id) } := by
  simp only [step] at h
  split at h
  . next hguard =>
    obtain ⟨hunused, hpending, hslot⟩ := hguard
    obtain ⟨s₁, hdeliver, rfl⟩ := Option.map_eq_some_iff.mp h
    obtain ⟨hrunning, connections, cm, hswitch, rfl⟩ := deliver_eq_some hdeliver
    cases hswitch
    exact ⟨hunused, hpending, Option.isSome_iff_ne_none.mp hslot, hrunning, connections, rfl⟩
  . simp at h

theorem step_established (h : step x s (.established w) = some s')
    : ∃ id b connections, s.pending w = some id ∧ s.slot w = some b ∧ s.cm.running = true ∧ s' =
        { s with
          cm := Cm.stop
            { s.cm with
              connections
              context := Function.update s.cm.context id (x.ownInfo w).toContext
              numberConnectionsEstablished := s.cm.numberConnectionsEstablished + 1 }
          stage := Function.update s.stage id .established
          pending := Function.update s.pending w none
          conn := Function.update s.conn w (Function.update (s.conn w) b (some id)) } := by
  simp only [step] at h
  split at h
  . next id b hid hslot =>
    obtain ⟨s₁, hdeliver, rfl⟩ := Option.map_eq_some_iff.mp h
    obtain ⟨hrunning, connections, cm, hswitch, rfl⟩ := deliver_eq_some hdeliver
    cases hswitch
    exact ⟨id, b, connections, hid, hslot, hrunning, rfl⟩
  . simp at h

theorem step_failed {event : EventType} (h : step x s (.failed w event) = some s')
    : ∃ id connections, s.pending w = some id ∧ s.cm.running = true ∧ s' =
        { s with
          cm := Cm.stop { s.cm with connections }
          stage := Function.update s.stage id .failed
          pending := Function.update s.pending w none } := by
  simp only [step] at h
  split at h
  . next id hid =>
    split at h
    . next hevent =>
      obtain ⟨s₁, hdeliver, rfl⟩ := Option.map_eq_some_iff.mp h
      obtain ⟨hrunning, connections, cm, hswitch, rfl⟩ := deliver_eq_some hdeliver
      rw [switch_failure hevent hswitch]
      exact ⟨id, connections, hid, hrunning, rfl⟩
    . simp at h
  . simp at h

theorem step_disconnected (h : step x s (.disconnected id) = some s')
    : s.stage id = .established ∧ s.cm.running = true ∧ ∃ connections, s' =
        { s with
          cm := Cm.stop
            { s.cm with
              connections
              numberConnections := s.cm.numberConnections - 1
              numberConnectionsEstablished := s.cm.numberConnectionsEstablished - 1 }
          stage := Function.update s.stage id .disconnected } := by
  simp only [step] at h
  split at h
  . next hold =>
    obtain ⟨hrunning, connections, cm, hswitch, rfl⟩ := deliver_eq_some h
    cases hswitch
    exact ⟨hold, hrunning, connections, rfl⟩
  . simp at h

theorem step_timewaitExit (h : step x s (.timewaitExit id) = some s')
    : s.stage id = .disconnected ∧ s.cm.running = true ∧ ∃ connections, s' =
        { s with
          cm := Cm.stop { s.cm with connections }
          stage := Function.update s.stage id .exited } := by
  simp only [step] at h
  split at h
  . next hold =>
    obtain ⟨hrunning, connections, cm, hswitch, rfl⟩ := deliver_eq_some h
    cases hswitch
    exact ⟨hold, hrunning, connections, rfl⟩
  . simp at h

theorem Inv.request (h : Inv s) (hstep : step x s (.request w id) = some s') : Inv s' := by
  obtain ⟨hunused, hpending, hslot, hrunning, connections, rfl⟩ := step_request hstep
  have hnew : id ∉ s.cm.incomingIds := by simp [h.published, hunused]
  have hnone : ∀ w, s.pending w ≠ some id := by
    intro w hw
    have hrequested := (h.pending id).mpr ⟨w, hw⟩
    rw [hunused] at hrequested
    simp at hrequested
  constructor
  . intro id'
    simp only [Cm.stop_incomingIds, List.mem_append, List.mem_singleton, h.published,
      Function.update_apply]
    split
    . next heq => simp [heq]
    . next hne => simp [hne]
  . simp only [Cm.stop_incomingIds]
    rw [List.nodup_append]
    refine ⟨h.nodup, List.nodup_singleton id, ?_⟩
    intro a ha b hb hab
    rw [List.mem_singleton.mp hb] at hab
    exact hnew (hab ▸ ha)
  . intro id'
    simp only [Function.update_apply]
    split
    . next heq =>
      subst heq
      exact iff_of_true rfl ⟨w, by simp⟩
    . next hne =>
      rw [h.pending]
      constructor
      . rintro ⟨w', hw'⟩
        refine ⟨w', ?_⟩
        rw [if_neg, hw']
        rintro rfl
        rw [hpending] at hw'
        simp at hw'
      . rintro ⟨w', hw'⟩
        split at hw'
        . exact absurd (Option.some.inj hw').symm hne
        . exact ⟨w', hw'⟩
  . intro w₁ w₂ id' h₁ h₂
    simp only [Function.update_apply] at h₁ h₂
    split at h₁ <;> split at h₂
    . next heq₁ heq₂ => rw [heq₁, heq₂]
    . exact absurd (h₂.trans h₁.symm) (hnone w₂)
    . exact absurd (h₁.trans h₂.symm) (hnone w₁)
    . exact h.pending_inj w₁ w₂ id' h₁ h₂
  . intro w' hw'
    simp only [Function.update_apply] at hw'
    split at hw'
    . next heq =>
      rw [heq]
      exact slot_ne_none hslot rfl rfl
    . exact slot_ne_none (h.pending_slot w' hw') rfl rfl
  . intro id'
    rw [stage_update Stage.wasEstablished (by rw [hunused]; rfl)]
    exact h.conn id'
  . exact h.second
  . intro id'
    simp only [Cm.stop_context, Function.update_apply]
    split
    . simp [Stage.wasEstablished, RdmaContext.new]
    . exact h.type id'
  . rw [Cm.stop_numberConnectionsEstablished]
    exact h.established.keep (by rw [hunused]; rfl)
  . rw [Cm.stop_numberConnections]
    exact h.accepted.add (by rw [hunused]; rfl) rfl
  . exact Cm.stop_running hrunning
  . intro id' hid'
    exact wasEstablished_update hunused (by decide) id' (h.served id' hid')

theorem Inv.established_step (h : Inv s) (hstep : step x s (.established w) = some s') : Inv s' := by
  obtain ⟨id, b, connections, hid, hslot, hrunning, rfl⟩ := step_established hstep
  have hrequested := (h.pending id).mpr ⟨w, hid⟩
  have hfree := slot_eq_some hslot
  constructor
  . intro id'
    rw [stage_update (· ≠ Stage.unused) (by simp [hrequested]), Cm.stop_incomingIds]
    exact h.published id'
  . rw [Cm.stop_incomingIds]
    exact h.nodup
  . exact pending_clear h hid (by simp)
  . exact fun w₁ w₂ id' => pending_clear_inj h
  . intro w' hw'
    simp only [Function.update_apply] at hw'
    split at hw'
    . simp at hw'
    . next hne =>
      exact slot_ne_none (h.pending_slot w' hw') (Function.update_of_ne hne _ _) rfl
  . intro id'
    simp only [Function.update_apply]
    split
    . next heq =>
      subst heq
      exact iff_of_true rfl ⟨w, b, by simp⟩
    . next hne =>
      rw [h.conn]
      constructor
      . rintro ⟨w', b', hw'⟩
        refine ⟨w', b', ?_⟩
        split
        . next heq =>
          subst heq
          simp only [Function.update_apply]
          rw [if_neg, hw']
          rintro rfl
          rw [hfree] at hw'
          simp at hw'
        . exact hw'
      . rintro ⟨w', b', hw'⟩
        split at hw'
        . next heq =>
          subst heq
          simp only [Function.update_apply] at hw'
          split at hw'
          . exact absurd (Option.some.inj hw').symm hne
          . exact ⟨w', b', hw'⟩
        . exact ⟨w', b', hw'⟩
  . intro w' id' hw'
    simp only [Function.update_apply] at hw' ⊢
    split at hw'
    . next heq =>
      subst heq
      cases b with
      | true =>
        obtain ⟨id₀, hfalse, hmem⟩ := slot_eq_true hslot
        exact ⟨id₀, by simp [hfalse], hmem⟩
      | false =>
        simp only [Function.update_apply, reduceCtorEq, if_false] at hw'
        obtain ⟨id₀, hfalse, -⟩ := h.second w' id' hw'
        rw [hfree] at hfalse
        simp at hfalse
    . next hne =>
      rw [if_neg hne]
      exact h.second w' id' hw'
  . intro id'
    simp only [Cm.stop_context, Function.update_apply]
    split
    . exact iff_of_true rfl rfl
    . exact h.type id'
  . rw [Cm.stop_numberConnectionsEstablished]
    exact h.established.add (by rw [hrequested]; rfl) rfl
  . rw [Cm.stop_numberConnections]
    exact h.accepted.keep (by rw [hrequested]; rfl)
  . exact Cm.stop_running hrunning
  . intro id' hid'
    exact wasEstablished_update rfl (fun _ => rfl) id' (h.served id' hid')

theorem Inv.failed (h : Inv s) {event : EventType} (hstep : step x s (.failed w event) = some s')
    : Inv s' := by
  obtain ⟨id, connections, hid, hrunning, rfl⟩ := step_failed hstep
  have hrequested := (h.pending id).mpr ⟨w, hid⟩
  have hwas : Stage.failed.wasEstablished = (s.stage id).wasEstablished := by
    rw [hrequested]
    rfl
  constructor
  . intro id'
    rw [stage_update (· ≠ Stage.unused) (by simp [hrequested]), Cm.stop_incomingIds]
    exact h.published id'
  . rw [Cm.stop_incomingIds]
    exact h.nodup
  . exact pending_clear h hid (by simp)
  . exact fun w₁ w₂ id' => pending_clear_inj h
  . intro w' hw'
    simp only [Function.update_apply] at hw'
    split at hw'
    . simp at hw'
    . exact slot_ne_none (h.pending_slot w' hw') rfl rfl
  . intro id'
    rw [stage_update Stage.wasEstablished hwas]
    exact h.conn id'
  . exact h.second
  . intro id'
    rw [stage_update Stage.wasEstablished hwas, Cm.stop_context]
    exact h.type id'
  . rw [Cm.stop_numberConnectionsEstablished]
    exact h.established.keep (by rw [hrequested]; rfl)
  . rw [Cm.stop_numberConnections]
    exact h.accepted.keep (by rw [hrequested]; rfl)
  . exact Cm.stop_running hrunning
  . intro id' hid'
    rw [stage_update Stage.wasEstablished hwas]
    exact h.served id' hid'

theorem Inv.disconnected (h : Inv s) (hstep : step x s (.disconnected id) = some s') : Inv s' := by
  obtain ⟨hold, hrunning, connections, rfl⟩ := step_disconnected hstep
  apply h.of_established hold ⟨rfl, rfl⟩
  . rw [Cm.stop_context]
  . rw [Cm.stop_incomingIds]
  . rw [Cm.stop_numberConnectionsEstablished]
    exact h.established.remove (by rw [hold]; rfl) rfl
  . rw [Cm.stop_numberConnections]
    exact h.accepted.remove (by rw [hold]; rfl) rfl
  . exact Cm.stop_running hrunning

theorem Inv.timewaitExit (h : Inv s) (hstep : step x s (.timewaitExit id) = some s') : Inv s' := by
  obtain ⟨hold, hrunning, connections, rfl⟩ := step_timewaitExit hstep
  apply h.of_established hold ⟨rfl, rfl⟩
  . rw [Cm.stop_context]
  . rw [Cm.stop_incomingIds]
  . rw [Cm.stop_numberConnectionsEstablished]
    exact h.established.keep (by rw [hold]; rfl)
  . rw [Cm.stop_numberConnections]
    exact h.accepted.keep (by rw [hold]; rfl)
  . exact Cm.stop_running hrunning

theorem inv_step {a : Act W Id} (h : Inv s) (hstep : step x s a = some s') : Inv s' := by
  cases a with
  | request w id => exact h.request hstep
  | established w => exact h.established_step hstep
  | failed w event => exact h.failed hstep
  | disconnected id => exact h.disconnected hstep
  | timewaitExit id => exact h.timewaitExit hstep
  | check =>
    simp only [step] at hstep
    split at hstep
    . split at hstep
      . cases hstep
        exact h.of_server rfl rfl rfl rfl (List.Subset.refl _) h.served
      . simp at hstep
    . simp at hstep
  | copy =>
    simp only [step] at hstep
    split at hstep
    . cases hstep
      exact h.of_server rfl rfl rfl rfl (List.Subset.refl _) h.served
    . simp at hstep
  | serve =>
    simp only [step] at hstep
    split at hstep
    . split at hstep
      . split at hstep
        . next htype =>
          cases hstep
          refine h.of_server rfl rfl rfl rfl (List.subset_append_left _ _) ?_
          intro id' hid'
          rcases List.mem_append.mp hid' with hmem | hmem
          . exact h.served id' hmem
          . rw [List.mem_singleton.mp hmem]
            exact (h.type _).mpr htype
        . cases hstep
          exact h.of_server rfl rfl rfl rfl (List.Subset.refl _) h.served
      . cases hstep
        exact h.of_server rfl rfl rfl rfl (List.Subset.refl _) h.served
    . simp at hstep

theorem inv_of_reach {cond : State W Id → Act W Id → Prop}
    (h : Step.Reach (step x) cond .init s) : Inv s := by
  refine h.invariant inv_init ?_
  intro s a s' hinv _ hstep
  exact inv_step hinv hstep

end

section

variable {s s' : State W Id}

/--
Where the server is: it has served the attempts at the front of `incomingIds`, which were all
established.
-/
def ServerOk (s : State W Id) : Prop :=
  match s.server with
  | .waits .first => s.performed = [] ∧ s.servedConnections = 0
  | .passed .first =>
    s.performed = [] ∧ s.servedConnections = 0 ∧ ∀ w, s.conn w false ≠ none
  | .waits .second =>
    s.servedConnections ≤ s.cm.incomingIds.length ∧
      s.performed = s.cm.incomingIds.take s.servedConnections
  | .passed .second =>
    s.servedConnections ≤ s.cm.incomingIds.length ∧
      s.performed = s.cm.incomingIds.take s.servedConnections ∧ ∀ w b, s.conn w b ≠ none
  | .serves call rdmaCtxs i =>
    rdmaCtxs <+: s.cm.incomingIds ∧ i ≤ rdmaCtxs.length ∧ s.performed = rdmaCtxs.take i ∧
      (∀ id ∈ rdmaCtxs, (s.stage id).wasEstablished = true) ∧
      (call = .second → ∀ w b, ∃ id ∈ rdmaCtxs, s.conn w b = some id)
  | .threw => False
  | .finished =>
    s.performed <+: s.cm.incomingIds ∧ ∀ w b, ∃ id ∈ s.performed, s.conn w b = some id

def State.returned (s : State W Id) : Prop :=
  s.server = .waits .second ∨ s.server = .finished

/-- The server has thrown, or is on its way to an attempt that failed. -/
def Doomed (s : State W Id) : Prop :=
  s.server = .threw ∨
    ∃ call rdmaCtxs i j id, s.server = .serves call rdmaCtxs i ∧ i ≤ j ∧
      rdmaCtxs[j]? = some id ∧ s.stage id = .failed

theorem Doomed.not_returned (h : Doomed s) : ¬ s.returned := by
  rintro (hreturned | hreturned) <;>
    rcases h with hthrew | ⟨_, _, _, _, _, hserver, -⟩ <;> simp_all

structure Grows (s s' : State W Id) : Prop where
  server : s'.server = s.server
  servedConnections : s'.servedConnections = s.servedConnections
  performed : s'.performed = s.performed
  incomingIds : s.cm.incomingIds <+: s'.cm.incomingIds
  stage : ∀ id, (s.stage id).wasEstablished = true → (s'.stage id).wasEstablished = true
  failed : ∀ id, s.stage id = .failed → s'.stage id = .failed
  conn : ∀ w b id, s.conn w b = some id → s'.conn w b = some id

theorem ServerOk.grows (h : ServerOk s) (hg : Grows s s') : ServerOk s' := by
  have hne : ∀ w b, s.conn w b ≠ none → s'.conn w b ≠ none := by
    intro w b hw
    obtain ⟨id, hid⟩ := Option.ne_none_iff_exists'.mp hw
    simp [hg.conn w b id hid]
  have htake : s.servedConnections ≤ s.cm.incomingIds.length →
      s.servedConnections ≤ s'.cm.incomingIds.length ∧
      s'.cm.incomingIds.take s.servedConnections = s.cm.incomingIds.take s.servedConnections := by
    intro hle
    obtain ⟨l, hl⟩ := hg.incomingIds
    rw [← hl, List.take_append_of_le_length hle, List.length_append]
    exact ⟨by omega, rfl⟩
  unfold ServerOk at *
  rw [hg.server, hg.servedConnections, hg.performed]
  split at h
  . exact h
  . exact ⟨h.1, h.2.1, fun w => hne w false (h.2.2 w)⟩
  . rw [(htake h.1).2]
    exact ⟨(htake h.1).1, h.2⟩
  . rw [(htake h.1).2]
    exact ⟨(htake h.1).1, h.2.1, fun w b => hne w b (h.2.2 w b)⟩
  . obtain ⟨hfront, hi, hperformed, hids, hsecond⟩ := h
    refine ⟨hfront.trans hg.incomingIds, hi, hperformed, fun id hid => hg.stage id (hids id hid), ?_⟩
    intro hcall w b
    obtain ⟨id, hid, hconn⟩ := hsecond hcall w b
    exact ⟨id, hid, hg.conn w b id hconn⟩
  . exact h
  . refine ⟨h.1.trans hg.incomingIds, ?_⟩
    intro w b
    obtain ⟨id, hid, hconn⟩ := h.2 w b
    exact ⟨id, hid, hg.conn w b id hconn⟩

end

section

variable [DecidableEq Id] {s : State W Id} {id : Id}

theorem wasEstablished_of_copy (hinv : Inv s) (hpending : ∀ w, s.pending w = none)
    (hserved : ∀ id ∈ s.cm.incomingIds.take s.servedConnections, (s.stage id).wasEstablished = true)
    (hfailed : ∀ id ∈ s.cm.incomingIds.drop s.servedConnections, s.stage id ≠ .failed)
    (hid : id ∈ s.cm.incomingIds) : (s.stage id).wasEstablished = true := by
  rw [← List.take_append_drop s.servedConnections s.cm.incomingIds, List.mem_append] at hid
  rcases hid with hid | hid
  . exact hserved id hid
  . have hne := hfailed id hid
    have hused := (hinv.published id).mp (List.mem_of_mem_drop hid)
    have hrequested : s.stage id ≠ .requested := by
      intro hreq
      obtain ⟨w, hw⟩ := (hinv.pending id).mp hreq
      rw [hpending w] at hw
      simp at hw
    cases hst : s.stage id <;> simp_all [Stage.wasEstablished]

variable [DecidableEq W]

theorem taken_of_card (slots : Finset (W × Bool)) (ids : Finset Id)
    (hids : ∀ id ∈ ids, ∃ p ∈ slots, s.conn p.1 p.2 = some id) (hcard : slots.card ≤ ids.card)
    {p : W × Bool} (hp : p ∈ slots) : s.conn p.1 p.2 ≠ none := by
  intro hnone
  have hsubset : ids.image some ⊆ (slots.erase p).image fun p => s.conn p.1 p.2 := by
    intro o ho
    obtain ⟨id, hid, rfl⟩ := Finset.mem_image.mp ho
    obtain ⟨q, hq, hconn⟩ := hids id hid
    refine Finset.mem_image.mpr ⟨q, Finset.mem_erase.mpr ⟨?_, hq⟩, hconn⟩
    rintro rfl
    rw [hnone] at hconn
    simp at hconn
  have hle := (Finset.card_le_card hsubset).trans Finset.card_image_le
  rw [Finset.card_image_of_injective _ (Option.some_injective _)] at hle
  have hlt := Finset.card_erase_lt_of_mem hp
  omega

end

def Act.isEvent (a : Act W Id) : Bool :=
  match a with
  | .check | .copy | .serve => false
  | _ => true

section

variable [DecidableEq W] [DecidableEq Id] [Fintype W] {x : Config W} {s s' : State W Id} {w : W}
  {id : Id}

theorem grows_of_event {a : Act W Id} (h : Inv s) (hstep : step x s a = some s')
    (hevent : a.isEvent = true) : Grows s s' := by
  cases a with
  | request w id =>
    obtain ⟨hunused, -, -, -, connections, rfl⟩ := step_request hstep
    refine ⟨rfl, rfl, rfl, ?_, wasEstablished_update hunused (by decide),
      failed_update _ hunused (by decide), fun _ _ _ hid => hid⟩
    rw [Cm.stop_incomingIds]
    exact List.prefix_append _ _
  | established w =>
    obtain ⟨id, b, connections, hid, hslot, -, rfl⟩ := step_established hstep
    have hrequested := (h.pending id).mpr ⟨w, hid⟩
    refine ⟨rfl, rfl, rfl, ?_, wasEstablished_update rfl (fun _ => rfl),
      failed_update _ hrequested (by decide), ?_⟩
    . rw [Cm.stop_incomingIds]
    . intro w' b' id' hid'
      have hfree := slot_eq_some hslot
      simp only [Function.update_apply]
      split
      . next heq =>
        subst heq
        rw [Function.update_apply, if_neg, hid']
        rintro rfl
        rw [hfree] at hid'
        simp at hid'
      . exact hid'
  | failed w event =>
    obtain ⟨id, connections, hid, -, rfl⟩ := step_failed hstep
    have hrequested := (h.pending id).mpr ⟨w, hid⟩
    refine ⟨rfl, rfl, rfl, ?_, wasEstablished_update hrequested (by decide),
      failed_update _ hrequested (by decide), fun _ _ _ hid => hid⟩
    rw [Cm.stop_incomingIds]
  | disconnected id =>
    obtain ⟨hold, -, connections, rfl⟩ := step_disconnected hstep
    refine ⟨rfl, rfl, rfl, ?_, wasEstablished_update hold (fun _ => rfl),
      failed_update _ hold (by decide), fun _ _ _ hid => hid⟩
    rw [Cm.stop_incomingIds]
  | timewaitExit id =>
    obtain ⟨hold, -, connections, rfl⟩ := step_timewaitExit hstep
    refine ⟨rfl, rfl, rfl, ?_, wasEstablished_update hold (fun _ => rfl),
      failed_update _ hold (by decide), fun _ _ _ hid => hid⟩
    rw [Cm.stop_incomingIds]
  | check | copy | serve => simp [Act.isEvent] at hevent

theorem ServerOk.check (hinv : Inv s) (h : ServerOk s) (hstep : step x s .check = some s')
    : ServerOk s' := by
  simp only [step] at hstep
  split at hstep
  . next call hserver =>
    split at hstep
    . next hnumber =>
      cases hstep
      obtain ⟨ids, hcard, hids⟩ := hinv.established
      have hconn : ∀ id ∈ ids, ∃ w b, s.conn w b = some id := by
        intro id hid
        apply (hinv.conn id).mp
        have hstage := (hids id).mp hid
        cases hst : s.stage id <;> rw [hst] at hstage <;>
          simp_all [Stage.connected, Stage.wasEstablished]
      rw [Cm.getNumberIncomingConnections] at hnumber
      simp only [ServerOk, hserver] at h ⊢
      cases call with
      | first =>
        refine ⟨h.1, h.2, ?_⟩
        intro w
        apply taken_of_card (Finset.univ ×ˢ {false}) ids (p := (w, false))
        . intro id hid
          obtain ⟨w', b, hw'⟩ := hconn id hid
          cases b with
          | false => exact ⟨(w', false), by simp, hw'⟩
          | true =>
            obtain ⟨id', -, hmem⟩ := hinv.second w' id hw'
            rw [h.1] at hmem
            simp at hmem
        . rw [hcard, hnumber]
          simp [numConnections]
        . simp
      | second =>
        refine ⟨h.1, h.2, ?_⟩
        intro w b
        apply taken_of_card Finset.univ ids (p := (w, b))
        . intro id hid
          obtain ⟨w', b', hw'⟩ := hconn id hid
          exact ⟨(w', b'), Finset.mem_univ _, hw'⟩
        . rw [hcard, hnumber]
          simp [numConnections, Nat.mul_comm]
        . exact Finset.mem_univ _
    . simp at hstep
  . simp at hstep

def noneFailed (s : State W Id) (a : Act W Id) : Prop :=
  a = .copy → ∀ id ∈ s.cm.incomingIds.drop s.servedConnections, s.stage id ≠ .failed

instance (s : State W Id) (a : Act W Id) : Decidable (noneFailed s a) :=
  inferInstanceAs (Decidable (_ → _))

theorem ServerOk.copy (hinv : Inv s) (h : ServerOk s) (hcond : noneFailed s .copy)
    (hstep : step x s .copy = some s') : ServerOk s' := by
  simp only [step] at hstep
  split at hstep
  . next call hserver =>
    cases hstep
    have hfailed := hcond rfl
    simp only [ServerOk, hserver] at h
    cases call with
    | first =>
      obtain ⟨hperformed, hzero, htaken⟩ := h
      have hpending : ∀ w, s.pending w = none := by
        intro w
        by_contra hne
        refine hinv.pending_slot w hne ?_
        obtain ⟨id, hid⟩ := Option.ne_none_iff_exists'.mp (htaken w)
        simp [State.slot, hid, hperformed]
      refine ⟨List.prefix_rfl, by omega, by simp [hperformed, hzero], ?_, by simp⟩
      intro id hid
      apply wasEstablished_of_copy hinv hpending _ hfailed hid
      simp [hzero]
    | second =>
      obtain ⟨hle, hperformed, htaken⟩ := h
      have hpending : ∀ w, s.pending w = none := by
        intro w
        by_contra hne
        refine hinv.pending_slot w hne ?_
        obtain ⟨id, hid⟩ := Option.ne_none_iff_exists'.mp (htaken w false)
        simp [State.slot, hid, htaken w true]
      refine ⟨List.prefix_rfl, hle, hperformed, ?_, ?_⟩
      . intro id hid
        apply wasEstablished_of_copy hinv hpending _ hfailed hid
        rw [← hperformed]
        exact hinv.served
      . intro _ w b
        obtain ⟨id, hid⟩ := Option.ne_none_iff_exists'.mp (htaken w b)
        refine ⟨id, ?_, hid⟩
        rw [Cm.getIncomingConnections, hinv.published]
        have hwas := (hinv.conn id).mpr ⟨w, b, hid⟩
        rintro hunused
        rw [hunused] at hwas
        exact absurd hwas (by decide)
  . simp at hstep

theorem ServerOk.serve (hinv : Inv s) (h : ServerOk s) (hstep : step x s .serve = some s')
    : ServerOk s' := by
  simp only [step] at hstep
  split at hstep
  . next call rdmaCtxs i hserver =>
    simp only [ServerOk, hserver] at h
    obtain ⟨hfront, hi, hperformed, hids, hsecond⟩ := h
    split at hstep
    . next id hid =>
      obtain ⟨hlt, hget⟩ := List.getElem?_eq_some_iff.mp hid
      have hmem : id ∈ rdmaCtxs := hget ▸ List.getElem_mem hlt
      rw [if_pos ((hinv.type id).mp (hids id hmem))] at hstep
      cases hstep
      refine ⟨hfront, hlt, ?_, hids, hsecond⟩
      rw [hperformed, List.take_succ_eq_append_getElem hlt, hget]
    . next hnone =>
      have hlength := List.getElem?_eq_none_iff.mp hnone
      have hall : s.performed = rdmaCtxs := by rw [hperformed, List.take_of_length_le hlength]
      cases hstep
      cases call with
      | first =>
        refine ⟨hfront.length_le, ?_⟩
        rw [hall]
        exact (List.prefix_iff_eq_take.mp hfront)
      | second =>
        refine ⟨hall ▸ hfront, ?_⟩
        rw [hall]
        exact hsecond rfl
  . simp at hstep

theorem ServerOk.step {a : Act W Id} (hinv : Inv s) (h : ServerOk s) (hcond : noneFailed s a)
    (hstep : step x s a = some s') : ServerOk s' := by
  cases a with
  | check => exact h.check hinv hstep
  | copy => exact h.copy hinv hcond hstep
  | serve => exact h.serve hinv hstep
  | _ => exact h.grows (grows_of_event hinv hstep rfl)

theorem serverOk_of_reach (h : Step.Reach (Incoming.step x) noneFailed .init s)
    : Inv s ∧ ServerOk s := by
  refine h.invariant (I := fun s => Inv s ∧ ServerOk s) ⟨inv_init, rfl, rfl⟩ ?_
  intro s a s' hok hcond hstep
  exact ⟨inv_step hok.1 hstep, hok.2.step hok.1 hcond hstep⟩

theorem exists_returned {call : Call} {rdmaCtxs : List Id} {i : Nat} (hinv : Inv s)
    (h : ServerOk s) (hserver : s.server = .serves call rdmaCtxs i)
    : ∃ s', Step.Reach (Incoming.step x) Step.any s s' ∧ s'.returned := by
  induction hn : rdmaCtxs.length - i generalizing s i with
  | zero =>
    have hnone : rdmaCtxs[i]? = none := List.getElem?_eq_none_iff.mpr (by omega)
    have hstep : ∃ s', Incoming.step x s .serve = some s' ∧ s'.returned := by
      simp only [Incoming.step, hserver, hnone]
      refine ⟨_, rfl, ?_⟩
      cases call with
      | first => exact .inl rfl
      | second => exact .inr rfl
    obtain ⟨s', hstep, hreturned⟩ := hstep
    exact ⟨s', .next .serve .refl trivial hstep, hreturned⟩
  | succ n ih =>
    have hlt : i < rdmaCtxs.length := by omega
    have hget : rdmaCtxs[i]? = some rdmaCtxs[i] := List.getElem?_eq_getElem hlt
    have hids : ∀ id ∈ rdmaCtxs, (s.stage id).wasEstablished = true := by
      simp only [ServerOk, hserver] at h
      exact h.2.2.2.1
    have htype := (hinv.type _).mp (hids _ (List.getElem_mem hlt))
    have hstep : Incoming.step x s .serve = some
        { s with
          performed := s.performed ++ [rdmaCtxs[i]]
          server := .serves call rdmaCtxs (i + 1) } := by
      simp only [Incoming.step, hserver, hget, htype, if_true]
    obtain ⟨s', hreach, hreturned⟩ :=
      ih (inv_step hinv hstep) (h.serve hinv hstep) rfl (by omega)
    exact ⟨s', (Step.Reach.refl.next _ trivial hstep).trans hreach, hreturned⟩

theorem Doomed.step {a : Act W Id} (hinv : Inv s) (h : Doomed s)
    (hstep : Incoming.step x s a = some s') : Doomed s' := by
  by_cases hevent : a.isEvent = true
  . have hgrows := grows_of_event hinv hstep hevent
    rcases h with hthrew | ⟨call, rdmaCtxs, i, j, id, hserver, hle, hget, hfailed⟩
    . exact .inl (hgrows.server.trans hthrew)
    . refine .inr ⟨call, rdmaCtxs, i, j, id, hgrows.server.trans hserver, hle, hget, ?_⟩
      exact hgrows.failed id hfailed
  . rcases h with hthrew | ⟨call, rdmaCtxs, i, j, id, hserver, hle, hget, hfailed⟩
    . cases a <;> simp [Act.isEvent] at hevent <;> simp [Incoming.step, hthrew] at hstep
    . cases a with
      | check => simp [Incoming.step, hserver] at hstep
      | copy => simp [Incoming.step, hserver] at hstep
      | serve =>
        simp only [Incoming.step, hserver] at hstep
        obtain ⟨hlt, -⟩ := List.getElem?_eq_some_iff.mp hget
        have hi : rdmaCtxs[i]? = some rdmaCtxs[i] := List.getElem?_eq_getElem (by omega)
        simp only [hi] at hstep
        split at hstep
        . next htype =>
          cases hstep
          refine .inr ⟨call, rdmaCtxs, i + 1, j, id, rfl, ?_, hget, hfailed⟩
          -- the failed attempt is not the one that was served
          have hwas := (hinv.type _).mpr htype
          have hne : i ≠ j := by
            rintro rfl
            rw [hi] at hget
            rw [Option.some.inj hget, hfailed] at hwas
            exact absurd hwas (by decide)
          omega
        . cases hstep
          exact .inl rfl
      | _ => simp [Act.isEvent] at hevent

/-- The condition is exact: a call that copies an attempt that failed never returns. -/
theorem returns_iff_noneFailed (h : Step.Reach (Incoming.step x) noneFailed .init s)
    (hstep : Incoming.step x s .copy = some s')
    : (∃ s'', Step.Reach (Incoming.step x) Step.any s' s'' ∧ s''.returned) ↔
        noneFailed s .copy := by
  obtain ⟨hinv, hok⟩ := serverOk_of_reach h
  have hinv' := inv_step hinv hstep
  constructor
  . rintro ⟨s'', hreach, hreturned⟩ - id hid hfailed
    have hdoomed : Doomed s' := by
      obtain ⟨k, hk⟩ := List.mem_iff_getElem?.mp hid
      rw [List.getElem?_drop] at hk
      simp only [Incoming.step] at hstep
      split at hstep
      . next call _ =>
        cases hstep
        exact .inr ⟨call, _, _, _, id, rfl, Nat.le_add_right _ _, hk, hfailed⟩
      . simp at hstep
    have hrun := hreach.invariant (I := fun s => Inv s ∧ Doomed s) ⟨hinv', hdoomed⟩
      fun _ _ _ hI _ hstep => ⟨inv_step hI.1 hstep, hI.2.step hI.1 hstep⟩
    exact hrun.2.not_returned hreturned
  . intro hcond
    have hok' := hok.copy hinv hcond hstep
    simp only [Incoming.step] at hstep
    split at hstep
    . next call _ =>
      cases hstep
      exact exists_returned hinv' hok' rfl
    . simp at hstep

end

section Runs

end Runs

end CommunicationManager.Incoming
