import RdmaSync.Cluster.Impl

/-!
This module contains the invariant of the bring-up: how far every worker, handler and storage node is
with each of its connections.
-/

namespace Cluster

open Threads
open Rdma.Connection
open CommunicationManager
open CommunicationManager.Handshake (Phase Pc)

/--
Where a party that makes the call `phase` on its connections in order is with connection `n`: the
calls up to `k` have returned, and that on `k` has been entered if the party is `busy`.
-/
def Progress (phase : Phase) (k : Nat) (busy : Bool) (n : Nat) (pc : Pc) : Prop :=
  if n < k then
    pc = phase.next
  else if n = k ∧ busy then
    pc.Within phase
  else
    pc = .calls phase

section

variable {phase : Phase} {k n : Nat} {busy : Bool} {pc pc' : Pc}

theorem not_advances_calls (h : (Pc.calls phase).Advances pc) : pc = .calls phase := by
  rcases h with h | ⟨phase', completions, h, -⟩
  . exact h
  . simp at h

theorem next_advances (phase : Phase) (h : phase.next.Advances pc) : pc = phase.next := by
  rcases h with h | ⟨phase', completions, h, -⟩
  . exact h
  . cases phase <;> simp [Phase.next] at h

theorem within_advances (hw : pc.Within phase) (h : pc.Advances pc') : pc'.Within phase := by
  rcases hw with rfl | ⟨completions, rfl⟩
  . left
    exact next_advances _ h
  . rcases h with rfl | ⟨phase', completions', heq, hw'⟩
    . exact .inr ⟨completions, rfl⟩
    . cases heq
      exact hw'

theorem Progress.advances (hp : Progress phase k busy n pc) (h : pc.Advances pc')
    : Progress phase k busy n pc' := by
  unfold Progress at hp ⊢
  split at hp
  . next hlt =>
    subst hp
    rw [if_pos hlt]
    exact next_advances _ h
  . next hlt =>
    rw [if_neg hlt]
    split at hp
    . next heq =>
      rw [if_pos heq]
      exact within_advances hp h
    . next hne =>
      subst hp
      rw [if_neg hne]
      exact not_advances_calls h

theorem Progress.calls (hp : Progress phase k false k pc) : pc = .calls phase := by
  simpa [Progress] using hp

theorem Progress.within (hp : Progress phase k true k pc) : pc.Within phase := by
  simpa [Progress] using hp

theorem Progress.done (hp : Progress phase k busy n pc) (hlt : n < k) : pc = phase.next := by
  simpa [Progress, hlt] using hp

theorem Progress.enter (hp : Progress phase k false n pc) (hne : n ≠ k)
    : Progress phase k true n pc := by
  simpa [Progress, hne] using hp

theorem progress_entered {completions : Nat}
    : Progress phase k true k (.polls phase completions) := by
  simp only [Progress, Nat.lt_irrefl, if_false, and_self, if_true]
  exact .inr ⟨completions, rfl⟩

theorem Progress.leave (hp : Progress phase k true n pc) (hk : n = k → pc = phase.next)
    : Progress phase (k + 1) false n pc := by
  simp only [Progress] at *
  by_cases hlt : n < k
  . rw [if_pos hlt] at hp
    rw [if_pos (by omega)]
    exact hp
  . by_cases heq : n = k
    . rw [if_pos (by omega)]
      exact hk heq
    . simp only [hlt, heq, if_false, false_and] at hp
      rw [if_neg (by omega)]
      simpa using hp

end

namespace WorkerPc

def phase (pc : WorkerPc) : Phase :=
  match pc with
  | .initiates _ | .connects _ | .exchangesInfo _ => .rdmaInfo
  | .finishes _ | .exchanges _ => .initialMessage

def node (pc : WorkerPc) : Nat :=
  match pc with
  | .initiates n | .connects n | .exchangesInfo n | .finishes n | .exchanges n => n

def busy (pc : WorkerPc) : Bool :=
  match pc with
  | .exchangesInfo _ | .exchanges _ => true
  | _ => false

def initiating (pc : WorkerPc) : Bool :=
  match pc with
  | .connects _ | .exchangesInfo _ => true
  | _ => false

def inserted (pc : WorkerPc) : Nat :=
  match pc with
  | .finishes n | .exchanges n => n
  | _ => 0

end WorkerPc

variable {W P : Type}

def ServerPc.Serves (pc : ServerPc W) (serving : W → Pc) : Prop :=
  match pc with
  | .waits => ∀ w, (serving w).posted ≤ 1
  | .serves rdmaCtxs i =>
    (rdmaCtxs.Nodup ∧ ∀ w, w ∈ rdmaCtxs) ∧
      ∀ (j : Nat) w, rdmaCtxs[j]? = some w → Progress .initialMessage i false j (serving w)
  | .exchanges rdmaCtxs i =>
    (rdmaCtxs.Nodup ∧ ∀ w, w ∈ rdmaCtxs) ∧ i < rdmaCtxs.length ∧
      ∀ (j : Nat) w, rdmaCtxs[j]? = some w → Progress .initialMessage i true j (serving w)
  | .threw => False
  | .finished => ∀ w, serving w = .returned

/-- How far storage node `n` is. -/
structure NodeOk (x : Config W P) (c : State W P) (n : Nat) : Prop where
  incoming : ∀ w, w ∈ c.incomingIds n → c.worker w = .connects n ∨ c.client w n ≠ .calls .rdmaInfo
  accepted : ∀ w, n < x.storageNodes → c.client w n ≠ .calls .rdmaInfo → w ∈ c.incomingIds n
  nodup : (c.incomingIds n).Nodup
  unserved : ∀ w, w ∉ c.incomingIds n → c.serving w n = .calls .rdmaInfo
  handler : ∀ w, c.handler n = some w → (c.serving w n).Within .rdmaInfo
  handled : ∀ w completions, c.serving w n = .polls .rdmaInfo completions → c.handler n = some w
  idle : c.server n ≠ .waits → c.handler n = none
  counted : ∃ ws : Finset W, ws.card = c.numberConnectionsEstablished n ∧
    ∀ w, w ∈ ws ↔ (c.serving w n).hasReturned .rdmaInfo ∧ c.handler n ≠ some w
  server : (c.server n).Serves fun w => c.serving w n

structure Inv (x : Config W P) (c : State W P) : Prop where
  handshake : ∀ w n, Handshake.Inv (x.handshake w n) (c.conn w n)
  node_le : ∀ w, (c.worker w).node ≤ x.storageNodes
  node_lt : ∀ w, (c.worker w).initiating ∨ (c.worker w).busy → (c.worker w).node < x.storageNodes
  client : ∀ w n, n < x.storageNodes →
    Progress (c.worker w).phase (c.worker w).node (c.worker w).busy n (c.client w n)
  mutex : ∀ p w, c.outgoingMut p = some w ↔ x.process w = p ∧ (c.worker w).initiating
  catalog : ∀ w n, c.catalog w n = if n < (c.worker w).inserted then x.region n else none
  node : ∀ n, NodeOk x c n

theorem hasReturned_of_advances {phase : Phase} {pc pc' : Pc} (hne : ∀ m, pc ≠ .polls phase m)
    (h : pc.Advances pc') : pc'.hasReturned phase ↔ pc.hasReturned phase := by
  rcases h with rfl | ⟨phase', completions, rfl, hw⟩
  . rfl
  . cases phase <;> cases phase' <;> rcases hw with rfl | ⟨m, rfl⟩ <;>
      simp_all [Pc.hasReturned, Phase.next, Phase.index]

theorem posted_of_advances {pc pc' : Pc} (h : pc.Advances pc') : pc'.posted = pc.posted := by
  rcases h with rfl | ⟨phase', completions, rfl, hw⟩
  . rfl
  . cases phase' <;> rcases hw with rfl | ⟨m, rfl⟩ <;> rfl

theorem ServerPc.Serves.advances {pc : ServerPc W} {serving serving' : W → Pc}
    (h : pc.Serves serving) (hadv : ∀ w, (serving w).Advances (serving' w)) : pc.Serves serving' := by
  cases pc with
  | waits =>
    intro w
    rw [posted_of_advances (hadv w)]
    exact h w
  | serves rdmaCtxs i => exact ⟨h.1, fun j w hj => (h.2 j w hj).advances (hadv w)⟩
  | exchanges rdmaCtxs i => exact ⟨h.1, h.2.1, fun j w hj => (h.2.2 j w hj).advances (hadv w)⟩
  | threw => exact h
  | finished =>
    intro w
    have hw := hadv w
    rw [h w] at hw
    exact next_advances .initialMessage hw

section

variable [DecidableEq W] {x : Config W P} {c c' : State W P} {w w' : W} {n n' : Nat}
  {t : Handshake.State InitMessage}

theorem client_setConn (c : State W P) (w w' : W) (n n' : Nat) (t : Handshake.State InitMessage)
    : (c.setConn w n t).client w' n' =
      if w' = w ∧ n' = n then t.pc .client else c.client w' n' := by
  simp only [State.client, State.setConn, Function.update_apply]
  by_cases hw : w' = w <;> by_cases hn : n' = n <;> simp [hw, hn]

theorem serving_setConn (c : State W P) (w w' : W) (n n' : Nat) (t : Handshake.State InitMessage)
    : (c.setConn w n t).serving w' n' =
      if w' = w ∧ n' = n then t.pc .server else c.serving w' n' := by
  simp only [State.serving, State.setConn, Function.update_apply]
  by_cases hw : w' = w <;> by_cases hn : n' = n <;> simp [hw, hn]

theorem handshake_setConn (h : ∀ w n, Handshake.Inv (x.handshake w n) (c.conn w n))
    (ht : Handshake.Inv (x.handshake w n) t) (w' : W) (n' : Nat)
    : Handshake.Inv (x.handshake w' n') ((c.setConn w n t).conn w' n') := by
  simp only [State.setConn, Function.update_apply]
  split
  . next hw =>
    subst hw
    simp only [Function.update_apply]
    split
    . next hn =>
      subst hn
      exact ht
    . exact h w' n'
  . exact h w' n'

theorem Inv.advance (h : Inv x c) (ht : Handshake.Inv (x.handshake w n) t)
    (hadv : ∀ s, ((c.conn w n).pc s).Advances (t.pc s)) : Inv x (c.setConn w n t) := by
  have hclient : ∀ w' n', (c.client w' n').Advances ((c.setConn w n t).client w' n') := by
    intro w' n'
    rw [client_setConn]
    split
    . next heq =>
      rw [heq.1, heq.2]
      exact hadv .client
    . exact .inl rfl
  have hserving : ∀ w' n', (c.serving w' n').Advances ((c.setConn w n t).serving w' n') := by
    intro w' n'
    rw [serving_setConn]
    split
    . next heq =>
      rw [heq.1, heq.2]
      exact hadv .server
    . exact .inl rfl
  exact
    { handshake := handshake_setConn h.handshake ht
      node_le := h.node_le
      node_lt := h.node_lt
      client := fun w' n' hn => (h.client w' n' hn).advances (hclient w' n')
      mutex := h.mutex
      catalog := h.catalog
      node := fun n' =>
        { incoming := by
            intro w' hmem
            rcases (h.node n').incoming w' hmem with hconnects | hne
            . exact .inl hconnects
            . right
              intro hcalls
              rcases hclient w' n' with heq | ⟨phase, completions, hpolls, hw⟩
              . exact hne (heq.symm.trans hcalls)
              . rw [hcalls] at hw
                cases phase <;> simp [Pc.Within, Phase.next] at hw
          accepted := by
            intro w' hn hne
            apply (h.node n').accepted w' hn
            intro hcalls
            have hadv' := hclient w' n'
            rw [hcalls] at hadv'
            exact hne (not_advances_calls hadv')
          nodup := (h.node n').nodup
          unserved := by
            intro w' hmem
            have hadv' := hserving w' n'
            rw [(h.node n').unserved w' hmem] at hadv'
            exact not_advances_calls hadv'
          handler := fun w' hhandler =>
            within_advances ((h.node n').handler w' hhandler) (hserving w' n')
          handled := by
            intro w' completions hpolls
            rcases hserving w' n' with heq | ⟨phase, completions', hpolls', hw⟩
            . exact (h.node n').handled w' completions (heq.symm.trans hpolls)
            . rw [hpolls] at hw
              cases phase with
              | rdmaInfo => exact (h.node n').handled w' completions' hpolls'
              | initialMessage => simp [Pc.Within, Phase.next] at hw
          idle := (h.node n').idle
          counted := by
            obtain ⟨ws, hcard, hws⟩ := (h.node n').counted
            refine ⟨ws, hcard, ?_⟩
            intro w'
            rw [hws w']
            apply and_congr_left
            intro hhandler
            rw [hasReturned_of_advances _ (hserving w' n')]
            intro m hpolls
            exact hhandler ((h.node n').handled w' m hpolls)
          server := (h.node n').server.advances fun w' => hserving w' n' } }

theorem Inv.of_worker (h : Inv x c) (hincomingIds : c'.incomingIds = c.incomingIds)
    (hhandler : c'.handler = c.handler)
    (hnumber : c'.numberConnectionsEstablished = c.numberConnectionsEstablished)
    (hserver : c'.server = c.server) (hserving : ∀ w' n', c'.serving w' n' = c.serving w' n')
    (hother : ∀ w', w' ≠ w → c'.worker w' = c.worker w' ∧ c'.catalog w' = c.catalog w' ∧
      c'.conn w' = c.conn w')
    (hshake : ∀ n', Handshake.Inv (x.handshake w n') (c'.conn w n'))
    (hle : (c'.worker w).node ≤ x.storageNodes)
    (hlt : (c'.worker w).initiating ∨ (c'.worker w).busy → (c'.worker w).node < x.storageNodes)
    (hclient : ∀ n', n' < x.storageNodes →
      Progress (c'.worker w).phase (c'.worker w).node (c'.worker w).busy n' (c'.client w n'))
    (hmutex : ∀ p w', c'.outgoingMut p = some w' ↔ x.process w' = p ∧ (c'.worker w').initiating)
    (hincoming : ∀ n', w ∈ c.incomingIds n' →
      c'.worker w = .connects n' ∨ c'.client w n' ≠ .calls .rdmaInfo)
    (haccepted : ∀ n', n' < x.storageNodes → c'.client w n' ≠ .calls .rdmaInfo →
      w ∈ c.incomingIds n')
    (hcatalog : ∀ n', c'.catalog w n' = if n' < (c'.worker w).inserted then x.region n' else none)
    : Inv x c' := by
  have hotherClient : ∀ w' n', w' ≠ w → c'.client w' n' = c.client w' n' := by
    intro w' n' hne
    simp only [State.client, (hother w' hne).2.2]
  refine
    { handshake := ?_, node_le := ?_, node_lt := ?_, client := ?_, mutex := hmutex, catalog := ?_
      node := fun n' => ?_ }
  . intro w' n'
    by_cases hw : w' = w
    . rw [hw]
      exact hshake n'
    . rw [(hother w' hw).2.2]
      exact h.handshake w' n'
  . intro w'
    by_cases hw : w' = w
    . rw [hw]
      exact hle
    . rw [(hother w' hw).1]
      exact h.node_le w'
  . intro w'
    by_cases hw : w' = w
    . rw [hw]
      exact hlt
    . rw [(hother w' hw).1]
      exact h.node_lt w'
  . intro w' n'
    by_cases hw : w' = w
    . rw [hw]
      exact hclient n'
    . rw [(hother w' hw).1, hotherClient w' n' hw]
      exact h.client w' n'
  . intro w' n'
    by_cases hw : w' = w
    . rw [hw]
      exact hcatalog n'
    . rw [(hother w' hw).1, (hother w' hw).2.1]
      exact h.catalog w' n'
  have hnode := h.node n'
  constructor
  . intro w'
    rw [hincomingIds]
    by_cases hw : w' = w
    . rw [hw]
      exact hincoming n'
    . rw [(hother w' hw).1, hotherClient w' n' hw]
      exact hnode.incoming w'
  . intro w'
    rw [hincomingIds]
    by_cases hw : w' = w
    . rw [hw]
      exact haccepted n'
    . rw [hotherClient w' n' hw]
      exact hnode.accepted w'
  . rw [hincomingIds]
    exact hnode.nodup
  . intro w'
    rw [hincomingIds, hserving]
    exact hnode.unserved w'
  . intro w'
    rw [hhandler, hserving]
    exact hnode.handler w'
  . intro w'
    rw [hhandler, hserving]
    exact hnode.handled w'
  . rw [hserver, hhandler]
    exact hnode.idle
  . simp only [hserving, hhandler, hnumber]
    exact hnode.counted
  . rw [hserver]
    simp only [hserving]
    exact hnode.server

def MutexOk (x : Config W P) (outgoingMut : P → Option W) (worker : W → WorkerPc) : Prop :=
  ∀ p w, outgoingMut p = some w ↔ x.process w = p ∧ (worker w).initiating

theorem MutexOk.keep {m : P → Option W} {worker : W → WorkerPc} (h : MutexOk x m worker)
    {pc : WorkerPc} (hpc : pc.initiating = (worker w).initiating)
    : MutexOk x m (Function.update worker w pc) := by
  intro p w'
  by_cases hw : w' = w
  . subst hw
    rw [h, Function.update_self, hpc]
  . rw [Function.update_of_ne hw]
    exact h p w'

theorem onConn_eq_some {a : Handshake.Act InitMessage} (h : onConn x c w n a = some c')
    : ∃ t, Handshake.step (x.handshake w n) (c.conn w n) a = some t ∧ c' = c.setConn w n t := by
  simp only [onConn, Option.map_eq_some_iff] at h
  obtain ⟨t, ht, rfl⟩ := h
  exact ⟨t, ht, rfl⟩

theorem Inv.enter (h : Inv x c) {old pc : WorkerPc} (hold : c.worker w = old)
    (hstep : onConn x (c.setWorker w pc) w n (.exchange .client) = some c')
    (hphase : pc.phase = old.phase) (hnode : old.node = n ∧ pc.node = n)
    (hbusy : old.busy = false ∧ pc.busy = true) (hinitiating : pc.initiating = old.initiating)
    (hinserted : pc.inserted = old.inserted) (hlt : n < x.storageNodes)
    (hincoming : w ∈ c.incomingIds n) : Inv x c' := by
  obtain ⟨t, ht, rfl⟩ := onConn_eq_some hstep
  obtain ⟨phase, hcalls, hpc⟩ := Handshake.step_exchange ht
  have hclient := fun n' => h.client w n'
  have hcatalog := fun n' => h.catalog w n'
  rw [hold, hnode.1, hbusy.1, ← hphase] at hclient
  rw [hold] at hcatalog
  have hphase' : phase = pc.phase := by
    have hcalls' := (hclient n hlt).calls
    exact Pc.calls.inj (hcalls.symm.trans hcalls')
  have hentered : t.pc .client = .polls pc.phase 0 := by rw [hpc, Function.update_self, hphase']
  have hserver : t.pc .server = (c.conn w n).pc .server := by
    rw [hpc, Function.update_of_ne (by decide)]
    rfl
  have hworker' : ((c.setWorker w pc).setConn w n t).worker w = pc := Function.update_self _ _ _
  have hclient' : ∀ n', ((c.setWorker w pc).setConn w n t).client w n' =
      if n' = n then .polls pc.phase 0 else c.client w n' := by
    intro n'
    rw [client_setConn, hentered]
    simp only [true_and]
    rfl
  apply h.of_worker (w := w)
  . rfl
  . rfl
  . rfl
  . rfl
  . intro w' n'
    rw [serving_setConn]
    split
    . next heq =>
      rw [hserver, heq.1, heq.2]
      rfl
    . rfl
  . intro w' hw'
    exact ⟨Function.update_of_ne hw' _ _, rfl, Function.update_of_ne hw' _ _⟩
  . exact handshake_setConn h.handshake (Handshake.inv_step (h.handshake w n) ht) w
  . rw [hworker']
    omega
  . intro _
    rw [hworker']
    omega
  . intro n' hn'
    rw [hworker', hclient', hnode.2, hbusy.2]
    split
    . next heq =>
      rw [heq]
      exact progress_entered
    . next hne => exact (hclient n' hn').enter hne
  . exact MutexOk.keep h.mutex (hold ▸ hinitiating)
  . intro n' hmem
    right
    rw [hclient']
    split
    . simp
    . next hne =>
      rcases (h.node n').incoming w hmem with hconnects | hcalled
      . rw [← hold, hconnects] at hnode
        exact absurd hnode.1 hne
      . exact hcalled
  . intro n' hn' hcalled
    rw [hclient'] at hcalled
    split at hcalled
    . next heq =>
      rw [heq]
      exact hincoming
    . exact (h.node n').accepted w hn' hcalled
  . rw [hworker', hinserted]
    exact hcatalog

theorem Inv.of_pc (h : Inv x c) (pc : WorkerPc) (hold : ∀ n, c.worker w ≠ .connects n)
    (hworker : c'.worker = Function.update c.worker w pc) (hconn : c'.conn = c.conn)
    (hincomingIds : c'.incomingIds = c.incomingIds) (hhandler : c'.handler = c.handler)
    (hnumber : c'.numberConnectionsEstablished = c.numberConnectionsEstablished)
    (hserver : c'.server = c.server) (hother : ∀ w', w' ≠ w → c'.catalog w' = c.catalog w')
    (hle : pc.node ≤ x.storageNodes)
    (hlt : pc.initiating ∨ pc.busy → pc.node < x.storageNodes)
    (hclient : ∀ n', n' < x.storageNodes →
      Progress pc.phase pc.node pc.busy n' (c.client w n'))
    (hmutex : ∀ p w', c'.outgoingMut p = some w' ↔ x.process w' = p ∧ (c'.worker w').initiating)
    (hcatalog : ∀ n', c'.catalog w n' = if n' < pc.inserted then x.region n' else none)
    : Inv x c' := by
  have hpc : c'.worker w = pc := by rw [hworker, Function.update_self]
  have hends : ∀ w' n', c'.client w' n' = c.client w' n' := by
    intro w' n'
    rw [State.client, hconn, State.client]
  apply h.of_worker (w := w) hincomingIds hhandler hnumber hserver
  . intro w' n'
    rw [State.serving, hconn, State.serving]
  . intro w' hne
    rw [hworker, hconn]
    exact ⟨Function.update_of_ne hne _ _, hother w' hne, rfl⟩
  . rw [hconn]
    exact h.handshake w
  . rw [hpc]
    exact hle
  . rw [hpc]
    exact hlt
  . simp only [hpc, hends]
    exact hclient
  . exact hmutex
  . intro n' hmem
    rw [hends]
    exact .inr (((h.node n').incoming w hmem).resolve_left (hold n'))
  . intro n'
    rw [hends]
    exact (h.node n').accepted w
  . rw [hpc]
    exact hcatalog

end

section

variable [DecidableEq W] [DecidableEq P] {x : Config W P} {c c' : State W P} {w w' : W} {n n' : Nat}
  {t : Handshake.State InitMessage}

theorem MutexOk.lock {m : P → Option W} {worker : W → WorkerPc} (h : MutexOk x m worker)
    (hfree : m (x.process w) = none) {pc : WorkerPc} (hpc : pc.initiating)
    : MutexOk x (Function.update m (x.process w) (some w)) (Function.update worker w pc) := by
  intro p w'
  by_cases hp : p = x.process w
  . subst hp
    rw [Function.update_self]
    by_cases hw : w' = w
    . subst hw
      simp [hpc]
    . rw [Function.update_of_ne hw, ← h, hfree]
      simp [Ne.symm hw]
  . rw [Function.update_of_ne hp]
    by_cases hw : w' = w
    . subst hw
      rw [h, Function.update_self]
      simp [Ne.symm hp]
    . rw [Function.update_of_ne hw]
      exact h p w'

theorem MutexOk.unlock {m : P → Option W} {worker : W → WorkerPc} (h : MutexOk x m worker)
    (hheld : (worker w).initiating) {pc : WorkerPc} (hpc : pc.initiating = false)
    : MutexOk x (Function.update m (x.process w) none) (Function.update worker w pc) := by
  have hholder : m (x.process w) = some w := (h _ w).mpr ⟨rfl, hheld⟩
  intro p w'
  by_cases hp : p = x.process w
  . subst hp
    rw [Function.update_self]
    by_cases hw : w' = w
    . subst hw
      simp [hpc]
    . rw [Function.update_of_ne hw, ← h, hholder]
      simp [Ne.symm hw]
  . rw [Function.update_of_ne hp]
    by_cases hw : w' = w
    . subst hw
      rw [h, Function.update_self]
      simp [Ne.symm hp]
    . rw [Function.update_of_ne hw]
      exact h p w'

theorem Inv.initiate (h : Inv x c) (hstep : step x c (.initiate w) = some c') : Inv x c' := by
  simp only [step] at hstep
  split at hstep
  . next n hworker =>
    split at hstep
    . next hguard =>
      cases hstep
      have hclient := fun n' => h.client w n'
      have hcatalog := fun n' => h.catalog w n'
      rw [hworker] at hclient hcatalog
      refine h.of_pc (w := w) (.connects n) (by simp [hworker]) rfl rfl rfl rfl rfl rfl
        (fun _ _ => rfl) ?_ ?_ ?_ ?_ ?_
      . exact Nat.le_of_lt hguard.1
      . intro _
        exact hguard.1
      . exact hclient
      . exact MutexOk.lock h.mutex hguard.2 rfl
      . exact hcatalog
    . simp at hstep
  . simp at hstep

theorem Inv.initiated (h : Inv x c) (hstep : step x c (.initiated w) = some c') : Inv x c' := by
  simp only [step] at hstep
  split at hstep
  . next n hworker =>
    split at hstep
    . next hcalls =>
      cases hstep
      have hlt := h.node_lt w
      have hclient := fun n' => h.client w n'
      have hcatalog := fun n' => h.catalog w n'
      rw [hworker] at hlt hclient hcatalog
      refine h.of_pc (w := w) (.initiates (n + 1)) (by simp [hworker]) rfl rfl rfl rfl rfl rfl
        (fun _ _ => rfl) ?_ ?_ ?_ ?_ ?_
      . exact hlt (.inl rfl)
      . simp [WorkerPc.initiating, WorkerPc.busy]
      . intro n' hn'
        refine (hclient n' hn').leave ?_
        rintro rfl
        exact hcalls
      . exact MutexOk.unlock h.mutex (by rw [hworker]; rfl) rfl
      . exact hcatalog
    . simp at hstep
  . simp at hstep

theorem Inv.allocate (h : Inv x c) (hstep : step x c (.allocate w) = some c') : Inv x c' := by
  simp only [step] at hstep
  split at hstep
  . next hworker =>
    cases hstep
    have hclient := fun n' => h.client w n'
    have hcatalog := fun n' => h.catalog w n'
    rw [hworker] at hclient hcatalog
    refine h.of_pc (w := w) (.finishes 0) (by simp [hworker]) rfl rfl rfl rfl rfl rfl
      (fun _ _ => rfl) ?_ ?_ ?_ ?_ ?_
    . exact Nat.zero_le _
    . simp [WorkerPc.initiating, WorkerPc.busy]
    . -- all calls of the first loop have returned and none of the second loop was made
      intro n' hn'
      rw [(hclient n' hn').done hn']
      simp [Progress, WorkerPc.phase, WorkerPc.node, WorkerPc.busy, Phase.next]
    . exact MutexOk.keep h.mutex (by rw [hworker]; rfl)
    . exact hcatalog
  . simp at hstep

theorem Inv.connected (h : Inv x c) (hstep : step x c (.connected w) = some c') : Inv x c' := by
  simp only [step] at hstep
  split at hstep
  . next n hworker =>
    split at hstep
    . next hmem =>
      have hlt := h.node_lt w
      rw [hworker] at hlt
      exact h.enter hworker hstep rfl ⟨rfl, rfl⟩ ⟨rfl, rfl⟩ rfl rfl (hlt (.inl rfl)) hmem
    . simp at hstep
  . simp at hstep

theorem Inv.exchange (h : Inv x c) (hstep : step x c (.exchange w) = some c') : Inv x c' := by
  simp only [step] at hstep
  split at hstep
  . next n hworker =>
    split at hstep
    . next hlt =>
      have hclient := h.client w n hlt
      rw [hworker] at hclient
      refine h.enter hworker hstep rfl ⟨rfl, rfl⟩ ⟨rfl, rfl⟩ rfl rfl hlt ?_
      apply (h.node n).accepted w hlt
      rw [hclient.calls]
      simp [WorkerPc.phase]
    . simp at hstep
  . simp at hstep

theorem Inv.insert (h : Inv x c) (hstep : step x c (.insert w) = some c') : Inv x c' := by
  simp only [step] at hstep
  split at hstep
  . next n hworker =>
    split at hstep
    . next hreturned =>
      cases hstep
      have hlt := h.node_lt w
      have hclient := fun n' => h.client w n'
      have hcatalog := fun n' => h.catalog w n'
      rw [hworker] at hlt hclient hcatalog
      refine h.of_pc (w := w) (.finishes (n + 1)) (by simp [hworker]) rfl rfl rfl rfl rfl rfl
        (fun _ hne => Function.update_of_ne hne _ _) ?_ ?_ ?_ ?_ ?_
      . exact hlt (.inr rfl)
      . simp [WorkerPc.initiating, WorkerPc.busy]
      . intro n' hn'
        refine (hclient n' hn').leave ?_
        rintro rfl
        exact hreturned
      . exact MutexOk.keep h.mutex (by rw [hworker]; rfl)
      . intro n'
        simp only [Function.update_self]
        rw [(h.handshake w n).applicationData_eq hreturned]
        by_cases hn' : n' = n
        . subst hn'
          simp only [insertEntry, Function.update_self, hcatalog, WorkerPc.inserted,
            Nat.lt_irrefl, if_false, Option.none_or, Nat.lt_succ_self, if_true]
          rfl
        . simp only [insertEntry, Function.update_of_ne hn', hcatalog, WorkerPc.inserted]
          congr 1
          apply propext
          omega
    . simp at hstep
  . simp at hstep

end

end Cluster
