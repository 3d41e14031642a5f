import RdmaSync.Cluster.Moves

/-!
This module contains the steps of the storage nodes in the bring-up, and that all steps keep the
invariant.
-/

namespace Cluster

open Threads
open Rdma.Connection
open CommunicationManager
open CommunicationManager.Handshake (Phase Pc)

variable {W P : Type}

theorem posted_progress {k j : Nat} {busy : Bool} {pc : Pc}
    (h : Progress .initialMessage k busy j pc) : pc.hasReturned .rdmaInfo := by
  unfold Progress at h
  split at h
  . subst h
    trivial
  . split at h
    . rcases h with rfl | ⟨completions, rfl⟩
      . trivial
      . exact Nat.zero_lt_one
    . subst h
      exact Nat.zero_lt_one

theorem eq_calls_of_posted {pc : Pc} (h : pc.hasReturned .rdmaInfo) (hposted : pc.posted ≤ 1)
    : pc = .calls .initialMessage := by
  cases pc with
  | calls phase =>
    cases phase with
    | rdmaInfo => exact absurd h (Nat.lt_irrefl 0)
    | initialMessage => rfl
  | polls phase completions =>
    cases phase with
    | rdmaInfo => exact absurd h (Nat.lt_irrefl 0)
    | initialMessage => simp [Pc.posted, Phase.index] at hposted
  | returned => simp [Pc.posted] at hposted

theorem ServerPc.Serves.hasReturned {pc : ServerPc W} {serving : W → Pc} (h : pc.Serves serving)
    (hne : pc ≠ .waits) (w : W) : (serving w).hasReturned .rdmaInfo := by
  cases pc with
  | waits => exact absurd rfl hne
  | serves rdmaCtxs i =>
    obtain ⟨j, hj⟩ := List.mem_iff_getElem?.mp (h.1.2 w)
    exact posted_progress (h.2 j w hj)
  | exchanges rdmaCtxs i =>
    obtain ⟨j, hj⟩ := List.mem_iff_getElem?.mp (h.1.2 w)
    exact posted_progress (h.2.2 j w hj)
  | threw => exact h.elim
  | finished =>
    rw [h w]
    trivial

section

variable {x : Config W P} {c c' : State W P} {w : W} {n : Nat}

theorem Inv.of_node (h : Inv x c) (hworker : c'.worker = c.worker)
    (hmut : c'.outgoingMut = c.outgoingMut) (hcatalog : c'.catalog = c.catalog)
    (hclient : ∀ w n', c'.client w n' = c.client w n')
    (hother : ∀ n', n' ≠ n → c'.incomingIds n' = c.incomingIds n' ∧ c'.handler n' = c.handler n' ∧
      c'.numberConnectionsEstablished n' = c.numberConnectionsEstablished n' ∧
      c'.server n' = c.server n' ∧ ∀ w, c'.serving w n' = c.serving w n')
    (hshake : ∀ w n', Handshake.Inv (x.handshake w n') (c'.conn w n')) (hnode : NodeOk x c' n)
    : Inv x c' := by
  refine
    { handshake := hshake, node_le := ?_, node_lt := ?_, client := ?_, mutex := ?_, catalog := ?_
      node := fun n' => ?_ }
  . rw [hworker]
    exact h.node_le
  . rw [hworker]
    exact h.node_lt
  . simp only [hworker, hclient]
    exact h.client
  . rw [hmut, hworker]
    exact h.mutex
  . rw [hcatalog, hworker]
    exact h.catalog
  . by_cases hn : n' = n
    . rw [hn]
      exact hnode
    . have hok := h.node n'
      obtain ⟨hids, hhandler, hnumber, hserver, hserving⟩ := hother n' hn
      constructor
      . simp only [hids, hworker, hclient]
        exact hok.incoming
      . simp only [hids, hclient]
        exact hok.accepted
      . rw [hids]
        exact hok.nodup
      . simp only [hids, hserving]
        exact hok.unserved
      . simp only [hhandler, hserving]
        exact hok.handler
      . simp only [hhandler, hserving]
        exact hok.handled
      . rw [hserver, hhandler]
        exact hok.idle
      . simp only [hserving, hhandler, hnumber]
        exact hok.counted
      . rw [hserver]
        simp only [hserving]
        exact hok.server

theorem Inv.type_eq (h : Inv x c) (hret : (c.serving w n).hasReturned .rdmaInfo)
    : ((c.conn w n).context .server).type = .worker := by
  rw [(h.handshake w n .server).context hret]
  rfl

theorem Inv.of_server (h : Inv x c) (hne : c.server n ≠ .waits) (pc : ServerPc W)
    (hworker : c'.worker = c.worker) (hmut : c'.outgoingMut = c.outgoingMut)
    (hcatalog : c'.catalog = c.catalog) (hids : c'.incomingIds = c.incomingIds)
    (hhandler : c'.handler = c.handler)
    (hnumber : c'.numberConnectionsEstablished = c.numberConnectionsEstablished)
    (hclient : ∀ w n', c'.client w n' = c.client w n')
    (hserver : c'.server = Function.update c.server n pc)
    (hother : ∀ w n', n' ≠ n → c'.serving w n' = c.serving w n')
    (hshake : ∀ w n', Handshake.Inv (x.handshake w n') (c'.conn w n'))
    (hserves : pc.Serves fun w => c'.serving w n) (hpc : pc ≠ .waits) : Inv x c' := by
  have hok := h.node n
  have hfree := hok.idle hne
  have hret := hok.server.hasReturned hne
  have hret' := hserves.hasReturned hpc
  apply h.of_node (n := n) hworker hmut hcatalog hclient
  . intro n' hn'
    rw [hids, hhandler, hnumber, hserver]
    exact ⟨rfl, rfl, rfl, Function.update_of_ne hn' _ _, fun w => hother w n' hn'⟩
  . exact hshake
  . constructor
    . simp only [hids, hworker, hclient]
      exact hok.incoming
    . simp only [hids, hclient]
      exact hok.accepted
    . rw [hids]
      exact hok.nodup
    . intro w hmem
      rw [hids] at hmem
      have hcalls := hok.unserved w hmem
      have hretw : (c.serving w n).hasReturned .rdmaInfo := hret w
      rw [hcalls] at hretw
      exact absurd hretw (Nat.lt_irrefl 0)
    . intro w hw
      rw [hhandler, hfree] at hw
      simp at hw
    . intro w completions hpolls
      have hretw : (c'.serving w n).hasReturned .rdmaInfo := hret' w
      rw [hpolls] at hretw
      exact absurd hretw (Nat.lt_irrefl 0)
    . intro _
      rw [hhandler]
      exact hfree
    . obtain ⟨ws, hcard, hws⟩ := hok.counted
      refine ⟨ws, by rw [hcard, hnumber], ?_⟩
      intro w
      rw [hws, hhandler]
      exact and_congr_left fun _ => iff_of_true (hret w) (hret' w)
    . rw [hserver, Function.update_self]
      exact hserves

theorem inv_init (x : Config W P) : Inv x .init := by
  refine
    { handshake := fun w n => Handshake.inv_init _, node_le := fun _ => Nat.zero_le _
      node_lt := ?_, client := ?_, mutex := ?_, catalog := ?_, node := fun n => ?_ }
  . simp [State.init, WorkerPc.initiating, WorkerPc.busy]
  . intro w n hn
    have hstart : Progress .rdmaInfo 0 false n (.calls .rdmaInfo) := by simp [Progress]
    exact hstart
  . simp [State.init, WorkerPc.initiating]
  . simp [State.init, WorkerPc.inserted]
  . constructor
    . simp [State.init]
    . simp [State.init, State.client, Handshake.init]
    . exact List.nodup_nil
    . exact fun _ _ => rfl
    . simp [State.init]
    . simp [State.init, State.serving, Handshake.init]
    . simp [State.init]
    . refine ⟨∅, rfl, ?_⟩
      simp [State.init, State.serving, Handshake.init, Pc.hasReturned, Phase.index]
    . intro w
      exact Nat.zero_le _

end

section

variable [DecidableEq W] {x : Config W P} {c c' : State W P} {w : W} {n : Nat}

theorem exchange_server (hstep : onConn x c w n (.exchange .server) = some c')
    : ∃ t phase, Handshake.step (x.handshake w n) (c.conn w n) (.exchange .server) = some t ∧
        c' = c.setConn w n t ∧ c.serving w n = .calls phase ∧
        (∀ w' n', c'.client w' n' = c.client w' n') ∧
        ∀ w' n', c'.serving w' n' =
          if w' = w ∧ n' = n then .polls phase 0 else c.serving w' n' := by
  obtain ⟨t, ht, rfl⟩ := onConn_eq_some hstep
  obtain ⟨phase, hcalls, hpc⟩ := Handshake.step_exchange ht
  refine ⟨t, phase, ht, rfl, hcalls, ?_, ?_⟩
  . intro w' n'
    rw [client_setConn, hpc, Function.update_of_ne (by decide)]
    split
    . next heq =>
      rw [heq.1, heq.2]
      rfl
    . rfl
  . intro w' n'
    rw [serving_setConn, hpc, Function.update_self]

end

section

variable [DecidableEq W] [DecidableEq P] {x : Config W P} {c c' : State W P} {w : W} {n : Nat}

theorem Inv.accept (h : Inv x c) (hstep : step x c (.accept n w) = some c') : Inv x c' := by
  simp only [step] at hstep
  split at hstep
  . next hguard =>
    obtain ⟨hconnects, -, hnew⟩ := hguard
    cases hstep
    have hok := h.node n
    apply h.of_node (n := n)
    . rfl
    . rfl
    . rfl
    . exact fun _ _ => rfl
    . intro n' hn'
      exact ⟨Function.update_of_ne hn' _ _, rfl, rfl, rfl, fun _ => rfl⟩
    . exact h.handshake
    . constructor <;> simp only [Function.update_self, List.mem_append, List.mem_singleton]
      . rintro w' (hmem | rfl)
        . exact hok.incoming w' hmem
        . exact .inl hconnects
      . intro w' hn hne
        exact .inl (hok.accepted w' hn hne)
      . rw [List.nodup_append]
        refine ⟨hok.nodup, List.nodup_singleton w, ?_⟩
        intro a ha b hb hab
        rw [List.mem_singleton.mp hb] at hab
        exact hnew (hab ▸ ha)
      . intro w' hmem
        exact hok.unserved w' fun hmem' => hmem (.inl hmem')
      . exact hok.handler
      . exact hok.handled
      . exact hok.idle
      . exact hok.counted
      . exact hok.server
  . simp at hstep

theorem Inv.established (h : Inv x c) (hstep : step x c (.established n w) = some c')
    : Inv x c' := by
  simp only [step] at hstep
  split at hstep
  . next hguard =>
    obtain ⟨hfree, hmem, hcalls⟩ := hguard
    obtain ⟨t, phase, ht, hc', hphase, hclient, hserving⟩ := exchange_server hstep
    have hok := h.node n
    have hstart : phase = .rdmaInfo := Pc.calls.inj (hphase.symm.trans hcalls)
    have hwaits : c.server n = .waits := by
      by_contra hne
      have hret := hok.server.hasReturned hne w
      rw [hcalls] at hret
      exact absurd hret (Nat.lt_irrefl 0)
    have hhandler : c'.handler n = some w := by
      rw [hc']
      exact Function.update_self _ _ _
    have hserver : c'.server n = .waits := by
      rw [hc']
      exact hwaits
    have hserving' : ∀ w', c'.serving w' n =
        if w' = w then .polls .rdmaInfo 0 else c.serving w' n := by
      intro w'
      rw [hserving, hstart]
      simp only [and_true]
      rfl
    apply h.of_node (n := n)
    . rw [hc']
      rfl
    . rw [hc']
      rfl
    . rw [hc']
      rfl
    . exact hclient
    . intro n' hn'
      refine ⟨?_, ?_, ?_, ?_, ?_⟩
      . rw [hc']
        rfl
      . rw [hc']
        exact Function.update_of_ne hn' _ _
      . rw [hc']
        rfl
      . rw [hc']
        rfl
      . intro w'
        rw [hserving, if_neg (fun heq => hn' heq.2)]
        rfl
    . rw [hc']
      exact handshake_setConn h.handshake (Handshake.inv_step (h.handshake w n) ht)
    . have hids : c'.incomingIds n = c.incomingIds n := by
        rw [hc']
        rfl
      have hworker : c'.worker = c.worker := by
        rw [hc']
        rfl
      constructor
      . intro w' hmem'
        rw [hids] at hmem'
        rw [hworker, hclient]
        exact hok.incoming w' hmem'
      . intro w'
        rw [hids, hclient]
        exact hok.accepted w'
      . rw [hids]
        exact hok.nodup
      . intro w' hmem'
        rw [hids] at hmem'
        rw [hserving', if_neg (by rintro rfl; exact hmem' hmem)]
        exact hok.unserved w' hmem'
      . intro w' hw'
        rw [hhandler] at hw'
        rw [hserving', if_pos (Option.some.inj hw').symm]
        exact .inr ⟨0, rfl⟩
      . intro w' completions hpolls
        rw [hserving'] at hpolls
        split at hpolls
        . next heq =>
          rw [heq]
          exact hhandler
        . have hw' := hok.handled w' completions hpolls
          rw [hfree] at hw'
          simp at hw'
      . rw [hserver]
        simp
      . obtain ⟨ws, hcard, hws⟩ := hok.counted
        refine ⟨ws, ?_, ?_⟩
        . rw [hcard, hc']
          rfl
        . intro w'
          rw [hws, hfree, hserving', hhandler]
          split
          . next heq =>
            rw [heq, hcalls]
            simp [Pc.hasReturned, Phase.index]
          . next hne => simp [Ne.symm hne]
      . rw [hserver]
        have hposted := hok.server
        rw [hwaits] at hposted
        intro w'
        simp only [hserving']
        split
        . exact Nat.le_refl 1
        . exact hposted w'
  . simp at hstep

theorem Inv.count (h : Inv x c) (hstep : step x c (.count n) = some c') : Inv x c' := by
  simp only [step] at hstep
  split at hstep
  . next w hhandler =>
    split at hstep
    . next hcalls =>
      cases hstep
      have hok := h.node n
      apply h.of_node (n := n)
      . rfl
      . rfl
      . rfl
      . exact fun _ _ => rfl
      . intro n' hn'
        exact ⟨rfl, Function.update_of_ne hn' _ _, Function.update_of_ne hn' _ _, rfl, fun _ => rfl⟩
      . exact h.handshake
      . constructor <;> simp only [State.setHandler, Function.update_self]
        . exact hok.incoming
        . exact hok.accepted
        . exact hok.nodup
        . exact hok.unserved
        . simp
        . intro w' completions hpolls
          have hw' := hok.handled w' completions hpolls
          rw [hhandler] at hw'
          rw [← Option.some.inj hw'] at hpolls
          exact absurd (hcalls.symm.trans hpolls) (by simp)
        . simp
        . obtain ⟨ws, hcard, hws⟩ := hok.counted
          have hnew : w ∉ ws := by simp [hws, hhandler]
          refine ⟨Insert.insert w ws, by rw [Finset.card_insert_of_notMem hnew, hcard], ?_⟩
          intro w'
          rw [Finset.mem_insert, hws, hhandler]
          by_cases hw' : w' = w
          . subst hw'
            have hret : (c.serving w' n).hasReturned .rdmaInfo := by
              rw [hcalls]
              exact Nat.zero_lt_one
            exact iff_of_true (.inl rfl) ⟨hret, by simp⟩
          . simp only [hw', false_or, ne_eq, Option.some.injEq, Ne.symm hw', not_false_eq_true,
              and_true, reduceCtorEq]
            rfl
        . exact hok.server
    . simp at hstep
  . simp at hstep

theorem Inv.copy [Fintype W] (hflags : ∀ n, n < x.storageNodes → x.flagsWorker n = Fintype.card W)
    (h : Inv x c) (hstep : step x c (.copy n) = some c') : Inv x c' := by
  simp only [step] at hstep
  split at hstep
  . next hguard =>
    obtain ⟨hn, hwaits, hnumber⟩ := hguard
    cases hstep
    have hok := h.node n
    have hposted := hok.server
    rw [hwaits] at hposted
    obtain ⟨ws, hcard, hws⟩ := hok.counted
    rw [hnumber, hflags n hn] at hcard
    have hall : ∀ w, (c.serving w n).hasReturned .rdmaInfo ∧ c.handler n ≠ some w := by
      intro w
      rw [← hws, (Finset.card_eq_iff_eq_univ ws).mp hcard]
      exact Finset.mem_univ w
    have hcalls : ∀ w, c.serving w n = .calls .initialMessage :=
      fun w => eq_calls_of_posted (hall w).1 (hposted w)
    apply h.of_node (n := n)
    . rfl
    . rfl
    . rfl
    . exact fun _ _ => rfl
    . intro n' hn'
      exact ⟨rfl, rfl, rfl, Function.update_of_ne hn' _ _, fun _ => rfl⟩
    . exact h.handshake
    . constructor <;> simp only [State.setServer, Function.update_self]
      . exact hok.incoming
      . exact hok.accepted
      . exact hok.nodup
      . exact hok.unserved
      . exact hok.handler
      . exact hok.handled
      . intro _
        cases hhandler : c.handler n with
        | none => rfl
        | some w => exact absurd hhandler (hall w).2
      . exact hok.counted
      . refine ⟨⟨hok.nodup, ?_⟩, ?_⟩
        . intro w
          by_contra hmem
          have heq := hok.unserved w hmem
          rw [hcalls] at heq
          simp at heq
        . intro j w _
          have heq : c.serving w n = .calls .initialMessage := hcalls w
          have hstart : Progress .initialMessage 0 false j (c.serving w n) := by
            simp [Progress, heq]
          exact hstart
  . simp at hstep

theorem Inv.serve (h : Inv x c) (hstep : step x c (.serve n) = some c') : Inv x c' := by
  simp only [step] at hstep
  split at hstep
  . next rdmaCtxs i hserver =>
    have hne : c.server n ≠ .waits := by
      rw [hserver]
      simp
    have hserves := (h.node n).server
    rw [hserver] at hserves
    split at hstep
    . next w hw =>
      have hcalls : c.serving w n = .calls .initialMessage := (hserves.2 i w hw).calls
      rw [if_pos (h.type_eq (by rw [hcalls]; exact Nat.zero_lt_one))] at hstep
      obtain ⟨t, phase, ht, hc', hphase, hclient, hserving⟩ := exchange_server hstep
      have hstart : phase = .initialMessage := Pc.calls.inj (hphase.symm.trans hcalls)
      have hserving' : ∀ w', c'.serving w' n =
          if w' = w then .polls .initialMessage 0 else c.serving w' n := by
        intro w'
        rw [hserving, hstart]
        simp only [and_true]
        rfl
      apply h.of_server hne (.exchanges rdmaCtxs i)
      . rw [hc']
        rfl
      . rw [hc']
        rfl
      . rw [hc']
        rfl
      . rw [hc']
        rfl
      . rw [hc']
        rfl
      . rw [hc']
        rfl
      . exact hclient
      . rw [hc']
        rfl
      . intro w' n' hn'
        rw [hserving, if_neg (fun heq => hn' heq.2)]
        rfl
      . rw [hc']
        exact handshake_setConn h.handshake (Handshake.inv_step (h.handshake w n) ht)
      . have hlength := (List.getElem?_eq_some_iff.mp hw).1
        refine ⟨hserves.1, hlength, ?_⟩
        intro j w' hw'
        simp only [hserving']
        by_cases hj : j = i
        . subst hj
          rw [hw'] at hw
          rw [if_pos (Option.some.inj hw)]
          exact progress_entered
        . have hne' : w' ≠ w := by
            rintro rfl
            exact hj ((List.getElem?_inj hlength hserves.1.1).mp (hw.trans hw'.symm)).symm
          rw [if_neg hne']
          exact (hserves.2 j w' hw').enter hj
      . simp
    . next hnone =>
      cases hstep
      apply h.of_server hne .finished
      . rfl
      . rfl
      . rfl
      . rfl
      . rfl
      . rfl
      . exact fun _ _ => rfl
      . rfl
      . exact fun _ _ _ => rfl
      . exact h.handshake
      . intro w'
        obtain ⟨j, hj⟩ := List.mem_iff_getElem?.mp (hserves.1.2 w')
        have hlength := List.getElem?_eq_none_iff.mp hnone
        have hlt := (List.getElem?_eq_some_iff.mp hj).1
        exact (hserves.2 j w' hj).done (by omega)
      . simp
  . simp at hstep

theorem Inv.served (h : Inv x c) (hstep : step x c (.served n) = some c') : Inv x c' := by
  simp only [step] at hstep
  split at hstep
  . next rdmaCtxs i hserver =>
    have hserves := (h.node n).server
    rw [hserver] at hserves
    split at hstep
    . next w hw =>
      split at hstep
      . next hreturned =>
        cases hstep
        have hne : c.server n ≠ .waits := by simp [hserver]
        apply h.of_server hne (.serves rdmaCtxs (i + 1))
        . rfl
        . rfl
        . rfl
        . rfl
        . rfl
        . rfl
        . exact fun _ _ => rfl
        . rfl
        . exact fun _ _ _ => rfl
        . exact h.handshake
        . refine ⟨hserves.1, ?_⟩
          intro j w' hw'
          refine (hserves.2.2 j w' hw').leave ?_
          rintro rfl
          rw [hw'] at hw
          cases hw
          exact hreturned
        . simp
      . simp at hstep
    . simp at hstep
  . simp at hstep

theorem inv_step [Fintype W] (hflags : ∀ n, n < x.storageNodes → x.flagsWorker n = Fintype.card W)
    {a : Act W} (h : Inv x c) (hstep : step x c a = some c') : Inv x c' := by
  cases a with
  | initiate w => exact h.initiate hstep
  | accept n w => exact h.accept hstep
  | connected w => exact h.connected hstep
  | initiated w => exact h.initiated hstep
  | established n w => exact h.established hstep
  | count n => exact h.count hstep
  | allocate w => exact h.allocate hstep
  | exchange w => exact h.exchange hstep
  | insert w => exact h.insert hstep
  | copy n => exact h.copy hflags hstep
  | serve n => exact h.serve hstep
  | served n => exact h.served hstep
  | poll w n s comp =>
    obtain ⟨t, ht, rfl⟩ := onConn_eq_some hstep
    exact h.advance (Handshake.inv_step (h.handshake w n) ht) (Handshake.step_poll_advances ht)
  | transfer w n a =>
    obtain ⟨t, ht, rfl⟩ := onConn_eq_some hstep
    refine h.advance (Handshake.inv_step (h.handshake w n) ht) fun s => .inl ?_
    rw [Handshake.step_transfer_pc ht]

theorem inv_of_reach [Fintype W]
    (hflags : ∀ n, n < x.storageNodes → x.flagsWorker n = Fintype.card W)
    (h : Step.Reach (step x) Step.any .init c) : Inv x c := by
  refine h.invariant (inv_init x) ?_
  intro c a c' hinv _ hstep
  exact inv_step hflags hinv hstep

end

end Cluster
