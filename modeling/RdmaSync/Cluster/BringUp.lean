import Mathlib.Data.Finset.Prod
import RdmaSync.Cluster.Serving

/-!
This module contains the proof that the bring-up of a cluster cannot deadlock, and what the workers
know when it is over.
-/

namespace Cluster

open Threads
open Rdma.Connection
open CommunicationManager
open CommunicationManager.Handshake (Phase Pc)

variable {W P : Type}

theorem posted_pos {pc : Pc} (h : pc ≠ .calls .rdmaInfo) : 0 < pc.posted := by
  cases pc with
  | calls phase =>
    cases phase with
    | rdmaInfo => exact absurd rfl h
    | initialMessage => exact Nat.zero_lt_one
  | polls phase completions => exact Nat.succ_pos _
  | returned => exact Nat.zero_lt_two

theorem hasReturned_of_posted {pc : Pc} (h : 0 < pc.posted) (hpolls : ∀ m, pc ≠ .polls .rdmaInfo m)
    : pc.hasReturned .rdmaInfo := by
  cases pc with
  | calls phase => exact h
  | polls phase completions =>
    cases phase with
    | rdmaInfo => exact absurd rfl (hpolls completions)
    | initialMessage => exact Nat.zero_lt_one
  | returned => trivial

def Act.party (a : Act W) : Bool :=
  match a with
  | .transfer _ _ _ | .poll _ _ _ 0 => false
  | _ => true

def Act.transfers (a : Act W) : Bool :=
  match a with
  | .transfer _ _ _ => true
  | _ => false

/-- All workers are constructed and all storage nodes have served their connections. -/
def Final (x : Config W P) (c : State W P) : Prop :=
  (∀ w, c.worker w = .finishes x.storageNodes) ∧ ∀ n, n < x.storageNodes → c.server n = .finished

def State.received (c : State W P) (w : W) (n : Nat) : List (Option (Message InitMessage)) :=
  ((c.conn w n).ends .client).filled.map ((c.conn w n).ends .client).memory

theorem received_eq {x : Config W P} {c : State W P} {w : W} {n : Nat} (h : Inv x c)
    (hreturned : c.client w n = .returned)
    : c.received w n =
        [some (.rdmaInfo ((x.handshake w n).ownInfo .server)),
          some (.initialMessage (x.serverMessage n))] := by
  have hshake := h.handshake w n
  have hbuffers := (hshake .client).buffers
  have hresponse := (hshake .client).response_eq (hshake .server)
  rw [hshake.receives_eq_nil hreturned, List.append_nil] at hbuffers
  rw [State.received, hbuffers, List.map_cons, List.map_cons, List.map_nil,
    hshake.applicationData_eq hreturned, hresponse (by rw [hbuffers]; simp)]
  rfl

variable [DecidableEq W] [DecidableEq P] {x : Config W P} {c c' : State W P} {w : W} {n : Nat}

def Moves (x : Config W P) (c : State W P) : Prop :=
  ∃ a, a.party = true ∧ (step x c a).isSome

/-- Nothing is on its way on the connections to the nodes. -/
def Still (x : Config W P) (c : State W P) : Prop :=
  ∀ w n, n < x.storageNodes → Quiet (c.conn w n).ends

theorem Moves.of_exchange (a : Act W) (c₁ : State W P) (s : Side) {phase : Phase}
    (hparty : a.party = true) (hstep : step x c a = onConn x c₁ w n (.exchange s))
    (hcalls : (c₁.conn w n).pc s = .calls phase) : Moves x c := by
  obtain ⟨t, ht⟩ := Handshake.exists_exchange (x.handshake w n) hcalls
  exact ⟨a, hparty, by rw [hstep, onConn, ht]; rfl⟩

theorem Moves.of_poll (h : Inv x c) (hstill : Still x c) (hn : n < x.storageNodes) {s : Side}
    {phase : Phase} {completions : Nat} (hpolls : (c.conn w n).pc s = .polls phase completions)
    (hpeer : phase.index < ((c.conn w n).pc s.peer).posted) : Moves x c := by
  have hshake := h.handshake w n
  obtain ⟨t, ht⟩ := Handshake.exists_poll (x.handshake w n) hpolls
    ((hshake s).completions _ _ hpolls) (hshake.cq_pos (hstill w n hn) hpolls hpeer)
  exact ⟨.poll w n s 1, rfl, by simp only [step, onConn, ht]; rfl⟩

theorem Moves.of_connects (h : Inv x c) (hworker : c.worker w = .connects n)
    (hmem : w ∈ c.incomingIds n) : Moves x c := by
  have hlt := h.node_lt w
  have hclient := h.client w n
  rw [hworker] at hlt hclient
  apply Moves.of_exchange (.connected w) (c.setWorker w (.exchangesInfo n)) .client (w := w) (n := n)
  . rfl
  . simp only [step, hworker]
    rw [if_pos hmem]
  . exact (hclient (hlt (.inl rfl))).calls

theorem Moves.of_handler (h : Inv x c) (hstill : Still x c) (hn : n < x.storageNodes)
    (hhandler : c.handler n = some w) : Moves x c := by
  have hok := h.node n
  rcases hok.handler w hhandler with hcalls | ⟨completions, hpolls⟩
  . refine ⟨.count n, rfl, ?_⟩
    simp only [step, hhandler]
    rw [if_pos (show c.serving w n = .calls .initialMessage from hcalls)]
    rfl
  . by_cases hclient : c.client w n = .calls .rdmaInfo
    . have hmem : w ∈ c.incomingIds n := by
        by_contra hmem
        rw [hok.unserved w hmem] at hpolls
        simp at hpolls
      rcases hok.incoming w hmem with hworker | hne
      . exact of_connects h hworker hmem
      . exact absurd hclient hne
    . exact of_poll h hstill hn hpolls (posted_pos hclient)

theorem Moves.of_initiating (h : Inv x c) (hstill : Still x c)
    (hfree : ∀ n, n < x.storageNodes → c.handler n = none) (hw : (c.worker w).initiating)
    : Moves x c := by
  have hlt := h.node_lt w
  have hclient := h.client w
  cases hworker : c.worker w with
  | connects n =>
    rw [hworker] at hlt
    have hn : n < x.storageNodes := hlt (.inl rfl)
    by_cases hmem : w ∈ c.incomingIds n
    . exact of_connects h hworker hmem
    . refine ⟨.accept n w, rfl, ?_⟩
      simp only [step]
      rw [if_pos ⟨hworker, hfree n hn, hmem⟩]
      rfl
  | exchangesInfo n =>
    rw [hworker] at hlt hclient
    have hn : n < x.storageNodes := hlt (.inl rfl)
    rcases (hclient n hn).within with hcalls | ⟨completions, hpolls⟩
    . refine ⟨.initiated w, rfl, ?_⟩
      simp only [step, hworker]
      rw [if_pos (show c.client w n = .calls .initialMessage from hcalls)]
      rfl
    . by_cases hserving : c.serving w n = .calls .rdmaInfo
      . have hmem : w ∈ c.incomingIds n := by
          apply (h.node n).accepted w hn
          rw [hpolls]
          simp
        apply of_exchange (.established n w) (c.setHandler n (some w)) .server (w := w) (n := n)
        . rfl
        . simp only [step]
          rw [if_pos ⟨hfree n hn, hmem, hserving⟩]
        . exact hserving
      . exact of_poll h hstill hn hpolls (posted_pos hserving)
  | initiates n | finishes n | exchanges n =>
    rw [hworker] at hw
    simp [WorkerPc.initiating] at hw

theorem Moves.of_initiates (h : Inv x c) (hidle : ∀ w, (c.worker w).initiating = false)
    (hworker : c.worker w = .initiates n) : Moves x c := by
  have hle := h.node_le w
  rw [hworker] at hle
  by_cases hn : n < x.storageNodes
  . have hfree : c.outgoingMut (x.process w) = none := by
      cases hmut : c.outgoingMut (x.process w) with
      | none => rfl
      | some w' =>
        have hw' := ((h.mutex _ w').mp hmut).2
        rw [hidle w'] at hw'
        simp at hw'
    refine ⟨.initiate w, rfl, ?_⟩
    simp only [step, hworker]
    rw [if_pos ⟨hn, hfree⟩]
    rfl
  . have heq : n = x.storageNodes := Nat.le_antisymm hle (Nat.le_of_not_lt hn)
    refine ⟨.allocate w, rfl, ?_⟩
    simp only [step]
    rw [if_pos (by rw [hworker, heq])]
    rfl

theorem Moves.of_waits [Fintype W]
    (hflags : ∀ n, n < x.storageNodes → x.flagsWorker n = Fintype.card W) (h : Inv x c)
    (hn : n < x.storageNodes) (hfree : c.handler n = none)
    (hphase : ∀ w, (c.worker w).phase = .initialMessage) (hwaits : c.server n = .waits)
    : Moves x c := by
  have hok := h.node n
  have hserving : ∀ w, (c.serving w n).hasReturned .rdmaInfo := by
    intro w
    have hclient := h.client w n hn
    rw [hphase w] at hclient
    have hposted : 0 < (c.serving w n).posted :=
      (h.handshake w n).peer_posted_pos (s := .client) (posted_progress hclient)
    apply hasReturned_of_posted hposted
    intro m hpolls
    have hhandler := hok.handled w m hpolls
    rw [hfree] at hhandler
    simp at hhandler
  obtain ⟨ws, hcard, hws⟩ := hok.counted
  have huniv : ws = Finset.univ := by
    ext w
    simp [hws, hserving w, hfree]
  refine ⟨.copy n, rfl, ?_⟩
  simp only [step]
  rw [if_pos ⟨hn, hwaits, by rw [← hcard, huniv, hflags n hn]; rfl⟩]
  rfl

theorem Moves.of_finishes (h : Inv x c) (hstill : Still x c)
    (hphase : (c.worker w).phase = .initialMessage) (hne : c.worker w ≠ .finishes x.storageNodes)
    (hfinished : (c.worker w).busy → (c.serving w (c.worker w).node).posted = 2) : Moves x c := by
  have hle := h.node_le w
  have hlt := h.node_lt w
  have hclient := h.client w
  cases hworker : c.worker w with
  | finishes n =>
    rw [hworker] at hle hclient
    have hn : n < x.storageNodes := by
      apply Nat.lt_of_le_of_ne hle
      intro heq
      exact hne (by rw [hworker, ← heq]; rfl)
    apply of_exchange (.exchange w) (c.setWorker w (.exchanges n)) .client (w := w) (n := n)
    . rfl
    . simp only [step, hworker]
      rw [if_pos hn]
    . exact (hclient n hn).calls
  | exchanges n =>
    rw [hworker] at hlt hclient hfinished
    have hn : n < x.storageNodes := hlt (.inr rfl)
    rcases (hclient n hn).within with hreturned | ⟨completions, hpolls⟩
    . refine ⟨.insert w, rfl, ?_⟩
      simp only [step, hworker]
      rw [if_pos (show c.client w n = .returned from hreturned)]
      rfl
    . apply of_poll h hstill hn hpolls
      have hposted : (c.serving w n).posted = 2 := hfinished rfl
      exact hposted.symm ▸ Nat.one_lt_two
  | initiates n | connects n | exchangesInfo n =>
    rw [hworker] at hphase
    simp [WorkerPc.phase] at hphase

theorem Moves.of_server (h : Inv x c) (hstill : Still x c) (hn : n < x.storageNodes)
    (hphase : ∀ w, (c.worker w).phase = .initialMessage)
    (hbefore : ∀ k, k < n → c.server k = .finished) (hwaits : c.server n ≠ .waits)
    (hne : c.server n ≠ .finished) : Moves x c := by
  have hserves := (h.node n).server
  cases hserver : c.server n with
  | waits => exact absurd hserver hwaits
  | finished => exact absurd hserver hne
  | threw =>
    rw [hserver] at hserves
    exact hserves.elim
  | serves rdmaCtxs i =>
    rw [hserver] at hserves
    cases hw : rdmaCtxs[i]? with
    | none =>
      refine ⟨.serve n, rfl, ?_⟩
      simp only [step, hserver, hw]
      rfl
    | some w =>
      have hcalls : c.serving w n = .calls .initialMessage := (hserves.2 i w hw).calls
      apply of_exchange (.serve n) (c.setServer n (.exchanges rdmaCtxs i)) .server (w := w) (n := n)
      . rfl
      . simp only [step, hserver, hw]
        rw [if_pos (h.type_eq (by rw [hcalls]; exact Nat.zero_lt_one))]
      . exact hcalls
  | exchanges rdmaCtxs i =>
    rw [hserver] at hserves
    obtain ⟨w, hw⟩ : ∃ w, rdmaCtxs[i]? = some w := ⟨_, List.getElem?_eq_getElem hserves.2.1⟩
    rcases (hserves.2.2 i w hw).within with hreturned | ⟨completions, hpolls⟩
    . refine ⟨.served n, rfl, ?_⟩
      simp only [step, hserver, hw]
      rw [if_pos (show c.serving w n = .returned from hreturned)]
      rfl
    . by_cases hposted : 1 < (c.client w n).posted
      . exact of_poll h hstill hn hpolls hposted
      . -- the worker has not reached this node, so it talks to one that is through
        have hclient := h.client w n hn
        have hlt := h.node_lt w
        have hk : ¬n < (c.worker w).node := by
          intro hk
          rw [hclient.done hk, hphase w] at hposted
          exact hposted Nat.one_lt_two
        apply of_finishes h hstill (hphase w)
        . intro hworker
          rw [hworker] at hk
          exact hk hn
        . intro hbusy
          have hkn : (c.worker w).node < n := by
            apply Nat.lt_of_le_of_ne (Nat.le_of_not_lt hk)
            intro heq
            rw [hbusy, hphase w, ← heq] at hclient
            rcases hclient.within with hreturned | ⟨m, hm⟩
            . rw [← heq, hreturned] at hposted
              exact hposted Nat.one_lt_two
            . rw [← heq, hm] at hposted
              exact hposted Nat.one_lt_two
          have hdone := (h.node (c.worker w).node).server
          rw [hbefore _ hkn] at hdone
          have hserving : c.serving w (c.worker w).node = .returned := hdone w
          rw [hserving]
          rfl

/-- When nothing is on its way and some exchange is not finished, some party goes on. -/
theorem moves_of_still [Fintype W]
    (hflags : ∀ n, n < x.storageNodes → x.flagsWorker n = Fintype.card W) (h : Inv x c)
    (hstill : Still x c) (hfinal : ¬Final x c) : Moves x c := by
  by_cases hfree : ∀ n, n < x.storageNodes → c.handler n = none
  . by_cases hidle : ∀ w, (c.worker w).initiating = false
    . by_cases hinitiates : ∃ w n, c.worker w = .initiates n
      . obtain ⟨w, n, hworker⟩ := hinitiates
        exact .of_initiates h hidle hworker
      . have hphase : ∀ w, (c.worker w).phase = .initialMessage := by
          intro w
          have hw := hidle w
          cases hworker : c.worker w with
          | initiates n => exact absurd ⟨w, n, hworker⟩ hinitiates
          | connects n | exchangesInfo n =>
            rw [hworker] at hw
            simp [WorkerPc.initiating] at hw
          | finishes n | exchanges n => rfl
        by_cases hservers : ∀ n, n < x.storageNodes → c.server n = .finished
        . have hworkers : ∃ w, c.worker w ≠ .finishes x.storageNodes := by
            by_contra hall
            simp only [not_exists, not_not] at hall
            exact hfinal ⟨hall, hservers⟩
          obtain ⟨w, hw⟩ := hworkers
          apply Moves.of_finishes h hstill (hphase w) hw
          intro hbusy
          have hdone := (h.node (c.worker w).node).server
          rw [hservers _ (h.node_lt w (.inr hbusy))] at hdone
          have hserving : c.serving w (c.worker w).node = .returned := hdone w
          rw [hserving]
          rfl
        . -- the first node that is not through only waits for workers that talk to earlier ones
          have hexists : ∃ n, n < x.storageNodes ∧ c.server n ≠ .finished := by
            simpa only [not_forall, exists_prop] using hservers
          obtain ⟨hn, hne⟩ := Nat.find_spec hexists
          by_cases hwaits : c.server (Nat.find hexists) = .waits
          . exact .of_waits hflags h hn (hfree _ hn) hphase hwaits
          . refine .of_server h hstill hn hphase ?_ hwaits hne
            intro k hk
            by_contra hnot
            exact Nat.find_min hexists hk ⟨hk.trans hn, hnot⟩
    . simp only [not_forall, Bool.not_eq_false] at hidle
      obtain ⟨w, hw⟩ := hidle
      exact .of_initiating h hstill hfree hw
  . simp only [not_forall] at hfree
    obtain ⟨n, hn, hsome⟩ := hfree
    obtain ⟨w, hw⟩ := Option.ne_none_iff_exists'.mp hsome
    exact .of_handler h hstill hn hw

abbrev Delivers (x : Config W P) (c c' : State W P) : Prop :=
  Step.Reach (step x) (fun _ a => a.transfers = true) c c'

theorem Delivers.of_conn {ends : Side → Memory InitMessage}
    (h : Step.Reach transfer Step.any (c.conn w n).ends ends)
    : Delivers x c (c.setConn w n { c.conn w n with ends }) := by
  induction h with
  | refl =>
    have heq : c.setConn w n (c.conn w n) = c := by
      simp only [State.setConn, Function.update_eq_self]
    rw [heq]
    exact .refl
  | @next ends₁ ends₂ a hreach hc htransfer ih =>
    refine ih.next (.transfer w n a) rfl ?_
    simp only [step, onConn, State.setConn, Function.update_self, Handshake.step, htransfer,
      Option.map_some, Function.update_idem]

theorem exists_still [Fintype W] (x : Config W P) (c : State W P)
    : ∃ conn, Delivers x c { c with conn } ∧ Still x { c with conn } := by
  have hlist : ∀ l : List (W × Nat), ∃ conn, Delivers x c { c with conn } ∧
      ∀ p ∈ l, Quiet (conn p.1 p.2).ends := by
    intro l
    induction l with
    | nil => exact ⟨c.conn, .refl, by simp⟩
    | cons p l ih =>
      obtain ⟨conn, hreach, hquiet⟩ := ih
      obtain ⟨ends, hends, hp⟩ := exists_quiet (conn p.1 p.2).ends
      refine ⟨_, hreach.trans (Delivers.of_conn (c := { c with conn }) (w := p.1) (n := p.2) hends),
        ?_⟩
      intro q hq
      by_cases heq : q.1 = p.1 ∧ q.2 = p.2
      . simp only [heq.1, heq.2, Function.update_self]
        exact hp
      . have hmem : q ∈ l := by
          rcases List.mem_cons.mp hq with rfl | hmem
          . exact absurd ⟨rfl, rfl⟩ heq
          . exact hmem
        simp only [Function.update_apply]
        split
        . next hw =>
          rw [Function.update_of_ne (fun hn => heq ⟨hw, hn⟩), ← hw]
          exact hquiet q hmem
        . exact hquiet q hmem
  obtain ⟨conn, hreach, hquiet⟩ :=
    hlist (Finset.univ ×ˢ Finset.range x.storageNodes).toList
  refine ⟨conn, hreach, ?_⟩
  intro w n hn
  exact hquiet (w, n) (by simpa using hn)

/--
In every state that is reached, as long as some exchange is not finished, a party can take a step when
the network has delivered what is on its way; and a worker that is constructed holds one initial
message from every node, and region 0 of the node in its catalog.
-/
theorem bringUp_sound [Fintype W] (x : Config W P)
    (hflags : ∀ n, n < x.storageNodes → x.flagsWorker n = Fintype.card W) {c : State W P}
    (h : Step.Reach (step x) Step.any .init c)
    : (¬Final x c → ∃ c', Delivers x c c' ∧ Moves x c') ∧
      ∀ w, c.worker w = .finishes x.storageNodes → ∀ n, n < x.storageNodes →
        c.received w n =
          [some (.rdmaInfo ((x.handshake w n).ownInfo .server)),
            some (.initialMessage (x.serverMessage n))] ∧
        ∀ it ∈ (x.storage n).catalog, it.2.regionId = 0 → c.catalog w n = some it.2 := by
  have hinv := inv_of_reach hflags h
  constructor
  . intro hfinal
    obtain ⟨conn, hdelivers, hstill⟩ := exists_still x c
    have hreach := h.trans (hdelivers.mono fun _ _ _ => trivial)
    exact ⟨_, hdelivers, moves_of_still hflags (inv_of_reach hflags hreach) hstill hfinal⟩
  . intro w hworker n hn
    have hclient := hinv.client w n hn
    have hcatalog := hinv.catalog w n
    rw [hworker] at hclient hcatalog
    refine ⟨received_eq hinv (hclient.done hn), ?_⟩
    intro it hit hzero
    rw [hcatalog, WorkerPc.inserted, if_pos hn]
    exact catalogEntry_initServer hit hzero

def pairCatalog : List (String × MemoryRegionDesc) :=
  [("locks", { start := 4096, sizeBytes := 64, regionId := 0 })]

theorem pairCatalog_perm
    : (pairCatalog.map fun it => it.2.regionId).Perm (List.range pairCatalog.length) := by
  exact .refl _

theorem pairCatalog_lt : pairCatalog.length < maxRegions := by
  decide

def pairConfig : Config Bool Unit where
  process _ := ()
  compute _ := { nodeId := 0, flagsWorker := 2, rkey := 1 }
  workerId w := if w then 1 else 0
  storageNodes := 1
  storage n :=
    { nodeId := .ofNat 64 n
      rkey := 2
      catalog := pairCatalog
      regionIds := pairCatalog_perm
      numRegions_lt := pairCatalog_lt }
  flagsWorker _ := 2
  init _ := { nodeId := 0, threadId := 0, numRegions := 0, memRegions := .replicate _ ⟨0, 0⟩ }
  initServer _ := { nodeId := 0, threadId := 0, numRegions := 0, memRegions := .replicate _ ⟨0, 0⟩ }

def exchanged (w : Bool) (n : Nat) : List (Act Bool) :=
  [.transfer w n (.transmit .client), .transfer w n (.transmit .server),
    .transfer w n (.deliver .client), .transfer w n (.deliver .server),
    .transfer w n (.complete .client), .transfer w n (.complete .server),
    .poll w n .client 2, .poll w n .server 2]

def pairRun : List (Act Bool) :=
  [.initiate true, .accept 0 true, .established 0 true, .connected true] ++ exchanged true 0 ++
    [.count 0, .initiated true, .initiate false, .accept 0 false, .connected false,
      .established 0 false] ++ exchanged false 0 ++
    [.initiated false, .allocate false, .exchange false, .count 0, .copy 0, .serve 0,
      .allocate true, .exchange true] ++ exchanged true 0 ++
    [.served 0, .insert true, .serve 0] ++ exchanged false 0 ++
    [.served 0, .insert false, .serve 0]

theorem bringUp_sound_pairRun
    : ∃ c, Step.Reach (step pairConfig) Step.any .init c ∧ c.incomingIds 0 = [true, false] ∧
        ∀ w, c.catalog w 0 = some { start := 4096, sizeBytes := 64, regionId := 0 } := by
  obtain ⟨c, hreach, hfinal⟩ := Step.exists_reach_of_run
    (show (Step.run (step pairConfig) .init pairRun).any
      (fun c => c.incomingIds 0 = [true, false] ∧ c.worker false = .finishes 1 ∧
        c.worker true = .finishes 1 ∧ c.server 0 = .finished) = true by decide +kernel)
  simp only [decide_eq_true_eq] at hfinal
  have hsound := (bringUp_sound pairConfig (fun _ _ => rfl) hreach).2
  refine ⟨c, hreach, hfinal.1, ?_⟩
  intro w
  have hworker : c.worker w = .finishes 1 := by
    cases w with
    | false => exact hfinal.2.1
    | true => exact hfinal.2.2.1
  exact (hsound w hworker 0 Nat.zero_lt_one).2 _ List.mem_cons_self rfl

end Cluster
