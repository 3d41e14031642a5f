import RdmaSync.Rdma.Connection

/-!
This module contains the handshake of a connection: both ends send an `RdmaInfo` and later the
initial message of the application, and count two completions each time.
-/

namespace CommunicationManager

open Threads
open Rdma.Connection

inductive PartyType where
  | rdmaCm
  | worker
  | pageProvider
  | messageHandler
  deriving DecidableEq

structure RdmaInfo where
  rkey : BitVec 32
  type : PartyType
  typeId : BitVec 64
  nodeId : BitVec 64
  deriving DecidableEq

/-- The fields of `RdmaContext` that come from the peer's `RdmaInfo`. -/
structure RdmaContext where
  rkey : BitVec 32
  type : PartyType
  typeId : BitVec 64
  nodeId : BitVec 64
  deriving DecidableEq

inductive Message (InitialMsg : Type) where
  | rdmaInfo (info : RdmaInfo)
  | initialMessage (msg : InitialMsg)
  deriving DecidableEq

inductive Buffer where
  | response
  | applicationData
  | ownInfo
  | initialMessage
  deriving DecidableEq

variable {InitialMsg : Type}

abbrev Memory (InitialMsg : Type) := Endpoint Buffer (Option (Message InitialMsg))

def RdmaContext.new : RdmaContext where
  rkey := 0
  type := .rdmaCm
  typeId := 0
  nodeId := 0

def createRdmaContext (e : Memory InitialMsg) : Memory InitialMsg :=
  e.postReceive .applicationData

def setUp : Memory InitialMsg :=
  createRdmaContext ((Endpoint.fresh fun _ => none).postReceive .response)

def RdmaInfo.toContext (response : RdmaInfo) : RdmaContext where
  rkey := response.rkey
  type := response.type
  typeId := response.typeId
  nodeId := response.nodeId

def RdmaContext.copy (context : RdmaContext) (response : Option (Message InitialMsg))
    : RdmaContext :=
  match response with
  | some (.rdmaInfo response) => response.toContext
  | _ => context

namespace Handshake

inductive Phase where
  | rdmaInfo
  | initialMessage
  deriving DecidableEq

/-- Where an end is: about to make a call, in the polling loop of one, or past both. -/
inductive Pc where
  | calls (phase : Phase)
  | polls (phase : Phase) (completions : Nat)
  | returned
  deriving DecidableEq

def Phase.buffer (phase : Phase) : Buffer :=
  match phase with
  | .rdmaInfo => .ownInfo
  | .initialMessage => .initialMessage

structure State (InitialMsg : Type) where
  pc : Side → Pc
  context : Side → RdmaContext
  ends : Side → Memory InitialMsg

structure Config (InitialMsg : Type) where
  ownInfo : Side → RdmaInfo
  initialMessage : Side → InitialMsg

def init : State InitialMsg where
  pc _ := .calls .rdmaInfo
  context _ := .new
  ends _ := setUp

inductive Act (InitialMsg : Type) where
  | exchange (s : Side)
  | poll (s : Side) (comp : Nat)
  /-- Write the buffer of the initial message for the next connection. -/
  | reuse (s : Side) (msg : InitialMsg)
  | transfer (a : Transfer)
  deriving DecidableEq

def Config.message (x : Config InitialMsg) (s : Side) (phase : Phase) : Message InitialMsg :=
  match phase with
  | .rdmaInfo => .rdmaInfo (x.ownInfo s)
  | .initialMessage => .initialMessage (x.initialMessage s)

def send (x : Config InitialMsg) (phase : Phase) (t : State InitialMsg) (s : Side)
    : State InitialMsg :=
  { t with
    pc := Function.update t.pc s (.polls phase 0)
    ends := Function.update t.ends s
      (((t.ends s).store phase.buffer (some (x.message s phase))).postSend phase.buffer) }

def exchangeRdmaInfo (x : Config InitialMsg) (t : State InitialMsg) (s : Side) : State InitialMsg :=
  send x .rdmaInfo t s

def exchangeInitialMesssage (x : Config InitialMsg) (t : State InitialMsg) (s : Side)
    : State InitialMsg :=
  send x .initialMessage t s

/-- What follows the loop of a call: the callers of `exchangeRdmaInfo` copy the response. -/
def finish (phase : Phase) (t : State InitialMsg) (s : Side) : State InitialMsg :=
  match phase with
  | .rdmaInfo =>
    { t with
      pc := Function.update t.pc s (.calls .initialMessage)
      context := Function.update t.context s
        ((t.context s).copy ((t.ends s).memory .response)) }
  | .initialMessage => { t with pc := Function.update t.pc s .returned }

def expected (completions : Nat) : Nat :=
  2 - completions

def step (x : Config InitialMsg) : Step (State InitialMsg) (Act InitialMsg)
  | t, .exchange s =>
    match t.pc s with
    | .calls .rdmaInfo => some (exchangeRdmaInfo x t s)
    | .calls .initialMessage => some (exchangeInitialMesssage x t s)
    | _ => none
  | t, .poll s comp =>
    match t.pc s with
    | .polls phase completions =>
      if comp ≤ expected completions ∧ comp ≤ (t.ends s).cq.length then
        let t := { t with ends := Function.update t.ends s ((t.ends s).pollCq comp) }
        if completions + comp = 2 then
          some (finish phase t s)
        else
          some { t with pc := Function.update t.pc s (.polls phase (completions + comp)) }
      else
        none
    | _ => none
  | t, .reuse s msg =>
    match t.pc s with
    | .returned =>
      some { t with
        ends := Function.update t.ends s
          ((t.ends s).store .initialMessage (some (.initialMessage msg))) }
    | _ => none
  | t, .transfer a => (transfer t.ends a).map fun ends => { t with ends }

def Phase.index (phase : Phase) : Nat :=
  match phase with
  | .rdmaInfo => 0
  | .initialMessage => 1

def Pc.posted (pc : Pc) : Nat :=
  match pc with
  | .calls phase => phase.index
  | .polls phase _ => phase.index + 1
  | .returned => 2

def Pc.polled (pc : Pc) : Nat :=
  match pc with
  | .calls phase => 2 * phase.index
  | .polls phase completions => 2 * phase.index + completions
  | .returned => 4

def Pc.hasReturned (phase : Phase) (pc : Pc) : Prop :=
  match pc with
  | .calls next | .polls next _ => phase.index < next.index
  | .returned => True

theorem Pc.eq_returned {pc : Pc} (h : pc.hasReturned .initialMessage) : pc = .returned := by
  cases pc with
  | calls phase | polls phase completions =>
    have hindex : 1 < phase.index := h
    cases phase <;> simp [Phase.index] at hindex
  | returned => rfl

theorem Pc.two_le_polled {pc : Pc} (h : pc.hasReturned .rdmaInfo) : 2 ≤ pc.polled := by
  cases pc with
  | calls phase | polls phase completions =>
    have hindex : 0 < phase.index := h
    simp only [polled]
    omega
  | returned => simp [polled]

def Config.messages (x : Config InitialMsg) (s : Side) : List (Option (Message InitialMsg)) :=
  [some (x.message s .rdmaInfo), some (x.message s .initialMessage)]

/--
What holds at each end. `outstanding` counts: what was polled and what is outstanding make up the two
receives and the sends that were posted.
-/
structure EndOk (x : Config InitialMsg) (t : State InitialMsg) (s : Side) : Prop where
  buffers : (t.ends s).filled ++ (t.ends s).receives = [.response, .applicationData]
  sends : (t.ends s).sends <:+ [Buffer.ownInfo, .initialMessage].take (t.pc s).posted
  outstanding : (t.pc s).polled + (t.ends s).outstanding = (t.pc s).posted + 2
  stream : stream t.ends s = (x.messages s).take (t.pc s).posted
  completions : ∀ phase completions, t.pc s = .polls phase completions → completions < 2
  filled : (t.pc s).hasReturned .rdmaInfo → (t.ends s).filled ≠ []
  context : (t.pc s).hasReturned .rdmaInfo →
    t.context s = (x.ownInfo s.peer).toContext

def Inv (x : Config InitialMsg) (t : State InitialMsg) : Prop :=
  ∀ s, EndOk x t s

theorem inv_init (x : Config InitialMsg) : Inv x init := by
  intro s
  exact
    { buffers := rfl
      sends := List.suffix_rfl
      outstanding := rfl
      stream := by simp [stream, init, setUp, createRdmaContext, Endpoint.fresh,
        Endpoint.postReceive, Pc.posted, Phase.index]
      completions := by simp [init]
      filled := by simp [init, Pc.hasReturned, Phase.index]
      context := by simp [init, Pc.hasReturned] }

namespace EndOk

variable {x : Config InitialMsg} {t : State InitialMsg} {s : Side}

theorem mem_sends (h : EndOk x t s) {b : Buffer} (hb : b ∈ (t.ends s).sends)
    : b = .ownInfo ∨ b = .initialMessage := by
  simpa using List.mem_of_mem_take (h.sends.subset hb)

theorem mem_buffers (h : EndOk x t s) {b : Buffer}
    (hb : b ∈ (t.ends s).filled ∨ b ∈ (t.ends s).receives)
    : b = .response ∨ b = .applicationData := by
  have hmem := List.mem_append.mpr hb
  rw [h.buffers] at hmem
  simpa using hmem

theorem apart (h : EndOk x t s) : (t.ends s).Apart where
  nodup := by
    rw [h.buffers]
    decide
  sends := by
    intro b hb hrec
    rcases h.mem_sends hb with rfl | rfl
    . simpa using h.mem_buffers (.inr hrec)
    . simpa using h.mem_buffers (.inr hrec)

theorem received (hpeer : EndOk x t s.peer)
    : (t.ends s).filled.map (t.ends s).memory <+: x.messages s.peer := by
  have hprefix := filled_prefix t.ends s
  rw [hpeer.stream] at hprefix
  exact hprefix.trans (List.take_prefix _ _)

theorem response_eq (h : EndOk x t s) (hpeer : EndOk x t s.peer) (hne : (t.ends s).filled ≠ [])
    : (t.ends s).memory .response = some (.rdmaInfo (x.ownInfo s.peer)) := by
  have hreceived := received hpeer
  have hbuffers := h.buffers
  cases hfilled : (t.ends s).filled with
  | nil => exact absurd hfilled hne
  | cons b filled =>
    rw [hfilled] at hreceived hbuffers
    simp only [List.cons_append, List.cons.injEq] at hbuffers
    rw [List.map_cons, Config.messages, List.cons_prefix_cons, hbuffers.1] at hreceived
    exact hreceived.1

theorem applicationData_eq (h : EndOk x t s) (hpeer : EndOk x t s.peer)
    (hnil : (t.ends s).receives = [])
    : (t.ends s).memory .applicationData = some (.initialMessage (x.initialMessage s.peer)) := by
  have hreceived := received hpeer
  have hbuffers := h.buffers
  rw [hnil, List.append_nil] at hbuffers
  rw [hbuffers] at hreceived
  simp only [Config.messages, List.map_cons, List.map_nil, List.cons_prefix_cons] at hreceived
  exact hreceived.2.1

/-- Of two completions one is a receive, as only one send was posted. -/
theorem filled_ne_nil (h : EndOk x t s) {completions comp : Nat}
    (hpc : t.pc s = .polls .rdmaInfo completions) (hcomp : comp ≤ (t.ends s).cq.length)
    (htwo : 2 ≤ completions + comp) : (t.ends s).filled ≠ [] := by
  intro hnil
  have hbuffers := congrArg List.length h.buffers
  have hcount := h.outstanding
  rw [hpc] at hcount
  simp only [Pc.polled, Pc.posted, Phase.index, Endpoint.outstanding] at hcount
  simp only [hnil, List.length_append, List.length_nil, List.length_cons] at hbuffers
  omega

theorem outstanding_eq_zero (h : EndOk x t s) (hret : t.pc s = .returned)
    : (t.ends s).outstanding = 0 := by
  have hcount := h.outstanding
  rw [hret] at hcount
  simp only [Pc.polled, Pc.posted] at hcount
  omega

end EndOk

section

variable {x : Config InitialMsg} {t t' : State InitialMsg} {s : Side}

theorem Inv.of_end (h : Inv x t) (hpc : t'.pc s.peer = t.pc s.peer)
    (hcontext : t'.context s.peer = t.context s.peer) (hends : t'.ends s.peer = t.ends s.peer)
    (hstream : stream t'.ends s.peer = stream t.ends s.peer) (hend : EndOk x t' s) : Inv x t' := by
  intro r
  rcases s.eq_or_eq_peer r with rfl | rfl
  . exact hend
  . have hpeer := h s.peer
    constructor
    . rw [hends]
      exact hpeer.buffers
    . rw [hends, hpc]
      exact hpeer.sends
    . rw [hends, hpc]
      exact hpeer.outstanding
    . rw [hstream, hpc]
      exact hpeer.stream
    . rw [hpc]
      exact hpeer.completions
    . rw [hpc, hends]
      exact hpeer.filled
    . rw [hpc, hcontext]
      exact hpeer.context

theorem Inv.send (h : Inv x t) {phase : Phase} (hpc : t.pc s = .calls phase)
    : Inv x (send x phase t s) := by
  have hend := h s
  have hfilled : ∀ b ∈ (t.ends s).filled, b ≠ phase.buffer := by
    intro b hb
    rcases hend.mem_buffers (.inl hb) with rfl | rfl <;> cases phase <;> simp [Phase.buffer]
  have hsends : phase.buffer ∉ (t.ends s).sends := by
    intro hb
    have hmem := hend.sends.subset hb
    rw [hpc] at hmem
    cases phase <;> simp [Phase.buffer, Pc.posted, Phase.index] at hmem
  apply h.of_end (s := s)
  . exact Function.update_of_ne s.peer_ne _ _
  . rfl
  . exact Function.update_of_ne s.peer_ne _ _
  . apply stream_peer_congr
    . rfl
    . intro b hb
      exact Function.update_of_ne (hfilled b hb) _ _
  . constructor
    . simp only [Handshake.send, Function.update_self]
      exact hend.buffers
    . have hsuffix := hend.sends
      simp only [Handshake.send, Function.update_self, Endpoint.postSend, Endpoint.store]
      rw [hpc] at hsuffix
      cases phase with
      | rdmaInfo =>
        simp only [Pc.posted, Phase.index, List.take_zero, List.suffix_nil] at hsuffix
        rw [hsuffix]
        exact List.suffix_rfl
      | initialMessage =>
        obtain ⟨l, hl⟩ := hsuffix
        exact ⟨l, by rw [← List.append_assoc, hl]; rfl⟩
    . have hcount := hend.outstanding
      simp only [Handshake.send, Function.update_self, Endpoint.outstanding_postSend,
        Endpoint.outstanding_store, Pc.polled, Pc.posted]
      simp only [hpc, Pc.polled, Pc.posted] at hcount
      omega
    . simp only [Handshake.send]
      rw [stream_send _ _ _ hsends, hend.stream, hpc, Function.update_self]
      cases phase <;> rfl
    . intro phase' completions hpolls
      simp only [Handshake.send, Function.update_self, Pc.polls.injEq] at hpolls
      omega
    . intro hret
      have hfilled := hend.filled
      simp only [Handshake.send, Function.update_self] at hret ⊢
      rw [hpc] at hfilled
      exact hfilled hret
    . intro hret
      have hcontext := hend.context
      simp only [Handshake.send, Function.update_self] at hret
      rw [hpc] at hcontext
      exact hcontext hret

theorem Inv.pollCq (h : Inv x t) {phase : Phase} {completions comp : Nat} {pc : Pc}
    {context : RdmaContext} (hpc : t.pc s = .polls phase completions)
    (hcomp : comp ≤ (t.ends s).cq.length) (hposted : pc.posted = phase.index + 1)
    (hpolled : pc.polled = 2 * phase.index + completions + comp)
    (hcompletions : ∀ phase completions, pc = .polls phase completions → completions < 2)
    (hcontext : pc.hasReturned .rdmaInfo → context = (x.ownInfo s.peer).toContext)
    : Inv x
      { pc := Function.update t.pc s pc
        context := Function.update t.context s context
        ends := Function.update t.ends s ((t.ends s).pollCq comp) } := by
  have hend := h s
  have hcount := hend.outstanding
  have hposted' : (t.pc s).posted = pc.posted := by rw [hpc, hposted, Pc.posted]
  apply h.of_end (s := s)
  . exact Function.update_of_ne s.peer_ne _ _
  . exact Function.update_of_ne s.peer_ne _ _
  . exact Function.update_of_ne s.peer_ne _ _
  . exact stream_peer_congr _ _ rfl fun _ _ => rfl
  . constructor <;> simp only [Function.update_self]
    . exact hend.buffers
    . rw [← hposted']
      exact hend.sends
    . have hoff := (t.ends s).outstanding_pollCq hcomp
      rw [hpc, Pc.polled, Pc.posted] at hcount
      omega
    . rw [← hposted', ← hend.stream]
      exact stream_self_congr _ _ rfl rfl fun _ _ => rfl
    . exact hcompletions
    . intro hret
      have htwo := Pc.two_le_polled hret
      cases phase with
      | rdmaInfo =>
        simp only [hpolled, Phase.index] at htwo
        exact hend.filled_ne_nil hpc hcomp (by omega)
      | initialMessage =>
        apply hend.filled
        simp [hpc, Pc.hasReturned, Phase.index]
    . exact hcontext

theorem Inv.reuse (h : Inv x t) (hpc : t.pc s = .returned) (msg : InitialMsg)
    : Inv x
      { t with
        ends := Function.update t.ends s
          ((t.ends s).store .initialMessage (some (.initialMessage msg))) } := by
  have hend := h s
  have hzero := hend.outstanding_eq_zero hpc
  have hsends : (t.ends s).sends = [] := by
    simp only [Endpoint.outstanding] at hzero
    exact List.length_eq_zero_iff.mp (by omega)
  apply h.of_end (s := s)
  . rfl
  . rfl
  . exact Function.update_of_ne s.peer_ne _ _
  . apply stream_peer_congr
    . rfl
    . intro b hb
      refine Function.update_of_ne ?_ _ _
      rcases hend.mem_buffers (.inl hb) with rfl | rfl <;> simp
  . constructor <;> simp only [Function.update_self]
    . exact hend.buffers
    . exact hend.sends
    . exact hend.outstanding
    . rw [← hend.stream]
      apply stream_self_congr
      . rfl
      . rfl
      . simp [hsends]
    . exact hend.completions
    . exact hend.filled
    . exact hend.context

theorem Inv.transfer (h : Inv x t) {a : Transfer} {ends : Side → Memory InitialMsg}
    (ha : transfer t.ends a = some ends) : Inv x { t with ends } := by
  intro r
  have hend := h r
  have hmoves := transfer_moves ha r
  constructor
  . rw [hmoves.buffers_eq]
    exact hend.buffers
  . exact hmoves.sends_suffix.trans hend.sends
  . rw [hmoves.outstanding_eq]
    exact hend.outstanding
  . rw [transfer_stream (fun r => (h r).apart) ha]
    exact hend.stream
  . exact hend.completions
  . intro hret hnil
    have hprefix := hmoves.filled_prefix
    rw [hnil, List.prefix_nil] at hprefix
    exact hend.filled hret hprefix
  . exact hend.context

theorem step_poll {comp : Nat} (hstep : step x t (.poll s comp) = some t')
    : ∃ phase completions pc context, t.pc s = .polls phase completions ∧
        comp ≤ 2 - completions ∧ comp ≤ (t.ends s).cq.length ∧
        t' =
          { pc := Function.update t.pc s pc
            context := Function.update t.context s context
            ends := Function.update t.ends s ((t.ends s).pollCq comp) } ∧
        (completions + comp = 2 ∧ phase = .rdmaInfo ∧ pc = .calls .initialMessage ∧
            context = (t.context s).copy ((t.ends s).memory .response) ∨
          completions + comp = 2 ∧ phase = .initialMessage ∧ pc = .returned ∧
            context = t.context s ∨
          completions + comp ≠ 2 ∧ pc = .polls phase (completions + comp) ∧
            context = t.context s) := by
  simp only [step] at hstep
  split at hstep
  . next phase completions hpc =>
    split at hstep
    . next hguard =>
      split at hstep
      . next htwo =>
        cases phase with
        | rdmaInfo =>
          refine ⟨_, _, _, _, hpc, hguard.1, hguard.2, ?_, .inl ⟨htwo, rfl, rfl, rfl⟩⟩
          cases hstep
          simp [finish, Endpoint.pollCq]
        | initialMessage =>
          refine ⟨_, _, _, _, hpc, hguard.1, hguard.2, ?_, .inr (.inl ⟨htwo, rfl, rfl, rfl⟩)⟩
          cases hstep
          simp [finish]
      . next hne =>
        refine ⟨_, _, _, _, hpc, hguard.1, hguard.2, ?_, .inr (.inr ⟨hne, rfl, rfl⟩)⟩
        cases hstep
        simp
    . simp at hstep
  . simp at hstep

theorem Inv.poll {comp : Nat} (h : Inv x t) (hstep : step x t (.poll s comp) = some t')
    : Inv x t' := by
  obtain ⟨phase, completions, pc, context, hpc, hexpected, hcomp, rfl, hnext⟩ := step_poll hstep
  have hlt := (h s).completions _ _ hpc
  rcases hnext with ⟨htwo, rfl, rfl, rfl⟩ | ⟨htwo, rfl, rfl, rfl⟩ | ⟨hne, rfl, rfl⟩
  . have hne := (h s).filled_ne_nil hpc hcomp (by omega)
    apply h.pollCq hpc hcomp
    . rfl
    . simp only [Pc.polled, Phase.index]
      omega
    . simp
    . intro _
      rw [(h s).response_eq (h s.peer) hne]
      rfl
  . apply h.pollCq hpc hcomp
    . rfl
    . simp only [Pc.polled, Phase.index]
      omega
    . simp
    . intro _
      apply (h s).context
      simp [hpc, Pc.hasReturned, Phase.index]
  . apply h.pollCq hpc hcomp
    . rfl
    . simp only [Pc.polled]
      omega
    . intro phase' completions' hpolls
      simp only [Pc.polls.injEq] at hpolls
      omega
    . intro hret
      apply (h s).context
      rw [hpc]
      exact hret

theorem inv_step {a : Act InitialMsg} (h : Inv x t) (hstep : step x t a = some t') : Inv x t' := by
  cases a with
  | exchange s =>
    simp only [step] at hstep
    split at hstep
    . next hpc =>
      cases hstep
      exact h.send hpc
    . next hpc =>
      cases hstep
      exact h.send hpc
    . simp at hstep
  | poll s comp => exact h.poll hstep
  | reuse s msg =>
    simp only [step] at hstep
    split at hstep
    . next hpc =>
      cases hstep
      exact h.reuse hpc msg
    . simp at hstep
  | transfer a =>
    simp only [step, Option.map_eq_some_iff] at hstep
    obtain ⟨ends, ha, rfl⟩ := hstep
    exact h.transfer ha

theorem inv_of_reach (h : Step.Reach (step x) Step.any init t) : Inv x t := by
  refine h.invariant (inv_init x) ?_
  intro t a t' hinv _ hstep
  exact inv_step hinv hstep

theorem Inv.cq_length (h : Inv x t) (hquiet : Quiet t.ends) (s : Side)
    : (t.pc s).polled + (t.ends s).cq.length = (t.pc s).posted + (t.pc s.peer).posted := by
  have hcount := (h s).outstanding
  have hbuffers := congrArg List.length (h s).buffers
  have hstream := congrArg List.length (h s.peer).stream
  have hposted : (t.pc s.peer).posted ≤ 2 := by
    cases t.pc s.peer with
    | calls phase => cases phase <;> simp [Pc.posted, Phase.index]
    | polls phase completions => cases phase <;> simp [Pc.posted, Phase.index]
    | returned => simp [Pc.posted]
  have hlength : (x.messages s.peer).length = 2 := rfl
  simp only [Rdma.Connection.stream, hquiet.sends_eq_nil, Side.peer_peer, List.map_nil,
    List.append_nil, List.length_append, List.length_map, List.length_take, hlength] at hstream
  simp only [Endpoint.outstanding, hquiet.sends_eq_nil, hquiet.transmitted_eq_zero,
    List.length_nil] at hcount
  simp only [List.length_append, List.length_cons, List.length_nil] at hbuffers
  by_cases hreceives : (t.ends s).receives = []
  . rw [hreceives] at hcount hbuffers
    simp only [List.length_nil] at hcount hbuffers
    omega
  . rw [hquiet.wire_eq_nil hreceives, List.length_nil] at hstream
    omega

theorem Inv.peer_posted_pos (h : Inv x t) (hret : (t.pc s).hasReturned .rdmaInfo)
    : 0 < (t.pc s.peer).posted := by
  apply Nat.pos_of_ne_zero
  intro hzero
  have hprefix := filled_prefix t.ends s
  rw [(h s.peer).stream, hzero, List.take_zero, List.prefix_nil, List.map_eq_nil_iff] at hprefix
  exact (h s).filled hret hprefix

theorem Inv.receives_eq_nil (h : Inv x t) (hpc : t.pc s = .returned) : (t.ends s).receives = [] := by
  have hzero := (h s).outstanding_eq_zero hpc
  simp only [Endpoint.outstanding] at hzero
  exact List.length_eq_zero_iff.mp (by omega)

theorem Inv.applicationData_eq (h : Inv x t) (hpc : t.pc s = .returned)
    : (t.ends s).memory .applicationData = some (.initialMessage (x.initialMessage s.peer)) := by
  exact (h s).applicationData_eq (h s.peer) (h.receives_eq_nil hpc)

/--
Both messages arrive: after `exchangeRdmaInfo` the response is the peer's, after
`exchangeInitialMesssage` so is the initial message, and then neither a request of this end nor a
completion is left.
-/
theorem handshake_sound (x : Config InitialMsg) {t : State InitialMsg}
    (h : Step.Reach (step x) Step.any init t) (s : Side)
    : ((t.pc s).hasReturned .rdmaInfo →
        (t.ends s).memory .response = some (.rdmaInfo (x.ownInfo s.peer)) ∧
        t.context s = (x.ownInfo s.peer).toContext) ∧
      ((t.pc s).hasReturned .initialMessage →
        (t.ends s).memory .applicationData = some (.initialMessage (x.initialMessage s.peer)) ∧
        (t.ends s).sends = [] ∧ (t.ends s).transmitted = 0 ∧
        (t.ends s).cq = [] ∧ (t.ends s).receives = []) := by
  have hinv := inv_of_reach h
  constructor
  . intro hret
    exact ⟨(hinv s).response_eq (hinv s.peer) ((hinv s).filled hret), (hinv s).context hret⟩
  . intro hret
    have hreturned := Pc.eq_returned hret
    have hzero := (hinv s).outstanding_eq_zero hreturned
    simp only [Endpoint.outstanding] at hzero
    refine ⟨hinv.applicationData_eq hreturned, ?_, ?_, ?_, hinv.receives_eq_nil hreturned⟩
    . exact List.length_eq_zero_iff.mp (by omega)
    . omega
    . exact List.length_eq_zero_iff.mp (by omega)

def Phase.next (phase : Phase) : Pc :=
  match phase with
  | .rdmaInfo => .calls .initialMessage
  | .initialMessage => .returned

def Pc.Within (phase : Phase) (pc : Pc) : Prop :=
  pc = phase.next ∨ ∃ completions, pc = .polls phase completions

def Pc.Advances (pc pc' : Pc) : Prop :=
  pc' = pc ∨ ∃ phase completions, pc = .polls phase completions ∧ pc'.Within phase

theorem step_poll_advances {comp : Nat} (hstep : step x t (.poll s comp) = some t') (r : Side)
    : (t.pc r).Advances (t'.pc r) := by
  obtain ⟨phase, completions, pc, context, hpc, -, -, rfl, hnext⟩ := step_poll hstep
  rcases s.eq_or_eq_peer r with rfl | rfl
  . right
    refine ⟨phase, completions, hpc, ?_⟩
    simp only [Function.update_self]
    rcases hnext with ⟨-, rfl, rfl, -⟩ | ⟨-, rfl, rfl, -⟩ | ⟨-, rfl, -⟩
    . exact .inl rfl
    . exact .inl rfl
    . exact .inr ⟨_, rfl⟩
  . left
    exact Function.update_of_ne s.peer_ne _ _

theorem step_transfer_pc {a : Transfer} (hstep : step x t (.transfer a) = some t')
    : t'.pc = t.pc := by
  simp only [step, Option.map_eq_some_iff] at hstep
  obtain ⟨ends, -, rfl⟩ := hstep
  rfl

theorem step_exchange (hstep : step x t (.exchange s) = some t')
    : ∃ phase, t.pc s = .calls phase ∧ t'.pc = Function.update t.pc s (.polls phase 0) := by
  simp only [step] at hstep
  split at hstep
  . next hpc =>
    cases hstep
    exact ⟨_, hpc, rfl⟩
  . next hpc =>
    cases hstep
    exact ⟨_, hpc, rfl⟩
  . simp at hstep

theorem exists_exchange (x : Config InitialMsg) {phase : Phase} (hpc : t.pc s = .calls phase)
    : ∃ t', step x t (.exchange s) = some t' := by
  cases phase <;> exact ⟨_, by simp only [step, hpc]; rfl⟩

theorem exists_poll (x : Config InitialMsg) {phase : Phase} {completions : Nat}
    (hpc : t.pc s = .polls phase completions) (hlt : completions < 2)
    (hpos : 0 < (t.ends s).cq.length) : ∃ t', step x t (.poll s 1) = some t' := by
  simp only [step, hpc, expected]
  rw [if_pos ⟨by omega, hpos⟩]
  split
  . exact ⟨_, rfl⟩
  . exact ⟨_, rfl⟩

theorem Inv.cq_pos (h : Inv x t) (hquiet : Quiet t.ends) {phase : Phase} {completions : Nat}
    (hpc : t.pc s = .polls phase completions) (hpeer : phase.index < (t.pc s.peer).posted)
    : 0 < (t.ends s).cq.length := by
  have hcount := h.cq_length hquiet s
  have hlt := (h s).completions _ _ hpc
  rw [hpc, Pc.polled, show (Pc.polls phase completions).posted = phase.index + 1 from rfl] at hcount
  omega

def Act.idle (a : Act InitialMsg) : Bool :=
  match a with
  | .poll _ 0 | .reuse _ _ => true
  | _ => false

def Pc.remaining (pc : Pc) : Nat :=
  4 * (2 - pc.posted) + (4 - pc.polled)

/-- A bound for the steps up to the end of the handshake. -/
def rank (t : State InitialMsg) : Nat :=
  (t.pc .client).remaining + (t.pc .server).remaining + work t.ends

theorem rank_update_lt {pc : Pc} {context : Side → RdmaContext} {e : Memory InitialMsg}
    (h : pc.remaining + e.work < (t.pc s).remaining + (t.ends s).work)
    : rank { pc := Function.update t.pc s pc, context, ends := Function.update t.ends s e } <
      rank t := by
  cases s with
  | client =>
    simp only [rank, work, Function.update_self, ne_eq, reduceCtorEq, not_false_eq_true,
      Function.update_of_ne]
    omega
  | server =>
    simp only [rank, work, Function.update_self, ne_eq, reduceCtorEq, not_false_eq_true,
      Function.update_of_ne]
    omega

theorem rank_send {phase : Phase} (hpc : t.pc s = .calls phase)
    : rank (send x phase t s) < rank t := by
  apply rank_update_lt
  simp only [hpc, Pc.remaining, Pc.posted, Pc.polled, Endpoint.work, Endpoint.postSend,
    Endpoint.store, List.length_append, List.length_singleton]
  cases phase <;> simp only [Phase.index] <;> omega

theorem rank_poll {comp : Nat} (h : Inv x t) (hpos : comp ≠ 0)
    (hstep : step x t (.poll s comp) = some t') : rank t' < rank t := by
  obtain ⟨phase, completions, pc, context, hpc, hexpected, hcomp, rfl, hnext⟩ := step_poll hstep
  have hlt := (h s).completions _ _ hpc
  apply rank_update_lt
  apply Nat.add_lt_add_right
  rcases hnext with ⟨htwo, rfl, rfl, rfl⟩ | ⟨htwo, rfl, rfl, rfl⟩ | ⟨hne, rfl, rfl⟩
  . simp only [hpc, Pc.remaining, Pc.posted, Pc.polled, Phase.index]
    omega
  . simp only [hpc, Pc.remaining, Pc.posted, Pc.polled, Phase.index]
    omega
  . simp only [hpc, Pc.remaining, Pc.posted, Pc.polled]
    cases phase <;> simp only [Phase.index] <;> omega

theorem rank_step {a : Act InitialMsg} (h : Inv x t) (hidle : a.idle = false)
    (hstep : step x t a = some t') : rank t' < rank t := by
  cases a with
  | exchange s =>
    simp only [step] at hstep
    split at hstep
    . next hpc =>
      cases hstep
      exact rank_send hpc
    . next hpc =>
      cases hstep
      exact rank_send hpc
    . simp at hstep
  | poll s comp =>
    refine rank_poll h ?_ hstep
    rintro rfl
    simp [Act.idle] at hidle
  | reuse s msg => simp [Act.idle] at hidle
  | transfer a =>
    simp only [step, Option.map_eq_some_iff] at hstep
    obtain ⟨ends, ha, rfl⟩ := hstep
    exact Nat.add_lt_add_left (transfer_work ha) _

theorem exists_step (h : Inv x t) (hunfinished : t.pc s ≠ .returned)
    : ∃ a t', a.idle = false ∧ step x t a = some t' := by
  by_cases hquiet : Quiet t.ends
  . have hcalls : ∀ r phase, t.pc r = .calls phase → ∃ a t', a.idle = false ∧
        step x t a = some t' := by
      intro r phase hpc
      obtain ⟨t', hstep⟩ := exists_exchange x hpc
      exact ⟨.exchange r, t', rfl, hstep⟩
    have hpolls : ∀ r phase completions, t.pc r = .polls phase completions →
        phase.index < (t.pc r.peer).posted → ∃ a t', a.idle = false ∧ step x t a = some t' := by
      intro r phase completions hpc hposted
      obtain ⟨t', hstep⟩ :=
        exists_poll x hpc ((h r).completions _ _ hpc) (h.cq_pos hquiet hpc hposted)
      exact ⟨.poll r 1, t', rfl, hstep⟩
    cases hpc : t.pc s with
    | calls phase => exact hcalls s phase hpc
    | returned => exact absurd hpc hunfinished
    | polls phase completions =>
      cases hpeer : t.pc s.peer with
      | calls phase' => exact hcalls s.peer phase' hpeer
      | returned =>
        apply hpolls s phase completions hpc
        rw [hpeer]
        cases phase <;> simp [Pc.posted, Phase.index]
      | polls phase' completions' =>
        -- of two ends that poll the one that is behind finds a completion
        by_cases hle : phase.index ≤ phase'.index
        . apply hpolls s phase completions hpc
          rw [hpeer]
          exact Nat.lt_succ_of_le hle
        . apply hpolls s.peer phase' completions' hpeer
          rw [Side.peer_peer, hpc]
          exact Nat.lt_succ_of_lt (Nat.lt_of_not_le hle)
  . simp only [Quiet, not_forall] at hquiet
    obtain ⟨a, ha⟩ := hquiet
    obtain ⟨ends, hends⟩ := Option.ne_none_iff_exists'.mp ha
    exact ⟨.transfer a, { t with ends }, rfl, by simp only [step, hends]; rfl⟩

theorem handshake_returns (x : Config InitialMsg) {t : State InitialMsg}
    (h : Step.Reach (step x) Step.any init t)
    : ∃ t', Step.Reach (step x) Step.any t t' ∧ ∀ s, t'.pc s = .returned := by
  induction hrank : rank t using Nat.strongRecOn generalizing t with
  | ind n ih =>
    by_cases hdone : ∀ s, t.pc s = .returned
    . exact ⟨t, .refl, hdone⟩
    . simp only [not_forall] at hdone
      obtain ⟨s, hs⟩ := hdone
      have hinv := inv_of_reach h
      obtain ⟨a, t₁, hidle, hstep⟩ := exists_step hinv hs
      have hlt := rank_step hinv hidle hstep
      obtain ⟨t', hreach, hreturned⟩ := ih _ (hrank ▸ hlt) (h.next a trivial hstep) rfl
      exact ⟨t', (Step.Reach.refl.next a trivial hstep).trans hreach, hreturned⟩

/--
The server is a message ahead: the client's first loop counts both of its receives, its second loop
both of its sends, and both ends write their buffers again.
-/
def aheadRun : List (Act (BitVec 64)) :=
  [.exchange .client, .exchange .server,
    .transfer (.transmit .client), .transfer (.transmit .server),
    .transfer (.deliver .client), .transfer (.deliver .server), .transfer (.complete .server),
    .poll .server 2, .exchange .server,
    .transfer (.transmit .server), .transfer (.deliver .client),
    .poll .client 0, .poll .client 2, .exchange .client, .transfer (.complete .client),
    .poll .client 1, .transfer (.transmit .client), .transfer (.complete .client), .poll .client 1,
    .reuse .client 7,
    .transfer (.complete .server), .transfer (.deliver .server), .poll .server 2, .reuse .server 8]

def aheadConfig : Config (BitVec 64) where
  ownInfo s :=
    match s with
    | .client => { rkey := 1, type := .worker, typeId := 2, nodeId := 3 }
    | .server => { rkey := 4, type := .rdmaCm, typeId := 0, nodeId := 0 }
  initialMessage s :=
    match s with
    | .client => 5
    | .server => 6

theorem handshake_sound_aheadRun
    : ∃ t, Step.Reach (step aheadConfig) Step.any init t ∧ (t.context .server).type = .worker ∧
        (t.ends .client).memory .applicationData = some (.initialMessage 6) ∧
        (t.ends .server).memory .applicationData = some (.initialMessage 5) := by
  obtain ⟨t, hreach, hpc⟩ := Step.exists_reach_of_run
    (show (Step.run (step aheadConfig) init aheadRun).any
      (fun t => t.pc .client = .returned ∧ t.pc .server = .returned) = true by decide +kernel)
  simp only [decide_eq_true_eq] at hpc
  have hclient := handshake_sound aheadConfig hreach .client
  have hserver := handshake_sound aheadConfig hreach .server
  refine ⟨t, hreach, ?_, ?_, ?_⟩
  . rw [(hserver.1 (by rw [hpc.2]; trivial)).2]
    rfl
  . exact (hclient.2 (by rw [hpc.1]; trivial)).1
  . exact (hserver.2 (by rw [hpc.2]; trivial)).1

end

end Handshake
end CommunicationManager
