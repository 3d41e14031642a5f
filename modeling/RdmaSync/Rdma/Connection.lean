import Mathlib.Data.List.Nodup
import Mathlib.Logic.Function.Basic
import RdmaSync.Threads.Transition

/-!
This module contains reliable connections: two ends that send messages out of their buffers into the
receive buffers that the other end has posted, in order, and that put the completions of sends and
receives on one queue each, in any order.
-/

namespace Rdma.Connection

open Threads

inductive Side where
  | client
  | server
  deriving DecidableEq

def Side.peer (s : Side) : Side :=
  match s with
  | .client => .server
  | .server => .client

@[simp]
theorem Side.peer_peer (s : Side) : s.peer.peer = s := by
  cases s <;> rfl

@[simp]
theorem Side.peer_ne (s : Side) : s.peer ≠ s := by
  cases s <;> simp [Side.peer]

theorem Side.eq_or_eq_peer (s t : Side) : t = s ∨ t = s.peer := by
  cases s <;> cases t <;> simp [Side.peer]

inductive Completion where
  | send
  | recv
  deriving DecidableEq

/--
An end whose buffers have names in `β`. `receives` and `sends` are the posted requests that have not
taken effect, `filled` the receive buffers that have, `transmitted` counts the sends that left and did
not complete yet, and `wire` holds the messages that the peer has still to receive.
-/
structure Endpoint (β V : Type) where
  memory : β → V
  receives : List β
  filled : List β
  sends : List β
  transmitted : Nat
  wire : List V
  cq : List Completion

variable {β V : Type}

namespace Endpoint

def fresh (memory : β → V) : Endpoint β V where
  memory
  receives := []
  filled := []
  sends := []
  transmitted := 0
  wire := []
  cq := []

def postReceive (e : Endpoint β V) (b : β) : Endpoint β V :=
  { e with receives := e.receives ++ [b] }

def store [DecidableEq β] (e : Endpoint β V) (b : β) (v : V) : Endpoint β V :=
  { e with memory := Function.update e.memory b v }

def postSend (e : Endpoint β V) (b : β) : Endpoint β V :=
  { e with sends := e.sends ++ [b] }

def pollCq (e : Endpoint β V) (comp : Nat) : Endpoint β V :=
  { e with cq := e.cq.drop comp }

def transmit (e : Endpoint β V) (b : β) (sends : List β) : Endpoint β V :=
  { e with
    sends
    transmitted := e.transmitted + 1
    wire := e.wire ++ [e.memory b] }

def complete (e : Endpoint β V) (transmitted : Nat) : Endpoint β V :=
  { e with transmitted, cq := e.cq ++ [.send] }

/-- The peer got the first message. -/
def arrive (e : Endpoint β V) (wire : List V) : Endpoint β V :=
  { e with wire }

def fill [DecidableEq β] (e : Endpoint β V) (b : β) (v : V) (receives : List β) : Endpoint β V :=
  { e with
    memory := Function.update e.memory b v
    receives
    filled := e.filled ++ [b]
    cq := e.cq ++ [.recv] }

def outstanding (e : Endpoint β V) : Nat :=
  e.receives.length + e.sends.length + e.transmitted + e.cq.length

/-- No receive goes to a buffer that was filled before or that a pending send reads. -/
structure Apart (e : Endpoint β V) : Prop where
  nodup : (e.filled ++ e.receives).Nodup
  sends : ∀ b ∈ e.sends, b ∉ e.receives

@[simp]
theorem outstanding_postReceive (e : Endpoint β V) (b : β)
    : (e.postReceive b).outstanding = e.outstanding + 1 := by
  simp only [outstanding, postReceive, List.length_append, List.length_singleton]
  omega

@[simp]
theorem outstanding_store [DecidableEq β] (e : Endpoint β V) (b : β) (v : V)
    : (e.store b v).outstanding = e.outstanding := by
  rfl

@[simp]
theorem outstanding_postSend (e : Endpoint β V) (b : β)
    : (e.postSend b).outstanding = e.outstanding + 1 := by
  simp only [outstanding, postSend, List.length_append, List.length_singleton]
  omega

theorem outstanding_pollCq (e : Endpoint β V) {comp : Nat} (hcomp : comp ≤ e.cq.length)
    : (e.pollCq comp).outstanding + comp = e.outstanding := by
  simp only [outstanding, pollCq, List.length_drop]
  omega

end Endpoint

/-- What the network can do for the requests of an end. -/
inductive Transfer where
  | transmit (s : Side)
  | complete (s : Side)
  | deliver (s : Side)
  deriving DecidableEq

/--
A message leaves as its buffer is at that moment. From then on its send may complete, and the peer
receives the messages in the order in which they left.
-/
def transfer [DecidableEq β] : Step (Side → Endpoint β V) Transfer
  | c, .transmit s =>
    match (c s).sends with
    | [] => none
    | b :: sends => some (Function.update c s ((c s).transmit b sends))
  | c, .complete s =>
    match (c s).transmitted with
    | 0 => none
    | transmitted + 1 => some (Function.update c s ((c s).complete transmitted))
  | c, .deliver s =>
    match (c s.peer).wire, (c s).receives with
    | v :: wire, b :: receives =>
      some (Function.update (Function.update c s.peer ((c s.peer).arrive wire)) s
        ((c s).fill b v receives))
    | _, _ => none

/-- The messages that `s` has posted so far: received by its peer, on their way, and pending. -/
def stream (c : Side → Endpoint β V) (s : Side) : List V :=
  (c s.peer).filled.map (c s.peer).memory ++ (c s).wire ++ (c s).sends.map (c s).memory

def Quiet [DecidableEq β] (c : Side → Endpoint β V) : Prop :=
  ∀ a, transfer c a = none

def Endpoint.work (e : Endpoint β V) : Nat :=
  3 * e.sends.length + e.transmitted + e.wire.length

def work (c : Side → Endpoint β V) : Nat :=
  (c .client).work + (c .server).work

section

variable [DecidableEq β] {c c' : Side → Endpoint β V} {a : Transfer} {s : Side}

theorem transfer_cases (h : transfer c a = some c')
    : (∃ s b sends, a = .transmit s ∧ (c s).sends = b :: sends ∧
        c' = Function.update c s ((c s).transmit b sends)) ∨
      (∃ s n, a = .complete s ∧ (c s).transmitted = n + 1 ∧
        c' = Function.update c s ((c s).complete n)) ∨
      (∃ s v wire b receives, a = .deliver s ∧ (c s.peer).wire = v :: wire ∧
        (c s).receives = b :: receives ∧
        c' = Function.update (Function.update c s.peer ((c s.peer).arrive wire)) s
          ((c s).fill b v receives)) := by
  cases a with
  | transmit s =>
    simp only [transfer] at h
    split at h
    . simp at h
    . next b sends hsends =>
      exact .inl ⟨s, b, sends, rfl, hsends, (Option.some.inj h).symm⟩
  | complete s =>
    simp only [transfer] at h
    split at h
    . simp at h
    . next n hn => exact .inr (.inl ⟨s, n, rfl, hn, (Option.some.inj h).symm⟩)
  | deliver s =>
    simp only [transfer] at h
    split at h
    . next v wire b receives hwire hreceives =>
      exact .inr (.inr ⟨s, v, wire, b, receives, rfl, hwire, hreceives, (Option.some.inj h).symm⟩)
    . simp at h

inductive Endpoint.Moves (e : Endpoint β V) : Endpoint β V → Prop where
  | same : e.Moves e
  | transmit {b : β} {sends : List β} (h : e.sends = b :: sends) : e.Moves (e.transmit b sends)
  | complete {n : Nat} (h : e.transmitted = n + 1) : e.Moves (e.complete n)
  | arrive {v : V} {wire : List V} (h : e.wire = v :: wire) : e.Moves (e.arrive wire)
  | fill {b : β} {receives : List β} (v : V) (h : e.receives = b :: receives)
    : e.Moves (e.fill b v receives)

theorem transfer_moves (h : transfer c a = some c') (t : Side) : (c t).Moves (c' t) := by
  rcases transfer_cases h with ⟨s, b, sends, -, hsends, rfl⟩ | ⟨s, n, -, hn, rfl⟩ |
    ⟨s, v, wire, b, receives, -, hwire, hreceives, rfl⟩ <;>
  rcases s.eq_or_eq_peer t with rfl | rfl
  . rw [Function.update_self]
    exact .transmit hsends
  . rw [Function.update_of_ne s.peer_ne]
    exact .same
  . rw [Function.update_self]
    exact .complete hn
  . rw [Function.update_of_ne s.peer_ne]
    exact .same
  . rw [Function.update_self]
    exact .fill v hreceives
  . rw [Function.update_of_ne s.peer_ne, Function.update_self]
    exact .arrive hwire

namespace Endpoint.Moves

variable {e e' : Endpoint β V}

theorem outstanding_eq (h : e.Moves e') : e'.outstanding = e.outstanding := by
  cases h with
  | same => rfl
  | transmit h =>
    simp only [outstanding, Endpoint.transmit, h, List.length_cons]
    omega
  | complete h =>
    simp only [outstanding, Endpoint.complete, h, List.length_append, List.length_singleton]
    omega
  | arrive h => rfl
  | fill v h =>
    simp only [outstanding, Endpoint.fill, h, List.length_cons, List.length_append,
      List.length_nil]
    omega

theorem buffers_eq (h : e.Moves e') : e'.filled ++ e'.receives = e.filled ++ e.receives := by
  cases h with
  | fill v h => simp [Endpoint.fill, h]
  | _ => rfl

theorem filled_prefix (h : e.Moves e') : e.filled <+: e'.filled := by
  cases h with
  | fill v h => exact List.prefix_append _ _
  | _ => exact List.prefix_rfl

theorem sends_suffix (h : e.Moves e') : e'.sends <:+ e.sends := by
  cases h with
  | transmit h =>
    rw [h]
    exact List.suffix_cons _ _
  | _ => exact List.suffix_rfl

end Endpoint.Moves

/-- No message is lost, duplicated, overtaken or changed while its buffer is left alone. -/
theorem transfer_stream (hapart : ∀ t, (c t).Apart) (h : transfer c a = some c') (t : Side)
    : stream c' t = stream c t := by
  rcases transfer_cases h with ⟨s, b, sends, -, hsends, rfl⟩ | ⟨s, n, -, hn, rfl⟩ |
    ⟨s, v, wire, b, receives, -, hwire, hreceives, rfl⟩
  . rcases s.eq_or_eq_peer t with rfl | rfl
    . simp [stream, Endpoint.transmit, hsends]
    . simp [stream, Endpoint.transmit]
  . rcases s.eq_or_eq_peer t with rfl | rfl
    . simp [stream, Endpoint.complete]
    . simp [stream, Endpoint.complete]
  . have hnodup := (hapart s).nodup
    rw [hreceives, List.nodup_append] at hnodup
    have hfilled : ∀ x ∈ (c s).filled, x ≠ b :=
      fun x hx => hnodup.2.2 x hx b List.mem_cons_self
    have hsends : ∀ x ∈ (c s).sends, x ≠ b := fun x hx hxb =>
      (hapart s).sends x hx (by rw [hreceives, hxb]; exact List.mem_cons_self)
    have hmap : ∀ l : List β, (∀ x ∈ l, x ≠ b) →
        l.map (Function.update (c s).memory b v) = l.map (c s).memory :=
      fun l hl => List.map_congr_left fun x hx => Function.update_of_ne (hl x hx) _ _
    rcases s.eq_or_eq_peer t with rfl | rfl
    . simp [stream, Endpoint.fill, Endpoint.arrive, hmap _ hsends]
    . simp [stream, Endpoint.fill, Endpoint.arrive, hmap _ hfilled, hwire]

theorem transfer_work (h : transfer c a = some c') : work c' < work c := by
  rcases transfer_cases h with ⟨s, b, sends, -, hsends, rfl⟩ | ⟨s, n, -, hn, rfl⟩ |
    ⟨s, v, wire, b, receives, -, hwire, -, rfl⟩
  . cases s <;> simp [work, Endpoint.work, Endpoint.transmit, hsends] <;> omega
  . cases s <;> simp [work, Endpoint.work, Endpoint.complete, hn]
  . cases s <;> simp only [Side.peer] at hwire <;>
      simp [work, Endpoint.work, Endpoint.fill, Endpoint.arrive, hwire, Side.peer]

theorem exists_quiet (c : Side → Endpoint β V)
    : ∃ c', Step.Reach transfer Step.any c c' ∧ Quiet c' := by
  induction hwork : work c using Nat.strongRecOn generalizing c with
  | ind n ih =>
    by_cases hquiet : Quiet c
    . exact ⟨c, .refl, hquiet⟩
    . simp only [Quiet, not_forall] at hquiet
      obtain ⟨a, ha⟩ := hquiet
      obtain ⟨c₁, hc₁⟩ := Option.ne_none_iff_exists'.mp ha
      obtain ⟨c', hreach, hquiet⟩ := ih _ (hwork ▸ transfer_work hc₁) c₁ rfl
      exact ⟨c', (Step.Reach.refl.next a trivial hc₁).trans hreach, hquiet⟩

theorem Quiet.sends_eq_nil (h : Quiet c) (s : Side) : (c s).sends = [] := by
  have hs := h (.transmit s)
  simp only [transfer] at hs
  split at hs
  . next hnil => exact hnil
  . simp at hs

theorem Quiet.transmitted_eq_zero (h : Quiet c) (s : Side) : (c s).transmitted = 0 := by
  have hs := h (.complete s)
  simp only [transfer] at hs
  split at hs
  . next hzero => exact hzero
  . simp at hs

theorem Quiet.wire_eq_nil (h : Quiet c) (hreceives : (c s).receives ≠ [])
    : (c s.peer).wire = [] := by
  have hs := h (.deliver s)
  simp only [transfer] at hs
  split at hs
  . simp at hs
  . next hne =>
    cases hwire : (c s.peer).wire with
    | nil => rfl
    | cons v wire =>
      cases hrec : (c s).receives with
      | nil => exact absurd hrec hreceives
      | cons b receives => exact absurd hrec (hne v wire b receives hwire)

end

theorem filled_prefix (c : Side → Endpoint β V) (s : Side)
    : (c s).filled.map (c s).memory <+: stream c s.peer := by
  rw [stream, Side.peer_peer, List.append_assoc]
  exact List.prefix_append _ _

theorem stream_send [DecidableEq β] (c : Side → Endpoint β V) (s : Side) {b : β} (v : V)
    (hsends : b ∉ (c s).sends)
    : stream (Function.update c s (((c s).store b v).postSend b)) s = stream c s ++ [v] := by
  have hmap : (c s).sends.map (Function.update (c s).memory b v) = (c s).sends.map (c s).memory :=
    List.map_congr_left fun x hx => Function.update_of_ne (ne_of_mem_of_not_mem hx hsends) _ _
  simp [stream, Endpoint.store, Endpoint.postSend, hmap]

theorem stream_peer_congr (c : Side → Endpoint β V) (s : Side) {e : Endpoint β V}
    (hfilled : e.filled = (c s).filled) (hmemory : ∀ b ∈ (c s).filled, e.memory b = (c s).memory b)
    : stream (Function.update c s e) s.peer = stream c s.peer := by
  have hmap : (c s).filled.map e.memory = (c s).filled.map (c s).memory :=
    List.map_congr_left hmemory
  simp [stream, hfilled, hmap]

theorem stream_self_congr (c : Side → Endpoint β V) (s : Side) {e : Endpoint β V}
    (hwire : e.wire = (c s).wire) (hsends : e.sends = (c s).sends)
    (hmemory : ∀ b ∈ (c s).sends, e.memory b = (c s).memory b)
    : stream (Function.update c s e) s = stream c s := by
  have hmap : (c s).sends.map e.memory = (c s).sends.map (c s).memory :=
    List.map_congr_left hmemory
  simp [stream, hwire, hsends, hmap]

end Rdma.Connection
