import RdmaSync.Rdma.Payload

/-!
This module contains programs on one of several nodes. Each node has connections and buffers of its
own, and a program for one node becomes a program of a worker that is connected to all of them.
-/

namespace Rdma

variable {ν κ β ε α γ : Type}

def onNode (n : ν) (a : β × Nat) : (ν × β) × Nat :=
  ((n, a.1), a.2)

namespace Verb

def onNode (n : ν) (v : Verb β) : Verb (ν × β) :=
  match v with
  | .compareSwap expected desired memAddr remoteOffset =>
    .compareSwap expected desired (Rdma.onNode n memAddr) remoteOffset
  | .fetchAdd toAdd memAddr remoteOffset => .fetchAdd toAdd (Rdma.onNode n memAddr) remoteOffset
  | .read memAddr remoteOffset bytes => .read (Rdma.onNode n memAddr) remoteOffset bytes
  | .write memAddr remoteOffset bytes => .write (Rdma.onNode n memAddr) remoteOffset bytes

theorem lands_onNode (n : ν) (v : Verb β) (a : (ν × β) × Nat)
    : (v.onNode n).lands a ↔ a.1.1 = n ∧ v.lands (a.1.2, a.2) := by
  rcases a with ⟨⟨n', b⟩, i⟩
  cases v <;> simp [onNode, lands, Rdma.onNode, Prod.ext_iff, and_assoc]

theorem sends_onNode (n : ν) (v : Verb β) (a : (ν × β) × Nat)
    : (v.onNode n).sends a ↔ a.1.1 = n ∧ v.sends (a.1.2, a.2) := by
  rcases a with ⟨⟨n', b⟩, i⟩
  cases v <;> simp [onNode, sends, Rdma.onNode, Prod.ext_iff, and_assoc]

end Verb

def requestsOn (n : ν) (u : List (Verb β × Bool)) : List (Verb (ν × β) × Bool) :=
  u.map fun p => (p.1.onNode n, p.2)

@[simp]
theorem requestsOn_nil (n : ν) : requestsOn n ([] : List (Verb β × Bool)) = [] := by
  rfl

theorem requestsOn_append (n : ν) (u u' : List (Verb β × Bool))
    : requestsOn n (u ++ u') = requestsOn n u ++ requestsOn n u' := by
  exact List.map_append

theorem requestsOn_acked (n : ν) (u : List (Verb β × Bool)) (k : Nat)
    : requestsOn n (acked u k) = acked (requestsOn n u) k := by
  induction u generalizing k with
  | nil => rfl
  | cons p u ih =>
    simp only [acked, requestsOn, List.map_cons]
    split
    . rfl
    . exact ih _

theorem quiet_requestsOn {n : ν} {u : List (Verb β × Bool)} {a : (ν × β) × Nat}
    (h : Quiet u (a.1.2, a.2)) : Quiet (requestsOn n u) a := by
  intro p hp hlands
  obtain ⟨q, hq, rfl⟩ := List.mem_map.mp hp
  exact h q hq ((Verb.lands_onNode n q.1 a).mp hlands).2

theorem unsent_requestsOn {n : ν} {u : List (Verb β × Bool)} {a : β × Nat} (h : Unsent u a)
    : Unsent (requestsOn n u) (onNode n a) := by
  intro p hp hsends
  obtain ⟨q, hq, rfl⟩ := List.mem_map.mp hp
  exact h q hq ((Verb.sends_onNode n q.1 (onNode n a)).mp hsends).2

namespace Prog

def onNode (n : ν) (p : Prog κ β ε α) : Prog (ν × κ) (ν × β) ε α :=
  match p with
  | .ret a => .ret a
  | .throw e => .throw e
  | .post c signaled v next => .post (n, c) signaled (v.onNode n) (next.onNode n)
  | .poll c k next => .poll (n, c) k (next.onNode n)
  | .load a next => .load (Rdma.onNode n a) fun x => (next x).onNode n
  | .store a x next => .store (Rdma.onNode n a) x (next.onNode n)

end Prog

/-- What keeps payloads on one node does so when there are others. -/
theorem KeepsPayloads.onNode {rctx : κ} {own : β → Prop} {own' : ν × β → Prop} {risky : β × Nat → Prop}
    {risky' : (ν × β) × Nat → Prop} {ends : Except ε α → List (Verb β × Bool) → Prop}
    {ends' : Except ε α → List (Verb (ν × β) × Bool) → Prop} {p : Prog κ β ε α}
    {u : List (Verb β × Bool)} (n : ν) (h : KeepsPayloads rctx own risky ends p u)
    (hown : ∀ b, own b → own' (n, b)) (hrisky : ∀ a, risky a → risky' (Rdma.onNode n a))
    (hends : ∀ o u, ends o u → ends' o (requestsOn n u))
    : KeepsPayloads (n, rctx) own' risky' ends' (p.onNode n) (requestsOn n u) := by
  induction p generalizing u with
  | ret a => exact hends _ _ h
  | throw e => exact hends _ _ h
  | post c signaled v next ih =>
    obtain ⟨rfl, huses, hquiet, hnext⟩ := h
    refine ⟨rfl, ?_, ?_, ?_⟩
    . rintro ⟨⟨n', b⟩, i⟩ ha
      rw [Verb.lands_onNode, Verb.sends_onNode] at ha
      rcases ha with ⟨rfl, ha⟩ | ⟨rfl, ha⟩
      . exact hown b (huses (b, i) (.inl ha))
      . exact hown b (huses (b, i) (.inr ha))
    . intro a ha
      exact quiet_requestsOn (hquiet _ ((Verb.sends_onNode n v a).mp ha).2)
    . have := ih hnext
      rwa [requestsOn_append] at this
  | poll c k next ih =>
    refine ⟨by rw [h.1], ?_⟩
    have := ih h.2
    rwa [requestsOn_acked] at this
  | load a next ih => exact fun x => ih x (h x)
  | store a x next ih =>
    refine ⟨hown a.1 h.1, ?_, ih h.2.2⟩
    rcases h.2.1 with ha | ha
    . exact .inl (hrisky a ha)
    . exact .inr (unsent_requestsOn ha)

end Rdma
