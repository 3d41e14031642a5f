import RdmaSync.Rdma.Rules

/-!
This module contains what a worker does when no other worker is there: its programs run as if every
request took effect at once when it is posted.
-/

namespace Rdma

variable {W κ β ε α γ Op : Type} [DecidableEq β]

namespace Verb

/-- The effect of a whole request on the local buffers and the remote memory. -/
def perform (v : Verb β) (l : Local β) (m : Mem) : Local β × Mem :=
  match v with
  | .compareSwap expected desired memAddr remoteOffset =>
    (l.set memAddr (load64 m remoteOffset),
      if load64 m remoteOffset = expected then store64 m remoteOffset desired else m)
  | .fetchAdd toAdd memAddr remoteOffset =>
    (l.set memAddr (load64 m remoteOffset),
      store64 m remoteOffset (load64 m remoteOffset + toAdd))
  | .read memAddr remoteOffset bytes =>
    (fun b j =>
      if b = memAddr.1 ∧ memAddr.2 ≤ j ∧ j < memAddr.2 + bytes / 8 then
        m (remoteOffset / 8 + (j - memAddr.2))
      else
        l b j, m)
  | .write memAddr remoteOffset bytes =>
    (l, fun j =>
      if remoteOffset / 8 ≤ j ∧ j < remoteOffset / 8 + bytes / 8 then
        l memAddr.1 (memAddr.2 + (j - remoteOffset / 8))
      else
        m j)

theorem perform_read {b : β} {k i remoteOffset bytes : Nat} (hi : i < bytes / 8) (l : Local β) (m : Mem)
    : ((read (b, k) remoteOffset bytes).perform l m).1 b (k + i) = m (remoteOffset / 8 + i) := by
  simp [perform, hi]

theorem perform_read_of_lt {b : β} {k j remoteOffset bytes : Nat} (hj : j < k) (l : Local β) (m : Mem)
    : ((read (b, k) remoteOffset bytes).perform l m).1 b j = l b j := by
  simp only [perform]
  rw [if_neg (by omega)]

theorem perform_write_of_eq {memAddr : β × Nat} {remoteOffset bytes : Nat} {l : Local β} {m : Mem}
    (h : ∀ i, i < bytes / 8 → l memAddr.1 (memAddr.2 + i) = m (remoteOffset / 8 + i))
    : (write memAddr remoteOffset bytes).perform l m = (l, m) := by
  apply Prod.ext
  . rfl
  . funext j
    simp only [perform]
    split
    . next hin =>
      rw [h (j - remoteOffset / 8) (by omega), Nat.add_sub_cancel' hin.1]
    . rfl

/-- The effect of a request whose atomic steps `pending` are still missing. -/
def performing (nic : Nic) (v : Verb β) (pending : List Nat) (l : Local β) (m : Mem)
    : Local β × Mem :=
  match v with
  | .compareSwap .. | .fetchAdd .. => if pending = [] then v.perform l m else (l, m)
  | .read memAddr remoteOffset bytes =>
    (fun b j =>
      if b = memAddr.1 ∧ memAddr.2 ≤ j ∧ j < memAddr.2 + bytes / 8 ∧
          v.chunkOf nic (j - memAddr.2) ∉ pending then
        m (remoteOffset / 8 + (j - memAddr.2))
      else
        l b j, m)
  | .write memAddr remoteOffset bytes =>
    (l, fun j =>
      if remoteOffset / 8 ≤ j ∧ j < remoteOffset / 8 + bytes / 8 ∧ j / 8 ∉ pending then
        l memAddr.1 (memAddr.2 + (j - remoteOffset / 8))
      else
        m j)

theorem performing_nil (nic : Nic) (v : Verb β) (l : Local β) (m : Mem)
    : v.performing nic [] l m = v.perform l m := by
  cases v <;> simp [performing, perform]

theorem performing_chunks (nic : Nic) (v : Verb β) (l : Local β) (m : Mem)
    : v.performing nic (v.chunks nic) l m = (l, m) := by
  cases v with
  | compareSwap | fetchAdd => simp [performing, chunks]
  | read memAddr remoteOffset bytes =>
    apply Prod.ext
    . funext b j
      simp only [performing]
      rw [if_neg]
      rintro ⟨_, hge, hlt, hnot⟩
      exact hnot (chunkOf_mem_chunks nic memAddr remoteOffset (by omega))
    . rfl
  | write memAddr remoteOffset bytes =>
    apply Prod.ext
    . rfl
    . funext j
      simp only [performing]
      rw [if_neg]
      rintro ⟨hge, hlt, hnot⟩
      apply hnot
      have hmem : (remoteOffset / 8 + (j - remoteOffset / 8)) / 8 ∈ linesOf remoteOffset bytes :=
        mem_linesOf (by omega)
      rwa [Nat.add_sub_cancel' hge] at hmem

theorem performing_erase {nic : Nic} {v : Verb β} {pending : List Nat} {chunk : Nat}
    (hsub : pending ⊆ v.chunks nic) (hnodup : pending.Nodup) (hmem : chunk ∈ pending)
    (l : Local β) (m : Mem)
    : v.performing nic (pending.erase chunk) l m
        = (v.deliver nic chunk (v.performing nic pending l m).2 (v.performing nic pending l m).1,
            v.place (v.payload l) chunk (v.performing nic pending l m).2) := by
  have hatomic (hchunks : v.chunks nic = [0]) : pending = [0] ∧ chunk = 0 := by
    rw [hchunks] at hsub
    have hzero : ∀ c ∈ pending, c = 0 := fun c hc => List.mem_singleton.mp (hsub hc)
    obtain rfl := hzero chunk hmem
    refine ⟨?_, rfl⟩
    cases pending with
    | nil => simp at hmem
    | cons c cs =>
      obtain rfl := hzero c List.mem_cons_self
      cases cs with
      | nil => rfl
      | cons c' cs =>
        obtain rfl := hzero c' (by simp)
        simp at hnodup
  have hnot (c : Nat) : c ∉ pending.erase chunk ↔ c ∉ pending ∨ c = chunk := by
    rw [hnodup.mem_erase_iff]
    by_cases hc : c = chunk
    . simp [hc]
    . simp [hc]
  cases v with
  | compareSwap expected desired memAddr remoteOffset =>
    obtain ⟨rfl, rfl⟩ := hatomic rfl
    simp [performing, perform, deliver, place]
  | fetchAdd toAdd memAddr remoteOffset =>
    obtain ⟨rfl, rfl⟩ := hatomic rfl
    simp [performing, perform, deliver, place]
  | read memAddr remoteOffset bytes =>
    apply Prod.ext
    . funext b j
      simp only [performing, deliver, hnot]
      by_cases hchunk : (read memAddr remoteOffset bytes).chunkOf nic (j - memAddr.2) = chunk
      . simp only [hchunk, or_true, and_true]
        split
        . rfl
        . next hin =>
          rw [if_neg fun h => hin ⟨h.1, h.2.1, h.2.2.1⟩]
      . simp [hchunk]
    . rfl
  | write memAddr remoteOffset bytes =>
    apply Prod.ext
    . rfl
    . funext j
      simp only [performing, place, payload, hnot]
      by_cases hchunk : j / 8 = chunk
      . simp only [hchunk, or_true, and_true]
        split
        . next hin => rw [if_pos (by omega)]
        . next hin =>
          rw [if_neg fun h => hin ⟨h.1, h.2.1⟩]
      . simp [hchunk]

end Verb

namespace Prog

/-- Run a program with every request taking effect when it is posted. -/
def run (p : Prog κ β ε α) (l : Rdma.Local β) (m : Mem) : Except ε α × Rdma.Local β × Mem :=
  match p with
  | .ret a => (.ok a, l, m)
  | .throw e => (.error e, l, m)
  | .post _ _ v next => next.run (v.perform l m).1 (v.perform l m).2
  | .poll _ _ next => next.run l m
  | .load a next => (next (l a.1 a.2)).run l m
  | .store a x next => next.run (l.set a x) m

theorem Local.run_eq {loads stores : β × Nat → Prop} {throws : ε → Prop} {p : Prog κ β ε α}
    (hp : p.Local loads stores throws) (l : Rdma.Local β) (m : Mem)
    : p.run l m = ((p.exec l).1, (p.exec l).2, m) := by
  induction hp generalizing l with
  | ret a => rfl
  | throw e => rfl
  | load a next _ _ ih => exact ih _ l
  | store a x next _ _ ih => exact ih _

theorem run_bind (p : Prog κ β ε α) (f : α → Prog κ β ε γ) (l : Rdma.Local β) (m : Mem)
    : (p >>= f).run l m =
        match p.run l m with
        | (.ok a, l, m) => (f a).run l m
        | (.error e, l, m) => (.error e, l, m) := by
  induction p generalizing l m with
  | ret => rfl
  | throw => rfl
  | post _ _ _ _ ih => exact ih _ _
  | poll _ _ _ ih => exact ih l m
  | load a _ ih => exact ih _ l m
  | store a x _ ih => exact ih _ m

end Prog

def Protocol.unrestricted : Protocol W β Op where
  inv := fun _ => True
  guard := fun _ _ => True
  permit := fun _ _ => True
  inv_push := fun _ _ _ => trivial

section Lone

variable [Subsingleton W] {nic : Nic} {w : W} {op : Op} {s s' : Shared W β Op}

omit [DecidableEq β] in
theorem Protocol.Rely.eq {P : Protocol W β Op} (h : P.Rely w s s') : s' = s := by
  induction h with
  | refl => rfl
  | step _ _ _ _ hw => exact absurd (Subsingleton.elim _ _) hw

/-- What a program ensures is what its run ends with. -/
theorem wp_of_run {Q : Except ε α → Assertion W β Op} {p : Prog κ β ε α} {l : Local β}
    (h : ∀ s', s'.mem = (p.run l s.mem).2.2 → Q (p.run l s.mem).1 (p.run l s.mem).2.1 s')
    : wp .unrestricted nic w op Q p l s := by
  induction p generalizing l s with
  | ret a =>
    intro s' hr _
    rw [hr.eq]
    exact h s rfl
  | throw e =>
    intro s' hr _
    rw [hr.eq]
    exact h s rfl
  | post c signaled v next ih =>
    apply wp_post (fun pending l' s' => (l', s'.mem) = v.performing nic pending l s.mem ∧
      pending ⊆ v.chunks nic ∧ pending.Nodup)
    . intro _ _ _ e _ _ _ hw
      exact absurd (Subsingleton.elim _ _) hw
    . exact ⟨(v.performing_chunks nic l s.mem).symm, List.Subset.refl _, v.chunks_nodup nic⟩
    . trivial
    . rintro pending l' s' chunk _ ⟨heq, hsub, hnodup⟩ hallow _
      refine ⟨trivial, ?_, List.Subset.trans List.erase_subset hsub, hnodup.erase _⟩
      rw [Verb.performing_erase hsub hnodup (Verb.mem_of_allows hallow), ← heq]
      rfl
    . rintro l' s' _ ⟨heq, _, _⟩
      rw [Verb.performing_nil] at heq
      obtain ⟨rfl, hmem⟩ := Prod.ext_iff.mp heq
      apply ih
      rw [show s'.mem = _ from hmem]
      exact h
  | poll c n next ih => exact ih h
  | load a next ih => exact ih _ h
  | store a x next ih => exact ih h

end Lone

/--
What is proved about each operation of the only worker: its discipline, and what a run of it makes of
`ready`, which the worker knows of its buffers and the memory between operations.
-/
structure LoneSpec (wl : Workload κ β ε α Op) (rctx : κ) where
  ready : List (Op × α) → Local β → Mem → Prop
  post : Op → Except ε α → Prop
  leftover : List (Verb β × Bool) → Prop
  ends : Op → Except ε α → List (Verb β × Bool) → Prop
  leftover_of_ends : ∀ {op o u}, ends op o u → leftover u
  synced : ∀ op {u}, leftover u → Synced rctx (ends op) (wl.program op) u
  run : ∀ op done l m, wl.Follows done op → ready done l m →
    post op ((wl.program op).run l m).1 ∧
      match (wl.program op).run l m with
      | (.ok a, l, m) => ready ((op, a) :: done) l m
      | (.error _, l, m) => ready done l m

namespace LoneSpec

variable {wl : Workload κ β ε α Op} {rctx : κ} (S : LoneSpec wl rctx)

def spec [Subsingleton W] : Spec (W := W) .unrestricted wl rctx where
  ready := fun _ done l s => S.ready done l s.mem
  post := fun _ op _ o _ _ => S.post op o
  leftover := S.leftover
  ends := S.ends
  leftover_of_ends := S.leftover_of_ends
  synced := S.synced
  wp_program := by
    intro w op since done l s hfollows _ _ hready
    apply wp_of_run
    intro s' hmem
    obtain ⟨hpost, hrun⟩ := S.run op done l s.mem hfollows hready
    refine ⟨hpost, ?_⟩
    rw [hmem]
    rcases h : (wl.program op).run l s.mem with ⟨_ | a, l', m'⟩
    . rw [h] at hrun
      exact fun _ => hrun
    . rw [h] at hrun
      exact fun _ => hrun

variable [DecidableEq W] [DecidableEq κ] [Subsingleton W] {s₀ s : Sys W κ β ε α Op}

theorem sysOk_of_reach (hfresh : s₀.Fresh) (hleft : S.leftover [])
    (hready : ∀ w, S.ready [] (s₀.worker w).buf s₀.shared.mem)
    (hreach : Sys.Reach wl Sys.anyStep s₀ s) : S.spec.SysOk s := by
  apply S.spec.sysOk_of_reach (fun _ _ _ _ _ _ _ _ => trivial) _ hreach
  apply S.spec.sysOk_fresh trivial hfresh hleft
  intro w s' hr _
  rw [hr.eq]
  exact hready w

end LoneSpec

section Loop

def Workload.loop (nic : Nic) (p : Prog κ β ε Unit) : Workload κ β ε Unit Unit where
  nic := nic
  program := fun _ => p
  mayStart := fun _ _ => true
  after := fun _ outcome =>
    match outcome with
    | .ok _ => .idle
    | .error _ => .stop

def LoopEnds (o : Except ε Unit) (u : List (Verb β × Bool)) : Prop :=
  match o with
  | .ok _ => ∀ p ∈ u, p.2 = false
  | .error _ => u = []

variable {nic : Nic} {rctx : κ} {p : Prog κ β ε Unit} {m : Mem}

omit [DecidableEq β] in
theorem loopEnds_nil (o : Except ε Unit) : LoopEnds o ([] : List (Verb β × Bool)) := by
  cases o <;> simp [LoopEnds]

def LoneSpec.loop (hsynced : ∀ u, (∀ q ∈ u, q.2 = false) → Synced rctx LoopEnds p u)
    (hrun : ∀ l, ∃ l', p.run l m = (.ok (), l', m)) : LoneSpec (Workload.loop nic p) rctx where
  ready := fun _ _ m' => m' = m
  post := fun _ o => o = .ok ()
  leftover := fun u => ∀ q ∈ u, q.2 = false
  ends := fun _ => LoopEnds
  leftover_of_ends := by
    intro _ o u hends
    cases o with
    | ok => exact hends
    | error =>
      obtain rfl : u = [] := hends
      simp
  synced := fun _ u hu => hsynced u hu
  run := by
    rintro _ done l _ _ rfl
    obtain ⟨l', hrun⟩ := hrun l
    rw [show (Workload.loop nic p).program () = p from rfl, hrun]
    exact ⟨rfl, rfl⟩

structure Undisturbed (m : Mem) (s : Sys Unit κ β ε Unit Unit) : Prop where
  never_throws : ∀ w op since e, (s.worker w).control ≠ .running op since (.throw e)
  restored : s.Quiescent → s.shared.mem = m

theorem undisturbed_of_run [DecidableEq κ] {s₀ s : Sys Unit κ β ε Unit Unit}
    (hsynced : ∀ u, (∀ q ∈ u, q.2 = false) → Synced rctx LoopEnds p u)
    (hrun : ∀ l, ∃ l', p.run l s₀.shared.mem = (.ok (), l', s₀.shared.mem)) (hfresh : s₀.Fresh)
    (hreach : Sys.Reach (Workload.loop nic p) Sys.anyStep s₀ s) : Undisturbed s₀.shared.mem s := by
  have hok : (LoneSpec.loop hsynced hrun).spec.SysOk s :=
    (LoneSpec.loop hsynced hrun).sysOk_of_reach hfresh (by simp [LoneSpec.loop]) (fun _ => rfl) hreach
  constructor
  . intro w op since e hcontrol
    have hpost := hok.post_throw _ hcontrol (fun _ h => h)
    simp [LoneSpec.spec, LoneSpec.loop] at hpost
  . intro hquiescent
    exact hok.ready _ (hquiescent.control ()) (hquiescent.queue () _)

end Loop
end Rdma
