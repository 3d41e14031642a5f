import RdmaSync.Rdma.Lone
import RdmaSync.Rdma.Solo

/-!
This module contains the proof that a worker that runs alone can do what the run of its program says,
whatever the other workers are in the middle of.
-/

namespace Rdma

variable {W κ β ε α γ Op : Type} [DecidableEq β]

namespace Verb

/-- The effect of the atomic steps `chunks` of a request, one after the other. -/
def serve (nic : Nic) (v : Verb β) (payload : Nat → Word) (chunks : List Nat) (l : Local β) (m : Mem)
    : Local β × Mem :=
  match chunks with
  | [] => (l, m)
  | chunk :: chunks =>
    v.serve nic payload chunks (v.deliver nic chunk m l) (v.place payload chunk m)

theorem serve_chunks (nic : Nic) (v : Verb β) (l : Local β) (m : Mem)
    : v.serve nic (v.payload l) (v.chunks nic) l m = v.perform l m := by
  have hpending : ∀ pending, pending ⊆ v.chunks nic → pending.Nodup →
      v.serve nic (v.payload l) pending (v.performing nic pending l m).1
        (v.performing nic pending l m).2 = v.perform l m := by
    intro pending hsub hnodup
    induction pending with
    | nil => rw [performing_nil]; rfl
    | cons chunk pending ih =>
      have herase := performing_erase hsub hnodup List.mem_cons_self l m
      rw [List.erase_cons_head] at herase
      have h := ih (List.subset_of_cons_subset hsub) hnodup.of_cons
      rw [herase] at h
      exact h
  have h := hpending (v.chunks nic) (List.Subset.refl _) (v.chunks_nodup nic)
  rwa [performing_chunks] at h

theorem serve_read (nic : Nic) (memAddr : β × Nat) (remoteOffset bytes : Nat) (payload : Nat → Word)
    (chunks : List Nat) (l : Local β) (m : Mem)
    : (read memAddr remoteOffset bytes).serve nic payload chunks l m =
        (fun b j =>
          if b = memAddr.1 ∧ memAddr.2 ≤ j ∧ j < memAddr.2 + bytes / 8 ∧
              (read memAddr remoteOffset bytes).chunkOf nic (j - memAddr.2) ∈ chunks then
            m (remoteOffset / 8 + (j - memAddr.2))
          else
            l b j, m) := by
  induction chunks generalizing l with
  | nil => simp [serve]
  | cons chunk chunks ih =>
    rw [serve, show (read memAddr remoteOffset bytes).place payload chunk m = m from rfl, ih]
    apply Prod.ext
    . funext b j
      simp only [deliver, List.mem_cons]
      by_cases hin : b = memAddr.1 ∧ memAddr.2 ≤ j ∧ j < memAddr.2 + bytes / 8
      . by_cases hmem : (read memAddr remoteOffset bytes).chunkOf nic (j - memAddr.2) ∈ chunks
        . simp [hin, hmem]
        . by_cases hchunk : (read memAddr remoteOffset bytes).chunkOf nic (j - memAddr.2) = chunk
          . simp [hin, hchunk]
          . simp [hin, hmem, hchunk]
      . rw [if_neg fun h => hin ⟨h.1, h.2.1, h.2.2.1⟩, if_neg fun h => hin ⟨h.1, h.2.1, h.2.2.1⟩,
          if_neg fun h => hin ⟨h.1, h.2.1, h.2.2.1⟩]
    . rfl

end Verb

/-- The events of a program whose requests take effect when they are posted, newest first. -/
def Prog.events (nic : Nic) (w : W) (op : Op) (p : Prog κ β ε α) (l : Rdma.Local β) (m : Mem)
    : List (Event W β Op) :=
  match p with
  | .ret _ | .throw _ => []
  | .post _ _ v next =>
    next.events nic w op (v.perform l m).1 (v.perform l m).2
      ++ (v.chunks nic).reverse.map fun chunk => ⟨w, op, v, v.payload l, chunk⟩
  | .poll _ _ next => next.events nic w op l m
  | .load a next => (next (l a.1 a.2)).events nic w op l m
  | .store a x next => next.events nic w op (l.set a x) m

theorem Prog.events_bind (p : Prog κ β ε α) (f : α → Prog κ β ε γ) (nic : Nic) (w : W) (op : Op)
    (l : Rdma.Local β) (m : Mem)
    : (p >>= f).events nic w op l m =
        (match p.run l m with
          | (.ok a, l, m) => (f a).events nic w op l m
          | (.error _, _, _) => []) ++ p.events nic w op l m := by
  induction p generalizing l m with
  | ret a => exact (List.append_nil _).symm
  | throw e => rfl
  | post c signaled v next ih =>
    rw [bind_post, events, ih, List.append_assoc]
    rfl
  | poll c n next ih => exact ih l m
  | load a next ih => exact ih _ l m
  | store a x next ih => exact ih _ m

theorem Prog.Local.events_eq {loads stores : β × Nat → Prop} {throws : ε → Prop}
    {p : Prog κ β ε α} (hp : p.Local loads stores throws) (nic : Nic) (w : W) (op : Op)
    (l : Rdma.Local β) (m : Mem) : p.events nic w op l m = [] := by
  induction hp generalizing l with
  | ret | throw => rfl
  | load a next _ _ ih => exact ih _ l
  | store a x next _ _ ih => exact ih _

theorem Prog.Posts.events {V : Verb β → Prop} {p : Prog κ β ε α} (h : p.Posts V) (nic : Nic) (w : W)
    (op : Op) (l : Rdma.Local β) (m : Mem) : ∀ e ∈ p.events nic w op l m, V e.verb := by
  induction p generalizing l m with
  | ret | throw => simp [Prog.events]
  | post c signaled v next ih =>
    intro e he
    rcases List.mem_append.mp he with he | he
    . exact ih h.2 _ _ e he
    . obtain ⟨chunk, _, rfl⟩ := List.mem_map.mp he
      exact h.1
  | poll c n next ih => exact ih h l m
  | load a next ih => exact ih _ (h _) l m
  | store a x next ih => exact ih h _ m

namespace Sys

variable [DecidableEq W] [DecidableEq κ] {wl : Workload κ β ε α Op} {w : W}
  {J : Sys W κ β ε α Op → Prop} {s s' : Sys W κ β ε α Op}

omit [DecidableEq β] [DecidableEq κ] in
theorem setWorker_shared (s : Sys W κ β ε α Op) (w : W) (wk : Worker κ β ε α Op)
    : (s.setWorker w wk).shared = s.shared := by
  rfl

theorem Alone.worker_of_ne (h : Alone wl w s s') {w' : W} (hne : w' ≠ w)
    : s'.worker w' = s.worker w' := by
  induction h with
  | refl => rfl
  | step a _ _ hw ih =>
    rw [← ih]
    cases a with
    | start | finish => exact hw.elim
    | cpu w'' n =>
      obtain rfl : w'' = w := hw
      exact setWorker_of_ne hne _
    | complete w'' c =>
      obtain rfl : w'' = w := hw
      exact setWorker_of_ne hne _
    | touch w'' c chunk =>
      obtain rfl : w'' = w := hw
      simp only [next]
      split
      . exact setWorker_of_ne hne _
      . rfl

theorem exists_served (wl : Workload κ β ε α Op) {c : κ} {f : Flight β Op} {fs : List (Flight β Op)}
    (hq : (s.worker w).queue c = f :: fs)
    : ∃ s', Alone wl w s s' ∧ (s'.worker w).control = (s.worker w).control ∧
        (s'.worker w).queue = Function.update (s.worker w).queue c fs ∧
        ((s'.worker w).buf, s'.shared.mem)
          = f.verb.serve wl.nic f.payload f.pending (s.worker w).buf s.shared.mem ∧
        s'.shared.hist.map Prod.snd
          = f.pending.reverse.map (f.event w) ++ s.shared.hist.map Prod.snd := by
  generalize hpending : f.pending = pending
  induction pending generalizing s f with
  | nil =>
    refine ⟨s.next wl (.complete w c), .step (.complete w c) .refl ?_ rfl, ?_⟩
    . simp [enabled, hq, hpending]
    . simp [next, Worker.complete, hq, Verb.serve, setWorker_shared]
  | cons chunk pending ih =>
    have hnext : s.next wl (.touch w c chunk)
        = { (s.setWorker w ((s.worker w).touch wl c chunk s.shared.mem)) with
            shared := s.shared.push (f.event w chunk) } := by
      simp only [next, hq]
    have hworker : (s.next wl (.touch w c chunk)).worker w
        = (s.worker w).touch wl c chunk s.shared.mem := by
      rw [hnext]
      exact setWorker_self _ _ _
    have hqueue : ((s.next wl (.touch w c chunk)).worker w).queue
        = Function.update (s.worker w).queue c ({ f with pending := f.pending.erase chunk } :: fs) := by
      rw [hworker]
      simp only [Worker.touch, hq]
    obtain ⟨s', halone, hcontrol', hqueue', heffect', hhist'⟩ := ih
      (f := { f with pending := f.pending.erase chunk }) (by rw [hqueue, Function.update_self])
      (by simp [hpending])
    refine ⟨s', .trans (.step (.touch w c chunk) .refl ?_ rfl) halone, ?_, ?_, ?_, ?_⟩
    . simp only [enabled, hq, hpending]
      exact Verb.allows_head wl.nic f.verb chunk pending
    . rw [hcontrol', hworker]
      simp only [Worker.touch, hq]
    . rw [hqueue', hqueue, Function.update_idem]
    . rw [heffect', hworker, hnext]
      simp only [Worker.touch, hq]
      rfl
    . rw [hhist', hnext]
      simp [Flight.event]

theorem exists_touched (wl : Workload κ β ε α Op) {op : Op} {since : Nat} {c : κ} {signaled : Bool}
    {v : Verb β} {p : Prog κ β ε α} (hqueue : ∀ c, (s.worker w).queue c = [])
    (hcontrol : (s.worker w).control = .running op since (.post c signaled v p)) {chunk : Nat}
    (hallow : v.allows wl.nic (v.chunks wl.nic) chunk = true)
    : ∃ s', Alone wl w s s' ∧ (s'.worker w).control = .running op since p ∧
        (s'.worker w).queue = Function.update (fun _ => []) c
          [⟨op, v, v.payload (s.worker w).buf, signaled, (v.chunks wl.nic).erase chunk⟩] ∧
        (s'.worker w).buf = v.deliver wl.nic chunk s.shared.mem (s.worker w).buf ∧
        s'.shared = s.shared.push ⟨w, op, v, v.payload (s.worker w).buf, chunk⟩ := by
  have hposted : (s.next wl (.cpu w 0)).worker w =
      { s.worker w with
        control := .running op since p
        queue := Function.update (fun _ => []) c [.ofVerb wl.nic op signaled v (s.worker w).buf] } := by
    have hnil : (s.worker w).queue = fun _ => [] := funext hqueue
    simp only [Sys.next, setWorker_self, Worker.cpu, hcontrol, hnil, List.nil_append]
  have halone : Alone wl w s (s.next wl (.cpu w 0)) := by
    refine .step (.cpu w 0) .refl ?_ rfl
    simp [enabled, Worker.cpuEnabled, hcontrol]
  have hshared : (s.next wl (.cpu w 0)).shared = s.shared := rfl
  generalize s.next wl (.cpu w 0) = s₁ at hposted halone hshared
  have hq : (s₁.worker w).queue c = [.ofVerb wl.nic op signaled v (s.worker w).buf] := by
    simp only [hposted, Function.update_self]
  refine ⟨s₁.next wl (.touch w c chunk), .step (.touch w c chunk) halone ?_ rfl, ?_⟩
  . simp only [enabled, hq]
    exact hallow
  . simp only [next, hq, setWorker_self, Worker.touch]
    simp only [hposted, hshared, Function.update_idem]
    exact ⟨trivial, rfl, rfl, rfl⟩

/-- Worker `w` has run the program `p` alone, and goes on with `f`. -/
structure Ran (wl : Workload κ β ε α Op) (w : W) (op : Op) (since : Nat) (p : Prog κ β ε γ)
    (f : γ → Prog κ β ε α) (s s' : Sys W κ β ε α Op) : Prop where
  alone : Alone wl w s s'
  queue : ∀ c, (s'.worker w).queue c = []
  control : (s'.worker w).control = .running op since
    (match (p.run (s.worker w).buf s.shared.mem).1 with
      | .ok a => f a
      | .error e => .throw e)
  buf : (s'.worker w).buf = (p.run (s.worker w).buf s.shared.mem).2.1
  mem : s'.shared.mem = (p.run (s.worker w).buf s.shared.mem).2.2
  events : s'.shared.hist.map Prod.snd
    = p.events wl.nic w op (s.worker w).buf s.shared.mem ++ s.shared.hist.map Prod.snd

/--
A worker that runs alone can run the next part of its operation, if in all states that it reaches a
polling loop asks for no more completions than its requests have generated or will.
-/
theorem exists_ran (hJ : KeptBy wl w J)
    (hawaits : ∀ s op since c n next, J s →
      (s.worker w).control = .running op since (.poll c n next) →
      n ≤ ((s.worker w).queue c).countP (·.signaled) + (s.worker w).cq c)
    {op : Op} {since : Nat} {p : Prog κ β ε γ} {f : γ → Prog κ β ε α} (hs : J s)
    (hqueue : ∀ c, (s.worker w).queue c = [])
    (hcontrol : (s.worker w).control = .running op since (p >>= f))
    : ∃ s', Ran wl w op since p f s s' := by
  have hcpu (s : Sys W κ β ε α Op) (n : Nat) (he : (s.worker w).cpuEnabled n = true)
      : Alone wl w s (s.next wl (.cpu w n)) :=
    .step (.cpu w n) .refl he rfl
  have hafter {s s₁ : Sys W κ β ε α Op} {p p₁ : Prog κ β ε γ} (hreach : Alone wl w s s₁)
      (hrun : p.run (s.worker w).buf s.shared.mem = p₁.run (s₁.worker w).buf s₁.shared.mem)
      (hevents : p.events wl.nic w op (s.worker w).buf s.shared.mem ++ s.shared.hist.map Prod.snd
        = p₁.events wl.nic w op (s₁.worker w).buf s₁.shared.mem ++ s₁.shared.hist.map Prod.snd)
      (h : ∃ s', Ran wl w op since p₁ f s₁ s') : ∃ s', Ran wl w op since p f s s' := by
    obtain ⟨s', h⟩ := h
    refine ⟨s', hreach.trans h.alone, h.queue, ?_, ?_, ?_, ?_⟩
    . rw [hrun]
      exact h.control
    . rw [hrun]
      exact h.buf
    . rw [hrun]
      exact h.mem
    . rw [hevents]
      exact h.events
  induction p generalizing s with
  | ret a => exact ⟨s, .refl, hqueue, hcontrol, rfl, rfl, rfl⟩
  | throw e => exact ⟨s, .refl, hqueue, hcontrol, rfl, rfl, rfl⟩
  | post c signaled v next ih =>
    have hreach := hcpu s 0 (by simp [Worker.cpuEnabled, hcontrol])
    have hposted : ((s.next wl (.cpu w 0)).worker w).queue
        = Function.update (s.worker w).queue c [.ofVerb wl.nic op signaled v (s.worker w).buf] := by
      simp [Sys.next, Worker.cpu, hcontrol, hqueue]
    obtain ⟨s₁, halone, hcontrol₁, hqueue₁, heffect₁, hhist₁⟩ :=
      exists_served wl (show ((s.next wl (.cpu w 0)).worker w).queue c = [_] by
        rw [hposted, Function.update_self])
    have heffect : ((s₁.worker w).buf, s₁.shared.mem) = v.perform (s.worker w).buf s.shared.mem := by
      rw [heffect₁, ← Verb.serve_chunks wl.nic]
      simp [Sys.next, Worker.cpu, hcontrol, Flight.ofVerb, setWorker_shared]
    have hbuf : (s₁.worker w).buf = (v.perform (s.worker w).buf s.shared.mem).1 :=
      congrArg Prod.fst heffect
    have hmem : s₁.shared.mem = (v.perform (s.worker w).buf s.shared.mem).2 :=
      congrArg Prod.snd heffect
    have hhist : s₁.shared.hist.map Prod.snd
        = ((v.chunks wl.nic).reverse.map fun chunk => ⟨w, op, v, v.payload (s.worker w).buf, chunk⟩)
          ++ s.shared.hist.map Prod.snd := by
      rw [hhist₁]
      rfl
    refine hafter (hreach.trans halone) ?_ ?_
      (ih (hJ.reach hs (hreach.trans halone)) ?_ ?_)
    . rw [hbuf, hmem]
      rfl
    . rw [hbuf, hmem, hhist, Prog.events, List.append_assoc]
    . intro c'
      rw [hqueue₁, hposted, Function.update_idem]
      by_cases hc : c' = c
      . rw [hc, Function.update_self]
      . rw [Function.update_of_ne hc, hqueue]
    . rw [hcontrol₁]
      simp [Sys.next, Worker.cpu, hcontrol]
  | load a next ih =>
    have hreach := hcpu s 0 (by simp [Worker.cpuEnabled, hcontrol])
    refine hafter hreach ?_ ?_ (ih ((s.worker w).buf a.1 a.2) (hJ.reach hs hreach) ?_ ?_)
    all_goals simp [Sys.next, Worker.cpu, hcontrol, Prog.run, Prog.events, hqueue, setWorker_shared]
  | store a x next ih =>
    have hreach := hcpu s 0 (by simp [Worker.cpuEnabled, hcontrol])
    refine hafter hreach ?_ ?_ (ih (hJ.reach hs hreach) ?_ ?_)
    all_goals simp [Sys.next, Worker.cpu, hcontrol, Prog.run, Prog.events, hqueue, setWorker_shared]
  | poll c n next ih =>
    have hn := hawaits s op since c n (next >>= f) hs hcontrol
    have hreach := hcpu s n (by
      simp only [Worker.cpuEnabled, hcontrol, Prog.bind_poll, Bool.and_eq_true, decide_eq_true_eq]
      simpa [hqueue] using hn)
    refine hafter hreach ?_ ?_ (ih (hJ.reach hs hreach) ?_ ?_)
    all_goals simp [Sys.next, Worker.cpu, hcontrol, Prog.run, Prog.events, hqueue, setWorker_shared]

theorem Ran.reach {op : Op} {since : Nat} {p : Prog κ β ε γ} {f : γ → Prog κ β ε α}
    {s₀ : Sys W κ β ε α Op} (h : Ran wl w op since p f s s') (hreach : Reach wl anyStep s₀ s)
    : Reach wl anyStep s₀ s' := by
  exact hreach.trans (h.alone.mono fun _ _ _ => trivial)

theorem exists_ran_of_accounts {depth maxCall : Nat} (S : AccountSpec depth maxCall wl)
    {s₀ : Sys W κ β ε α Op} (hfresh : s₀.Fresh) (hreach : Reach wl anyStep s₀ s) {op : Op}
    {since : Nat} {p : Prog κ β ε γ} {f : γ → Prog κ β ε α}
    (hqueue : ∀ c, (s.worker w).queue c = [])
    (hcontrol : (s.worker w).control = .running op since (p >>= f))
    : ∃ s', Ran wl w op since p f s s' := by
  apply exists_ran (J := fun s => ∀ w, S.WorkerOk (s.worker w)) _ _
    (S.workerOk_of_reach hfresh hreach) hqueue hcontrol
  . intro s a hs he _
    exact AccountSpec.workerOk_next hs a he
  . intro s op since c n next hs hpoll
    exact (hs w).awaits hpoll

end Sys
end Rdma
