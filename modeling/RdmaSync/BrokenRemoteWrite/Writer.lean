import RdmaSync.Bits.Mask
import RdmaSync.CommunicationManager.Queues
import RdmaSync.Rdma.Verb
import RdmaSync.Threads.Transition

/-!
This module contains the writer of the experiment on remote writes. It signals some of its WRITEs
and polls for some of them, each time by looking at bits of the same counter.
-/

namespace BrokenRemoteWrite

open Bits CommunicationManager Rdma Threads

structure Config where
  writeSpeed : BitVec 64
  blockSize : BitVec 64
  start : BitVec 64
  sizeBytes : BitVec 64

namespace Config

variable (x : Config)

def numberBlocks : BitVec 64 := x.sizeBytes / x.blockSize

def numberEntries : BitVec 64 := x.blockSize / 8

def signal : BitVec 64 := x.writeSpeed - 1

end Config

inductive Pc where
  | looping
  | posting (b_i : BitVec 64)
  | polling (b_i : BitVec 64)
  | returned
  | threw
  deriving DecidableEq

def Pc.isPolling (pc : Pc) : Bool :=
  match pc with
  | .polling _ => true
  | _ => false

structure State where
  version : BitVec 64
  buffer : Nat → Word
  wqe : BitVec 64
  keepRunning : Bool
  queue : SendQueue (Verb Unit)
  pc : Pc

inductive Action where
  | cpu
  | fail
  | execute
  | stop
  deriving DecidableEq

namespace State

def init : State where
  version := 1
  buffer := fun _ => 0
  wqe := 0
  keepRunning := true
  queue := .empty
  pc := .looping

def fill (x : Config) (s : State) : State :=
  let version := s.version + 1
  { s with
    version
    buffer := fun e_i => if e_i < x.numberEntries.toNat then version else s.buffer e_i
    pc := .posting 0 }

/-- The body of the inner loop up to the loop that polls. -/
def post (x : Config) (b_i : BitVec 64) (s : State) : State :=
  let remoteAddr := x.start + x.blockSize * b_i
  let signal := decide (s.wqe &&& x.signal = 0)
  let wqe := s.wqe + 1
  { s with
    queue := s.queue.post [(.write ((), 0) remoteAddr.toNat x.blockSize.toNat, signal)]
    wqe
    pc := if wqe &&& x.signal = x.signal then .polling b_i else .posting (b_i + 1) }

def poll (b_i : BitVec 64) (s : State) : State :=
  let comp := pollCompletion s.queue 1
  if comp.1 = 0 then s else { s with queue := comp.2, pc := .posting (b_i + 1) }

def goto (s : State) (pc : Pc) : State :=
  { s with pc }

def calls (x : Config) (s : State) : Bool :=
  match s.pc with
  | .posting b_i => decide (b_i < x.numberBlocks) && s.keepRunning
  | .polling _ => true
  | _ => false

end State

def step (x : Config) : Step State Action := fun s a =>
  match a with
  | .cpu =>
    match s.pc with
    | .looping => some (if s.keepRunning then s.fill x else s.goto .returned)
    | .posting b_i =>
      some (if b_i < x.numberBlocks ∧ s.keepRunning = true then s.post x b_i else s.goto .looping)
    | .polling b_i => some (s.poll b_i)
    | .returned | .threw => none
  | .fail => if s.calls x then some (s.goto .threw) else none
  | .execute => s.queue.execute.map fun queue => { s with queue }
  | .stop => some { s with keepRunning := false }

/--
Whenever the writer polls, a signaled WRITE has been posted whose completion has not been polled; and
there are never more of them than the completion queue has entries.
-/
structure SignalsInTime (s : State) : Prop where
  awaited : ∀ b_i, s.pc = .polling b_i → 1 ≤ s.queue.outstanding
  bounded : s.queue.outstanding ≤ cqe

/-- The writer has posted `n` WRITEs and has finished polling for the first `m`. -/
structure Counted (x : Config) (s : State) (n m : Nat) : Prop where
  wqe : s.wqe = BitVec.ofNat 64 n
  outstanding : s.queue.outstanding + covering x.signal.toNat m = avoiding x.signal.toNat n
  pc : match s.pc with
    | .polling _ => n = m + 1 ∧ n &&& x.signal.toNat = x.signal.toNat
    | .threw => n = m ∨ n = m + 1
    | _ => n = m

variable {x : Config} {s s' : State} {n m : Nat}

inductive Moves (x : Config) (s : State) : Action → State → Prop where
  | fill (hpc : s.pc = .looping) : Moves x s .cpu (s.fill x)
  | leave (hpc : s.pc = .looping) : Moves x s .cpu (s.goto .returned)
  | post (b_i : BitVec 64) (hpc : s.pc = .posting b_i) (hlt : b_i < x.numberBlocks)
    : Moves x s .cpu (s.post x b_i)
  | next (b_i : BitVec 64) (hpc : s.pc = .posting b_i) : Moves x s .cpu (s.goto .looping)
  | poll (b_i : BitVec 64) (hpc : s.pc = .polling b_i) : Moves x s .cpu (s.poll b_i)
  | fail : Moves x s .fail (s.goto .threw)
  | execute (queue : SendQueue (Verb Unit)) (h : s.queue.execute = some queue)
    : Moves x s .execute { s with queue }
  | stop : Moves x s .stop { s with keepRunning := false }

theorem moves_of_step {a : Action} (hstep : step x s a = some s') : Moves x s a s' := by
  cases a with
  | cpu =>
    simp only [step] at hstep
    split at hstep
    . next hpc =>
      cases hstep
      split
      . exact .fill hpc
      . exact .leave hpc
    . next b_i hpc =>
      cases hstep
      split
      . next hlt => exact .post b_i hpc hlt.1
      . exact .next b_i hpc
    . next b_i hpc =>
      cases hstep
      exact .poll b_i hpc
    . cases hstep
    . cases hstep
  | fail =>
    simp only [step] at hstep
    split at hstep
    . cases hstep
      exact .fail
    . cases hstep
  | execute =>
    obtain ⟨queue, hqueue, rfl⟩ := Option.map_eq_some_iff.mp hstep
    exact .execute queue hqueue
  | stop =>
    cases hstep
    exact .stop

theorem toNat_and (n : Nat) (v : BitVec 64) : (BitVec.ofNat 64 n &&& v).toNat = n &&& v.toNat := by
  rw [BitVec.toNat_and, BitVec.toNat_ofNat, and_mod_two_pow v.isLt]

theorem and_eq_iff (n : Nat) (v v' : BitVec 64)
    : BitVec.ofNat 64 n &&& v = v' ↔ n &&& v.toNat = v'.toNat := by
  rw [← BitVec.toNat_inj, toNat_and]

namespace Counted

theorem init (x : Config) : Counted x .init 0 0 where
  wqe := rfl
  outstanding := rfl
  pc := rfl

theorem post (h : Counted x s n n) (b_i : BitVec 64)
    : Counted x (s.post x b_i) (n + 1)
        (if (n + 1) &&& x.signal.toNat = x.signal.toNat then n else n + 1) := by
  have hwqe : s.wqe + 1 = BitVec.ofNat 64 (n + 1) := by
    rw [h.wqe, BitVec.ofNat_add]
    rfl
  have hposted : (s.post x b_i).queue.outstanding + covering x.signal.toNat n
      = avoiding x.signal.toNat (n + 1) := by
    have hsignal : s.wqe &&& x.signal = 0 ↔ n &&& x.signal.toNat = 0 := by
      rw [h.wqe]
      exact and_eq_iff n _ _
    rw [avoiding_succ, ← h.outstanding]
    by_cases hzero : n &&& x.signal.toNat = 0
    . have := hsignal.mpr hzero
      simp only [State.post, SendQueue.outstanding_post, this, hzero]
      simp
      omega
    . have : ¬s.wqe &&& x.signal = 0 := fun hs => hzero (hsignal.mp hs)
      simp only [State.post, SendQueue.outstanding_post, this, hzero]
      simp
  have hcovers : s.wqe + 1 &&& x.signal = x.signal ↔
      (n + 1) &&& x.signal.toNat = x.signal.toNat := by
    rw [hwqe]
    exact and_eq_iff (n + 1) _ _
  have hpc : (s.post x b_i).pc
      = if s.wqe + 1 &&& x.signal = x.signal then .polling b_i else .posting (b_i + 1) := rfl
  split
  . next hcover =>
    refine ⟨hwqe, hposted, ?_⟩
    rw [hpc, if_pos (hcovers.mpr hcover)]
    exact ⟨rfl, hcover⟩
  . next hcover =>
    refine ⟨hwqe, ?_, ?_⟩
    . rw [covering_succ, if_neg hcover]
      exact hposted
    . rw [hpc, if_neg fun hs => hcover (hcovers.mp hs)]

theorem poll {b_i : BitVec 64} (h : Counted x s (n + 1) n) (hpc : s.pc = .polling b_i)
    : ∃ m, Counted x (s.poll b_i) (n + 1) m := by
  have hpolled := pollCompletion_outstanding s.queue 1
  by_cases hzero : (pollCompletion s.queue 1).1 = 0
  . exact ⟨n, by rw [State.poll, if_pos hzero]; exact h⟩
  . have hone : (pollCompletion s.queue 1).1 = 1 := by
      have hle : (pollCompletion s.queue 1).1 ≤ 1 := Nat.min_le_left _ _
      omega
    have hcover := h.pc
    rw [hpc] at hcover
    refine ⟨n + 1, ?_⟩
    rw [State.poll, if_neg hzero]
    refine ⟨h.wqe, ?_, rfl⟩
    show (pollCompletion s.queue 1).2.outstanding + _ = _
    rw [covering_succ, if_pos hcover.2, ← h.outstanding, ← hpolled, hone]
    omega

theorem goto (h : Counted x s n n) {pc : Pc} (hpc : pc.isPolling = false)
    : Counted x (s.goto pc) n n := by
  refine ⟨h.wqe, h.outstanding, ?_⟩
  cases pc with
  | polling => simp [Pc.isPolling] at hpc
  | threw => exact .inl rfl
  | looping | posting | returned => rfl

theorem of_not_polling (h : Counted x s n m) (hpc : s.pc.isPolling = false)
    (hthrew : s.pc ≠ .threw) : n = m := by
  have hmatch := h.pc
  cases hs : s.pc with
  | polling => simp [hs, Pc.isPolling] at hpc
  | threw => exact absurd hs hthrew
  | looping | posting | returned => rwa [hs] at hmatch

theorem fail (h : Counted x s n m) : Counted x (s.goto .threw) n m := by
  refine ⟨h.wqe, h.outstanding, ?_⟩
  have hmatch := h.pc
  cases hpc : s.pc with
  | polling =>
    rw [hpc] at hmatch
    exact .inr hmatch.1
  | threw => rwa [hpc] at hmatch
  | looping | posting | returned =>
    rw [hpc] at hmatch
    exact .inl hmatch

theorem step (h : Counted x s n m) {a : Action} (hmoves : Moves x s a s')
    : ∃ n m, Counted x s' n m := by
  cases hmoves with
  | fill hpc =>
    obtain rfl := h.of_not_polling (by rw [hpc]; rfl) (by simp [hpc])
    exact ⟨n, n, h.wqe, h.outstanding, rfl⟩
  | leave hpc | next _ hpc =>
    obtain rfl := h.of_not_polling (by rw [hpc]; rfl) (by simp [hpc])
    exact ⟨n, n, h.goto rfl⟩
  | post b_i hpc =>
    obtain rfl := h.of_not_polling (by rw [hpc]; rfl) (by simp [hpc])
    exact ⟨_, _, h.post b_i⟩
  | poll b_i hpc =>
    have hcover := h.pc
    rw [hpc] at hcover
    obtain ⟨rfl, _⟩ := hcover
    exact ⟨m + 1, h.poll hpc⟩
  | fail => exact ⟨n, m, h.fail⟩
  | execute queue hqueue =>
    refine ⟨n, m, h.wqe, ?_, h.pc⟩
    rw [← h.outstanding, ← SendQueue.outstanding_execute hqueue]
  | stop => exact ⟨n, m, h.wqe, h.outstanding, h.pc⟩

/-- The backlog is what the numbers without a bit of the mask are ahead of those with all bits. -/
theorem outstanding_le (h : Counted x s n m)
    : s.queue.outstanding ≤ 2 ^ clearBits x.signal.toNat := by
  have hm : n ≤ m + 1 := by
    have hmatch := h.pc
    cases hpc : s.pc with
    | polling =>
      rw [hpc] at hmatch
      omega
    | threw | looping | posting | returned =>
      rw [hpc] at hmatch
      simp only at hmatch
      omega
  have hle := avoiding_le_covering x.signal.toNat m
  have hmono := avoiding_mono (S := x.signal.toNat) hm
  have houtstanding := h.outstanding
  omega

theorem awaited (h : Counted x s n m) {b_i : BitVec 64} (hpc : s.pc = .polling b_i)
    : 1 ≤ s.queue.outstanding := by
  have hcover := h.pc
  rw [hpc] at hcover
  obtain ⟨rfl, hcover⟩ := hcover
  have hlt := covering_lt_avoiding hcover
  have houtstanding := h.outstanding
  omega

end Counted

theorem counted_of_reach (h : Step.Reach (step x) Step.any .init s) : ∃ n m, Counted x s n m := by
  refine h.invariant (I := fun s => ∃ n m, Counted x s n m) ⟨0, 0, .init x⟩ ?_
  rintro s a s' ⟨n, m, hcounted⟩ _ hstep
  exact hcounted.step (moves_of_step hstep)

/-- While the writer polls, either a completion waits or the network card can execute a request. -/
theorem not_blocked (h : Step.Reach (step x) Step.any .init s) {b_i : BitVec 64}
    (hpc : s.pc = .polling b_i)
    : 1 ≤ s.queue.completions ∨ ∃ s', step x s .execute = some s' := by
  obtain ⟨n, m, hcounted⟩ := counted_of_reach h
  by_cases hzero : s.queue.completions = 0
  . obtain ⟨queue, hqueue⟩ := SendQueue.exists_execute (q := s.queue) (by
      rw [hzero]
      exact hcounted.awaited hpc)
    refine .inr ⟨{ s with queue }, ?_⟩
    simp [step, hqueue]
  . exact .inl (Nat.pos_of_ne_zero hzero)

section Backlog

structure Ready (x : Config) (s : State) (n : Nat) : Prop where
  counted : Counted x s n n
  keepRunning : s.keepRunning = true
  pc : ∃ b_i, s.pc = .posting b_i ∧ b_i < x.numberBlocks

theorem zero_lt (h : x.numberBlocks ≠ 0) : 0 < x.numberBlocks := by
  rw [BitVec.lt_def]
  apply Nat.pos_of_ne_zero
  intro hzero
  exact h (BitVec.eq_of_toNat_eq hzero)

theorem exists_ready (hblocks : x.numberBlocks ≠ 0) (h : Counted x s n n)
    (hkeep : s.keepRunning = true) {b_i : BitVec 64} (hpc : s.pc = .posting b_i)
    : ∃ s', Step.Reach (step x) Step.any s s' ∧ Ready x s' n := by
  by_cases hlt : b_i < x.numberBlocks
  . exact ⟨s, .refl, h, hkeep, b_i, hpc, hlt⟩
  . have hloop : step x s .cpu = some (s.goto .looping) := by
      simp [step, hpc, hlt]
    have hfill : step x (s.goto .looping) .cpu = some ((s.goto .looping).fill x) := by
      simp [step, State.goto, hkeep]
    refine ⟨_, .next .cpu (.next .cpu .refl trivial hloop) trivial hfill, ?_, hkeep, 0, rfl, ?_⟩
    . exact ⟨h.wqe, h.outstanding, rfl⟩
    . exact zero_lt hblocks

theorem Ready.post (h : Ready x s n)
    : ∃ b_i, Step.Reach (step x) Step.any s (s.post x b_i)
        ∧ (s.post x b_i).keepRunning = true := by
  obtain ⟨b_i, hpc, hlt⟩ := h.pc
  refine ⟨b_i, .next .cpu .refl trivial ?_, h.keepRunning⟩
  simp [step, hpc, hlt, h.keepRunning]

theorem post_pc (s : State) (b_i : BitVec 64)
    : (s.post x b_i).pc = .polling b_i ∨ (s.post x b_i).pc = .posting (b_i + 1) := by
  unfold State.post
  dsimp only
  split
  . exact .inl rfl
  . exact .inr rfl

theorem exists_ready_of_lt (hblocks : x.numberBlocks ≠ 0) (h : n < max x.signal.toNat 1)
    : ∃ s, Step.Reach (step x) Step.any .init s ∧ Ready x s n := by
  induction n with
  | zero =>
    have hfill : step x .init .cpu = some (State.init.fill x) := rfl
    refine ⟨_, .next .cpu .refl trivial hfill, ⟨rfl, rfl, rfl⟩, rfl, 0, rfl, ?_⟩
    exact zero_lt hblocks
  | succ n ih =>
    obtain ⟨s, hreach, hready⟩ := ih (by omega)
    obtain ⟨b_i, hpost, hkeep⟩ := hready.post
    have hcounted := hready.counted.post b_i
    rw [if_neg (not_covers_of_lt (by omega))] at hcounted
    have hpc : (s.post x b_i).pc = .posting (b_i + 1) := by
      have hmatch := hcounted.pc
      obtain hpc | hpc := post_pc (x := x) s b_i
      . rw [hpc] at hmatch
        omega
      . exact hpc
    obtain ⟨s', hreach', hready'⟩ := exists_ready hblocks hcounted hkeep hpc
    exact ⟨s', (hreach.trans hpost).trans hreach', hready'⟩

/-- When the counter reaches the mask, none of the signaled WRITEs has been polled for. -/
theorem exists_backlog (hblocks : x.numberBlocks ≠ 0)
    : ∃ s, Step.Reach (step x) Step.any .init s
        ∧ s.queue.outstanding = 2 ^ clearBits x.signal.toNat := by
  obtain ⟨n, hn⟩ : ∃ n, n + 1 = max x.signal.toNat 1 :=
    ⟨max x.signal.toNat 1 - 1, by omega⟩
  obtain ⟨s, hreach, hready⟩ := exists_ready_of_lt (n := n) hblocks (by omega)
  obtain ⟨b_i, hpost, _⟩ := hready.post
  refine ⟨_, hreach.trans hpost, ?_⟩
  have hcover : (n + 1) &&& x.signal.toNat = x.signal.toNat := by
    by_cases hzero : x.signal.toNat = 0
    . rw [hzero, Nat.and_zero]
    . rw [hn, Nat.max_eq_left (Nat.pos_of_ne_zero hzero), Nat.and_self]
  have houtstanding := (hready.counted.post b_i).outstanding
  rw [if_pos hcover, covering_eq_zero hn, hn, avoiding_max] at houtstanding
  exact houtstanding

end Backlog

theorem outstanding_of_noBlocks (hblocks : x.numberBlocks = 0)
    (h : Step.Reach (step x) Step.any .init s) : s.queue.outstanding = 0 := by
  have hkept : s.queue.outstanding = 0 ∧ s.pc.isPolling = false := by
    refine h.invariant (I := fun s => s.queue.outstanding = 0 ∧ s.pc.isPolling = false)
      ⟨rfl, rfl⟩ ?_
    rintro s a s' ⟨hzero, hpolling⟩ _ hstep
    cases moves_of_step hstep with
    | fill | leave | next | fail => exact ⟨hzero, rfl⟩
    | post b_i _ hlt =>
      rw [hblocks] at hlt
      exact absurd hlt BitVec.not_lt_zero
    | poll b_i hpc =>
      rw [hpc] at hpolling
      cases hpolling
    | execute queue hqueue =>
      exact ⟨by rw [SendQueue.outstanding_execute hqueue, hzero], hpolling⟩
    | stop => exact ⟨hzero, hpolling⟩
  exact hkept.1

theorem signalsInTime_iff (x : Config)
    : (∀ s, Step.Reach (step x) Step.any .init s → SignalsInTime s)
        ↔ x.numberBlocks = 0 ∨ clearBits x.signal.toNat ≤ 4 := by
  constructor
  . intro h
    by_cases hblocks : x.numberBlocks = 0
    . exact .inl hblocks
    . right
      obtain ⟨s, hreach, houtstanding⟩ := exists_backlog hblocks
      have hbounded := (h s hreach).bounded
      rw [houtstanding] at hbounded
      exact (Nat.pow_le_pow_iff_right (by omega)).mp (show _ ≤ 2 ^ 4 from hbounded)
  . intro h s hreach
    obtain ⟨n, m, hcounted⟩ := counted_of_reach hreach
    refine ⟨fun b_i hpc => hcounted.awaited hpc, ?_⟩
    obtain hblocks | hclear := h
    . rw [outstanding_of_noBlocks hblocks hreach]
      exact Nat.zero_le _
    . exact Nat.le_trans hcounted.outstanding_le (Nat.pow_le_pow_right (by omega) hclear)

/-- A speed that is not a power of two; the rest are the defaults. -/
def unevenConfig : Config where
  writeSpeed := 33
  blockSize := 512
  start := 0
  sizeBytes := 1024 * 1024 * 50

/-- The first 32 WRITEs are all signaled, and polling begins after the last of them. -/
theorem not_signalsInTime_uneven
    : ∃ s, Step.Reach (step unevenConfig) Step.any .init s ∧ s.queue.outstanding = 32
        ∧ ¬SignalsInTime s := by
  obtain ⟨s, hreach, hs⟩ := Step.exists_reach_of_run
    (show (Step.run (step unevenConfig) .init (List.replicate 33 .cpu)).any
      (fun s => s.queue.outstanding = 32) = true by decide)
  rw [decide_eq_true_eq] at hs
  refine ⟨s, hreach, hs, ?_⟩
  intro h
  have hbounded := h.bounded
  rw [hs] at hbounded
  exact absurd hbounded (by decide)

end BrokenRemoteWrite
