import RdmaSync.BenchmarkHelper.Barrier
import RdmaSync.Rdma.ArrivalCounter

/-!
This module contains the proofs about the barrier: no worker leaves a stage early, and no worker
misses a stage as long as the others only go on after everybody has left the last one.
-/

namespace BenchmarkHelper

open Rdma CommunicationManager
open Rdma.Action (cpus touches serves)

namespace Barrier

variable (b : Barrier)

def counter : ArrivalCounter BarrierOp where
  addr := b.barrierAddr
  addr_aligned := b.barrierAddr_aligned
  stage := BarrierOp.stage

section Programs

variable (stage : Nat)

theorem arrive_eq
    : b.arrive stage = .post .rctx true (.fetchAdd 1 (.localBarrierBuffer, 0) b.barrierAddr)
        (.poll .rctx 1 (.load (.localBarrierBuffer, 0) fun x => .ret (x == b.expected stage))) := by
  rfl

theorem spin_eq
    : b.spin stage = .post .rctx true (.read (.localBarrierBuffer, 0) b.barrierAddr 8)
        (.poll .rctx 1 (.load (.localBarrierBuffer, 0) fun x => .ret (x == b.expected stage))) := by
  rfl

theorem synced_program (op : BarrierOp)
    : Synced .rctx (fun _ u => u = []) (b.program op) [] := by
  cases op with
  | arrive stage =>
    show Synced _ _ (b.arrive stage) []
    rw [arrive_eq]
    exact ⟨rfl, fun _ h => h.elim, rfl, quiet_nil _, fun _ => rfl⟩
  | spin stage =>
    show Synced _ _ (b.spin stage) []
    rw [spin_eq]
    exact ⟨rfl, fun _ h => h.elim, rfl, quiet_nil _, fun _ => rfl⟩

end Programs

section Protocol

variable [Fintype W]

theorem expected_eq (hcard : Fintype.card W = b.participants.toNat) (stage : Nat)
    : b.expected stage = BitVec.ofNat 64 (Fintype.card W * stage) := by
  unfold expected
  rw [BitVec.ofNat_mul, hcard, BitVec.ofNat_toNat, BitVec.setWidth_eq]

variable [DecidableEq W]

def Ready (b : Barrier) (w : W) (done : List (BarrierOp × Bool))
    (s : Shared W Buffer BarrierOp) : Prop :=
  if calling done then
    b.counter.arrivals w s.hist = returned done + 1 ∧
      ∀ op, done.head? = some (op, false) → op.stage = returned done + 1
  else
    b.counter.arrivals w s.hist = returned done ∧
      ∀ w', returned done ≤ b.counter.arrivals w' s.hist

def Passed (b : Barrier) (op : BarrierOp) (o : Except Terminate Bool)
    (s : Shared W Buffer BarrierOp) : Prop :=
  match o with
  | .ok isOver => isOver = true →
      op.isSpin = true ∧ ∀ w' : W, op.stage ≤ b.counter.arrivals w' s.hist
  | .error _ => False

variable {b : Barrier} {nic : Nic} {w : W} {done : List (BarrierOp × Bool)} {l : Local Buffer}
  {s : Shared W Buffer BarrierOp}

def Outcome (b : Barrier) (w : W) (op : BarrierOp) (done : List (BarrierOp × Bool))
    (o : Except Terminate Bool) : Assertion W Buffer BarrierOp :=
  fun _ s => b.Passed op o s ∧
    match o with
    | .ok isOver => b.Ready w ((op, isOver) :: done) s
    | .error _ => False

theorem returned_false (op : BarrierOp) : returned ((op, false) :: done) = returned done := by
  rfl

theorem returned_true (op : BarrierOp) : returned ((op, true) :: done) = returned done + 1 := by
  simp [returned]

theorem wp_arriveOp (hcard : Fintype.card W = b.participants.toNat) (hcalling : calling done = false)
    (hready : b.Ready w done s)
    : wp b.counter.protocol nic w (.arrive (returned done + 1))
        (b.Outcome w (.arrive (returned done + 1)) done) (b.arrive (returned done + 1)) l s := by
  have hlt : Fintype.card W < 2 ^ 64 := by
    rw [hcard]
    exact b.participants.isLt
  simp only [Ready, hcalling, Bool.false_eq_true, ↓reduceIte] at hready
  rw [arrive_eq]
  apply ArrivalCounter.wp_arrive (c := b.counter) hlt rfl hready.1 hready.2
  intro s₁ x _ harrivals₁ hx
  rw [← b.expected_eq hcard] at hx
  rw [wp_poll, wp_load, Local.set_self]
  intro s₂ hr _
  have harrivals₂ := (b.counter.arrivals_steady w _).rely hr harrivals₁
  rw [beq_eq_false_iff_ne.mpr hx]
  refine ⟨by simp [Passed], ?_⟩
  simp [Ready, calling, returned_false, harrivals₂, BarrierOp.stage]

theorem wp_spinOp (hcard : Fintype.card W = b.participants.toNat)
    (hinv : b.counter.Inv s) (hw : b.counter.arrivals w s.hist = returned done + 1)
    : wp b.counter.protocol nic w (.spin (returned done + 1))
        (b.Outcome w (.spin (returned done + 1)) done) (b.spin (returned done + 1)) l s := by
  have hlt : Fintype.card W < 2 ^ 64 := by
    rw [hcard]
    exact b.participants.isLt
  rw [spin_eq]
  apply ArrivalCounter.wp_readCounter (c := b.counter) hlt hinv hw
  intro l₁ s₁ _ harrivals₁ hcomplete₁
  rw [wp_poll, wp_load, ← b.expected_eq hcard] at *
  intro s₂ hr _
  have harrivals₂ := (b.counter.arrivals_steady w _).rely hr harrivals₁
  cases hx : l₁ .localBarrierBuffer 0 == b.expected (returned done + 1) with
  | false =>
    refine ⟨by simp [Passed], ?_⟩
    simp [Ready, calling, returned_false, harrivals₂, BarrierOp.stage]
  | true =>
    have hall := (b.counter.arrived_steady w _).rely hr (hcomplete₁ (beq_iff_eq.mp hx))
    refine ⟨fun _ => ⟨rfl, hall⟩, ?_⟩
    simp only [Ready, calling, returned_true, Bool.not_true, Bool.false_eq_true, ↓reduceIte]
    exact ⟨harrivals₂, hall⟩

def barrierSpec (b : Barrier) (nic : Nic) (hcard : Fintype.card W = b.participants.toNat)
    : Spec (W := W) b.counter.protocol (b.workload nic) .rctx where
  ready := fun w done _ s => b.Ready w done s
  post := fun _ op _ o _ s => b.Passed op o s
  leftover := fun u => u = []
  ends := fun _ _ u => u = []
  leftover_of_ends := id
  synced := by
    rintro op _ rfl
    exact b.synced_program op
  wp_program := by
    intro w op since done l s hfollows hinv _ hready
    have hwp : wp b.counter.protocol nic w op (b.Outcome w op done) (b.program op) l s := by
      cases hfollows with
      | start hstart =>
        simp only [workload, Bool.and_eq_true, Bool.not_eq_true', beq_iff_eq] at hstart
        obtain ⟨hcalling, rfl⟩ := hstart
        exact wp_arriveOp hcard hcalling hready
      | @goto done prev op isOver hgoto =>
        cases isOver with
        | true => simp [workload] at hgoto
        | false =>
          simp only [workload, Next.goto.injEq] at hgoto
          subst hgoto
          simp only [Ready, calling, Bool.not_false, ↓reduceIte, List.head?_cons] at hready
          obtain ⟨harrivals, hstage⟩ := hready
          rw [hstage prev rfl]
          exact wp_spinOp hcard hinv harrivals
      | retry hretry => simp [workload] at hretry
    apply hwp.mono hinv
    rintro o l' s' _ ⟨hpassed, h⟩
    cases o with
    | ok => exact ⟨hpassed, fun _ => h⟩
    | error => exact h.elim

end Protocol

section Calls

/-- What a worker is at belongs to the stage that comes after those it has returned from. -/
structure Calls (wk : Worker Ctx Buffer Terminate Bool BarrierOp) : Prop where
  control : ∀ op since p, wk.control = .running op since p → op.stage = returned wk.done + 1
  queue : ∀ c, ∀ f ∈ wk.queue c, f.op.stage = returned wk.done + 1
  done : ∀ op, (op, true) ∈ wk.done → 1 ≤ op.stage
  idle : wk.control = .idle → calling wk.done = false

variable {b : Barrier} {nic : Nic} {wk : Worker Ctx Buffer Terminate Bool BarrierOp}

theorem Calls.start (h : Calls wk) {op : BarrierOp}
    (hstart : (b.workload nic).mayStart wk.done op = true) (since : Nat)
    (p : Code Bool) : Calls { wk with control := .running op since p } := by
  refine ⟨?_, h.queue, h.done, by simp⟩
  rintro _ _ _ ⟨⟩
  simp only [workload, Bool.and_eq_true, beq_iff_eq] at hstart
  rw [hstart.2]
  rfl

theorem Calls.cpu (h : Calls wk) (n : Nat) : Calls (wk.cpu (b.workload nic) n) := by
  cases hcontrol : wk.control with
  | idle => simpa only [Worker.cpu, hcontrol] using h
  | running op since p =>
    have hop := h.control op since p hcontrol
    cases p with
    | ret | throw => simpa only [Worker.cpu, hcontrol] using h
    | post c signaled v next =>
      simp only [Worker.cpu, hcontrol]
      refine ⟨?_, ?_, h.done, by simp⟩
      . rintro _ _ _ ⟨⟩
        exact hop
      . dsimp only
        apply forall_mem_update h.queue
        intro f hf
        rcases List.mem_append.mp hf with hf | hf
        . exact h.queue c f hf
        . rw [List.mem_singleton.mp hf]
          exact hop
    | poll | load | store =>
      simp only [Worker.cpu, hcontrol]
      refine ⟨?_, h.queue, h.done, by simp⟩
      rintro _ _ _ ⟨⟩
      exact hop

theorem Calls.touch (h : Calls wk) (c : Ctx) (chunk : Nat) (m : Mem)
    : Calls (wk.touch (b.workload nic) c chunk m) := by
  unfold Worker.touch
  split
  . next f fs hq =>
    have hqueue := h.queue c
    rw [hq] at hqueue
    refine ⟨h.control, ?_, h.done, h.idle⟩
    dsimp only
    apply forall_mem_update h.queue
    intro g hg
    rcases List.mem_cons.mp hg with rfl | hg
    . exact hqueue f List.mem_cons_self
    . exact hqueue g (List.mem_cons_of_mem _ hg)
  . exact h

theorem Calls.complete (h : Calls wk) (c : Ctx) : Calls (wk.complete c) := by
  unfold Worker.complete
  split
  . next f fs hq =>
    have hqueue := h.queue c
    rw [hq] at hqueue
    refine ⟨h.control, ?_, h.done, h.idle⟩
    dsimp only
    apply forall_mem_update h.queue
    exact fun g hg => hqueue g (List.mem_cons_of_mem _ hg)
  . exact h

theorem Calls.finish (h : Calls wk) (now : Nat) (he : wk.finishEnabled (b.workload nic) = true)
    (hqueue : ∀ op since, wk.control = .running op since (.ret true) → ∀ c, wk.queue c = [])
    : Calls (wk.finish (b.workload nic) now) := by
  cases hcontrol : wk.control with
  | idle => simpa only [Worker.finish, hcontrol] using h
  | running op since p =>
    have hop := h.control op since p hcontrol
    cases p with
    | ret isOver =>
      simp only [Worker.finish, hcontrol, workload]
      cases isOver with
      | false =>
        refine ⟨?_, h.queue, ?_, by simp [Workload.resume]⟩
        . rintro _ _ _ ⟨⟩
          exact hop
        . intro op' hmem
          simp only [List.mem_cons, Prod.mk.injEq, Bool.true_eq_false, and_false, false_or] at hmem
          exact h.done op' hmem
      | true =>
        refine ⟨fun _ _ _ hidle => by simp [Workload.resume] at hidle, ?_, ?_, fun _ => rfl⟩
        . intro c f hf
          simp only [hqueue op since hcontrol c, List.not_mem_nil] at hf
        . intro op' hmem
          simp only [List.mem_cons, Prod.mk.injEq, and_true] at hmem
          rcases hmem with rfl | hmem
          . omega
          . exact h.done op' hmem
    | throw e =>
      simp [Worker.finishEnabled, hcontrol, workload, Next.isStop] at he
    | _ => simpa only [Worker.finish, hcontrol] using h

theorem done_next [DecidableEq W] (b : Barrier) (nic : Nic)
    (s : Sys W Ctx Buffer Terminate Bool BarrierOp) (a : Action W Ctx BarrierOp) (w : W)
    : ((s.next (b.workload nic) a).worker w).done = (s.worker w).done ∨
      ∃ d since, (s.worker w).control = .running d.1 since (.ret d.2) ∧
        ((s.next (b.workload nic) a).worker w).done = d :: (s.worker w).done := by
  exact Sys.done_next a w

theorem returned_mono [DecidableEq W] (b : Barrier) (nic : Nic)
    (s : Sys W Ctx Buffer Terminate Bool BarrierOp) (a : Action W Ctx BarrierOp) (w : W)
    : returned (s.worker w).done ≤ returned ((s.next (b.workload nic) a).worker w).done := by
  rcases done_next b nic s a w with hdone | ⟨d, _, _, hdone⟩
  . rw [hdone]
  . rw [hdone]
    exact (List.sublist_cons_self _ _).countP_le

end Calls

section Run

variable [DecidableEq W] [Fintype W]

/-- When a worker returns, all workers have arrived at the stage, as its last READ has shown. -/
structure NoneEarly (b : Barrier) (s : Sys W Ctx Buffer Terminate Bool BarrierOp) : Prop where
  returns : ∀ w op since, (s.worker w).control = .running op since (.ret true) →
    op.isSpin = true ∧ ∀ w', b.counter.Arrived w' op.stage s.shared.hist
  returned : ∀ w op, (op, true) ∈ (s.worker w).done →
    op.isSpin = true ∧ ∀ w', b.counter.Arrived w' op.stage s.shared.hist

/-- The counter has not gone beyond a stage that a worker is still at. -/
def NoneMisses (b : Barrier) (s : Sys W Ctx Buffer Terminate Bool BarrierOp) : Prop :=
  ∀ w op since p, (s.worker w).control = .running op since p →
    (load64 s.shared.mem b.barrierAddr).toNat ≤ Fintype.card W * op.stage

/--
The step lets a fetch-and-add take effect only if all other workers have returned from the stage
before.
-/
def othersReturned (s : Sys W Ctx Buffer Terminate Bool BarrierOp)
    (a : Action W Ctx BarrierOp) : Bool :=
  match a with
  | .touch w c _ =>
    match (s.worker w).queue c with
    | f :: _ =>
      f.verb.isRead || decide (∀ w', w' ≠ w → f.op.stage ≤ returned (s.worker w').done + 1)
    | [] => true
  | _ => true

variable {b : Barrier} {nic : Nic} {hcard : Fintype.card W = b.participants.toNat}
  {s₀ s : Sys W Ctx Buffer Terminate Bool BarrierOp}

structure RunOk (b : Barrier) (nic : Nic) (hcard : Fintype.card W = b.participants.toNat)
    (s : Sys W Ctx Buffer Terminate Bool BarrierOp) : Prop where
  ok : (b.barrierSpec nic hcard).SysOk s
  calls : ∀ w, Calls (s.worker w)
  passed : ∀ w op, (op, true) ∈ (s.worker w).done →
    op.isSpin = true ∧ ∀ w', op.stage ≤ b.counter.arrivals w' s.shared.hist

theorem RunOk.passed_ret (h : RunOk b nic hcard s) {w : W} {op : BarrierOp} {since : Nat}
    (hcontrol : (s.worker w).control = .running op since (.ret true))
    : op.isSpin = true ∧ ∀ w', op.stage ≤ b.counter.arrivals w' s.shared.hist := by
  exact h.ok.post_ret _ hcontrol (fun _ h => h) rfl

theorem RunOk.next (h : RunOk b nic hcard s) (a : Action W Ctx BarrierOp)
    (he : s.enabled (b.workload nic) a = true) : RunOk b nic hcard (s.next (b.workload nic) a) := by
  refine ⟨?_, ?_, ?_⟩
  . have hguards : Spec.Guards (b.counter.protocol : Protocol W Buffer BarrierOp)
        (Sys.anyStep : Sys W Ctx Buffer Terminate Bool BarrierOp → _) := fun _ _ _ _ _ _ _ _ => trivial
    exact (b.barrierSpec nic hcard).sysOk_next hguards h.ok a he trivial
  . cases a with
    | start w op =>
      simp only [Sys.enabled] at he
      split at he
      . exact Sys.forall_setWorker h.calls ((h.calls w).start he _ _)
      . simp at he
    | cpu w n => exact Sys.forall_setWorker h.calls ((h.calls w).cpu n)
    | finish w =>
      apply Sys.forall_setWorker h.calls
      apply (h.calls w).finish _ he
      intro op since hcontrol c
      exact h.ok.queue_ret _ hcontrol (fun _ h => h) c
    | touch w c chunk =>
      simp only [Sys.next]
      split
      . exact Sys.forall_setWorker h.calls ((h.calls w).touch c chunk _)
      . exact h.calls
    | complete w c => exact Sys.forall_setWorker h.calls ((h.calls w).complete c)
  . intro w op hmem
    have hsuffix : s.shared.hist <:+ (s.next (b.workload nic) a).shared.hist :=
      Sys.hist_suffix_next a
    have hmono (w' : W) := ArrivalCounter.arrivals_mono (c := b.counter) hsuffix w'
    have hpassed : op.isSpin = true ∧ ∀ w', op.stage ≤ b.counter.arrivals w' s.shared.hist := by
      rcases done_next b nic s a w with hdone | ⟨d, since, hcontrol, hdone⟩
      . rw [hdone] at hmem
        exact h.passed w op hmem
      . rw [hdone, List.mem_cons] at hmem
        rcases hmem with rfl | hmem
        . exact h.passed_ret hcontrol
        . exact h.passed w op hmem
    exact ⟨hpassed.1, fun w' => Nat.le_trans (hpassed.2 w') (hmono w')⟩

theorem RunOk.initial (hfresh : s₀.Fresh) (hzero : load64 s₀.shared.mem b.barrierAddr = 0)
    : RunOk b nic hcard s₀ := by
  have hword : s₀.shared.mem b.counter.idx = 0 :=
    (b.counter.load_addr s₀.shared.mem).symm.trans hzero
  refine ⟨?_, ?_, ?_⟩
  . apply (b.barrierSpec nic hcard).sysOk_fresh (ArrivalCounter.inv_initial hfresh.hist hword)
      hfresh rfl
    intro w s' hr _
    have harrivals : b.counter.arrivals w s₀.shared.hist = 0 := by
      simp [hfresh.hist, ArrivalCounter.arrivals]
    show b.Ready w [] s'
    simp only [Ready, calling, Bool.false_eq_true, ↓reduceIte]
    exact ⟨(b.counter.arrivals_steady w 0).rely hr harrivals, fun _ => Nat.zero_le _⟩
  . intro w
    refine ⟨?_, ?_, ?_, ?_⟩
    . simp [hfresh.control]
    . simp [hfresh.queue]
    . simp [hfresh.done]
    . simp [hfresh.done, calling]
  . simp [hfresh.done]

theorem RunOk.of_reach (hcard : Fintype.card W = b.participants.toNat) (hfresh : s₀.Fresh)
    (hzero : load64 s₀.shared.mem b.barrierAddr = 0)
    (hreach : Sys.Reach (b.workload nic) Sys.anyStep s₀ s) : RunOk b nic hcard s := by
  induction hreach with
  | refl => exact .initial hfresh hzero
  | step a _ he _ ih => exact ih.next a he

/-- No worker leaves a stage before all workers have arrived there. -/
theorem barrier_none_early (hcard : Fintype.card W = b.participants.toNat) (hfresh : s₀.Fresh)
    (hzero : load64 s₀.shared.mem b.barrierAddr = 0)
    (hreach : Sys.Reach (b.workload nic) Sys.anyStep s₀ s) : b.NoneEarly s := by
  have hok := RunOk.of_reach hcard hfresh hzero hreach
  have hinv : b.counter.Inv s.shared := hok.ok.inv
  constructor
  . intro w op since hcontrol
    obtain ⟨hspin, harrivals⟩ := hok.passed_ret hcontrol
    have hstage := (hok.calls w).control op since _ hcontrol
    exact ⟨hspin, fun w' => hinv.arrived w' _ (by omega) (harrivals w')⟩
  . intro w op hmem
    obtain ⟨hspin, harrivals⟩ := hok.passed w op hmem
    exact ⟨hspin, fun w' => hinv.arrived w' _ ((hok.calls w).done op hmem) (harrivals w')⟩

/-- Nobody has arrived at a stage that is not the next one of all workers. -/
def NoneAhead (b : Barrier) (s : Sys W Ctx Buffer Terminate Bool BarrierOp) : Prop :=
  ∀ w w', b.counter.arrivals w s.shared.hist ≤ returned (s.worker w').done + 1

theorem NoneAhead.next (h : b.NoneAhead s) (hok : RunOk b nic hcard s)
    {a : Action W Ctx BarrierOp} (he : s.enabled (b.workload nic) a = true)
    (hcond : othersReturned s a = true) : b.NoneAhead (s.next (b.workload nic) a) := by
  have hsame (hshared : (s.next (b.workload nic) a).shared = s.shared)
      : b.NoneAhead (s.next (b.workload nic) a) := by
    intro w w'
    rw [hshared]
    have := h w w'
    have := returned_mono b nic s a w'
    omega
  cases a with
  | touch w c chunk =>
    simp only [Sys.enabled] at he
    split at he
    . next f fs hq =>
      have hshared : (s.next (b.workload nic) (.touch w c chunk)).shared
          = s.shared.push (f.event w chunk) := by
        simp only [Sys.next, hq]
      cases (hok.ok.worker w).permit _ hok.ok.inv hq he trivial with
      | read hread =>
        intro v v'
        rw [hshared, ArrivalCounter.arrivals_of_isRead hread]
        have := h v v'
        have := returned_mono b nic s (.touch w c chunk) v'
        omega
      | arrive harrival hstage _ =>
        have hnot : f.verb.isRead = false := by
          rw [← Bool.not_eq_true]
          intro hread
          have := b.counter.isArrival_of_isRead (e := f.event w chunk) hread
          rw [harrival] at this
          simp at this
        have hnext := (hok.calls w).queue c f (by rw [hq]; exact List.mem_cons_self)
        have hstage : f.op.stage = b.counter.arrivals w s.shared.hist + 1 := hstage
        simp only [othersReturned, hq, hnot, Bool.false_or, decide_eq_true_eq] at hcond
        intro v v'
        have hmono := returned_mono b nic s (.touch w c chunk) v'
        have hreturned : f.op.stage ≤ returned (s.worker v').done + 1 := by
          by_cases hv' : v' = w
          . rw [hv', hnext]
          . exact hcond v' hv'
        rw [hshared, ArrivalCounter.arrivals_push]
        have := h v v'
        split
        . next heq =>
          have hv : w = v := heq.1
          subst hv
          omega
        . omega
    . simp at he
  | start | cpu | finish | complete => exact hsame (Sys.next_shared (by simp))

/-- No worker misses a stage if nobody goes on before all others have left the last one. -/
theorem barrier_none_misses (hcard : Fintype.card W = b.participants.toNat) (hfresh : s₀.Fresh)
    (hzero : load64 s₀.shared.mem b.barrierAddr = 0)
    (hreach : Sys.Reach (b.workload nic) (fun s a => othersReturned s a = true) s₀ s)
    : b.NoneMisses s := by
  have hok := RunOk.of_reach hcard hfresh hzero (hreach.mono fun _ _ _ => trivial)
  have hahead : b.NoneAhead s := by
    induction hreach with
    | refl =>
      intro w w'
      simp [hfresh.hist, ArrivalCounter.arrivals]
    | step a hreach he hcond ih =>
      have hok := RunOk.of_reach hcard hfresh hzero (hreach.mono fun _ _ _ => trivial)
      exact (ih hok).next hok he hcond
  intro w op since p hcontrol
  have hinv : b.counter.Inv s.shared := hok.ok.inv
  have hstage := (hok.calls w).control op since p hcontrol
  have hsum := Finset.sum_le_card_nsmul Finset.univ (fun v => b.counter.arrivals v s.shared.hist)
    op.stage (fun v _ => by rw [hstage]; exact hahead v w)
  rw [Finset.card_univ, Nat.nsmul_eq_mul] at hsum
  show (load64 s.shared.mem b.counter.addr).toNat ≤ _
  rw [b.counter.load_addr, hinv.word, BitVec.toNat_ofNat]
  exact Nat.le_trans (Nat.mod_le _ _) hsum

/-- A worker misses its stage as soon as another one arrives at the next. -/
theorem misses_of_early (hcard : Fintype.card W = b.participants.toNat) (hfresh : s₀.Fresh)
    (hzero : load64 s₀.shared.mem b.barrierAddr = 0)
    (hreach : Sys.Reach (b.workload nic) Sys.anyStep s₀ s) {w : W} {c : Ctx} {chunk : Nat}
    (he : s.enabled (b.workload nic) (.touch w c chunk) = true)
    (hearly : othersReturned s (.touch w c chunk) = false)
    (hlt : ∑ v, b.counter.arrivals v s.shared.hist + 1 < 2 ^ 64)
    : ¬b.NoneMisses (s.next (b.workload nic) (.touch w c chunk)) := by
  have hok := RunOk.of_reach hcard hfresh hzero hreach
  have hok' := hok.next (.touch w c chunk) he
  have hinv' : b.counter.Inv (s.next (b.workload nic) (.touch w c chunk)).shared := hok'.ok.inv
  simp only [Sys.enabled] at he
  split at he
  . next f fs hq =>
    simp only [othersReturned, hq, Bool.or_eq_false_iff, decide_eq_false_iff_not, not_forall] at hearly
    obtain ⟨hnot, w', hne, hbehind⟩ := hearly
    cases (hok.ok.worker w).permit _ hok.ok.inv hq he trivial with
    | read hread =>
      have hread' : f.verb.isRead = true := hread
      simp [hnot] at hread'
    | arrive harrival hstage hothers =>
      have hstage : f.op.stage = b.counter.arrivals w s.shared.hist + 1 := hstage
      have hothers : ∀ v, b.counter.arrivals w s.shared.hist ≤ b.counter.arrivals v s.shared.hist :=
        hothers
      cases hcontrol : (s.worker w').control with
      | idle =>
        -- A worker between two stages has not arrived more often than it has returned.
        have hready := hok.ok.ready _ hcontrol (hok.ok.queue_idle _ hcontrol (fun _ h => h) _)
        have hready : b.Ready w' (s.worker w').done s.shared := hready
        simp only [Ready, (hok.calls w').idle hcontrol, Bool.false_eq_true, ↓reduceIte] at hready
        have := hothers w'
        omega
      | running op since p =>
        intro hnone
        have hshared : (s.next (b.workload nic) (.touch w c chunk)).shared
            = s.shared.push (f.event w chunk) := by
          simp only [Sys.next, hq]
        have hcontrol' : ((s.next (b.workload nic) (.touch w c chunk)).worker w').control
            = .running op since p := by
          simp [Sys.next, hq, Sys.setWorker, hne, hcontrol]
        have hle := hnone w' op since p hcontrol'
        have hstage' := (hok.calls w').control op since p hcontrol
        have hall : Fintype.card W * op.stage ≤ ∑ v, b.counter.arrivals v s.shared.hist := by
          have := Finset.card_nsmul_le_sum Finset.univ
            (fun v => b.counter.arrivals v s.shared.hist) op.stage
            (fun v _ => by have := hothers v; omega)
          rwa [Finset.card_univ, Nat.nsmul_eq_mul] at this
        have hword : (load64 (s.next (b.workload nic) (.touch w c chunk)).shared.mem
            b.counter.addr).toNat = ∑ v, b.counter.arrivals v s.shared.hist + 1 := by
          rw [b.counter.load_addr, hinv'.word, hshared,
            ArrivalCounter.sum_arrivals_push harrival, BitVec.toNat_ofNat, Nat.mod_eq_of_lt hlt]
        have hle : (load64 (s.next (b.workload nic) (.touch w c chunk)).shared.mem
            b.counter.addr).toNat ≤ _ := hle
        omega
  . simp at he

def sample : Barrier := rdmaBarrierWait 0 aligned_zero 2

def sampleNic : Nic where
  atomicReadBytes := 0
  inOrderWrites := true

def turn (w : Bool) : List (Action Bool Ctx BarrierOp) :=
  cpus w 1 ++ serves w .rctx [0] ++ [.cpu w 1, .cpu w 0]

def stageRun (stage : Nat) : List (Action Bool Ctx BarrierOp) :=
  List.flatten [
    [.start false (.arrive stage)], turn false, [.finish false],
    [.start true (.arrive stage)], turn true, [.finish true], turn false]

def returnsFrom (w : W) (stage : Nat)
    (s : Sys W Ctx Buffer Terminate Bool BarrierOp) : Bool :=
  match (s.worker w).control with
  | .running op _ (.ret true) => op == .spin stage
  | _ => false

theorem barrier_none_early_stageRun
    : ∃ s : Sys Bool Ctx Buffer Terminate Bool BarrierOp,
        sample.NoneEarly s ∧ returnsFrom false 1 s = true := by
  have hrun : ((Sys.initial (fun _ => 0) (fun _ _ => 0)).run (sample.workload sampleNic)
      (stageRun 1)).any (returnsFrom false 1) = true := by
    decide +kernel
  obtain ⟨s, hreach, hreturns⟩ := Sys.exists_reach_of_run hrun
  exact ⟨s, barrier_none_early rfl (Sys.initial_fresh _ _) rfl hreach, hreturns⟩

def isAt (w : W) (stage : Nat) (s : Sys W Ctx Buffer Terminate Bool BarrierOp) : Bool :=
  match (s.worker w).control with
  | .running op _ _ => op.stage == stage
  | .idle => false

def patientRun : List (Action Bool Ctx BarrierOp) :=
  stageRun 1 ++ [.finish false] ++ turn true ++ [.finish true] ++ stageRun 2

theorem barrier_none_misses_patientRun
    : ∃ s : Sys Bool Ctx Buffer Terminate Bool BarrierOp,
        sample.NoneMisses s ∧ isAt true 2 s = true := by
  have hrun : ((Sys.initial (fun _ => 0) (fun _ _ => 0)).runIf (sample.workload sampleNic)
      othersReturned patientRun).any (isAt true 2) = true := by
    decide +kernel
  obtain ⟨s, hreach, hat⟩ := Sys.exists_reach_of_runIf hrun
  exact ⟨s, barrier_none_misses rfl (Sys.initial_fresh _ _) rfl hreach, hat⟩

/-- The first worker arrives at the second stage before the other one reads the counter again. -/
def hastyRun : List (Action Bool Ctx BarrierOp) :=
  stageRun 1 ++ [.finish false, .start false (.arrive 2)] ++ turn false

theorem barrier_misses
    : ∃ (s : Sys Bool Ctx Buffer Terminate Bool BarrierOp),
        Sys.Reach (sample.workload sampleNic) Sys.anyStep
          (Sys.initial (fun _ => 0) (fun _ _ => 0)) s ∧
        isAt true 1 s = true ∧ load64 s.shared.mem sample.barrierAddr = 3 ∧
        ¬sample.NoneMisses s := by
  have hrun : ((Sys.initial (fun _ => 0) (fun _ _ => 0)).run (sample.workload sampleNic)
      hastyRun).any (fun s => isAt true 1 s &&
        load64 s.shared.mem sample.barrierAddr == 3) = true := by
    decide +kernel
  obtain ⟨s, hreach, h⟩ := Sys.exists_reach_of_run hrun
  rw [Bool.and_eq_true, beq_iff_eq] at h
  refine ⟨s, hreach, h.1, h.2, ?_⟩
  intro hmisses
  have hat := h.1
  unfold isAt at hat
  split at hat
  . next op since p hcontrol =>
    have hle := hmisses true op since p hcontrol
    rw [h.2, beq_iff_eq.mp hat] at hle
    exact absurd hle (by decide)
  . simp at hat

end Run

end Barrier
end BenchmarkHelper
