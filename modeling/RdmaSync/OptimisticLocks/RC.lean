import RdmaSync.OptimisticLocks.Reader
import RdmaSync.Rdma.Fetch

/-!
This module contains the RC readers. They fetch the tuple and its version over one or two connections
and compare neither of the versions with anything, so that they only return what they should as long
as the version is zero.
-/

namespace OptimisticLocks

open Rdma CommunicationManager
open Rdma.Action (cpus touches serves)

variable {W U : Type} {t : Tuple} {modification : Modification t U} {nic : Nic}

section Program

def dataConnection (t : Tuple) (i : Nat) : Ctx :=
  if t.rctx2Mr then OptimisticLock.dataCtx i else .rctx

def versionConnection (t : Tuple) (i : Nat) : Ctx :=
  if t.rctx2Mr then OptimisticLock.versionCtx i else .rctx

def dataVerb (t : Tuple) (b : Bool) : Verb Buffer :=
  .read (.tupleBuffer b, 0) t.remoteAddress t.bytes

def versionVerb (t : Tuple) (b : Bool) : Verb Buffer :=
  .read (.rcBuffer b, 0) t.remoteAddress 8

theorem runRead_rc (hc : t.consistency = .rc) (h : t.rctx2Mr = true → 1 < t.flags.batchSize)
    (b : Bool) (opnum : Nat)
    : runRead t b opnum =
        (Prog.forEach (List.range t.flags.batch) fun i =>
          .post (dataConnection t i) false (dataVerb t b) (.ret ())) >>= fun _ =>
        (Prog.forEach (List.range t.flags.batch) fun i =>
          .post (versionConnection t i) true (versionVerb t b) (.ret ())) >>= fun _ =>
        (t.optimistic b opnum).pollRC >>= fun _ =>
        .load (.tupleBuffer b, t.lockIdx) fun x =>
          if x ≠ 0 then .throw .restart else .load (.tupleBuffer b, 0) fun version =>
            .ret (0, version) := by
  have hcheck := checkLock_eq t b opnum
  simp only [Tuple.optimistic, hc] at hcheck
  cases hr : t.rctx2Mr with
  | true =>
    have hbatch : t.flags.batchSize > 1 := h hr
    simp only [hr] at hcheck
    simp only [runRead, OptimisticLock.lock, OptimisticLock.unlock, OptimisticLock.postBatch,
      OptimisticLock.pollRC, Tuple.optimistic, dataConnection, versionConnection, dataVerb,
      versionVerb, hc, hr, hbatch, hcheck, postRead, pollCompletions, load, signaled, unsignaled,
      Prog.pure_eq, Prog.bind_ret, Prog.bind_post, Prog.bind_poll, Prog.bind_load, Prog.bind_ite,
      Prog.bind_throw, Prog.bind_assoc, if_true]
  | false =>
    simp only [hr] at hcheck
    simp only [runRead, OptimisticLock.lock, OptimisticLock.unlock, OptimisticLock.postBatch,
      OptimisticLock.pollRC, Tuple.optimistic, dataConnection, versionConnection, dataVerb,
      versionVerb, hc, hr, hcheck, postRead, pollCompletions, load, signaled, unsignaled,
      Prog.pure_eq, Prog.bind_ret, Prog.bind_post, Prog.bind_poll, Prog.bind_load, Prog.bind_ite,
      Prog.bind_throw, Prog.bind_assoc, if_false, Bool.false_eq_true]

theorem runRead_rc_single (hc : t.consistency = .rc) (hr : t.rctx2Mr = true)
    (h : ¬1 < t.flags.batchSize) (b : Bool) (opnum : Nat)
    : runRead t b opnum =
        .post (OptimisticLock.dataCtx opnum) false (dataVerb t b)
          (.post (OptimisticLock.versionCtx opnum) true (versionVerb t b)
            (.poll (OptimisticLock.versionCtx opnum) 1
              (.load (.tupleBuffer b, t.lockIdx) fun x =>
                if x ≠ 0 then .throw .restart else .load (.tupleBuffer b, 0) fun version =>
                  .ret (0, version)))) := by
  have hcheck := checkLock_eq t b opnum
  have hbatch : ¬t.flags.batchSize > 1 := h
  simp only [Tuple.optimistic, hc, hr] at hcheck
  simp only [runRead, OptimisticLock.lock, OptimisticLock.unlock, OptimisticLock.pollRC,
    Tuple.optimistic, dataVerb, versionVerb, hc, hr, hbatch, hcheck, postRead, pollCompletions, load,
    signaled, unsignaled, Prog.pure_eq, Prog.bind_ret, Prog.bind_post, Prog.bind_poll,
    Prog.bind_load, Prog.bind_ite, Prog.bind_throw, if_true, if_false]

theorem countP_dataCtx (m : Nat) (c : Ctx)
    : (List.range (2 * m)).countP (fun i => decide (OptimisticLock.dataCtx i = c)) = m := by
  induction m with
  | zero => rfl
  | succ m ih =>
    have heven : OptimisticLock.dataCtx (2 * m) = .rctx := by
      simp [OptimisticLock.dataCtx]
    have hodd : OptimisticLock.dataCtx (2 * m + 1) = .rctx2 := by
      simp [OptimisticLock.dataCtx]
    rw [Nat.mul_succ, List.range_succ, List.range_succ, List.countP_append, List.countP_append, ih]
    cases c <;> simp [heven, hodd]

theorem countP_versionCtx (m : Nat) (c : Ctx)
    : (List.range (2 * m)).countP (fun i => decide (OptimisticLock.versionCtx i = c)) = m := by
  induction m with
  | zero => rfl
  | succ m ih =>
    have heven : OptimisticLock.versionCtx (2 * m) = .rctx2 := by
      simp [OptimisticLock.versionCtx]
    have hodd : OptimisticLock.versionCtx (2 * m + 1) = .rctx := by
      simp [OptimisticLock.versionCtx]
    rw [Nat.mul_succ, List.range_succ, List.range_succ, List.countP_append, List.countP_append, ih]
    cases c <;> simp [heven, hodd]

end Program

section Queues

def perConnection (t : Tuple) (c : Ctx) : Nat :=
  if t.rctx2Mr then
    t.flags.batch / 2
  else
    match c with
    | .rctx => t.flags.batch
    | .rctx2 => 0

theorem countP_connections (heven : t.flags.batch % 2 = 0) (c : Ctx)
    : (List.range t.flags.batch).countP (fun i => decide (dataConnection t i = c))
        = perConnection t c ∧
      (List.range t.flags.batch).countP (fun i => decide (versionConnection t i = c))
        = perConnection t c := by
  have htwice : t.flags.batch = 2 * (t.flags.batch / 2) := by omega
  unfold dataConnection versionConnection perConnection
  cases t.rctx2Mr with
  | true =>
    simp only [if_true]
    rw [htwice, countP_dataCtx, countP_versionCtx]
    omega
  | false =>
    cases c <;> simp

/-- The requests after both READs have been posted, when `q` is left from before. -/
def posted (t : Tuple) (b : Bool) (q : Ctx → List (Verb Buffer × Bool)) (c : Ctx)
    : List (Verb Buffer × Bool) :=
  q c ++ List.replicate (perConnection t c) (dataVerb t b, false)
    ++ List.replicate (perConnection t c) (versionVerb t b, true)

def LeftBehind (q : Ctx → List (Verb Buffer × Bool)) : Prop :=
  Leftover (q .rctx) ∧ q .rctx2 = []

theorem leftBehind_nil : LeftBehind (fun _ => []) := by
  exact ⟨leftover_nil, rfl⟩

theorem acked_posted {b : Bool} {q : Ctx → List (Verb Buffer × Bool)} (hq : LeftBehind q) {c : Ctx}
    (hpos : 0 < perConnection t c) : acked (posted t b q c) (perConnection t c) = [] := by
  apply acked_append_replicate _ _ hpos
  intro p hp
  rcases List.mem_append.mp hp with hp | hp
  . cases c with
    | rctx => exact hq.1.unsignaled p hp
    | rctx2 => simp [hq.2] at hp
  . rw [List.eq_of_mem_replicate hp]

theorem not_quiet_posted {b : Bool} {q : Ctx → List (Verb Buffer × Bool)}
    (hpos : 0 < perConnection t .rctx)
    : ¬AllQuiet (posted t b q) (.tupleBuffer b, 0) ∧ ¬AllQuiet (posted t b q) (.rcBuffer b, 0) := by
  have hbytes : 0 < t.bytes / 8 := by
    have := t.words_ge
    unfold Tuple.words at this
    omega
  constructor
  . intro hquiet
    refine hquiet .rctx (dataVerb t b, false) ?_ ⟨rfl, Nat.zero_le _, by simpa using hbytes⟩
    apply List.mem_append_left
    apply List.mem_append_right
    exact List.mem_replicate.mpr ⟨by omega, rfl⟩
  . intro hquiet
    refine hquiet .rctx (versionVerb t b, true) ?_ ⟨rfl, Nat.zero_le _, Nat.zero_lt_one⟩
    apply List.mem_append_right
    exact List.mem_replicate.mpr ⟨by omega, rfl⟩

/-- After the polling loops no request is under way, and every fetched word is good. -/
theorem fetches_pollRC {α : Type} {posts : Verb Buffer → Prop} {good : Buffer × Nat → Word → Prop}
    {Q : Except OLRestartException α → (Ctx → List (Verb Buffer × Bool)) → Local Buffer → Prop}
    {b : Bool} {opnum : Nat} {q : Ctx → List (Verb Buffer × Bool)} {l : Local Buffer}
    {next : Code α} (hbatch : 1 < t.flags.batchSize) (hq : LeftBehind q)
    (h : ∀ l', Refreshes good (posted t b q) (fun _ => []) l l' →
      Fetches posts good Q next (fun _ => []) l')
    : Fetches posts good Q ((t.optimistic b opnum).pollRC >>= fun _ => next) (posted t b q) l := by
  have hnonneg : 0 ≤ t.flags.batchSize := Int32.le_of_lt (Int32.lt_trans (by decide) hbatch)
  have hbatch' : 1 < t.flags.batch := Flags.one_lt_batch.mpr hbatch
  cases hr : t.rctx2Mr with
  | true =>
    have hper : ∀ c, perConnection t c = t.flags.batch / 2 := by
      intro c
      simp [perConnection, hr]
    have hprog : (t.optimistic b opnum).pollRC >>= (fun _ => next) =
        .poll .rctx (perConnection t .rctx) (.poll .rctx2 (perConnection t .rctx2) next) := by
      simp [OptimisticLock.pollRC, Tuple.optimistic, hr, hbatch, pollCompletions, hper,
        sizeT_half hnonneg]
    rw [hprog]
    intro l₁ hl₁ l₂ hl₂
    have hdone : Function.update (Function.update (posted t b q) .rctx
        (acked (posted t b q .rctx) (perConnection t .rctx))) .rctx2
        (acked (Function.update (posted t b q) .rctx
          (acked (posted t b q .rctx) (perConnection t .rctx)) .rctx2) (perConnection t .rctx2))
        = fun _ => [] := by
      funext c
      cases c with
      | rctx =>
        rw [Function.update_of_ne (by simp), Function.update_self]
        exact acked_posted hq (by rw [hper]; omega)
      | rctx2 =>
        rw [Function.update_self, Function.update_of_ne (by simp)]
        exact acked_posted hq (by rw [hper]; omega)
    rw [hdone] at hl₂ ⊢
    exact h l₂ (hl₁.trans (fun a ha => ha.acked .rctx _) hl₂)
  | false =>
    have hper : perConnection t .rctx = t.flags.batch := by
      simp [perConnection, hr]
    have hprog : (t.optimistic b opnum).pollRC >>= (fun _ => next) =
        .poll .rctx (perConnection t .rctx) next := by
      simp [OptimisticLock.pollRC, Tuple.optimistic, hr, pollCompletions, hper,
        sizeT_batchSize hnonneg]
    rw [hprog]
    intro l₁ hl₁
    have hdone : Function.update (posted t b q) .rctx
        (acked (posted t b q .rctx) (perConnection t .rctx)) = fun _ => [] := by
      funext c
      cases c with
      | rctx =>
        rw [Function.update_self]
        exact acked_posted hq (by omega)
      | rctx2 =>
        rw [Function.update_of_ne (by simp)]
        simp [posted, hq.2, perConnection, hr]
    rw [hdone] at hl₁ ⊢
    exact h l₁ hl₁

end Queues

section Read

/-- What the condition on a run says about the words that an iteration fetches. -/
def FetchedGood (op : Iteration U) (a : Buffer × Nat) (x : Word) : Prop :=
  match op with
  | .read b _ => a = (.tupleBuffer b, 0) ∨ a = (.rcBuffer b, 0) → x = 0
  | .update _ _ => True

def Posts (t : Tuple) (op : Iteration U) (v : Verb Buffer) : Prop :=
  match op with
  | .read b _ => v = dataVerb t b ∨ v = versionVerb t b
  | .update _ _ => True

def Ends (t : Tuple) (op : Iteration U) (o : Except OLRestartException (Option (Word × Word)))
    (u : Ctx → List (Verb Buffer × Bool)) (l : Local Buffer) : Prop :=
  match op with
  | .read b _ => u = (fun _ => []) ∧
    match o with
    | .ok (some versions) => l (.tupleBuffer b) 0 = 0 ∧ l (.rcBuffer b) 0 = 0 ∧
      l (.tupleBuffer b) t.lockIdx = 0 ∧ versions = (0, 0)
    | _ => True
  | .update _ _ => LeftBehind u

theorem fetches_read (modification : Modification t U) (hc : t.consistency = .rc)
    (heven : t.flags.batchSize % 2 = 0) (hbatch : 1 < t.flags.batchSize) {b : Bool} {opnum : Nat}
    {q : Ctx → List (Verb Buffer × Bool)} (hq : LeftBehind q) (l : Local Buffer)
    : Fetches (Posts t (.read b opnum : Iteration U)) (FetchedGood (.read b opnum : Iteration U))
        (Ends t (.read b opnum : Iteration U)) (runTest t modification (.read b opnum)) q l := by
  have heven' : t.flags.batch % 2 = 0 :=
    (Flags.batch_even (Int32.le_of_lt (Int32.lt_trans (by decide) hbatch))).mpr heven
  have hbatch' : 1 < t.flags.batch := Flags.one_lt_batch.mpr hbatch
  have hread : runTest t modification (.read b opnum)
      = runRead t b opnum >>= fun versions => .ret (some versions) := rfl
  rw [hread, runRead_rc hc fun _ => hbatch]
  simp only [Prog.bind_assoc, Prog.bind_load, Prog.bind_ite, Prog.bind_throw, Prog.bind_ret]
  apply Fetches.forEach_post (.inl rfl)
  apply Fetches.forEach_post (.inr rfl)
  have hposted : (fun c => (q c ++ List.replicate ((List.range t.flags.batch).countP
        fun i => decide (dataConnection t i = c)) (dataVerb t b, false))
      ++ List.replicate ((List.range t.flags.batch).countP
        fun i => decide (versionConnection t i = c)) (versionVerb t b, true))
      = posted t b q := by
    funext c
    obtain ⟨hdata, hversion⟩ := countP_connections (t := t) heven' c
    rw [hdata, hversion]
    rfl
  rw [hposted]
  apply fetches_pollRC hbatch hq
  intro l' hl'
  have hpos : 0 < perConnection t .rctx := by
    unfold perConnection
    split
    . omega
    . exact Nat.lt_of_succ_lt hbatch'
  obtain ⟨hdata, hversion⟩ := not_quiet_posted (b := b) (q := q) hpos
  have htuple : l' (.tupleBuffer b) 0 = 0 := (hl' _).2 hdata (allQuiet_nil _) (.inl rfl)
  have hrc : l' (.rcBuffer b) 0 = 0 := (hl' _).2 hversion (allQuiet_nil _) (.inr rfl)
  refine ⟨allQuiet_nil _, ?_⟩
  dsimp only
  split
  . exact ⟨rfl, trivial⟩
  . next hlock =>
    refine ⟨allQuiet_nil _, rfl, htuple, hrc, by simpa using hlock, ?_⟩
    rw [htuple]

def rcSpec (modification : Modification t U) (nic : Nic) (hc : t.consistency = .rc)
    (heven : t.flags.batchSize % 2 = 0) (hbatch : 1 < t.flags.batchSize)
    : FetchSpec (benchmark t modification nic) where
  posts := Posts t
  good := FetchedGood
  leftover := LeftBehind
  ends := Ends t
  leftover_nil := leftBehind_nil
  quiet := by
    intro u hu a
    rcases a with ⟨buffer, i⟩
    by_cases hlock : ∃ b, buffer = .lockBuffer b
    . obtain ⟨b, rfl⟩ := hlock
      right
      intro op x
      cases op <;> simp [FetchedGood]
    . left
      intro c p hp hlands
      cases c with
      | rctx => exact hlock ((hu.1 p hp).2 _ hlands)
      | rctx2 => simp [hu.2] at hp
  leftover_of_ends := by
    intro op o u l h
    cases op with
    | read =>
      obtain rfl : u = fun _ => [] := h.1
      exact leftBehind_nil
    | update => exact h
  fetches := by
    intro op u l hu
    cases op with
    | read b opnum => exact fetches_read modification hc heven hbatch hu l
    | update b x =>
      have hsynced : Synced .rctx (fun _ q => Leftover q) (runUpdate t modification b x)
          (u .rctx) :=
        synced_runUpdate hu.1 (fun _ h => h) (fun _ => leftover_nil)
      have hother : ∀ c, c ≠ Ctx.rctx → u c = [] := by
        intro c hne
        cases c with
        | rctx => exact absurd rfl hne
        | rctx2 => exact hu.2
      apply (Fetches.of_synced hother hsynced).bind
      . rintro _ u' l' ⟨hleft, hnil⟩
        exact ⟨hleft, hnil .rctx2 (by simp)⟩
      . rintro _ u' l' ⟨hleft, hnil⟩
        exact ⟨hleft, hnil .rctx2 (by simp)⟩

def Iteration.isRead (op : Iteration U) : Bool :=
  match op with
  | .read _ _ => true
  | .update _ _ => false

def fetchesVersion (t : Tuple) (nic : Nic) (op : Iteration U) (v : Verb Buffer) (chunk : Nat)
    : Bool :=
  op.isRead && v.readsWord nic chunk (t.block.base + t.versionIdx)

/-- Read iterations fetch the version word of the tuple only while it is zero. -/
def versionIsZero (t : Tuple) (nic : Nic)
    (s : Sys W Ctx Buffer OLRestartException (Option (Word × Word)) (Iteration U))
    (a : Action W Ctx (Iteration U)) : Bool :=
  match a with
  | .touch w c chunk =>
    match (s.worker w).queue c with
    | f :: _ => !fetchesVersion t nic f.op f.verb chunk ||
        s.shared.mem (t.block.base + t.versionIdx) == 0
    | [] => true
  | _ => true

theorem versionIsZero_touch
    {s : Sys W Ctx Buffer OLRestartException (Option (Word × Word)) (Iteration U)} {w : W} {c : Ctx}
    {chunk : Nat} {f : Flight Buffer (Iteration U)} {fs : List (Flight Buffer (Iteration U))}
    (h : versionIsZero t nic s (.touch w c chunk) = true) (hq : (s.worker w).queue c = f :: fs)
    (hfetches : fetchesVersion t nic f.op f.verb chunk = true)
    : s.shared.mem (t.block.base + t.versionIdx) = 0 := by
  simpa only [versionIsZero, hq, hfetches, Bool.not_true, Bool.false_or, beq_iff_eq] using h

theorem guards_versionIsZero (hc : t.consistency = .rc) (heven : t.flags.batchSize % 2 = 0)
    (hbatch : 1 < t.flags.batchSize)
    : (rcSpec modification nic hc heven hbatch).Guards
        (fun (s : Sys W _ _ _ _ _) a => versionIsZero t nic s a = true) := by
  intro s w c chunk f fs hcond hq hposts a hat
  show FetchedGood f.op a (f.verb.fetched s.shared.mem a)
  have hversion : t.versionIdx = 0 := by
    unfold Tuple.versionIdx
    rw [hc]
  have hzero := versionIsZero_touch hcond hq
  unfold fetchesVersion at hzero
  cases hop : f.op with
  | update => trivial
  | read b opnum =>
    rw [hop] at hzero
    have hposts' : f.verb = dataVerb t b ∨ f.verb = versionVerb t b := by
      have : Posts t f.op f.verb := hposts
      rwa [hop] at this
    intro ha
    have ha2 : a.2 = 0 := by
      rcases ha with rfl | rfl <;> rfl
    -- Both READs begin at the version word.
    obtain ⟨buffer, bytes, hv⟩
        : ∃ buffer bytes, f.verb = .read (buffer, 0) t.remoteAddress bytes := by
      rcases hposts' with hv | hv
      . exact ⟨_, _, hv⟩
      . exact ⟨_, _, hv⟩
    rw [hv] at hat hzero ⊢
    have hreads := Verb.readsWord_of_landsAt hat
    rw [ha2] at hreads
    rw [hversion] at hzero
    show s.shared.mem (t.remoteAddress / 8 + (a.2 - 0)) = 0
    rw [ha2]
    exact hzero hreads

/--
What a read that returns should have made sure of: both versions are the same, the tuple is not
locked, and the version has not changed from the first to the last time that the read fetched it.
-/
structure Validated (t : Tuple) (nic : Nic) (w : W) (b : Bool) (since : Nat)
    (versions : Word × Word) (l : Local Buffer) (s : Shared W Buffer (Iteration U)) : Prop where
  version : l (.rcBuffer b) 0 = l (.tupleBuffer b) 0
  unlocked : l (.tupleBuffer b) t.lockIdx = wUnlocked
  pair : versions.1 = versions.2
  undisturbed : ∀ x ∈ s.hist.take (s.hist.length - since),
    ∀ y ∈ s.hist.take (s.hist.length - since), x.2.worker = w → y.2.worker = w →
      fetchesVersion t nic x.2.op x.2.verb x.2.chunk = true →
      fetchesVersion t nic y.2.op y.2.verb y.2.chunk = true →
      x.1 (t.block.base + t.versionIdx) = y.1 (t.block.base + t.versionIdx)

variable [DecidableEq W]

/-- RC reads are right in runs in which they only ever meet the version zero. -/
theorem rc_read_validated (hc : t.consistency = .rc) (heven : t.flags.batchSize % 2 = 0)
    (hpos : 0 < t.flags.batchSize)
    {s₀ s : Sys W Ctx Buffer OLRestartException (Option (Word × Word)) (Iteration U)}
    (hfresh : s₀.Fresh)
    (hreach : Sys.Reach (benchmark t modification nic)
      (fun s a => versionIsZero t nic s a = true) s₀ s)
    {w : W} {b : Bool} {opnum since : Nat} {versions : Word × Word}
    (hcontrol : (s.worker w).control = .running (.read b opnum) since (.ret (some versions)))
    : Validated t nic w b since versions (s.worker w).buf s.shared := by
  have hbatch : 1 < t.flags.batchSize := by
    have := (Flags.batch_even (Int32.le_of_lt hpos)).mpr heven
    have := Flags.batch_pos.mpr hpos
    exact Flags.one_lt_batch.mp (by omega)
  have hok := (rcSpec modification nic hc heven hbatch).workerOk_of_reach
    (guards_versionIsZero hc heven hbatch) hfresh hreach w
  obtain ⟨u, l, ⟨hu, htuple, hrc, hlock, hversions⟩, hbuf⟩ := hok.ends_ret _ hcontrol
  obtain rfl : u = fun _ => [] := hu
  have hquiet (buffer : Buffer) (i : Nat) : (s.worker w).buf buffer i = l buffer i :=
    hbuf (buffer, i) (allQuiet_nil _)
  have hevents : ∀ x ∈ s.shared.hist, fetchesVersion t nic x.2.op x.2.verb x.2.chunk = true →
      x.1 (t.block.base + t.versionIdx) = 0 := by
    apply hreach.forall_hist (fun x => fetchesVersion t nic x.2.op x.2.verb x.2.chunk = true →
      x.1 (t.block.base + t.versionIdx) = 0)
    . intro s w c chunk f fs hcond hq
      exact versionIsZero_touch hcond hq
    . simp [hfresh.hist]
  constructor
  . rw [hquiet, hquiet, htuple, hrc]
  . rw [hquiet, hlock]
    rfl
  . rw [hversions]
  . intro x hx y hy _ _ hfx hfy
    rw [hevents x (List.mem_of_mem_take hx) hfx, hevents y (List.mem_of_mem_take hy) hfy]

end Read

section Runs

def rcTuple : Tuple :=
  { sampleTuple .rc .footerLock 0 with
    flags := { batchSize := 2, memcpy := false, crc64 := fun _ => 0 }
    rctx2Mr := true }

def rcRun : List (Action Bool Ctx (Iteration Unit)) :=
  List.flatten [
    [.start true (.read false 0)], cpus true 4, serves true .rctx [1, 2], serves true .rctx2 [2, 1],
    serves true .rctx [1], serves true .rctx2 [1], [.start false (.update false ())], cpus false 2,
    serves false .rctx [0], serves false .rctx [1, 2], [.cpu false 1], cpus false 17,
    serves false .rctx [1, 2], [.cpu true 1, .cpu true 1], cpus true 2]

theorem rc_read_of_rcRun
    : ∃ (s : Sys Bool Ctx Buffer OLRestartException (Option (Word × Word)) (Iteration Unit))
        (b : Bool) (since : Nat) (versions : Word × Word),
        Validated rcTuple { atomicReadBytes := 0, inOrderWrites := true } true b since versions
          (s.worker true).buf s.shared := by
  have hrun : ((Sys.initial (fun _ => 0) (fun _ _ => 0)).runIf
      (benchmark rcTuple (incrementAll _) { atomicReadBytes := 0, inOrderWrites := true })
      (versionIsZero rcTuple { atomicReadBytes := 0, inOrderWrites := true }) rcRun).any
      (returnsRead rcTuple true) = true := by
    decide +kernel
  obtain ⟨s, hreach, hreturns⟩ := Sys.exists_reach_of_runIf hrun
  obtain ⟨b, _, since, versions, _, hcontrol⟩ := control_of_returnsRead hreturns
  exact ⟨s, b, since, versions,
    rc_read_validated rfl rfl (by decide) (Sys.initial_fresh _ _) hreach hcontrol⟩

/-- A writer commits after the reader has fetched the tuple and before it fetches the version. -/
def staleRun : List (Action Bool Ctx (Iteration Unit)) :=
  List.flatten [
    [.start true (.read false 0)], cpus true 4, serves true .rctx [1, 2], serves true .rctx2 [2, 1],
    [.start false (.update false ())], cpus false 2, serves false .rctx [0],
    serves false .rctx [1, 2], [.cpu false 1], cpus false 17, serves false .rctx [1, 2],
    serves true .rctx [1], serves true .rctx2 [1], [.cpu true 1, .cpu true 1], cpus true 2]

def returnsStale (w : W)
    (s : Sys W Ctx Buffer OLRestartException (Option (Word × Word)) (Iteration U)) : Bool :=
  match (s.worker w).control with
  | .running (.read b _) _ (.ret (some _)) =>
    (s.worker w).buf (.rcBuffer b) 0 != (s.worker w).buf (.tupleBuffer b) 0
  | _ => false

theorem rc_read_not_validated
    : ∃ (s : Sys Bool Ctx Buffer OLRestartException (Option (Word × Word)) (Iteration Unit))
        (b : Bool) (opnum since : Nat) (versions : Word × Word),
        Sys.Reach
          (benchmark rcTuple (incrementAll _) { atomicReadBytes := 0, inOrderWrites := true })
          Sys.anyStep (Sys.initial (fun _ => 0) (fun _ _ => 0)) s ∧
        (s.worker true).control = .running (.read b opnum) since (.ret (some versions)) ∧
        ¬Validated rcTuple { atomicReadBytes := 0, inOrderWrites := true } true b since versions
          (s.worker true).buf s.shared := by
  have hrun : ((Sys.initial (fun _ => 0) (fun _ _ => 0)).run
      (benchmark rcTuple (incrementAll _) { atomicReadBytes := 0, inOrderWrites := true })
      staleRun).any (returnsStale true) = true := by
    decide +kernel
  obtain ⟨s, hreach, hstale⟩ := Sys.exists_reach_of_run hrun
  unfold returnsStale at hstale
  split at hstale
  . next b opnum since versions hcontrol =>
    refine ⟨s, b, opnum, since, versions, hreach, hcontrol, ?_⟩
    intro hvalidated
    simp [hvalidated.version] at hstale
  . simp at hstale

end Runs

end OptimisticLocks
