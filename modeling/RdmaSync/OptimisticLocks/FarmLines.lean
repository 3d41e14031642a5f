import RdmaSync.OptimisticLocks.Batch
import RdmaSync.Rdma.Alone
import RdmaSync.Rdma.Payload

/-!
This module contains the proof of when FaRM reads are never torn: a line without a version, whose READ
takes effect before a commit while all other lines are read after it, is not noticed.
-/

namespace OptimisticLocks

open Rdma CommunicationManager
open Rdma.Action (cpus touches serves)

variable {W U Op : Type} {t : Tuple} {modification : Modification t U} {b : Bool} {u : U}

section Writer

variable {m : Mem}

theorem run_lock (hfree : m (t.block.base + t.lockIdx) = wUnlocked) (l : Local Buffer)
    : ∃ l', (t.exclusive b).lock.run l m
          = (.ok (), l', Function.update m (t.block.base + t.lockIdx) wLocked) ∧
        IsCopy t b (fun i => m (t.block.base + i)) l' := by
  generalize hlocked : Function.update m (t.block.base + t.lockIdx) wLocked = m'
  have hcas : (Verb.compareSwap 0 1 (Buffer.lockBuffer b, 0) t.block.lockAddr).perform l m
      = (l.set (.lockBuffer b, 0) 0, m') := by
    have hload : load64 m t.block.lockAddr = 0 := by
      rw [load64_aligned _ t.block.lockAddr_aligned, t.block.lockAddr_div]
      exact hfree
    rw [Verb.perform, hload, if_pos rfl, store64_aligned _ _ t.block.lockAddr_aligned,
      t.block.lockAddr_div, ← hlocked]
    rfl
  have hlockBuffer : ((Verb.read (Buffer.tupleBuffer b, 0) t.block.addr t.bytes).perform
      (l.set (.lockBuffer b, 0) 0) m').1 (.lockBuffer b) 0 = 0 := by
    simp [Verb.perform, Local.set]
  refine ⟨((Verb.read (Buffer.tupleBuffer b, 0) t.block.addr t.bytes).perform
    (l.set (.lockBuffer b, 0) 0) m').1, ?_, ?_⟩
  . rw [lock_eq]
    simp only [Prog.run, hcas, hlockBuffer, ne_eq, not_true_eq_false, if_false]
    rfl
  . intro i hi
    have hword : ((Verb.read (Buffer.tupleBuffer b, 0) t.block.addr t.bytes).perform
        (l.set (.lockBuffer b, 0) 0) m').1 (.tupleBuffer b) (0 + i) = m' (t.block.addr / 8 + i) :=
      Verb.perform_read hi _ m'
    rw [Nat.zero_add] at hword
    rw [hword, ← hlocked]
    show Function.update m (t.block.base + t.lockIdx) wLocked (t.block.base + i) = _
    by_cases hlock : i = t.lockIdx
    . rw [hlock, Function.update_self, if_pos rfl]
      rfl
    . rw [Function.update_of_ne (by omega), if_neg hlock]

theorem run_publish (l : Local Buffer)
    (hlock : copied t b l t.lockIdx = if t.lockType = .footerLock then 0 else 1)
    : ((t.exclusive b).publish.run l m).1 = .ok () ∧ ∀ i, i < t.words →
        ((t.exclusive b).publish.run l m).2.2 (t.block.base + i)
          = if i = t.lockIdx then wUnlocked else copied t b l i := by
  have hwrite : ∀ i, i < t.words →
      ((Verb.write (Buffer.tupleBuffer b, 0) t.remoteAddress t.bytes).perform l m).2
        (t.block.base + i) = copied t b l i := by
    intro i hi
    have hbase : t.remoteAddress / 8 = t.block.base := rfl
    have hbytes : t.bytes / 8 = t.words := rfl
    simp only [Verb.perform, hbase, hbytes, copied_apply t b l hi]
    rw [if_pos (by omega)]
    congr 1
    omega
  unfold ExclusiveLock.publish
  cases hl : t.lockType with
  | footerLock =>
    rw [hl] at hlock
    simp only [Tuple.exclusive, hl, postWrite, Prog.run, true_and]
    intro i hi
    rw [hwrite i hi]
    split
    . next heq => rw [heq, hlock]; rfl
    . rfl
  | headerLock =>
    rw [hl] at hlock
    rw [getLockPosition_eq]
    simp only [Tuple.exclusive, hl, postWrite, postFetchAdd, Prog.bind_post, Prog.bind_ret, Prog.run,
      true_and]
    intro i hi
    generalize ((Verb.write (Buffer.tupleBuffer b, 0) t.remoteAddress t.bytes).perform l m).2 = m'
      at hwrite ⊢
    show store64 m' t.block.lockAddr (load64 m' t.block.lockAddr + -1) (t.block.base + i) = _
    rw [store64_aligned _ _ t.block.lockAddr_aligned, load64_aligned _ t.block.lockAddr_aligned,
      t.block.lockAddr_div]
    by_cases heq : i = t.lockIdx
    . rw [heq, if_pos rfl]
      show Function.update m' (t.block.base + t.lockIdx) _ _ = _
      rw [Function.update_self]
      show m' (t.block.base + t.lockIdx) + -1 = _
      rw [hwrite _ t.lockIdx_lt, hlock]
      rfl
    . rw [if_neg heq, ← hwrite i hi]
      apply Function.update_of_ne
      show t.block.base + i ≠ t.block.base + t.lockIdx
      omega

theorem run_runUpdate (modification : Modification t U) (b : Bool) (u : U)
    (hfree : m (t.block.base + t.lockIdx) = wUnlocked) (l : Local Buffer)
    : ((runUpdate t modification b u).run l m).1 = .ok () ∧
      ∃ next, Replaces t modification u (fun i => m (t.block.base + i)) next ∧
        ∀ i, i < t.words → ((runUpdate t modification b u).run l m).2.2 (t.block.base + i)
          = if i = t.lockIdx then wUnlocked else next i := by
  obtain ⟨l₁, hlock, hcopy⟩ := run_lock (b := b) hfree l
  have hreplaces : Replaces t modification u (fun i => m (t.block.base + i))
      (copied t b ((change t modification b u).exec l₁).2) := ⟨b, l₁, hcopy, rfl⟩
  obtain ⟨a, hok⟩ := (change_local t b modification u).exec_ok l₁
  obtain ⟨hret, hmem⟩ := run_publish (m := Function.update m (t.block.base + t.lockIdx) wLocked)
    ((change t modification b u).exec l₁).2 hreplaces.lock
  have hrun : (runUpdate t modification b u).run l m
      = (t.exclusive b).publish.run ((change t modification b u).exec l₁).2
          (Function.update m (t.block.base + t.lockIdx) wLocked) := by
    rw [runUpdate_eq, Prog.run_bind, hlock]
    simp only [Prog.run_bind, (change_local t b modification u).run_eq, hok]
  rw [hrun]
  exact ⟨hret, _, hreplaces, hmem⟩

/-- The event begins to replace the tuple. -/
abbrev begins (t : Tuple) (e : Event W Buffer Op) : Bool :=
  t.block.places e && e.chunk == t.block.firstLine

theorem countP_begins_eq_zero {es : List (Event W Buffer Op)}
    (h : ∀ e ∈ es, e.verb.isWrite = false) : es.countP (begins t) = 0 := by
  rw [List.countP_eq_zero]
  intro e he hbegins
  have hwrite := h e he
  rw [Bool.and_eq_true] at hbegins
  cases hv : e.verb <;> simp [Block.places, Verb.isWrite, hv] at hbegins hwrite

theorem countP_events_publish (nic : Nic) (w : W) (op : Op) (l : Local Buffer)
    : ((t.exclusive b).publish.events nic w op l m).countP (begins t) ≤ 1 := by
  have hwrite (memAddr : Buffer × Nat) (remoteOffset bytes : Nat) (payload : Nat → Word)
      : (((Verb.write memAddr remoteOffset bytes).chunks nic).reverse.map fun chunk =>
          (⟨w, op, .write memAddr remoteOffset bytes, payload, chunk⟩ : Event W Buffer Op)).countP
            (begins t) ≤ 1 := by
    rw [List.map_reverse, List.countP_reverse, List.countP_map]
    calc _ ≤ ((Verb.write memAddr remoteOffset bytes).chunks nic).count t.block.firstLine := by
          apply List.countP_mono_left
          intro chunk _ h
          exact (Bool.and_eq_true _ _ ▸ h).2
      _ ≤ 1 := List.nodup_iff_count_le_one.mp (Verb.chunks_nodup nic _) _
  unfold ExclusiveLock.publish
  cases hl : t.lockType with
  | footerLock =>
    simp only [Tuple.exclusive, hl]
    exact hwrite _ _ _ _
  | headerLock =>
    simp only [Tuple.exclusive, hl, postWrite, postFetchAdd, Prog.bind_post, Prog.bind_ret,
      Prog.events, List.nil_append, List.countP_append]
    rw [countP_begins_eq_zero, Nat.zero_add]
    . exact hwrite _ _ _ _
    . simp [Verb.isWrite]

theorem countP_events_runUpdate (nic : Nic) (w : W) (op : Op) (l : Local Buffer)
    : ((runUpdate t modification b u).events nic w op l m).countP (begins t) ≤ 1 := by
  have hlock : (t.exclusive b).lock.Posts fun v => v.isWrite = false := by
    rw [lock_eq]
    simp [Prog.Posts, Prog.posts_ite, Verb.isWrite]
  rw [runUpdate_eq, Prog.events_bind, List.countP_append,
    countP_begins_eq_zero (hlock.events nic w op l m), Nat.add_zero]
  split
  . rw [Prog.events_bind, (change_local t b modification u).events_eq, List.append_nil]
    split
    . exact countP_events_publish nic w op _
    . simp
  . simp

end Writer

section Reader

variable {l : Local Buffer} {m : Mem}

def checked (t : Tuple) (b : Bool) : Code (Option (Word × Word)) :=
  (Prog.forEach (List.range t.flags.batch) fun _ =>
      FaRM.checkConsistencyProof t.flags (.tupleBuffer b, 0) t.bytes) >>= fun _ =>
    .load (.tupleBuffer b, t.lockIdx) fun x =>
      if x ≠ 0 then
        .throw .restart
      else
        .load (.tupleBuffer b, 0) fun version => .ret (some (0, version))

abbrev fetch (t : Tuple) (b : Bool) : Verb Buffer :=
  .read (.tupleBuffer b, 0) t.remoteAddress t.bytes

theorem runTest_farm (hc : t.consistency = .faRM) (b : Bool) (opnum : Nat)
    : runTest t modification (.read b opnum)
        = (Prog.forEach (List.range t.flags.batch) fun _ =>
            .post .rctx true (fetch t b) (.ret ())) >>= fun _ =>
              .poll .rctx (sizeT t.flags.batchSize) (checked t b) := by
  rw [runTest, runRead_farm hc, checked]
  simp only [Prog.bind_assoc, Prog.bind_poll, Prog.bind_load, Prog.bind_ite, Prog.bind_throw,
    Prog.bind_ret, Prog.pure_eq]
  rfl

theorem run_checked (hlock : l (.tupleBuffer b) t.lockIdx = 0)
    (hversions : ∀ v, v < t.words → v % 8 = 0 → l (.tupleBuffer b) v = l (.tupleBuffer b) 0)
    : (∃ versions, ((checked t b).run l m).1 = .ok (some versions)) ∧
        ∀ i, ((checked t b).run l m).2.1 (.tupleBuffer b) i = l (.tupleBuffer b) i := by
  have hchecks : (Prog.forEach (List.range t.flags.batch) fun _ =>
      FaRM.checkConsistencyProof t.flags (.tupleBuffer b, 0) t.bytes).Local (inTuple t b)
      (fun a => a.1 = .userBuffer) (fun _ => True) :=
    Prog.Local.forEach fun _ _ => farm_check_local t b
  have hframe : ∀ i, ((Prog.forEach (List.range t.flags.batch) fun _ =>
      FaRM.checkConsistencyProof t.flags (.tupleBuffer b, 0) t.bytes : Code Unit).exec l).2
        (.tupleBuffer b) i = l (.tupleBuffer b) i := by
    intro i
    exact hchecks.exec_frame l (by simp)
  rw [checked, Prog.run_bind, hchecks.run_eq]
  cases hexec : ((Prog.forEach (List.range t.flags.batch) fun _ =>
      FaRM.checkConsistencyProof t.flags (.tupleBuffer b, 0) t.bytes : Code Unit).exec l).1 with
  | ok a =>
    have hzero := (hframe t.lockIdx).trans hlock
    simp only [Prog.run, hzero, ne_eq, not_true_eq_false, if_false]
    exact ⟨⟨_, rfl⟩, hframe⟩
  | error e =>
    obtain ⟨v, hv, hmod, hne⟩ := farm_checks_error hexec
    exact absurd (hversions v hv hmod) hne

theorem posts_checked (V : Verb Buffer → Prop) : (checked t b).Posts V := by
  refine Prog.Posts.bind (.forEach fun _ _ => (farm_check_local t b).posts V) fun _ x => ?_
  simp [Prog.posts_ite, Prog.Posts]

theorem run_forEach_read {α : Type} {v : Verb Buffer} (hread : v.isRead = true) (xs : List α)
    : ((Prog.forEach xs fun _ => .post .rctx true v (.ret ()) : Code Unit).run l m).1 = .ok () ∧
        ((Prog.forEach xs fun _ => .post .rctx true v (.ret ()) : Code Unit).run l m).2.2 = m := by
  have hmem (l : Local Buffer) (m : Mem) : (v.perform l m).2 = m := by
    cases v <;> simp [Verb.isRead] at hread
    rfl
  induction xs generalizing l with
  | nil => exact ⟨rfl, rfl⟩
  | cons x xs ih =>
    rw [Prog.forEach_cons, Prog.bind_post, Prog.run, Prog.bind_ret, hmem]
    exact ih

end Reader

section Torn

def dataWords (t : Tuple) : List Nat :=
  (List.range t.words).filter fun i => t.isData i

theorem mem_dataWords {i : Nat} : i ∈ dataWords t ↔ t.isData i := by
  simp only [dataWords, List.mem_filter, List.mem_range, decide_eq_true_eq]
  exact ⟨fun h => h.2, fun h => ⟨h.1, h⟩⟩

def incrementData (t : Tuple) : Modification t Unit where
  code := fun _ tupleBuffer => Prog.forEach (dataWords t) fun i => increment (tupleBuffer, i)
  code_local := by
    intro _ tupleBuffer
    apply Prog.Local.forEach
    intro i hi
    have hdata := mem_dataWords.mp hi
    exact increment_local ⟨rfl, hdata.1⟩ ⟨rfl, hdata⟩

theorem Replaces.increments (hc : t.consistency = .faRM) {x : Unit} {prev next : Nat → Word}
    (h : Replaces t (incrementData t) x prev next) {i : Nat} (hi : i < t.words)
    (hne : i ≠ t.lockIdx) : next i = prev i + 1 := by
  by_cases hmod : i % 8 = 0
  . exact h.lineVersion hc hi hmod
  . have hdata : t.isData i := (isData_farm hc).mpr ⟨hi, hne, hmod⟩
    obtain ⟨b, l, hcopy, rfl⟩ := h
    rw [copied_apply _ _ _ hi, change_data _ _ _ _ _ hdata]
    show ((Prog.forEach (dataWords t) fun i => increment (.tupleBuffer b, i) : Code Unit).exec l).2
      (.tupleBuffer b) i = _
    have hnodup : (dataWords t).Nodup := List.nodup_range.filter _
    rw [exec_forEach_increment hnodup (mem_dataWords.mpr hdata), hcopy i hi, if_neg hne]

def lineNic : Nic where
  atomicReadBytes := 0
  inOrderWrites := true

abbrev LineState : Type :=
  Sys Bool Ctx Buffer OLRestartException (Option (Word × Word)) (Iteration Unit)

abbrev lineBenchmark (t : Tuple)
    : Workload Ctx Buffer OLRestartException (Option (Word × Word)) (Iteration Unit) :=
  benchmark t (incrementData t) lineNic

abbrev zeroed : LineState :=
  Sys.initial (fun _ => 0) (fun _ _ => 0)

theorem fits_farm (hc : t.consistency = .faRM) (hnonneg : 0 ≤ t.flags.batchSize)
    : Fits t (t.flags.batch + 1) (t.flags.batch + 1) := by
  simp only [Fits, hc]
  exact ⟨Nat.succ_pos _, Nat.succ_pos _, hnonneg, Nat.le_succ _, Nat.le_succ _⟩

/-- The last READ of the reader has fetched the line of word `i₀`, and nothing has been written yet. -/
structure Fetched (t : Tuple) (i₀ : Nat) (s : LineState) : Prop where
  reach : Sys.Reach (lineBenchmark t) Sys.anyStep zeroed s
  control : (s.worker true).control
    = .running (.read false 0) 0 (.poll .rctx (sizeT t.flags.batchSize) (checked t false))
  queue : ∃ f : Flight Buffer (Iteration Unit), f.verb = fetch t false ∧
    f.pending = ((fetch t false).chunks lineNic).erase (t.block.line i₀) ∧
    (s.worker true).queue = Function.update (fun _ => []) .rctx [f]
  buf : ∀ i, i < t.words → t.block.line i = t.block.line i₀ →
    (s.worker true).buf (.tupleBuffer false) i = 0
  mem : s.shared.mem = fun _ => 0
  events : ∀ e ∈ s.shared.hist.map Prod.snd, e.verb.isWrite = false
  other : s.worker false = zeroed.worker false

theorem chunkOf_fetch (i : Nat) : (fetch t b).chunkOf lineNic i = t.block.line i := by
  have hnot : ¬t.bytes ≤ lineNic.atomicReadBytes := Nat.not_le_of_gt t.bytes_pos
  simp only [Verb.chunkOf, hnot, if_false]
  rfl

theorem mem_chunks_fetch {i : Nat} (hi : i < t.words)
    : t.block.line i ∈ (fetch t b).chunks lineNic := by
  rw [← chunkOf_fetch (b := b)]
  exact Verb.chunkOf_mem_chunks lineNic (Buffer.tupleBuffer b, 0) t.remoteAddress hi

theorem exists_fetchedLine (hc : t.consistency = .faRM) (hbatch : 0 < t.flags.batchSize) {i₀ : Nat}
    (hi₀ : i₀ < t.words) : ∃ s, Fetched t i₀ s := by
  obtain ⟨n, hn⟩ := Nat.exists_eq_add_one.mpr (Flags.batch_pos.mpr hbatch)
  let s₁ : LineState := zeroed.next (lineBenchmark t) (.start true (Iteration.read false 0))
  have hreach₁ : Sys.Reach (lineBenchmark t) Sys.anyStep zeroed s₁ :=
    .step (.start true (Iteration.read false 0)) .refl rfl trivial
  have hcontrol₁ : (s₁.worker true).control = .running (.read false 0) 0
      ((Prog.forEach (List.range n) fun _ => .post .rctx true (fetch t false) (.ret ())) >>= fun _ =>
        .post .rctx true (fetch t false)
          (.poll .rctx (sizeT t.flags.batchSize) (checked t false))) := by
    show Control.running _ _ (runTest t (incrementData t) (.read false 0)) = _
    rw [runTest_farm hc, hn, List.range_succ, Prog.forEach_append, Prog.bind_assoc]
    rfl
  -- All READs but the last one are over.
  obtain ⟨s₂, hran⟩ := Sys.exists_ran_of_accounts
    (batchSpec (incrementData t) lineNic (fits_farm hc (Int32.le_of_lt hbatch)))
    (Sys.initial_fresh _ _) hreach₁ (fun _ => rfl) hcontrol₁
  have hreads := run_forEach_read (v := fetch t false) rfl (List.range n) (l := (s₁.worker true).buf)
    (m := s₁.shared.mem)
  have hcontrol₂ : (s₂.worker true).control = .running (.read false 0) 0
      (.post .rctx true (fetch t false)
        (.poll .rctx (sizeT t.flags.batchSize) (checked t false))) := by
    rw [hran.control, hreads.1]
  have hmem₂ : s₂.shared.mem = fun _ => 0 := by
    rw [hran.mem, hreads.2]
    rfl
  -- The last one is posted, and fetches the line first.
  have hallow : (fetch t false).allows lineNic ((fetch t false).chunks lineNic) (t.block.line i₀)
      = true := by
    simpa [Verb.allows] using mem_chunks_fetch hi₀
  obtain ⟨s₃, halone₃, hcontrol₃, hqueue₃, hbuf₃, hshared₃⟩ :=
    Sys.exists_touched (lineBenchmark t) hran.queue hcontrol₂ hallow
  have halone : Sys.Alone (lineBenchmark t) true s₁ s₃ := hran.alone.trans halone₃
  refine ⟨s₃, hreach₁.trans (halone.mono fun _ _ _ => trivial), hcontrol₃, ⟨_, rfl, rfl, hqueue₃⟩,
    ?_, ?_, ?_, ?_⟩
  . intro i hi hline
    have hlt : i < 0 + t.bytes / 8 := by
      rw [Nat.zero_add]
      exact hi
    rw [hbuf₃, hmem₂]
    exact if_pos ⟨rfl, Nat.zero_le _, hlt, (chunkOf_fetch i).trans hline⟩
  . rw [hshared₃]
    exact hmem₂
  . have hposts : (Prog.forEach (List.range n) fun _ =>
        .post .rctx true (fetch t false) (.ret ()) : Code Unit).Posts fun v => v.isWrite = false :=
      .forEach fun _ _ => ⟨rfl, trivial⟩
    rw [hshared₃, Shared.push_hist, List.map_cons, List.forall_mem_cons]
    refine ⟨rfl, ?_⟩
    rw [hran.events]
    intro e he
    rcases List.mem_append.mp he with he | he
    . exact hposts.events _ _ _ _ _ e he
    . cases he
  . exact halone.worker_of_ne (by decide)

/-- Meanwhile a writer replaces the tuple, once. -/
theorem Fetched.exists_overtaken (hc : t.consistency = .faRM) (hbatch : 0 < t.flags.batchSize)
    {i₀ : Nat} {s : LineState} (h : Fetched t i₀ s)
    : ∃ s', Sys.Reach (lineBenchmark t) Sys.anyStep zeroed s' ∧ s'.worker true = s.worker true ∧
        (t.block.commits s'.shared.hist).length ≤ 1 ∧
        ∀ i, i < t.words → s'.shared.mem (t.block.base + i) = if i = t.lockIdx then 0 else 1 := by
  let s₁ : LineState := s.next (lineBenchmark t) (.start false (Iteration.update false ()))
  have hidle : (s.worker false).control = .idle := by
    rw [h.other]
    rfl
  have hreach₁ : Sys.Reach (lineBenchmark t) Sys.anyStep zeroed s₁ :=
    .step (.start false (Iteration.update false ())) h.reach
      (by simp [Sys.enabled, hidle, benchmark]) trivial
  have hworker₁ : s₁.worker false = { s.worker false with
      control := .running (.update false ()) s.shared.hist.length
        (runUpdate t (incrementData t) false () >>= fun _ => .ret none) } :=
    Sys.setWorker_self _ _ _
  obtain ⟨s₂, hran⟩ := Sys.exists_ran_of_accounts
    (batchSpec (incrementData t) lineNic (fits_farm hc (Int32.le_of_lt hbatch)))
    (Sys.initial_fresh _ _) hreach₁ (by rw [hworker₁, h.other]; exact fun _ => rfl)
    (by rw [hworker₁])
  have hfree : s₁.shared.mem (t.block.base + t.lockIdx) = wUnlocked := by
    show s.shared.mem _ = _
    rw [h.mem]
    rfl
  refine ⟨s₂, hran.reach hreach₁, ?_, ?_, ?_⟩
  . rw [hran.alone.worker_of_ne (by decide)]
    exact Sys.setWorker_of_ne (by decide) _
  . rw [t.block.commits_length_eq, hran.events, List.countP_append]
    have hnone : (s₁.shared.hist.map Prod.snd).countP (begins t) = 0 :=
      countP_begins_eq_zero h.events
    rw [hnone]
    exact countP_events_runUpdate _ _ _ _
  . obtain ⟨_, next, hreplaces, hmem⟩ :=
      run_runUpdate (incrementData t) false () hfree (s₁.worker false).buf
    intro i hi
    rw [hran.mem, hmem i hi]
    split
    . rfl
    . next hne =>
      rw [hreplaces.increments hc hi hne]
      show s.shared.mem _ + 1 = 1
      rw [h.mem]
      rfl

theorem snap_incremented (hc : t.consistency = .faRM) {init : Nat → Word}
    {s : Shared Bool Buffer (Iteration Unit)} (hinv : TupleInv t (incrementData t) init s) {k i : Nat}
    (hk : k ≤ (t.block.commits s.hist).length) (hi : i < t.words) (hne : i ≠ t.lockIdx)
    : snap init (t.block.commits s.hist) k i = init i + BitVec.ofNat 64 k := by
  apply hinv.chain.counter _ hk
  intro op prev next h
  cases op with
  | read => exact h.elim
  | update => exact Replaces.increments hc h hi hne

/-- The READ of the reader is over: the line of word `i₀` is the old one, and all others are new. -/
structure Mixed (t : Tuple) (i₀ : Nat) (s : LineState) : Prop where
  reach : Sys.Reach (lineBenchmark t) Sys.anyStep zeroed s
  control : (s.worker true).control
    = .running (.read false 0) 0 (.poll .rctx (sizeT t.flags.batchSize) (checked t false))
  queue : ∀ c, (s.worker true).queue c = []
  buf : ∀ i, i < t.words → (s.worker true).buf (.tupleBuffer false) i
    = if t.block.line i = t.block.line i₀ ∨ i = t.lockIdx then 0 else 1
  commits : (t.block.commits s.shared.hist).length ≤ 1

theorem Fetched.exists_mixed (hc : t.consistency = .faRM) (hbatch : 0 < t.flags.batchSize) {i₀ : Nat}
    {s : LineState} (h : Fetched t i₀ s) : ∃ s', Mixed t i₀ s' := by
  obtain ⟨s₁, hreach₁, hworker₁, hlen₁, hmem₁⟩ := h.exists_overtaken hc hbatch
  obtain ⟨f, hverb, hpending, hqueue⟩ := h.queue
  have hqueue₁ : (s₁.worker true).queue .rctx = [f] := by
    rw [hworker₁, hqueue]
    rfl
  obtain ⟨s₂, halone₂, hcontrol₂, hqueue₂, heffect₂, hhist₂⟩ :=
    Sys.exists_served (lineBenchmark t) hqueue₁
  refine ⟨s₂, hreach₁.trans (halone₂.mono fun _ _ _ => trivial), ?_, ?_, ?_, ?_⟩
  . rw [hcontrol₂, hworker₁, h.control]
  . intro c
    rw [hqueue₂, hworker₁, hqueue, Function.update_idem]
    cases c <;> rfl
  . intro i hi
    have hbuf : (s₂.worker true).buf (.tupleBuffer false) i =
        if Buffer.tupleBuffer false = .tupleBuffer false ∧ 0 ≤ i ∧ i < 0 + t.bytes / 8 ∧
            (fetch t false).chunkOf lineNic (i - 0) ∈ f.pending then
          s₁.shared.mem (t.block.base + i)
        else
          (s₁.worker true).buf (.tupleBuffer false) i := by
      have heffect := congrArg Prod.fst heffect₂
      rw [hverb, Verb.serve_read] at heffect
      exact congrFun (congrFun heffect _) i
    have hmem : (fetch t false).chunkOf lineNic (i - 0) ∈ f.pending ↔
        t.block.line i ≠ t.block.line i₀ := by
      rw [Nat.sub_zero, chunkOf_fetch, hpending, (Verb.chunks_nodup _ _).mem_erase_iff]
      exact ⟨fun h => h.1, fun h => ⟨h, mem_chunks_fetch hi⟩⟩
    rw [hbuf]
    by_cases hsame : t.block.line i = t.block.line i₀
    . have hnot : ¬(Buffer.tupleBuffer false = .tupleBuffer false ∧ 0 ≤ i ∧ i < 0 + t.bytes / 8 ∧
          (fetch t false).chunkOf lineNic (i - 0) ∈ f.pending) := by
        rintro ⟨_, _, _, h⟩
        exact hmem.mp h hsame
      rw [if_neg hnot, hworker₁, h.buf i hi hsame]
      simp only [hsame, true_or, if_true]
    . have hlt : i < 0 + t.bytes / 8 := by
        rw [Nat.zero_add]
        exact hi
      rw [if_pos ⟨rfl, Nat.zero_le _, hlt, hmem.mpr hsame⟩, hmem₁ i hi]
      simp only [hsame, false_or]
  . have hfetch : ∀ e ∈ f.pending.reverse.map (f.event true), e.verb.isWrite = false := by
      intro e he
      obtain ⟨chunk, _, rfl⟩ := List.mem_map.mp he
      show f.verb.isWrite = false
      rw [hverb]
      rfl
    rw [t.block.commits_length_eq, hhist₂, List.countP_append, countP_begins_eq_zero hfetch,
      ← t.block.commits_length_eq, Nat.zero_add]
    exact hlen₁

theorem exists_returned (hc : t.consistency = .faRM) (hnonneg : 0 ≤ t.flags.batchSize)
    {s₀ s : LineState} (hfresh : s₀.Fresh)
    (hreach : Sys.Reach (lineBenchmark t) Sys.anyStep s₀ s)
    (hcontrol : (s.worker true).control
      = .running (.read false 0) 0 (.poll .rctx (sizeT t.flags.batchSize) (checked t false)))
    (hqueue : ∀ c, (s.worker true).queue c = [])
    (hlock : (s.worker true).buf (.tupleBuffer false) t.lockIdx = 0)
    (hversions : ∀ v, v < t.words → v % 8 = 0 → (s.worker true).buf (.tupleBuffer false) v = 1)
    : ∃ s' versions, Sys.Reach (lineBenchmark t) Sys.anyStep s₀ s' ∧
        (s'.worker true).control = .running (.read false 0) 0 (.ret (some versions)) ∧
        (∀ i, (s'.worker true).buf (.tupleBuffer false) i
          = (s.worker true).buf (.tupleBuffer false) i) ∧
        (t.block.commits s'.shared.hist).length = (t.block.commits s.shared.hist).length := by
  have hpos : 0 < t.words := Nat.lt_of_lt_of_le (by decide) t.words_ge
  obtain ⟨⟨versions, hret⟩, hframe⟩ := run_checked (m := s.shared.mem) hlock
    fun v hv hmod => (hversions v hv hmod).trans (hversions 0 hpos rfl).symm
  rw [← Prog.bind_ret_right (.poll _ _ _)] at hcontrol
  obtain ⟨s', hran⟩ := Sys.exists_ran_of_accounts
    (batchSpec (incrementData t) lineNic (fits_farm hc hnonneg)) hfresh hreach hqueue hcontrol
  have hposts : (Prog.poll .rctx (sizeT t.flags.batchSize) (checked t false) : Code _).Posts
      fun v => v.isWrite = false := posts_checked _
  refine ⟨s', versions, hran.reach hreach, ?_, ?_, ?_⟩
  . rw [hran.control, Prog.run, hret]
  . intro i
    rw [hran.buf, Prog.run, hframe]
  . rw [t.block.commits_length_eq, hran.events, List.countP_append,
      countP_begins_eq_zero (hposts.events _ _ _ _ _), ← t.block.commits_length_eq, Nat.zero_add]

theorem ne_lockIdx (hc : t.consistency = .faRM) {v : Nat} (hmod : v % 8 = 0) : v ≠ t.lockIdx := by
  rintro rfl
  have := t.isProof_lockIdx
  simp [Tuple.isProof, hc, hmod] at this

/-- A line without a version is not noticed if the user has words on other lines. -/
theorem not_neverTorn_of_line (hc : t.consistency = .faRM) (hbatch : 0 < t.flags.batchSize)
    {i₀ j : Nat} (hi₀ : t.isData i₀) (hnot : ¬LineVersioned t i₀) (hj : t.isData j)
    (hline : t.block.line j ≠ t.block.line i₀)
    : ¬NeverTorn Bool t (incrementData t) lineNic (EqualVersions t) := by
  intro hnever
  obtain ⟨_, hfetched⟩ := exists_fetchedLine hc hbatch hi₀.1
  obtain ⟨s, hs⟩ := hfetched.exists_mixed hc hbatch
  have hlock : (s.worker true).buf (.tupleBuffer false) t.lockIdx = 0 := by
    rw [hs.buf _ t.lockIdx_lt, if_pos (.inr rfl)]
  have hversions : ∀ v, v < t.words → v % 8 = 0 →
      (s.worker true).buf (.tupleBuffer false) v = 1 := by
    intro v hv hmod
    rw [hs.buf v hv, if_neg]
    rintro (hsame | hlock)
    . exact hnot ⟨v, hv, hmod, hsame⟩
    . exact ne_lockIdx hc hmod hlock
  obtain ⟨s', versions, hreach', hcontrol', hbuf', hlen'⟩ := exists_returned hc
    (Int32.le_of_lt hbatch) (Sys.initial_fresh _ _) hs.reach hs.control hs.queue hlock hversions
  have hinv : TupleInv t (incrementData t) (fun _ => 0) s'.shared :=
    ((reading_farm hc (Int32.ne_of_lt hbatch).symm).attempting.sysOk rfl (Sys.initial_fresh _ _) rfl
      rfl hreach').inv
  have hlen := hs.commits
  obtain ⟨k, hk, hwords⟩ := hnever _ s' true false 0 0 versions (Sys.initial_fresh _ _)
    ⟨rfl, fun _ _ _ => rfl⟩ hreach' (by omega) hcontrol'
  have hsnap : ∀ i, t.isData i → (s.worker true).buf (.tupleBuffer false) i = BitVec.ofNat 64 k := by
    intro i hi
    rw [← hbuf', hwords i hi]
    apply (snap_incremented hc hinv hk hi.1 hi.2.1).trans
    simp
  have hold := hsnap i₀ hi₀
  have hnew := hsnap j hj
  rw [hs.buf i₀ hi₀.1, if_pos (.inl rfl)] at hold
  rw [hs.buf j hj.1, if_neg (fun h => h.elim hline hj.2.1), ← hold] at hnew
  simp at hnew

/-- A read that posts nothing returns what is in its buffer. -/
theorem not_neverTorn_of_zero (hc : t.consistency = .faRM) (hzero : t.flags.batchSize = 0)
    : ¬NeverTorn Bool t (incrementData t) lineNic (EqualVersions t) := by
  intro hnever
  let stale : Local Buffer := fun _ i => if i = t.lockIdx then 0 else 1
  let s₀ : LineState := Sys.initial (fun _ => 0) stale
  let s := s₀.next (lineBenchmark t) (.start true (Iteration.read false 0))
  have hreach : Sys.Reach (lineBenchmark t) Sys.anyStep s₀ s :=
    .step (.start true (Iteration.read false 0)) .refl rfl trivial
  have hcontrol : (s.worker true).control = .running (.read false 0) 0
      (.poll .rctx (sizeT t.flags.batchSize) (checked t false)) := by
    show Control.running _ _ (runTest t (incrementData t) (.read false 0)) = _
    rw [runTest_farm hc, Flags.batch, hzero]
    rfl
  have hbuf : (s.worker true).buf = stale := rfl
  obtain ⟨s', versions, hreach', hcontrol', hbuf', hlen'⟩ := exists_returned hc
    (by rw [hzero]; decide) (Sys.initial_fresh _ _) hreach hcontrol (fun _ => rfl)
    (by rw [hbuf]; exact if_pos rfl)
    (by rw [hbuf]; exact fun v _ hmod => if_neg (ne_lockIdx hc hmod))
  have hcommits : t.block.commits s'.shared.hist = [] := List.length_eq_zero_iff.mp hlen'
  obtain ⟨k, _, hwords⟩ := hnever _ s' true false 0 0 versions (Sys.initial_fresh _ _)
    ⟨rfl, fun _ _ _ => rfl⟩ hreach' (by rw [hcommits]; decide) hcontrol'
  have hdata : t.isData 2 := by
    have := t.words_ge
    have hlock : 2 ≠ t.lockIdx := by
      unfold Tuple.lockIdx
      split <;> omega
    exact (isData_farm hc).mpr ⟨by omega, hlock, by decide⟩
  have hword := hwords 2 hdata
  rw [hbuf', hbuf, hcommits] at hword
  have hstale : stale (.tupleBuffer false) 2 = 0 := hword
  simp [stale, hdata.2.1] at hstale

/--
FaRM reads are never torn if and only if they do not return at all, or if every line of the tuple with
words of the user has a version or one line has all of them.
-/
theorem farm_read_not_torn (hc : t.consistency = .faRM) {start lockId padding : Nat}
    (hstart : start % 64 = 0) (haddr : t.remoteAddress = lockAddr start lockId t.bytes padding)
    : (∀ (W U : Type) [DecidableEq W] (modification : Modification t U) (nic : Nic),
        nic.inOrderWrites = true → NeverTorn W t modification nic (EqualVersions t)) ↔
      t.flags.batchSize < 0 ∨ 0 < t.flags.batchSize ∧ OffsetOk t (lockId * padding % 64) := by
  have hlines : LinesVersioned t ↔ OffsetOk t (lockId * padding % 64) := by
    rw [linesVersioned_iff hc, haddr, lockAddr_mod hstart t.bytes_aligned]
  rw [← hlines]
  constructor
  . intro hnever
    have htorn := hnever Bool Unit (incrementData t) lineNic rfl
    by_cases hneg : t.flags.batchSize < 0
    . exact .inl hneg
    by_cases hbatch : 0 < t.flags.batchSize
    . refine .inr ⟨hbatch, ?_⟩
      intro i₀ hi₀
      by_contra hnot
      simp only [not_or, not_forall] at hnot
      obtain ⟨hversioned, j, hj, hline⟩ := hnot
      exact not_neverTorn_of_line hc hbatch hi₀ hversioned hj hline htorn
    . have hzero := Int32.le_antisymm (Int32.not_lt.mp hbatch) (Int32.not_lt.mp hneg)
      exact absurd htorn (not_neverTorn_of_zero hc hzero)
  . rintro (hneg | ⟨hbatch, hlines⟩) W U _ modification nic horder
    . exact neverTorn_of_neg hc horder hneg
    . exact neverTorn_of_linesVersioned hc horder hbatch hlines

def farmRun : List (Action Bool Ctx (Iteration Unit)) :=
  List.flatten [
    [.start false (.update false ())], cpus false 2, serves false .rctx [0],
    serves false .rctx [1, 2], [.cpu false 1], cpus false 19, serves false .rctx [1, 2],
    serves false .rctx [0],
    [.start true (.read false 0)], cpus true 1, serves true .rctx [2, 1], [.cpu true 1],
    cpus true 5]

theorem farm_read_of_farmRun
    : ∃ (s : Sys Bool Ctx Buffer OLRestartException (Option (Word × Word)) (Iteration Unit))
        (b : Bool) (k : Nat), ∀ i, (sampleTuple .faRM .headerLock 0).isData i →
          (s.worker true).buf (.tupleBuffer b) i =
            snap (fun _ => 0) ((sampleTuple .faRM .headerLock 0).block.commits s.shared.hist) k
              i := by
  have hrun : ((Sys.initial (fun _ => 0) (fun _ _ => 0)).run
      (benchmark (sampleTuple .faRM .headerLock 0) (incrementAll _)
        { atomicReadBytes := 0, inOrderWrites := true })
      farmRun).any (returnsRead (sampleTuple .faRM .headerLock 0) true) = true := by
    decide +kernel
  obtain ⟨s, b, opnum, since, versions, hreach, hcommits, hcontrol⟩ := exists_read_of_run hrun
  have hnever : NeverTorn Bool (sampleTuple .faRM .headerLock 0) (incrementAll _)
      { atomicReadBytes := 0, inOrderWrites := true } (EqualVersions _) :=
    (farm_read_not_torn (t := sampleTuple .faRM .headerLock 0) rfl (show 0 % 64 = 0 from rfl)
      rfl).mpr (.inr ⟨by decide, .inl rfl⟩) Bool Unit _ _ rfl
  obtain ⟨k, _, hwords⟩ := hnever _ s true b opnum since versions (Sys.initial_fresh _ _)
    ⟨rfl, fun _ _ _ => rfl⟩ hreach hcommits hcontrol
  exact ⟨s, b, k, hwords⟩

/-- The reader fetches the last line, which has no version, before a writer commits. -/
def tornLineRun : List (Action Bool Ctx (Iteration Unit)) :=
  List.flatten [
    [.start true (.read false 0)], cpus true 1, touches true .rctx [9],
    [.start false (.update false ())], cpus false 2, serves false .rctx [0],
    serves false .rctx [7, 8, 9], [.cpu false 1], cpus false 19, serves false .rctx [7, 8, 9],
    serves false .rctx [0], serves true .rctx [7, 8], [.cpu true 1], cpus true 5]

theorem farm_read_torn
    : ¬NeverTorn Bool (sampleTuple .faRM .headerLock 3) (incrementAll _)
        { atomicReadBytes := 0, inOrderWrites := true }
        (EqualVersions (sampleTuple .faRM .headerLock 3)) := by
  apply not_neverTorn (fun _ => 0) (fun _ _ => 0) true tornLineRun
  . exact ⟨rfl, fun _ _ _ => rfl⟩
  . decide +kernel

end Torn

end OptimisticLocks
