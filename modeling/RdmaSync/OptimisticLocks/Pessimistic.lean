import RdmaSync.OptimisticLocks.Benchmark
import RdmaSync.Rdma.CounterRules

/-!
This module contains the pessimistic benchmark: readers and writers that lock a tuple with
`ReaderWriterLock`. Readers do not look at what their fetch-and-add returns, so that they are isolated
from writers only as long as no writer holds the lock when they read.
-/

namespace OptimisticLocks

open Rdma CommunicationManager
open Rdma.Action (cpus touches serves)

structure LockedTuple where
  flags : Flags
  remoteAddress : Nat
  bytes : Nat
  remoteAddress_aligned : remoteAddress % 8 = 0
  bytes_ge : 16 ≤ bytes
  bytes_aligned : bytes % 8 = 0

namespace LockedTuple

variable (t : LockedTuple)

def words : Nat := t.bytes / 8 - 1

def readerWriter (b : Bool) : ReaderWriterLock where
  flags := t.flags
  remoteAddress := t.remoteAddress
  lockBuffer := .lockBuffer b
  tupleBuffer := .tupleBuffer b
  bytes := t.bytes

def counter : CounterLock where
  addr := t.remoteAddress
  count := t.words
  exclusive := exclusiveLocked
  addr_aligned := t.remoteAddress_aligned
  exclusive_gt := by decide
  exclusive_le := by decide

end LockedTuple

inductive Access (U : Type) where
  | read (b : Bool)
  | update (b : Bool) (u : U)

namespace Access

variable {U : Type}

def isRead (op : Access U) : Bool :=
  match op with
  | .read _ => true
  | .update _ _ => false

end Access

/-- What a writer does to its copy of the tuple: any code that stays within the buffer. -/
structure TupleCode (U : Type) where
  code : U → Buffer → Code Unit
  code_local : ∀ u tupleBuffer, (code u tupleBuffer).Local
    (fun a => a.1 = tupleBuffer) (fun a => a.1 = tupleBuffer) (fun _ => False)

def Modification.toTupleCode {t : Tuple} {U : Type} (modification : Modification t U)
    : TupleCode U where
  code := modification.code
  code_local := fun u tupleBuffer =>
    (modification.code_local u tupleBuffer).mono (fun _ h => h.1) (fun _ h => h.1)

section RunPessimistic

variable (t : LockedTuple) {U : Type} (modification : TupleCode U)

def runPessimistic (op : Access U) : Code Unit :=
  match op with
  | .read b => do
    (t.readerWriter b).lockShared
    ReaderWriterLock.unlockShared
  | .update b u => do
    (t.readerWriter b).lockExclusive
    modification.code u (.tupleBuffer b)
    (t.readerWriter b).unlockExclusive

def pessimistic (nic : Nic) : Workload Ctx Buffer OLRestartException Unit (Access U) where
  nic := nic
  program := runPessimistic t modification
  mayStart := fun _ _ => true
  after := fun op outcome =>
    match outcome with
    | .ok _ => .idle
    | .error _ => .goto op

end RunPessimistic

variable {W U : Type} {t : LockedTuple} {modification : TupleCode U} {nic : Nic} {b : Bool}

def joinVerb (t : LockedTuple) (b : Bool) : Verb Buffer :=
  .fetchAdd 1 (.lockBuffer b, 0) t.remoteAddress

def readVerb (t : LockedTuple) (b : Bool) : Verb Buffer :=
  .read (.tupleBuffer b, 0) (t.remoteAddress + 8) (t.bytes - 8)

def leaveVerb (t : LockedTuple) (b : Bool) : Verb Buffer :=
  .fetchAdd (-1) (.lockBuffer b, 0) t.remoteAddress

def sharedRound (t : LockedTuple) (b : Bool) : Code Unit :=
  .post .rctx false (joinVerb t b) (.post .rctx true (readVerb t b)
    (.post .rctx false (leaveVerb t b) (.ret ())))

theorem runPessimistic_read (t : LockedTuple) (modification : TupleCode U) (b : Bool)
    : runPessimistic t modification (.read b)
        = (Prog.forEach (List.range t.flags.batch) fun _ => sharedRound t b) >>= fun _ =>
            .poll .rctx (sizeT t.flags.batchSize) (.ret ()) := by
  simp only [runPessimistic, ReaderWriterLock.lockShared, Prog.bind_assoc]
  rfl

theorem lockExclusive_eq (t : LockedTuple) (b : Bool)
    : (t.readerWriter b).lockExclusive
        = .post .rctx false
            (.compareSwap 0 t.counter.exclusive (.lockBuffer b, 0) t.counter.addr)
            (.post .rctx true (readVerb t b) (.poll .rctx 1 (.load (.lockBuffer b, 0) fun x =>
              if x ≠ 0 then .throw .restart else .ret ()))) := by
  rfl

theorem exclusiveUnlockToBeAdded_eq : exclusiveUnlockToBeAdded = -exclusiveLocked := by
  decide

theorem unlockExclusive_eq (t : LockedTuple) (b : Bool)
    : (t.readerWriter b).unlockExclusive
        = .post .rctx false (.write (.tupleBuffer b, 0) (t.counter.addr + 8) (t.bytes - 8))
            (.post .rctx false
              (.fetchAdd (-t.counter.exclusive) (.lockBuffer b, 0) t.counter.addr) (.ret ())) := by
  unfold ReaderWriterLock.unlockExclusive
  rw [exclusiveUnlockToBeAdded_eq]
  rfl

section Discipline

def rounds (t : LockedTuple) (b : Bool) (n : Nat) : List (Verb Buffer × Bool) :=
  match n with
  | 0 => []
  | n + 1 => (joinVerb t b, false) :: (readVerb t b, true) :: (leaveVerb t b, false) :: rounds t b n

theorem acked_rounds {u : List (Verb Buffer × Bool)} (h : ∀ p ∈ u, p.2 = false) (n : Nat)
    : acked (u ++ rounds t b (n + 1)) (n + 1) = [(leaveVerb t b, false)] := by
  induction n generalizing u with
  | zero =>
    rw [rounds, List.append_cons, acked_append_signaled]
    . rfl
    . simpa using h
  | succ n ih =>
    rw [rounds, List.append_cons, acked_append_signaled]
    . apply ih (u := [(leaveVerb t b, false)])
      simp
    . simpa using h

theorem synced_forEach_sharedRound {xs : List Nat} {next : Code Unit}
    {ends : Except OLRestartException Unit → List (Verb Buffer × Bool) → Prop}
    {u : List (Verb Buffer × Bool)} (h : Synced .rctx ends next (u ++ rounds t b xs.length))
    : Synced .rctx ends ((Prog.forEach xs fun _ => sharedRound t b) >>= fun _ => next) u := by
  induction xs generalizing u with
  | nil => simpa [rounds] using h
  | cons x xs ih =>
    refine ⟨rfl, fun _ h => h.elim, rfl, fun _ h => h.elim, rfl, fun _ h => h.elim, ?_⟩
    apply ih
    simpa [rounds] using h

/-- What an attempt leaves in the queue. -/
def PessimisticEnds (t : LockedTuple) (op : Access U) (u : List (Verb Buffer × Bool)) : Prop :=
  match op with
  | .read b => u = [(leaveVerb t b, false)]
  | .update _ _ => Leftover u

theorem leftover_leaveVerb (t : LockedTuple) (b : Bool) : Leftover [(leaveVerb t b, false)] := by
  intro p hp
  obtain rfl := List.mem_singleton.mp hp
  exact ⟨rfl, fun a h => ⟨b, by rw [show a = (Buffer.lockBuffer b, 0) from h]⟩⟩

theorem synced_runPessimistic (hbatch : 0 < t.flags.batchSize) (op : Access U)
    {u : List (Verb Buffer × Bool)} (hu : Leftover u)
    : Synced .rctx (fun _ => PessimisticEnds t op) (runPessimistic t modification op) u := by
  cases op with
  | read b =>
    rw [runPessimistic_read, sizeT_batchSize (Int32.le_of_lt hbatch)]
    apply synced_forEach_sharedRound
    obtain ⟨n, hn⟩ := Nat.exists_eq_add_one.mpr (Flags.batch_pos.mpr hbatch)
    rw [List.length_range, hn]
    exact ⟨rfl, acked_rounds hu.unsignaled n⟩
  | update b x =>
    simp only [runPessimistic, lockExclusive_eq, unlockExclusive_eq, Prog.bind_post, Prog.bind_poll,
      Prog.bind_load, Prog.bind_ite, Prog.bind_throw, Prog.bind_ret]
    refine ⟨rfl, fun _ h => h.elim, rfl, fun _ h => h.elim, rfl, ?_⟩
    rw [acked_append_signaled, acked_nil]
    . refine ⟨quiet_nil _, ?_⟩
      intro y
      dsimp only
      split
      . exact leftover_nil
      . apply Synced.of_local (modification.code_local x _)
        . intro a _
          exact quiet_nil a
        . intro a _
          exact quiet_nil a
        . intro _ h
          exact h.elim
        . intro _
          refine ⟨rfl, fun a _ => quiet_nil a, rfl, fun _ h => h.elim, ?_⟩
          intro p hp
          simp only [List.nil_append, List.singleton_append, List.mem_cons, List.not_mem_nil,
            or_false] at hp
          rcases hp with rfl | rfl
          . exact ⟨rfl, fun _ h => h.elim⟩
          . exact ⟨rfl, fun a h => ⟨b, by rw [show a = (Buffer.lockBuffer b, 0) from h]⟩⟩
    . intro p hp
      rcases List.mem_append.mp hp with hp | hp
      . exact hu.unsignaled p hp
      . rw [List.mem_singleton.mp hp]

end Discipline

section Protocol

variable [DecidableEq W]

def ReadsFree (t : LockedTuple) (s : Shared W Buffer (Access U)) (e : Event W Buffer (Access U))
    : Prop :=
  e.op.isRead = true → e.verb.isRead = true → t.counter.lock.Free s.hist

/-- The buffer number `b` has the words that the tuple had when nobody held the lock. -/
def Isolated (t : LockedTuple) (b : Bool) (since : Nat) : Assertion W Buffer (Access U) :=
  fun l s => ∃ s₁ : Shared W Buffer (Access U), s₁.Past s ∧ since ≤ s₁.hist.length ∧
    t.counter.lock.Free s₁.hist ∧
    ∀ i, i < t.words → l (.tupleBuffer b) i = t.counter.words s₁.mem i

theorem Isolated.since_le {since : Nat} {l : Local Buffer} {s : Shared W Buffer (Access U)}
    (h : Isolated t b since l s) : since ≤ s.hist.length := by
  obtain ⟨s₁, hpast, hsince, _⟩ := h
  exact hsince.trans hpast.hist.length_le

theorem isolated_stable {P : Protocol W Buffer (Access U)} (w : W) (since : Nat)
    (l : Local Buffer) : P.Stable w (Isolated t b since l) := by
  rintro s e _ _ _ _ ⟨s₁, hpast, h⟩
  exact ⟨s₁, hpast.push e, h⟩

/-- The fetch-and-add that is under way when `lockShared` returns cannot have isolated the copy. -/
theorem isolated_pull {l : Local Buffer} {s : Shared W Buffer (Access U)} {since : Nat}
    {e : Event W Buffer (Access U)} (he : e.verb = leaveVerb t b)
    (hsince : since ≤ s.hist.length)
    (h : Isolated t b since ((leaveVerb t b).deliver nic e.chunk s.mem l) (s.push e))
    : Isolated t b since l s := by
  have hstill : t.counter.lock.Still s e := CounterLock.still_of_leave he
  obtain ⟨s₁, hpast, hsince₁, hfree, hdata⟩ := h
  have hwords (i : Nat) (hi : i < t.words) : l (.tupleBuffer b) i = t.counter.words s₁.mem i := by
    rw [← hdata i hi]
    exact (Local.set_of_ne _ _ _ (by simp)).symm
  rcases hpast.of_push with rfl | hpast
  . refine ⟨s, .refl s, hsince, fun w' => by rw [← hstill.holds, hfree w'], ?_⟩
    intro i hi
    rw [hwords i hi]
    exact hstill.data i hi
  . exact ⟨s₁, hpast, hsince₁, hfree, hwords⟩

variable [Fintype W]

abbrev pessimisticProtocol (t : LockedTuple) (init : Nat → Word)
    (hcard : Fintype.card W < t.counter.exclusive.toNat) : Protocol W Buffer (Access U) :=
  t.counter.protocol init (fun _ _ _ => True) (ReadsFree t) hcard

variable {init : Nat → Word} {hcard : Fintype.card W < t.counter.exclusive.toNat} {w : W}
  {op : Access U} {l : Local Buffer} {s : Shared W Buffer (Access U)}
  {mine : List (Commit W (Access U))}

theorem away_readVerb : t.counter.Away (readVerb t b) := by
  trivial

def readEnsures (t : LockedTuple) (b : Bool) (w : W) (mine : List (Commit W (Access U)))
    (since : Nat) (o : Except OLRestartException Unit) : Assertion W Buffer (Access U) :=
  fun l s =>
    match o with
    | .ok _ => t.counter.lock.Resting w mine s ∧ Isolated t b since l s
    | .error _ => False

theorem wp_sharedRound {since : Nat} (hsince : since ≤ s.hist.length)
    (h : t.counter.lock.Resting w mine s)
    : wp (pessimisticProtocol t init hcard) nic w (.read b) (readEnsures t b w mine since)
        (sharedRound t b) l s := by
  have hwords : (t.bytes - 8) / 8 = t.words := by
    unfold LockedTuple.words
    omega
  have hfirst : (t.remoteAddress + 8) / 8 = t.counter.base + 1 := by
    show _ = t.remoteAddress / 8 + 1
    omega
  apply CounterLock.wp_join h
  intro s₁ x hinv₁ hpast₁ hshares₁ _
  apply wp_read_each
    (fun s => t.counter.lock.Sharing w mine s ∧ t.counter.lock.OnceFree s₁.hist.length s) hinv₁
    ⟨hshares₁, RwLock.onceFree_self _ _⟩
    (RwLock.onceFree_steady (CounterLock.governs _ hcard) w mine _)
  . intro s' e _ _ _ _ hv
    left
    rw [hv]
    exact away_readVerb (b := b)
  . rintro l₂ s₂ hinv₂ ⟨hshares₂, honce⟩ hpast₂ hfetched _
    -- All lines have been fetched while nobody held the lock, so they are those of `s₂`.
    have hsame (i : Nat) (hi : i < t.words)
        : t.counter.lock.Free s₂.hist ∧ l₂ (.tupleBuffer b) i = t.counter.words s₂.mem i := by
      obtain ⟨s', hs', hword⟩ := hfetched i (by omega)
      rw [Nat.zero_add, hfirst] at hword
      obtain ⟨hfree, hdata⟩ := honce s' hs'.before hs'.after.hist.length_le (hs'.guard rfl rfl)
      exact ⟨hfree, hword.trans (hdata i hi)⟩
    have hpos : 0 < t.words := by
      have := t.bytes_ge
      unfold LockedTuple.words
      omega
    apply CounterLock.wp_leave hshares₂
    intro s₃ y hinv₃ hpast₃ hrests₃ s₄ hr hinv₄
    have hsince₂ : since ≤ s₂.hist.length :=
      hsince.trans (hpast₁.trans hpast₂).hist.length_le
    refine ⟨(RwLock.resting_steady w mine).rely hr hrests₃, s₂, hpast₃.trans hr.past, hsince₂,
      (hsame 0 hpos).1, ?_⟩
    intro i hi
    rw [← (hsame i hi).2]
    exact Local.set_of_ne _ _ _ (by simp)

/-- The last round decides what is in the buffer. -/
theorem wp_forEach_sharedRound {xs : List Nat} (hxs : xs ≠ []) {since : Nat}
    (hinv : t.counter.Inv init (fun _ _ _ => True) s) (hsince : since ≤ s.hist.length)
    (h : t.counter.lock.Resting w mine s)
    : wp (pessimisticProtocol t init hcard) nic w (.read b) (readEnsures t b w mine since)
        (Prog.forEach xs fun _ => sharedRound t b) l s := by
  induction xs generalizing l s with
  | nil => exact absurd rfl hxs
  | cons x xs ih =>
    rw [Prog.forEach_cons]
    apply wp.bind hinv (wp_sharedRound hsince h)
    . rintro _ l₁ s₁ hinv₁ ⟨hrests₁, hisolated₁⟩
      by_cases hxs' : xs = []
      . subst hxs'
        intro s₂ hr hinv₂
        exact ⟨(RwLock.resting_steady w mine).rely hr hrests₁,
          (isolated_stable w since l₁).rely hr hisolated₁⟩
      . exact ih hxs' hinv₁ hisolated₁.since_le hrests₁
    . intro _ _ _ _ h
      exact h

theorem wp_update (x : U) (h : t.counter.lock.Resting w mine s)
    : wp (pessimisticProtocol t init hcard) nic w (.update b x)
        (fun _ _ s => ∃ mine, t.counter.lock.Resting w mine s)
        (runPessimistic t modification (.update b x)) l s := by
  have hwords : (t.bytes - 8) / 8 = t.counter.count := by
    show (t.bytes - 8) / 8 = t.bytes / 8 - 1
    omega
  have hland : ¬(readVerb t b).lands (.lockBuffer b, 0) := by
    simp [readVerb, Verb.lands]
  have hpermit : ∀ (s' : Shared W Buffer (Access U)) e, e.verb = readVerb t b →
      (pessimisticProtocol t init hcard).permit s' e := by
    intro s' e hv
    left
    rw [hv]
    exact away_readVerb (b := b)
  simp only [runPessimistic, lockExclusive_eq, unlockExclusive_eq, Prog.bind_post, Prog.bind_poll,
    Prog.bind_load, Prog.bind_ite, Prog.bind_throw, Prog.bind_ret]
  apply CounterLock.wp_acquire h
  rintro s₁ y hinv₁ (⟨rfl, cs, hholds₁⟩ | ⟨hy, hrests₁⟩)
  . apply wp_read_each _ hinv₁ hholds₁
      (RwLock.holding_steady (CounterLock.governs _ hcard) w mine cs _)
    . intro s' e _ _ _ _ hv
      exact hpermit s' e hv
    . intro l₂ s₂ hinv₂ hholds₂ _ _ hframe
      have hzero : l₂ (.lockBuffer b) 0 = 0 := by
        rw [hframe _ _ hland]
        exact Local.set_self l (Buffer.lockBuffer b, 0) 0
      simp only [wp_poll, wp_load, hzero, ne_eq, not_true_eq_false, ↓reduceIte]
      apply wp.exec_bind (modification.code_local x _)
      . intro _ _
        apply CounterLock.wp_replace hwords hholds₂ hinv₂
        intro s₃ hinv₃ hholds₃
        apply CounterLock.wp_release hholds₃ (fun _ _ => trivial)
        intro s₄ z g hinv₄ hrests₄ s₅ hr _
        exact ⟨_, (RwLock.resting_steady w _).rely hr hrests₄⟩
      . intro e _ _ _ he
        obtain ⟨_, hok⟩ := (modification.code_local x _).exec_ok l₂
        rw [hok] at he
        simp at he
  . apply wp_read_each _ hinv₁ hrests₁ (RwLock.resting_steady w mine)
    . intro s' e _ _ _ _ hv
      exact hpermit s' e hv
    . intro l₂ s₂ hinv₂ hrests₂ _ _ hframe
      have hfailed : l₂ (.lockBuffer b) 0 = y := by
        rw [hframe _ _ hland]
        exact Local.set_self l (Buffer.lockBuffer b, 0) y
      simp only [wp_poll, wp_load, hfailed, ne_eq, hy, not_false_eq_true, ↓reduceIte]
      intro s₃ hr _
      exact ⟨mine, (RwLock.resting_steady w mine).rely hr hrests₂⟩

def pessimisticPost (t : LockedTuple) (op : Access U) (since : Nat)
    (o : Except OLRestartException Unit) : Assertion W Buffer (Access U) :=
  fun l s =>
    match op, o with
    | .read b, .ok _ => Isolated t b since l s
    | _, _ => True

def pessimisticSpec (modification : TupleCode U) (nic : Nic) (init : Nat → Word)
    (hbatch : 0 < t.flags.batchSize) (hcard : Fintype.card W < t.counter.exclusive.toNat)
    : Spec (pessimisticProtocol t init hcard) (pessimistic t modification nic) .rctx where
  ready := fun w _ _ s => ∃ mine, t.counter.lock.Resting w mine s
  post := fun _ op since o => pessimisticPost t op since o
  leftover := Leftover
  ends := fun op _ u => PessimisticEnds t op u
  leftover_of_ends := by
    intro op _ u h
    cases op with
    | read b =>
      obtain rfl : u = [(leaveVerb t b, false)] := h
      exact leftover_leaveVerb t b
    | update => exact h
  synced := fun op _ hu => synced_runPessimistic hbatch op hu
  wp_program := by
    rintro w op since done l s _ hinv hsince ⟨mine, hrests⟩
    cases op with
    | read b =>
      have hne : List.range t.flags.batch ≠ [] := by
        rw [ne_eq, List.range_eq_nil]
        exact Nat.ne_of_gt (Flags.batch_pos.mpr hbatch)
      show wp _ _ _ _ _ (runPessimistic t modification (.read b)) l s
      rw [runPessimistic_read]
      apply wp.bind hinv (wp_forEach_sharedRound hne hinv hsince hrests)
      . rintro _ l' s' _ ⟨hrests', hisolated⟩ s'' hr _
        exact ⟨(isolated_stable w since l').rely hr hisolated,
          fun _ => ⟨mine, (RwLock.resting_steady w mine).rely hr hrests'⟩⟩
      . intro _ _ _ _ h
        exact h.elim
    | update b x =>
      apply wp.mono (wp_update x hrests) hinv
      intro o l' s' _ hready
      refine ⟨trivial, ?_⟩
      cases o with
      | ok _ => exact fun _ => hready
      | error _ => exact fun _ => hready

/-- READs of `lockShared` fetch lines only while nobody holds the lock. -/
def readsFree (t : LockedTuple) (s : Sys W Ctx Buffer OLRestartException Unit (Access U))
    (a : Action W Ctx (Access U)) : Bool :=
  match a with
  | .touch w c _ =>
    match (s.worker w).queue c with
    | f :: _ => !(f.op.isRead && f.verb.isRead) || decide (t.counter.lock.Free s.shared.hist)
    | [] => true
  | _ => true

theorem guards_readsFree
    : Spec.Guards (pessimisticProtocol t init hcard : Protocol W Buffer (Access U))
        (fun (s : Sys W Ctx Buffer OLRestartException Unit (Access U)) a =>
          readsFree t s a = true) := by
  intro s w c chunk f fs hcond hq hop hread
  have hop' : f.op.isRead = true := hop
  have hread' : f.verb.isRead = true := hread
  simpa only [readsFree, hq, hop', hread', Bool.and_self, Bool.not_true, Bool.false_or,
    decide_eq_true_eq] using hcond

/-- What `lockShared` returns is isolated, unless its READs run into a writer. -/
theorem lockShared_isolated (hcard : Fintype.card W < 2 ^ 60) (hbatch : 0 < t.flags.batchSize)
    {s₀ s : Sys W Ctx Buffer OLRestartException Unit (Access U)} (hfresh : s₀.Fresh)
    (hlock : s₀.shared.mem t.counter.base = unlocked)
    (hreach : Sys.Reach (pessimistic t modification nic) (fun s a => readsFree t s a = true) s₀ s)
    {w : W} {b : Bool} {since : Nat}
    (hcontrol : (s.worker w).control = .running (.read b) since (.ret ()))
    : Isolated t b since (s.worker w).buf s.shared := by
  let S := pessimisticSpec (W := W) modification nic (t.counter.words s₀.shared.mem) hbatch hcard
  have hok : S.SysOk s := by
    apply S.sysOk_of_reach guards_readsFree _ hreach
    apply S.sysOk_fresh (CounterLock.inv_initial hfresh.hist hlock) hfresh leftover_nil
    intro w s' hr _
    exact ⟨[], (RwLock.resting_steady w []).rely hr (RwLock.resting_initial hfresh.hist w)⟩
  apply hok.post_ret_of_pull S
    (A := fun l s => since ≤ s.hist.length → Isolated t b since l s) hcontrol
  . intro l s _ h _
    exact h
  . intro u hu f hf
    obtain rfl : u = [(leaveVerb t b, false)] := hu
    obtain ⟨hverb, _⟩ := Prod.mk.inj (List.mem_singleton.mp hf)
    constructor
    . intro s chunk _ hread
      have hread' : f.verb.isRead = true := hread
      simp [hverb, leaveVerb, Verb.isRead] at hread'
    . intro l s chunk _ h hsince
      rw [hverb] at h
      have hisolated := h (by rw [Shared.push_hist, List.length_cons]; omega)
      exact isolated_pull (e := f.event w chunk) hverb hsince hisolated
  . exact hok.since_le S hcontrol

end Protocol

section Runs

def sampleLocked : LockedTuple where
  flags := { batchSize := 2, memcpy := false, crc64 := fun _ => 0 }
  remoteAddress := lockAddr 0 0 128 8
  bytes := 128
  remoteAddress_aligned := rfl
  bytes_ge := by decide
  bytes_aligned := rfl

def samplePessimistic : TupleCode (RandomIndex (sampleTuple .v2 .headerLock 0)) :=
  (addFive _).toTupleCode

abbrev SampleAccess := Access (RandomIndex (sampleTuple .v2 .headerLock 0))

/-- A writer has locked the tuple and placed its WRITE, but not given the lock back. -/
def writerHolds : List (Action Bool Ctx SampleAccess) :=
  List.flatten [
    [.start false (.update false (sampleIndex .v2 .headerLock))], cpus false 2, serves false .rctx [0],
    serves false .rctx [1, 2], [.cpu false 1], cpus false 5, serves false .rctx [1, 2]]

def readerRounds : List (Action Bool Ctx SampleAccess) :=
  List.flatten [
    [.start true (.read false)], cpus true 6, serves true .rctx [0], serves true .rctx [1, 2],
    serves true .rctx [0], serves true .rctx [0], serves true .rctx [2, 1], [.cpu true 2]]

def returnsAccess (w : W) (s : Sys W Ctx Buffer OLRestartException Unit (Access U)) : Bool :=
  match (s.worker w).control with
  | .running (.read _) _ (.ret _) => true
  | _ => false

theorem lockShared_isolated_after_writer
    : ∃ (s : Sys Bool Ctx Buffer OLRestartException Unit SampleAccess) (b : Bool) (since : Nat),
        Isolated sampleLocked b since (s.worker true).buf s.shared := by
  have hrun : ((Sys.initial (fun _ => 0) (fun _ _ => 0)).runIf
      (pessimistic sampleLocked samplePessimistic
        { atomicReadBytes := 0, inOrderWrites := true })
      (readsFree sampleLocked) (writerHolds ++ serves false .rctx [0] ++ readerRounds)).any
      (returnsAccess true) = true := by
    decide +kernel
  obtain ⟨s, hreach, hreturns⟩ := Sys.exists_reach_of_runIf hrun
  unfold returnsAccess at hreturns
  split at hreturns
  . next b since a hcontrol =>
    exact ⟨s, b, since, lockShared_isolated (by decide) (by decide) (Sys.initial_fresh _ _) rfl
      hreach hcontrol⟩
  . simp at hreturns

def isDirty [DecidableEq W] [Fintype W] (t : LockedTuple) (w : W)
    (s : Sys W Ctx Buffer OLRestartException Unit (Access U)) : Bool :=
  match (s.worker w).control with
  | .running (.read b) _ (.ret _) =>
    s.shared.pasts.all fun s₁ => !decide (t.counter.lock.Free s₁.hist) ||
      (List.range t.words).any fun i =>
        (s.worker w).buf (.tupleBuffer b) i != t.counter.words s₁.mem i
  | _ => false

theorem lockShared_not_isolated
    : ∃ (s : Sys Bool Ctx Buffer OLRestartException Unit SampleAccess) (b : Bool) (since : Nat),
        Sys.Reach (pessimistic sampleLocked samplePessimistic
          { atomicReadBytes := 0, inOrderWrites := true }) Sys.anyStep
          (Sys.initial (fun _ => 0) (fun _ _ => 0)) s ∧
        (s.worker true).control = .running (.read b) since (.ret ()) ∧
        ¬Isolated sampleLocked b 0 (s.worker true).buf s.shared := by
  have hrun : ((Sys.initial (fun _ => 0) (fun _ _ => 0)).run
      (pessimistic sampleLocked samplePessimistic
        { atomicReadBytes := 0, inOrderWrites := true })
      (writerHolds ++ readerRounds)).any (isDirty sampleLocked true) = true := by
    decide +kernel
  obtain ⟨s, hreach, hdirty⟩ := Sys.exists_reach_of_run hrun
  unfold isDirty at hdirty
  split at hdirty
  . next b since a hcontrol =>
    refine ⟨s, b, since, hreach, hcontrol, ?_⟩
    rintro ⟨s₁, hpast, _, hfree, hwords⟩
    have := List.all_eq_true.mp hdirty s₁ hpast.mem_pasts
    simp only [hfree, decide_true, Bool.not_true, Bool.false_or, List.any_eq_true, List.mem_range,
      bne_iff_ne] at this
    obtain ⟨i, hi, hne⟩ := this
    exact hne (hwords i hi)
  . simp at hdirty

end Runs

end OptimisticLocks
