import RdmaSync.OptimisticLocks.Reader
import RdmaSync.Rdma.Starving

/-!
This module contains the readers that compare a version in every cache line. They are only right for
tuples that have such a version in each of their lines.
-/

namespace OptimisticLocks

open Rdma CommunicationManager

variable {W U : Type} [DecidableEq W] {t : Tuple} {modification : Modification t U} {nic : Nic}
  {init : Nat → Word}

section Writer

theorem exec_forEach_increment {c : Buffer} {xs : List Nat} (hnodup : xs.Nodup) {i : Nat}
    (hi : i ∈ xs) (l : Local Buffer)
    : ((Prog.forEach xs fun i => increment (c, i) : Code Unit).exec l).2 c i = l c i + 1 := by
  induction xs generalizing l with
  | nil => simp at hi
  | cons x xs ih =>
    obtain ⟨hnot, hnodup⟩ := List.nodup_cons.mp hnodup
    rw [Prog.forEach_cons, exec_increment_bind]
    rcases List.mem_cons.mp hi with rfl | hmem
    . -- The rest of the list leaves the word alone.
      have hlocal : (Prog.forEach xs fun j => increment (c, j) : Code Unit).Local
          (fun _ => True) (fun a => a.2 ≠ i) (fun _ => False) := by
        apply Prog.Local.forEach
        intro j hj
        apply increment_local trivial
        rintro rfl
        exact hnot hj
      rw [hlocal.exec_frame _ (by simp)]
      exact Local.set_self l (c, i) _
    . rw [ih hnodup hmem, Local.set_of_ne]
      intro heq
      obtain rfl : i = x := (Prod.mk.inj heq).2
      exact hnot hmem

theorem Replaces.lineVersion (hc : t.consistency = .faRM) {u : U} {prev next : Nat → Word}
    (h : Replaces t modification u prev next) {v : Nat} (hv : v < t.words) (hmod : v % 8 = 0)
    : next v = prev v + 1 := by
  have hversionIdx : t.versionIdx = 0 := by
    unfold Tuple.versionIdx
    rw [hc]
  by_cases hzero : v = 0
  . rw [hzero, ← hversionIdx]
    exact h.version
  . obtain ⟨b, l, hcopy, rfl⟩ := h
    have hproof : t.isProof v = true := by
      simp [Tuple.isProof, hc, hmod]
    have hlock : v ≠ t.lockIdx := by
      rintro rfl
      rw [t.isProof_lockIdx] at hproof
      simp at hproof
    have hdata : ¬t.isData v := by
      intro h
      rw [h.2.2.2] at hproof
      simp at hproof
    have hgenerate : (t.exclusive b).generateConsistencyProof
        = Prog.forEach (strided 8 (t.bytes / 8) (CL / 8)) fun i =>
            increment (.tupleBuffer b, 0 + i) := by
      simp [ExclusiveLock.generateConsistencyProof, Tuple.exclusive, hc,
        FaRM.generateConsistencyProof]
    rw [copied_apply _ _ _ hv, change_of_ne _ _ _ _ _ hlock (by omega), proven, hgenerate]
    simp only [Nat.zero_add]
    rw [exec_forEach_increment (strided_nodup (by decide))]
    . have hmodified : modified t b modification u l (.tupleBuffer b) v = l (.tupleBuffer b) v :=
        (modification.code_local u _).exec_frame _ (fun h => hdata h.2)
      rw [hmodified, hcopy v hv]
      simp [hlock]
    . have hlt : v < t.bytes / 8 := hv
      rw [mem_strided (by decide)]
      simp only [CL]
      omega

end Writer

section Check

theorem copyLine_local {throws : OLRestartException → Prop} {b : Bool} {i : Nat}
    (hi : i + 8 ≤ t.words)
    : (FaRM.copyLine (.tupleBuffer b, 0) i).Local (inTuple t b) (fun a => a.1 = .userBuffer)
        throws := by
  apply Prog.Local.forEach
  intro j hj
  have : j < 7 := by simpa [CL] using hj
  refine .load _ _ ⟨rfl, by show _ < _; omega⟩ ?_
  intro x
  exact .store _ _ _ rfl (.ret ())

def checkLine (flags : Flags) (b : Bool) (prev : Word) (i : Nat) : Code Unit := do
  let version ← load (.tupleBuffer b, 0 + i)
  if prev ≠ version then
    Prog.throw .restart
  else if flags.memcpy then
    FaRM.copyLine (.tupleBuffer b, 0) i

theorem checkLine_local {flags : Flags} {b : Bool} {prev : Word} {i : Nat} (hi : i + 8 ≤ t.words)
    : (checkLine flags b prev i).Local (inTuple t b) (fun a => a.1 = .userBuffer)
        (fun _ => True) := by
  refine .load _ _ ⟨rfl, by show _ < _; omega⟩ ?_
  intro version
  show Prog.Local _ _ _ (if prev ≠ version then .throw .restart
    else if flags.memcpy then FaRM.copyLine (.tupleBuffer b, 0) i else .ret ())
  split
  . exact .throw _ trivial
  . split
    . exact copyLine_local hi
    . exact .ret ()

theorem checkLine_ok {flags : Flags} {b : Bool} {prev : Word} {i : Nat} {l : Local Buffer} {a : Unit}
    (h : ((checkLine flags b prev i).exec l).1 = .ok a) : l (.tupleBuffer b) i = prev := by
  by_contra hne
  simp [checkLine, load, Ne.symm hne] at h

theorem checkLine_error {flags : Flags} {b : Bool} {prev : Word} {i : Nat} {l : Local Buffer}
    {e : OLRestartException} (hi : i + 8 ≤ t.words)
    (h : ((checkLine flags b prev i).exec l).1 = .error e) : l (.tupleBuffer b) i ≠ prev := by
  rintro rfl
  have hlocal : (FaRM.copyLine (.tupleBuffer b, 0) i).Local (inTuple t b)
      (fun a => a.1 = .userBuffer) (fun _ => False) := copyLine_local hi
  obtain ⟨a, hok⟩ := hlocal.exec_ok l
  simp only [checkLine, load, Nat.zero_add, Prog.bind_load, Prog.bind_ret, Prog.exec_load, ne_eq,
    not_true_eq_false, if_false] at h
  split at h
  . rw [hok] at h
    simp at h
  . simp at h

theorem forEach_checkLine_ok {flags : Flags} {b : Bool} {prev : Word} {xs : List Nat}
    {l : Local Buffer} {a : Unit} (hxs : ∀ i ∈ xs, i + 8 ≤ t.words)
    (h : ((Prog.forEach xs (checkLine flags b prev)).exec l).1 = .ok a)
    : ∀ i ∈ xs, l (.tupleBuffer b) i = prev := by
  induction xs generalizing l with
  | nil => simp
  | cons x xs ih =>
    rw [Prog.forEach_cons, Prog.exec_bind] at h
    cases hbody : (checkLine flags b prev x).exec l with
    | mk o l' =>
      have hlocal : (checkLine flags b prev x).Local (inTuple t b) (fun a => a.1 = .userBuffer)
          (fun _ => True) := checkLine_local (hxs x List.mem_cons_self)
      have hframe : ∀ i, l' (.tupleBuffer b) i = l (.tupleBuffer b) i := by
        intro i
        have := hlocal.exec_frame l (b := .tupleBuffer b) (i := i) (by simp)
        rwa [hbody] at this
      cases o with
      | error e => simp [hbody] at h
      | ok a' =>
        intro i hi
        rcases List.mem_cons.mp hi with rfl | hmem
        . exact checkLine_ok (by rw [hbody])
        . rw [← hframe i]
          rw [hbody] at h
          exact ih (fun i hi => hxs i (List.mem_cons_of_mem x hi)) h i hmem

theorem mem_versionWords (t : Tuple) {i : Nat}
    : i ∈ strided 0 (t.bytes / 8) (CL / 8) ↔ i < t.words ∧ i % 8 = 0 := by
  rw [mem_strided (by decide)]
  simp [CL, Tuple.words]

theorem farm_check_eq (t : Tuple) (b : Bool)
    : FaRM.checkConsistencyProof t.flags (.tupleBuffer b, 0) t.bytes =
        .load (.tupleBuffer b, 0) fun prev =>
          Prog.forEach (strided 0 (t.bytes / 8) (CL / 8)) (checkLine t.flags b prev) := by
  rfl

theorem farm_check_local (t : Tuple) (b : Bool)
    : (FaRM.checkConsistencyProof t.flags (.tupleBuffer b, 0) t.bytes).Local (inTuple t b)
        (fun a => a.1 = .userBuffer) (fun _ => True) := by
  have hge := t.words_ge
  have hmod := t.words_mod
  rw [farm_check_eq]
  refine .load _ _ ⟨rfl, by show _ < _; omega⟩ ?_
  intro prev
  apply Prog.Local.forEach
  intro i hi
  rw [mem_versionWords] at hi
  exact checkLine_local (by omega)

theorem farm_check_ok {b : Bool} {l : Local Buffer} {a : Unit}
    (h : ((FaRM.checkConsistencyProof t.flags (.tupleBuffer b, 0) t.bytes).exec l).1 = .ok a)
    {v : Nat} (hv : v < t.words) (hmod : v % 8 = 0)
    : l (.tupleBuffer b) v = l (.tupleBuffer b) 0 := by
  have := t.words_mod
  rw [farm_check_eq, Prog.exec_load] at h
  refine forEach_checkLine_ok (t := t) ?_ h v ((mem_versionWords t).mpr ⟨hv, hmod⟩)
  intro i hi
  rw [mem_versionWords] at hi
  omega

theorem farm_checks_ok {b : Bool} {n : Nat} (hn : 0 < n) {l : Local Buffer} {a : Unit}
    (h : ((Prog.forEach (List.range n) fun _ =>
      FaRM.checkConsistencyProof t.flags (.tupleBuffer b, 0) t.bytes).exec l).1 = .ok a)
    {v : Nat} (hv : v < t.words) (hmod : v % 8 = 0)
    : l (.tupleBuffer b) v = l (.tupleBuffer b) 0 := by
  obtain ⟨n, rfl⟩ : ∃ m, n = m + 1 := ⟨n - 1, by omega⟩
  rw [List.range_succ_eq_map, Prog.forEach_cons, Prog.exec_bind] at h
  cases hcheck : (FaRM.checkConsistencyProof t.flags (.tupleBuffer b, 0) t.bytes).exec l with
  | mk o l' =>
    cases o with
    | error e => simp [hcheck] at h
    | ok a' =>
      apply farm_check_ok _ hv hmod
      . exact a'
      . rw [hcheck]

theorem farm_checks_error {b : Bool} {n : Nat} {l : Local Buffer} {e : OLRestartException}
    (h : ((Prog.forEach (List.range n) fun _ =>
      FaRM.checkConsistencyProof t.flags (.tupleBuffer b, 0) t.bytes).exec l).1 = .error e)
    : ∃ v, v < t.words ∧ v % 8 = 0 ∧ l (.tupleBuffer b) v ≠ l (.tupleBuffer b) 0 := by
  have hmod := t.words_mod
  have hlines : ∀ i ∈ strided 0 (t.bytes / 8) (CL / 8), i < t.words ∧ i % 8 = 0 ∧ i + 8 ≤ t.words := by
    intro i hi
    rw [mem_versionWords] at hi
    omega
  obtain ⟨_, _, l₁, hl₁, hcheck⟩ := Prog.exec_forEach_error (c := .tupleBuffer b) l
    (fun _ _ l i => (farm_check_local t b).exec_frame l (by simp)) h
  rw [farm_check_eq, Prog.exec_load] at hcheck
  obtain ⟨v, hv, l₂, hl₂, hline⟩ := Prog.exec_forEach_error (c := .tupleBuffer b) l₁
    (fun v hv l i => (checkLine_local (hlines v hv).2.2).exec_frame l (by simp)) hcheck
  obtain ⟨hlt, hmod', hle⟩ := hlines v hv
  refine ⟨v, hlt, hmod', ?_⟩
  rw [← hl₁ v, ← hl₂ v, ← hl₁ 0]
  exact checkLine_error hle hline

end Check

section Read

theorem runRead_farm (hc : t.consistency = .faRM) (b : Bool) (opnum : Nat)
    : runRead t b opnum =
        ((Prog.forEach (List.range t.flags.batch) fun _ =>
            postRead (.tupleBuffer b, 0) .rctx true t.remoteAddress t.bytes false) >>= fun _ =>
          .poll .rctx (sizeT t.flags.batchSize)
            ((Prog.forEach (List.range t.flags.batch) fun _ =>
                FaRM.checkConsistencyProof t.flags (.tupleBuffer b, 0) t.bytes) >>= fun _ =>
              .load (.tupleBuffer b, t.lockIdx) fun x =>
                if x ≠ 0 then
                  .throw .restart
                else
                  .load (.tupleBuffer b, 0) fun version => .ret (0, version))) := by
  have hlock : (t.optimistic b opnum).lock 0 =
      (Prog.forEach (List.range t.flags.batch) fun _ =>
          postRead (.tupleBuffer b, 0) .rctx true t.remoteAddress t.bytes false) >>= fun _ =>
        .poll .rctx (sizeT t.flags.batchSize)
          ((Prog.forEach (List.range t.flags.batch) fun _ =>
              FaRM.checkConsistencyProof t.flags (.tupleBuffer b, 0) t.bytes) >>= fun _ =>
            .ret 0) := by
    simp only [OptimisticLock.lock, OptimisticLock.postBatch, Tuple.optimistic, hc, signaled,
      pollCompletions, Prog.bind_poll, Prog.bind_ret, Prog.pure_eq]
  have hunlock : (t.optimistic b opnum).unlock 0 =
      .load (.tupleBuffer b, t.lockIdx) fun x =>
        if x ≠ 0 then
          .throw .restart
        else
          .load (.tupleBuffer b, 0) fun version => .ret (0, version) := by
    have hcheck := checkLock_eq t b opnum
    simp only [Tuple.optimistic, hc] at hcheck
    simp only [OptimisticLock.unlock, Tuple.optimistic, hc, hcheck, load, Prog.pure_eq,
      Prog.bind_ret, Prog.bind_load, Prog.bind_ite, Prog.bind_throw]
  simp only [runRead, hlock, hunlock, Prog.bind_assoc, Prog.bind_poll, Prog.bind_ret]

theorem wp_readBatch {α : Type} {w : W} {op : Iteration U} {b : Bool} {n : Nat} (hn : 0 < n)
    {l : Local Buffer} {mine : List (Commit W (Iteration U))} {s : Shared W Buffer (Iteration U)}
    {Q : Except OLRestartException α → Assertion W Buffer (Iteration U)} {next : Code α}
    (hinv : TupleInv t modification init s) (h : t.block.Rests w mine s)
    (hnext : ∀ l' s', TupleInv t modification init s' → t.block.Rests w mine s' → s.Past s' →
      t.block.ReadByLine init (IterationValid t modification) (.tupleBuffer b) 0 t.words l' s s' →
      wp (tupleProtocol t modification init) nic w op Q next l' s')
    : wp (tupleProtocol t modification init) nic w op Q
        ((Prog.forEach (List.range n) fun _ =>
          postRead (.tupleBuffer b, 0) .rctx true t.remoteAddress t.bytes false) >>= fun _ => next)
        l s := by
  have hne : List.range n ≠ [] := by
    rw [ne_eq, List.range_eq_nil]
    omega
  generalize List.range n = xs at hne
  induction xs generalizing l s with
  | nil => exact absurd rfl hne
  | cons x xs ih =>
    apply Block.wp_read_lines (show _ = t.block.addr + 8 * 0 from rfl)
      (show t.bytes = 8 * (t.words - 0) from t.bytes_eq) hinv h
    intro l' s' hinv' hrests' hpast hread _
    by_cases hxs : xs = []
    . subst hxs
      exact hnext l' s' hinv' hrests' hpast hread
    . refine ih hinv' hrests' ?_ hxs
      intro l'' s'' hinv'' hrests'' hpast' hread'
      apply hnext l'' s'' hinv'' hrests'' (hpast.trans hpast')
      intro i₀ hlo hhi
      obtain ⟨s₁, hinv₁, hpast₀, hpast₁, hwords⟩ := hread' i₀ hlo hhi
      exact ⟨s₁, hinv₁, hpast.trans hpast₀, hpast₁, hwords⟩

/-- The line of word `i` has a version. -/
def LineVersioned (t : Tuple) (i : Nat) : Prop :=
  ∃ v, v < t.words ∧ v % 8 = 0 ∧ t.block.line v = t.block.line i

/-- Every line that has a word of the user has a version, unless it has all of them. -/
def LinesVersioned (t : Tuple) : Prop :=
  ∀ i, t.isData i → LineVersioned t i ∨ ∀ j, t.isData j → t.block.line j = t.block.line i

/-- Where in a cache line a tuple may begin for all of its lines to be compared. -/
def OffsetOk (t : Tuple) (offset : Nat) : Prop :=
  match t.lockType with
  | .headerLock => offset = 0 ∨ t.bytes = 64 ∧ 48 ≤ offset
  | .footerLock => offset = 0 ∨ offset = 8 ∨ t.bytes = 64 ∧ offset = 56

theorem isData_farm (hc : t.consistency = .faRM) {i : Nat}
    : t.isData i ↔ i < t.words ∧ i ≠ t.lockIdx ∧ i % 8 ≠ 0 := by
  have hproof : t.isProof i = false ↔ i % 8 ≠ 0 := by
    simp [Tuple.isProof, hc]
  have hversion : t.versionIdx = 0 := by
    simp [Tuple.versionIdx, hc]
  unfold Tuple.isData
  rw [hproof, hversion]
  constructor
  . rintro ⟨hi, hlock, _, hmod⟩
    exact ⟨hi, hlock, hmod⟩
  . rintro ⟨hi, hlock, hmod⟩
    exact ⟨hi, hlock, by omega, hmod⟩

/-- The first line of a tuple always has a version, and so has every other that is not the last. -/
theorem linesVersioned_iff (hc : t.consistency = .faRM)
    : LinesVersioned t ↔ OffsetOk t (t.remoteAddress % 64) := by
  have haligned := t.remoteAddress_aligned
  have hmod := t.words_mod
  have hge := t.words_ge
  have hbytes := t.bytes_eq
  have hline : ∀ j, t.block.line j = (t.remoteAddress / 8 + j) / 8 := fun _ => rfl
  unfold LinesVersioned LineVersioned OffsetOk
  simp only [isData_farm hc, hline]
  cases hl : t.lockType with
  | headerLock =>
    have hlock : t.lockIdx = 1 := by
      simp [Tuple.lockIdx, hl]
    rw [hlock]
    constructor
    . intro h
      rcases h (t.words - 1) (by omega) with ⟨v, hv, hvmod, hvline⟩ | hone
      . omega
      . have h2 := hone 2 (by omega)
        have h3 := hone (t.words - 2) (by omega)
        simp only
        omega
    . rintro h i ⟨hi, hne, himod⟩
      rcases h with h | ⟨h, hoffset⟩
      . exact .inl ⟨i / 8 * 8, by omega, by omega, by omega⟩
      . refine .inr fun j hj => ?_
        omega
  | footerLock =>
    have hlock : t.lockIdx = t.words - 1 := by
      simp [Tuple.lockIdx, hl]
    rw [hlock]
    constructor
    . intro h
      rcases h (t.words - 2) (by omega) with ⟨v, hv, hvmod, hvline⟩ | hone
      . omega
      . have h1 := hone 1 (by omega)
        simp only
        omega
    . rintro h i ⟨hi, hne, himod⟩
      rcases h with h | h | ⟨h, hoffset⟩
      . exact .inl ⟨i / 8 * 8, by omega, by omega, by omega⟩
      . exact .inl ⟨(i + 1) / 8 * 8, by omega, by omega, by omega⟩
      . refine .inr fun j hj => ?_
        omega

theorem snap_lineVersion (hc : t.consistency = .faRM)
    (hinit : ∀ v, v < t.words → v % 8 = 0 → init v = init 0)
    {s : Shared W Buffer (Iteration U)} (hinv : TupleInv t modification init s) {k v : Nat}
    (hk : k ≤ (t.block.commits s.hist).length) (hv : v < t.words) (hmod : v % 8 = 0)
    : snap init (t.block.commits s.hist) k v = init 0 + BitVec.ofNat 64 k := by
  rw [← hinit v hv hmod]
  apply hinv.chain.counter _ hk
  intro op prev next h
  cases op with
  | read => exact h.elim
  | update => exact Replaces.lineVersion hc h hv hmod

theorem synced_runRead_farm (hc : t.consistency = .faRM) (hbatch : t.flags.batchSize ≠ 0)
    {b : Bool} {opnum : Nat} {q : List (Verb Buffer × Bool)}
    {ends : Except OLRestartException (Word × Word) → List (Verb Buffer × Bool) → Prop}
    (hq : Leftover q) (hends : ∀ o, ends o []) : Synced .rctx ends (runRead t b opnum) q := by
  have hacked (v : Verb Buffer)
      : acked (q ++ List.replicate t.flags.batch (v, true)) (sizeT t.flags.batchSize) = [] := by
    by_cases hpos : 0 < t.flags.batchSize
    . rw [sizeT_batchSize (Int32.le_of_lt hpos)]
      exact acked_append_replicate hq.unsignaled v (Flags.batch_pos.mpr hpos)
    . rw [Nat.eq_zero_of_not_pos (mt Flags.batch_pos.mp hpos), List.replicate_zero, List.append_nil]
      exact acked_of_unsignaled hq.unsignaled (sizeT_pos hbatch)
  rw [runRead_farm hc]
  apply Synced.forEach_read
  refine ⟨rfl, ?_⟩
  rw [List.length_range, hacked]
  have hchecks : (Prog.forEach (List.range t.flags.batch) fun _ =>
      FaRM.checkConsistencyProof t.flags (.tupleBuffer b, 0) t.bytes).Local (inTuple t b)
      (fun a => a.1 = .userBuffer) (fun _ => True) :=
    Prog.Local.forEach fun _ _ => farm_check_local t b
  apply Synced.of_local hchecks
  . intro a _
    exact quiet_nil a
  . intro a _
    exact quiet_nil a
  . intro e _
    exact hends _
  . intro _
    refine ⟨quiet_nil _, fun x => ?_⟩
    apply Synced.check (hends _)
    exact ⟨quiet_nil _, fun version => hends _⟩

theorem posts_runRead_farm (hc : t.consistency = .faRM) {b : Bool} {opnum : Nat}
    : (runRead t b opnum).Posts fun v => v.isRead = true := by
  rw [runRead_farm hc]
  refine Prog.Posts.bind (.forEach fun _ _ => ?_) fun _ =>
    Prog.Posts.bind (.forEach fun _ _ => (farm_check_local t b).posts _) fun _ x => ?_
  . exact ⟨rfl, trivial⟩
  . simp [Prog.posts_ite, Prog.Posts]

theorem reading_farm (hc : t.consistency = .faRM) (hbatch : t.flags.batchSize ≠ 0)
    : Reading W t modification nic init (fun _ _ _ _ _ => True) where
  synced := synced_runRead_farm hc hbatch
  stable := fun _ _ _ _ _ => Protocol.stable_const True
  wp_runRead := by
    intro w op b opnum l mine s hinv h
    apply wp.mono (Block.wp_readsOnly (posts_runRead_farm hc) hinv h) hinv
    intro o _ _ _ hrests
    refine ⟨hrests, ?_⟩
    cases o <;> simp

theorem wp_runRead_farm (hc : t.consistency = .faRM) (hbatch : 0 < t.flags.batchSize)
    (hlines : LinesVersioned t) (hinit : ∀ v, v < t.words → v % 8 = 0 → init v = init 0)
    {w : W} {op : Iteration U} {b : Bool} {opnum : Nat} {l : Local Buffer}
    {mine : List (Commit W (Iteration U))} {s : Shared W Buffer (Iteration U)}
    (hinv : TupleInv t modification init s) (h : t.block.Rests w mine s)
    : wp (tupleProtocol t modification init) nic w op
        (fun o l s' => t.block.Rests w mine s' ∧
          match o with
          | .ok versions => ∀ since, since ≤ s.hist.length → IsCommitted t init b since versions l s'
          | .error _ => True)
        (runRead t b opnum) l s := by
  have hge := t.words_ge
  have hrests {s s'} (hr : (tupleProtocol t modification init).Rely w s s')
      (h : t.block.Rests w mine s) : t.block.Rests w mine s' :=
    (Block.rests_steady w mine).rely hr h
  have hchecks : (Prog.forEach (List.range t.flags.batch) fun _ =>
      FaRM.checkConsistencyProof t.flags (.tupleBuffer b, 0) t.bytes).Local (inTuple t b)
      (fun a => a.1 = .userBuffer) (fun _ => True) :=
    Prog.Local.forEach fun _ _ => farm_check_local t b
  rw [runRead_farm hc]
  apply wp_readBatch (Flags.batch_pos.mpr hbatch) hinv h
  intro l₁ s₁' hinv₁' hrests₁ _ hread
  rw [wp_poll]
  apply wp.exec_bind hchecks
  . intro a hok
    -- The checks leave the tuple buffer alone.
    have hframe : ∀ i, ((Prog.forEach (List.range t.flags.batch) fun _ =>
        FaRM.checkConsistencyProof t.flags (.tupleBuffer b, 0) t.bytes : Code Unit).exec l₁).2
          (.tupleBuffer b) i = l₁ (.tupleBuffer b) i := by
      intro i
      exact hchecks.exec_frame l₁ (by simp)
    rw [wp_load]
    apply wp_check
    . intro s' hr _
      exact ⟨hrests hr hrests₁, trivial⟩
    intro _
    rw [wp_load, wp_ret]
    intro s' hr hinv'
    refine ⟨hrests hr hrests₁, ?_⟩
    intro since _ hlen
    -- The line of a word is that of the commit that its version tells.
    have hline : ∀ i₀, i₀ < t.words → ∃ k, k ≤ (t.block.commits s'.hist).length ∧
        ∀ i, i < t.words → i ≠ t.lockIdx → t.block.line i = t.block.line i₀ →
          l₁ (.tupleBuffer b) i = snap init (t.block.commits s'.hist) k i := by
      intro i₀ hi₀
      obtain ⟨s₁, hinv₁, _, hpast₁, hwords⟩ := hread i₀ (Nat.zero_le _) hi₀
      obtain ⟨k, _, hk, hsnap⟩ :=
        hinv₁.line_snap_past (hpast₁.trans hr.past) (t.block.line i₀)
      refine ⟨k, hk, ?_⟩
      intro i hi hne hline
      rw [hwords i (Nat.zero_le _) hi hline, hsnap i hi hne hline]
    have hproof : ∀ v, v < t.words → v % 8 = 0 → v ≠ t.lockIdx := by
      rintro v hv hmod rfl
      have := t.isProof_lockIdx
      simp [Tuple.isProof, hc, hmod] at this
    by_cases hall : ∀ i, t.isData i → LineVersioned t i
    . obtain ⟨k₀, hk₀, hfirst⟩ := hline 0 (by omega)
      refine ⟨k₀, hk₀, ?_⟩
      intro i hi
      obtain ⟨v, hv, hmod, hvi⟩ := hall i hi
      obtain ⟨k, hk, hsnap⟩ := hline i hi.1
      have hversion : init 0 + BitVec.ofNat 64 k = init 0 + BitVec.ofNat 64 k₀ := by
        rw [← snap_lineVersion hc hinit hinv' hk hv hmod,
          ← snap_lineVersion hc hinit hinv' hk₀ (show 0 < t.words by omega) rfl,
          ← hsnap v hv (hproof v hv hmod) hvi,
          ← hfirst 0 (by omega) (hproof 0 (by omega) rfl) rfl]
        exact farm_checks_ok (Flags.batch_pos.mpr hbatch) hok hv hmod
      obtain rfl := version_inj (by omega) (by omega) hversion
      rw [hframe i, hsnap i hi.1 hi.2.1 rfl]
    . -- All words of the user are on the line of `i₀`.
      simp only [not_forall] at hall
      obtain ⟨i₀, hi₀, hnot⟩ := hall
      have hone := (hlines i₀ hi₀).resolve_left hnot
      obtain ⟨k, hk, hsnap⟩ := hline i₀ hi₀.1
      refine ⟨k, hk, ?_⟩
      intro i hi
      rw [hframe i, hsnap i hi.1 hi.2.1 (hone i hi)]
  . intro e s' hr _ _
    exact ⟨hrests hr hrests₁, trivial⟩

def EqualVersions (t : Tuple) (words : Nat → Word) : Prop :=
  words t.lockIdx = wUnlocked ∧ ∀ v, v < t.words → v % 8 = 0 → words v = words 0

theorem neverTorn_of_linesVersioned (hc : t.consistency = .faRM)
    (horder : nic.inOrderWrites = true) (hbatch : 0 < t.flags.batchSize)
    (hlines : LinesVersioned t) : NeverTorn W t modification nic (EqualVersions t) := by
  rintro s₀ s w b opnum since versions hfresh ⟨hlock, hinit⟩ hreach hcommits hcontrol
  have hreading : Reading W t modification nic (fun i => s₀.shared.mem (t.block.base + i))
      (IsCommitted t fun i => s₀.shared.mem (t.block.base + i)) :=
    { synced := synced_runRead_farm hc (Int32.ne_of_lt hbatch).symm
      stable := isCommitted_stable
      wp_runRead := wp_runRead_farm hc hbatch hlines hinit }
  exact (hreading.sound horder hfresh rfl hlock hreach hcontrol).2 hcommits

/-- A read that waits for a negative number of completions never returns. -/
theorem neverTorn_of_neg (hc : t.consistency = .faRM) (horder : nic.inOrderWrites = true)
    (hneg : t.flags.batchSize < 0) : NeverTorn W t modification nic (EqualVersions t) := by
  rintro s₀ s w b opnum since versions hfresh ⟨hlock, _⟩ hreach _ hcontrol
  have hreading : Reading W t modification nic (fun i => s₀.shared.mem (t.block.base + i))
      (fun _ _ _ _ _ => True) := reading_farm hc (Int32.ne_of_lt hneg)
  have hprogram : ∃ next, (benchmark t modification nic).program (.read b opnum)
      = .poll .rctx (sizeT t.flags.batchSize) next := by
    show ∃ next, runTest t modification (.read b opnum) = _
    rw [runTest, runRead_farm hc, Flags.batch_of_neg hneg]
    simp
  obtain ⟨next, hprogram⟩ := hprogram
  have hstarves := (hreading.attempting.spec horder).starves_of_reach hprogram
    (sizeT_pos (Int32.ne_of_lt hneg)) (fun _ hu => Leftover.unsignaled hu)
    (fun _ _ _ _ _ _ _ _ => trivial)
    (hreading.attempting.sysOk horder hfresh rfl hlock .refl) hfresh hreach w
  obtain ⟨hret, _⟩ := hstarves _ _ hcontrol
  rw [hprogram] at hret
  simp at hret

end Read

end OptimisticLocks
