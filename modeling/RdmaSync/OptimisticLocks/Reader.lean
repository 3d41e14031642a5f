import RdmaSync.OptimisticLocks.Writer

/-!
This module contains what all proofs about optimistic readers share: readers run among writers that
follow the protocol of the tuple, and only what a read returns depends on the kind of validation.
-/

namespace OptimisticLocks

open Rdma CommunicationManager

variable {W U : Type} {t : Tuple} {modification : Modification t U} {nic : Nic}
  {init : Nat → Word}

theorem checkLock_eq (t : Tuple) (b : Bool) (opnum : Nat)
    : (t.optimistic b opnum).checkLock =
        .load (.tupleBuffer b, t.lockIdx) fun x => if x ≠ 0 then .throw .restart else .ret () := by
  unfold OptimisticLock.checkLock Tuple.lockIdx Tuple.optimistic
  cases t.lockType <;> rfl

def returnsRead (t : Tuple) (w : W)
    (s : Sys W Ctx Buffer OLRestartException (Option (Word × Word)) (Iteration U)) : Bool :=
  match (s.worker w).control with
  | .running (.read _ _) _ (.ret (some _)) => (t.block.commits s.shared.hist).length < 2 ^ 64
  | _ => false

theorem control_of_returnsRead {w : W}
    {s : Sys W Ctx Buffer OLRestartException (Option (Word × Word)) (Iteration U)}
    (h : returnsRead t w s = true)
    : ∃ b opnum since versions, (t.block.commits s.shared.hist).length < 2 ^ 64 ∧
        (s.worker w).control = .running (.read b opnum) since (.ret (some versions)) := by
  unfold returnsRead at h
  split at h
  . next b opnum since versions hcontrol =>
    exact ⟨b, opnum, since, versions, by simpa using h, hcontrol⟩
  . simp at h

variable [DecidableEq W]

def IterationValid (t : Tuple) (modification : Modification t U) (op : Iteration U)
    (prev next : Nat → Word) : Prop :=
  match op with
  | .read _ _ => False
  | .update _ u => Replaces t modification u prev next

abbrev tupleProtocol (t : Tuple) (modification : Modification t U) (init : Nat → Word)
    : Protocol W Buffer (Iteration U) :=
  t.block.protocol init (IterationValid t modification)

abbrev TupleInv (t : Tuple) (modification : Modification t U) (init : Nat → Word)
    (s : Shared W Buffer (Iteration U)) : Prop :=
  t.block.Inv init (IterationValid t modification) s

theorem IterationValid.version {op : Iteration U} {prev next : Nat → Word}
    (h : IterationValid t modification op prev next)
    : next t.versionIdx = prev t.versionIdx + 1 := by
  cases op with
  | read => exact h.elim
  | update => exact Replaces.version h

/-- The version word counts the commits. -/
theorem snap_version {s : Shared W Buffer (Iteration U)} (hinv : TupleInv t modification init s)
    {k : Nat} (hk : k ≤ (t.block.commits s.hist).length)
    : snap init (t.block.commits s.hist) k t.versionIdx
        = init t.versionIdx + BitVec.ofNat 64 k := by
  exact hinv.chain.counter (fun _ _ _ => IterationValid.version) hk

theorem version_inj {v : Word} {j k : Nat} (hj : j < 2 ^ 64) (hk : k < 2 ^ 64)
    (h : v + BitVec.ofNat 64 j = v + BitVec.ofNat 64 k) : j = k := by
  have h' := congrArg BitVec.toNat (BitVec.add_right_inj v |>.mp h)
  rwa [BitVec.toNat_ofNat, BitVec.toNat_ofNat, Nat.mod_eq_of_lt hj, Nat.mod_eq_of_lt hk] at h'

/--
What is proved about all attempts at reads of a tuple: `R b since o` holds when an attempt that uses
the buffers number `b` and began at `since` ends with `o`.
-/
structure Attempting (W : Type) [DecidableEq W] (t : Tuple) (modification : Modification t U)
    (nic : Nic) (init : Nat → Word)
    (R : Bool → Nat → Except OLRestartException (Word × Word) → Assertion W Buffer (Iteration U))
    : Prop where
  synced : ∀ {b opnum q} {ends : Except OLRestartException (Word × Word) → _ → Prop},
    Leftover q → (∀ o, ends o []) → Synced .rctx ends (runRead t b opnum) q
  stable : ∀ w b since o l,
    (tupleProtocol t modification init : Protocol W _ _).Stable w (R b since o l)
  wp_runRead : ∀ {w op b opnum l mine} {s : Shared W Buffer (Iteration U)},
    TupleInv t modification init s → t.block.Rests w mine s →
    wp (tupleProtocol t modification init) nic w op
      (fun o l s' => t.block.Rests w mine s' ∧ ∀ since, since ≤ s.hist.length → R b since o l s')
      (runRead t b opnum) l s

namespace Attempting

variable {R : Bool → Nat → Except OLRestartException (Word × Word) → Assertion W Buffer (Iteration U)}

def post (R : Bool → Nat → Except OLRestartException (Word × Word) → Assertion W Buffer (Iteration U))
    (op : Iteration U) (since : Nat) (o : Except OLRestartException (Option (Word × Word)))
    : Assertion W Buffer (Iteration U) :=
  fun l s =>
    match op, o with
    | .read b _, .ok (some versions) => R b since (.ok versions) l s
    | .read b _, .error e => R b since (.error e) l s
    | .read _ _, .ok none => False
    | .update _ _, _ => True

def ends (op : Iteration U) (q : List (Verb Buffer × Bool)) : Prop :=
  match op with
  | .read _ _ => q = []
  | .update _ _ => Leftover q

def spec (hR : Attempting W t modification nic init R) (horder : nic.inOrderWrites = true)
    : Spec (W := W) (tupleProtocol t modification init) (benchmark t modification nic) .rctx where
  ready := fun w _ _ s => ∃ mine, t.block.Rests w mine s
  post := fun _ op since o => post R op since o
  leftover := Leftover
  ends := fun op _ q => ends op q
  leftover_of_ends := by
    intro op _ q h
    cases op with
    | read =>
      obtain rfl : q = [] := h
      exact leftover_nil
    | update => exact h
  synced := by
    intro op q hq
    cases op with
    | read b opnum =>
      have hread : Synced .rctx (fun _ q => q = []) (runRead t b opnum) q :=
        hR.synced hq (fun _ => rfl)
      apply hread.bind
      . intro _ _ h
        exact h
      . intro _ _ h
        exact h
    | update b u =>
      have hupdate : Synced .rctx (fun _ q => Leftover q) (runUpdate t modification b u) q :=
        synced_runUpdate hq (fun _ h => h) (fun _ => leftover_nil)
      apply hupdate.bind
      . intro _ _ h
        exact h
      . intro _ _ h
        exact h
  wp_program := by
    rintro w op since done l s _ hinv hsince ⟨mine, hrests⟩
    cases op with
    | read b opnum =>
      apply wp.bind hinv (hR.wp_runRead hinv hrests)
      . rintro versions l' s' hinv' ⟨hrests', hpost⟩ s'' hr hinv''
        refine ⟨?_, fun _ => ⟨mine, (Block.rests_steady w mine).rely hr hrests'⟩⟩
        exact (hR.stable w b since (.ok versions) l').rely hr (hpost since hsince)
      . rintro e l' s' _ ⟨hrests', hpost⟩
        exact ⟨hpost since hsince, fun _ => ⟨mine, hrests'⟩⟩
    | update b u =>
      have hvalid : ∀ prev next, Replaces t modification u prev next →
          IterationValid t modification (.update b u) prev next := fun _ _ h => h
      apply wp.bind hinv (wp_runUpdate horder hvalid hinv hrests)
      . rintro _ l' s' _ ⟨words, hrests'⟩ s'' hr _
        exact ⟨trivial, fun _ => ⟨_, (Block.rests_steady w _).rely hr hrests'⟩⟩
      . intro e l' s' _ hrests'
        exact ⟨trivial, fun _ => ⟨mine, hrests'⟩⟩

theorem sysOk (hR : Attempting W t modification nic init R) (horder : nic.inOrderWrites = true)
    {s₀ s : Sys W Ctx Buffer OLRestartException (Option (Word × Word)) (Iteration U)}
    (hfresh : s₀.Fresh) (hinit : init = fun i => s₀.shared.mem (t.block.base + i))
    (hlock : s₀.shared.mem (t.block.base + t.lockIdx) = wUnlocked)
    (hreach : Sys.Reach (benchmark t modification nic) Sys.anyStep s₀ s)
    : (hR.spec horder).SysOk s := by
  apply (hR.spec horder).sysOk_of_reach (fun _ _ _ _ _ _ _ _ => trivial) _ hreach
  subst hinit
  apply (hR.spec horder).sysOk_fresh (inv_fresh _ hfresh.hist hlock) hfresh leftover_nil
  intro w s' hr _
  exact ⟨[], (Block.rests_steady w []).rely hr (rests_fresh hfresh.hist w)⟩

end Attempting

/--
What is proved about the reads of a tuple: `R b since versions` holds when a read that uses the
buffers number `b` and began at `since` returns `versions`.
-/
structure Reading (W : Type) [DecidableEq W] (t : Tuple) (modification : Modification t U)
    (nic : Nic) (init : Nat → Word)
    (R : Bool → Nat → Word × Word → Assertion W Buffer (Iteration U)) : Prop where
  synced : ∀ {b opnum q} {ends : Except OLRestartException (Word × Word) → _ → Prop},
    Leftover q → (∀ o, ends o []) → Synced .rctx ends (runRead t b opnum) q
  stable : ∀ w b since versions l,
    (tupleProtocol t modification init : Protocol W _ _).Stable w (R b since versions l)
  wp_runRead : ∀ {w op b opnum l mine} {s : Shared W Buffer (Iteration U)},
    TupleInv t modification init s → t.block.Rests w mine s →
    wp (tupleProtocol t modification init) nic w op
      (fun o l s' => t.block.Rests w mine s' ∧
        match o with
        | .ok versions => ∀ since, since ≤ s.hist.length → R b since versions l s'
        | .error _ => True)
      (runRead t b opnum) l s

namespace Reading

variable {R : Bool → Nat → Word × Word → Assertion W Buffer (Iteration U)}

/-- `R` if the attempt returns. -/
def onReturn (R : Bool → Nat → Word × Word → Assertion W Buffer (Iteration U)) (b : Bool)
    (since : Nat) (o : Except OLRestartException (Word × Word))
    : Assertion W Buffer (Iteration U) :=
  match o with
  | .ok versions => R b since versions
  | .error _ => fun _ _ => True

theorem attempting (hR : Reading W t modification nic init R)
    : Attempting W t modification nic init (onReturn R) where
  synced := hR.synced
  stable := by
    intro w b since o l
    cases o with
    | ok versions => exact hR.stable w b since versions l
    | error e => exact Protocol.stable_const True
  wp_runRead := by
    intro w op b opnum l mine s hinv hrests
    apply wp.mono (hR.wp_runRead hinv hrests) hinv
    rintro o l' s' _ ⟨hrests', hpost⟩
    cases o with
    | ok versions => exact ⟨hrests', hpost⟩
    | error e => exact ⟨hrests', fun _ _ => trivial⟩

theorem sound (hR : Reading W t modification nic init R) (horder : nic.inOrderWrites = true)
    {s₀ s : Sys W Ctx Buffer OLRestartException (Option (Word × Word)) (Iteration U)}
    (hfresh : s₀.Fresh) (hinit : init = fun i => s₀.shared.mem (t.block.base + i))
    (hlock : s₀.shared.mem (t.block.base + t.lockIdx) = wUnlocked)
    (hreach : Sys.Reach (benchmark t modification nic) Sys.anyStep s₀ s)
    {w : W} {b : Bool} {opnum since : Nat} {versions : Word × Word}
    (hcontrol : (s.worker w).control = .running (.read b opnum) since (.ret (some versions)))
    : TupleInv t modification init s.shared ∧ R b since versions (s.worker w).buf s.shared := by
  have hok := hR.attempting.sysOk horder hfresh hinit hlock hreach
  exact ⟨hok.inv, hok.post_ret _ hcontrol (fun _ h => h)⟩

end Reading

def IsCommitted (t : Tuple) (init : Nat → Word) (b : Bool) (_ : Nat) (_ : Word × Word)
    : Assertion W Buffer (Iteration U) :=
  fun l s => (t.block.commits s.hist).length < 2 ^ 64 →
    ∃ k, k ≤ (t.block.commits s.hist).length ∧
      ∀ i, t.isData i → l (.tupleBuffer b) i = snap init (t.block.commits s.hist) k i

theorem isCommitted_stable (w : W) (b : Bool) (since : Nat) (versions : Word × Word)
    (l : Local Buffer)
    : (tupleProtocol t modification init : Protocol W _ _).Stable w
        (IsCommitted t init b since versions l) := by
  intro s e _ _ _ _ h hlen
  have hsuffix := List.suffix_cons (s.mem, e) s.hist
  have hle := t.block.commits_length hsuffix
  rw [Shared.push_hist] at hlen
  obtain ⟨k, hk, hwords⟩ := h (by omega)
  refine ⟨k, by rw [Shared.push_hist]; omega, ?_⟩
  intro i hi
  rw [hwords i hi, Shared.push_hist, t.block.snap_commits init hsuffix hk]

/--
Reads are not torn: in every run from a state with `fresh` contents, the user's words that a read
returns are all of one committed state, as long as versions do not wrap around.
-/
def NeverTorn (W : Type) [DecidableEq W] (t : Tuple) (modification : Modification t U) (nic : Nic)
    (fresh : (Nat → Word) → Prop) : Prop :=
  ∀ (s₀ s : Sys W Ctx Buffer OLRestartException (Option (Word × Word)) (Iteration U))
    (w : W) (b : Bool) (opnum since : Nat) (versions : Word × Word),
    s₀.Fresh →
    fresh (fun i => s₀.shared.mem (t.block.base + i)) →
    Sys.Reach (benchmark t modification nic) Sys.anyStep s₀ s →
    (t.block.commits s.shared.hist).length < 2 ^ 64 →
    (s.worker w).control = .running (.read b opnum) since (.ret (some versions)) →
    ∃ k, k ≤ (t.block.commits s.shared.hist).length ∧
      ∀ i, t.isData i → (s.worker w).buf (.tupleBuffer b) i =
        snap (fun i => s₀.shared.mem (t.block.base + i)) (t.block.commits s.shared.hist) k i

def isTorn (t : Tuple) (w : W) (init : Nat → Word)
    (s : Sys W Ctx Buffer OLRestartException (Option (Word × Word)) (Iteration U)) : Bool :=
  match (s.worker w).control with
  | .running (.read b _) _ (.ret (some _)) =>
    let cs := t.block.commits s.shared.hist
    cs.length < 2 ^ 64 && (List.range (cs.length + 1)).all fun k =>
      (List.range t.words).any fun i =>
        decide (t.isData i) && (s.worker w).buf (.tupleBuffer b) i != snap init cs k i
  | _ => false

/-- One run that ends in a torn read refutes `NeverTorn`. -/
theorem not_neverTorn {fresh : (Nat → Word) → Prop} (m : Mem) (l : Local Buffer) (w : W)
    (as : List (Action W Ctx (Iteration U))) (hfresh : fresh (fun i => m (t.block.base + i)))
    (h : ((Sys.initial m l).run (benchmark t modification nic) as).any
      (isTorn t w fun i => m (t.block.base + i)) = true)
    : ¬NeverTorn W t modification nic fresh := by
  intro hnever
  obtain ⟨s, hreach, htorn⟩ := Sys.exists_reach_of_run h
  unfold isTorn at htorn
  split at htorn
  . next b opnum since versions hcontrol =>
    simp only [Bool.and_eq_true, decide_eq_true_eq, List.all_eq_true, List.mem_range,
      List.any_eq_true, bne_iff_ne] at htorn
    obtain ⟨k, hk, hwords⟩ := hnever _ s w b opnum since versions (Sys.initial_fresh m l) hfresh
      hreach htorn.1 hcontrol
    obtain ⟨i, _, hdata, hne⟩ := htorn.2 k (by omega)
    exact hne (hwords i hdata)
  . simp at htorn

theorem exists_read_of_run {s₀ : Sys W Ctx Buffer OLRestartException (Option (Word × Word)) _}
    {w : W} {as : List (Action W Ctx (Iteration U))}
    (h : (s₀.run (benchmark t modification nic) as).any (returnsRead t w) = true)
    : ∃ s b opnum since versions, Sys.Reach (benchmark t modification nic) Sys.anyStep s₀ s ∧
        (t.block.commits s.shared.hist).length < 2 ^ 64 ∧
        (s.worker w).control = .running (.read b opnum) since (.ret (some versions)) := by
  obtain ⟨s, hreach, hreturns⟩ := Sys.exists_reach_of_run h
  obtain ⟨b, opnum, since, versions, hlen, hcontrol⟩ := control_of_returnsRead hreturns
  exact ⟨s, b, opnum, since, versions, hreach, hlen, hcontrol⟩

end OptimisticLocks
