import RdmaSync.LockingBenchmark.Transaction
import RdmaSync.Rdma.RwLock
import RdmaSync.Rdma.Soundness

/-!
This module contains what the proofs about the locking benchmarks share. An attempt at a transaction
locks a tuple and reads it, works on the copy and gives the tuple back. The verbs, the index of the lock
word in the copy and what a refused worker does differ between the benchmarks; here they are parameters.
-/

namespace LockingBenchmark

open Rdma CommunicationManager

variable {lockCount : Nat} {lock early late : Verb Buffer} {lockWord : Nat} {refused : Word → Prop}
  [DecidablePred refused] {back : Code Bool} {work release : Code Unit}

section Programs

/--
Lock a tuple and read it: with the READ `early` at once, or with the READ `late` when the lock is known
to be granted.
-/
def lockTuple (speculativeRead : Bool) (lock early late : Verb Buffer) (lockWord : Nat)
    (refused : Word → Prop) [DecidablePred refused] (back : Code Bool) : Code Bool :=
  if speculativeRead then
    .post .rctx false lock (.post .rctx true early (.poll .rctx 1 (.load (.old, lockWord) fun x =>
      if refused x then back else .ret true)))
  else
    .post .rctx true lock (.poll .rctx 1 (.load (.old, lockWord) fun x =>
      if refused x then back else .post .rctx true late (.poll .rctx 1 (.ret true))))

/-- Give a tuple back with one request, and wait for it unless the releases are ordered. -/
def giveBack (orderRelease : Bool) (v : Verb Buffer) : Code Unit :=
  if orderRelease then
    .post .rctx false v (.ret ())
  else
    .post .rctx true v (.poll .rctx 1 (.ret ()))

def attempt (lock : Code Bool) (work release : Code Unit) : Code Bool := do
  let locked ← lock
  if locked then
    work
    release
    return true
  else
    return false

theorem posts_lockTuple {V : Verb Buffer → Prop} (speculativeRead : Bool) (hlock : V lock)
    (hearly : V early) (hlate : V late) (hback : back.Posts V)
    : (lockTuple speculativeRead lock early late lockWord refused back).Posts V := by
  unfold lockTuple
  split
  . refine ⟨hlock, hearly, ?_⟩
    intro x
    dsimp only
    split
    . exact hback
    . trivial
  . refine ⟨hlock, ?_⟩
    intro x
    dsimp only
    split
    . exact hback
    . exact ⟨hlate, trivial⟩

theorem posts_giveBack {V : Verb Buffer → Prop} {v : Verb Buffer} (orderRelease : Bool) (hv : V v)
    : (giveBack orderRelease v).Posts V := by
  unfold giveBack
  split
  . exact ⟨hv, trivial⟩
  . exact ⟨hv, trivial⟩

theorem posts_attempt {V : Verb Buffer → Prop} {lock : Code Bool} (hlock : lock.Posts V)
    (hwork : work.Posts V) (hrelease : release.Posts V) : (attempt lock work release).Posts V := by
  apply hlock.bind
  intro locked
  cases locked with
  | false => trivial
  | true =>
    apply hwork.bind
    intro _
    apply hrelease.bind
    intro _
    trivial

end Programs

section Discipline

variable {u : List (Verb Buffer × Bool)}

theorem synced_lockTuple (speculativeRead : Bool) (hu : Unsignaled u) (hlock : ∀ a, ¬lock.sends a)
    (hearly : ∀ a, ¬early.sends a) (hlate : ∀ a, ¬late.sends a)
    (hback : Synced .rctx (fun _ u => u = []) back [])
    : Synced .rctx (fun _ u => u = [])
        (lockTuple speculativeRead lock early late lockWord refused back) u := by
  unfold lockTuple
  split
  . refine ⟨rfl, fun a h => absurd h (hlock a), ?_⟩
    apply Synced.post_poll (hu.append _) (fun a h => absurd h (hearly a))
    refine ⟨quiet_nil _, ?_⟩
    intro x
    dsimp only
    split
    . exact hback
    . rfl
  . apply Synced.post_poll hu (fun a h => absurd h (hlock a))
    refine ⟨quiet_nil _, ?_⟩
    intro x
    dsimp only
    split
    . exact hback
    . apply Synced.post_poll (by simp) (fun a h => absurd h (hlate a))
      rfl

theorem synced_giveBack {v : Verb Buffer} (orderRelease : Bool) (hu : Unsignaled u)
    (hv : ∀ a, v.sends a → Quiet u a) : Synced .rctx Ends (giveBack orderRelease v) u := by
  unfold giveBack
  split
  . exact ⟨rfl, hv, hu.append v⟩
  . exact Synced.post_poll hu hv unsignaled_nil

theorem synced_attempt {lock : Code Bool} {loads stores : Buffer × Nat → Prop}
    {throws : Terminate → Prop} (hlock : Synced .rctx (fun _ u => u = []) lock u)
    (hwork : work.Local loads stores throws) (hrelease : Synced .rctx Ends release [])
    : Synced .rctx Ends (attempt lock work release) u := by
  apply hlock.bind
  . rintro locked _ rfl
    cases locked with
    | false => exact unsignaled_nil
    | true =>
      apply Synced.of_local hwork
      . exact fun a _ => quiet_nil a
      . exact fun a _ => quiet_nil a
      . exact fun _ _ => rfl
      . intro _
        apply hrelease.bind
        . exact fun _ _ h => h
        . exact fun _ _ h => h
  . exact fun _ _ h => h

end Discipline

section Protocol

variable [DecidableEq W] {P : Protocol W Buffer (Transaction lockCount)}
  {L : RwLock W Buffer (Transaction lockCount)} {nic : Nic} {w : W} {op : Transaction lockCount}
  {l : Local Buffer} {s : Shared W Buffer (Transaction lockCount)} {init : Nat → Word}
  {first : Nat} {id : Fin lockCount} {mine cs : List (Commit W (Transaction lockCount))}

def Copied (first count : Nat) (f : Nat → Word) (l : Local Buffer) : Prop :=
  ∀ i, i < count → l .old (first + i) = f i

/-- The verb is a READ that copies the `count` words from the remote word `base` on to these places. -/
def Copies (first base count : Nat) (v : Verb Buffer) : Prop :=
  ∃ d remoteOffset bytes, v = .read (.old, d) remoteOffset bytes ∧ d ≤ first ∧
    remoteOffset / 8 + (first - d) = base ∧ first - d + count ≤ bytes / 8

theorem Copies.isRead {base count : Nat} {v : Verb Buffer} (hv : Copies first base count v)
    : v.isRead = true := by
  obtain ⟨d, remoteOffset, bytes, rfl, _⟩ := hv
  rfl

omit [DecidableEq W] in
theorem wp_copy {α : Type} {v : Verb Buffer} {signaled : Bool} {next : Code α}
    {Q : Except Terminate α → Assertion W Buffer (Transaction lockCount)}
    (hreads : ∀ s e, e.verb.isRead = true → P.permit s e) (hv : Copies first L.first L.count v)
    (C : Shared W Buffer (Transaction lockCount) → Prop) (f : Nat → Word) (hinv : P.inv s) (hC : C s)
    (hsteady : P.Steady w C)
    (hf : ∀ s, P.inv s → C s → ∀ i, i < L.count → s.mem (L.first + i) = f i)
    (hnext : ∀ l' s', P.inv s' → C s' → Copied first L.count f l' →
      (∀ i, ¬v.lands (.old, i) → l' .old i = l .old i) → wp P nic w op Q next l' s')
    : wp P nic w op Q (.post .rctx signaled v next) l s := by
  obtain ⟨d, remoteOffset, bytes, rfl, hd, hfirst, hcount⟩ := hv
  apply wp_read_each C hinv hC hsteady
  . intro s' e _ _ _ _ hverb
    apply hreads
    rw [hverb]
    rfl
  . intro l' s' hinv' hC' _ hfetched hframe
    apply hnext l' s' hinv' hC'
    . intro i hi
      obtain ⟨s₁, hs₁, hword⟩ := hfetched (first - d + i) (by omega)
      rw [← hf s₁ hs₁.inv hs₁.context i hi, ← hfirst, Nat.add_assoc, ← hword]
      congr 1
      simp only
      omega
    . exact hframe .old

/--
What posting the verb that asks for the lock ensures: if the old lock word says that it was refused,
`R` holds, and otherwise `G` holds of the commits before.
-/
def Asks (P : Protocol W Buffer (Transaction lockCount)) (nic : Nic) (w : W)
    (op : Transaction lockCount) (lock : Verb Buffer) (lockWord : Nat) (refused : Word → Prop)
    (G : List (Commit W (Transaction lockCount)) → Shared W Buffer (Transaction lockCount) → Prop)
    (R : Shared W Buffer (Transaction lockCount) → Prop)
    : Assertion W Buffer (Transaction lockCount) :=
  fun l s => ∀ (signaled : Bool) (next : Code Bool)
    (Q : Except Terminate Bool → Assertion W Buffer (Transaction lockCount)),
    (∀ s' x, P.inv s' → (refused x → R s') → (¬refused x → ∃ cs, G cs s') →
      wp P nic w op Q next (l.set (.old, lockWord) x) s') →
    wp P nic w op Q (.post .rctx signaled lock next) l s

def Locked (L : RwLock W Buffer (Transaction lockCount)) (first : Nat) (init : Nat → Word)
    (G : List (Commit W (Transaction lockCount)) → Shared W Buffer (Transaction lockCount) → Prop)
    (w : W) (mine : List (Commit W (Transaction lockCount))) (o : Except Terminate Bool)
    : Assertion W Buffer (Transaction lockCount) :=
  fun l s =>
    match o with
    | .ok true => ∃ cs, G cs s ∧ Copied first L.count (snap init cs cs.length) l
    | .ok false => L.Resting w mine s
    | .error _ => False

theorem wp_lockTuple
    {G : List (Commit W (Transaction lockCount)) → Shared W Buffer (Transaction lockCount) → Prop}
    {R : Shared W Buffer (Transaction lockCount) → Prop} (speculativeRead : Bool)
    (hreads : ∀ s e, e.verb.isRead = true → P.permit s e) (hearly : Copies first L.first L.count early)
    (hlate : Copies first L.first L.count late) (hword : ¬early.lands (.old, lockWord))
    (hG : ∀ cs, P.Steady w (G cs))
    (hdata : ∀ cs s, P.inv s → G cs s → ∀ i, i < L.count →
      s.mem (L.first + i) = snap init cs cs.length i)
    (hR : P.Steady w R) (hasks : Asks P nic w op lock lockWord refused G R l s)
    (hback : ∀ l s, P.inv s → R s → wp P nic w op (Locked L first init G w mine) back l s)
    : wp P nic w op (Locked L first init G w mine)
        (lockTuple speculativeRead lock early late lockWord refused back) l s := by
  have hset (x : Word) : l.set (.old, lockWord) x .old lockWord = x :=
    Local.set_self l (Buffer.old, lockWord) x
  have hgranted {l : Local Buffer} {s : Shared W Buffer (Transaction lockCount)}
      {cs : List (Commit W (Transaction lockCount))} (h : G cs s)
      (hcopied : Copied first L.count (snap init cs cs.length) l)
      : wp P nic w op (Locked L first init G w mine) (.ret true : Code Bool) l s :=
    fun _ hr _ => ⟨cs, (hG cs).rely hr h, hcopied⟩
  unfold lockTuple
  split
  . apply hasks
    intro s₁ x hinv₁ hrefused hnot
    by_cases hx : refused x
    . apply wp_read_any hearly.isRead hreads hR (hrefused hx) hinv₁
      intro l₂ s₂ hinv₂ h₂ hframe
      simp only [wp_poll, wp_load, hframe .old lockWord hword, hset, hx, if_true]
      exact hback _ _ hinv₂ h₂
    . obtain ⟨cs, h₁⟩ := hnot hx
      apply wp_copy hreads hearly _ _ hinv₁ h₁ (hG cs) (hdata cs)
      intro l₂ s₂ _ h₂ hcopied hframe
      simp only [wp_poll, wp_load, hframe lockWord hword, hset, hx, if_false]
      exact hgranted h₂ hcopied
  . apply hasks
    intro s₁ x hinv₁ hrefused hnot
    by_cases hx : refused x
    . simp only [wp_poll, wp_load, hset, hx, if_true]
      exact hback _ _ hinv₁ (hrefused hx)
    . obtain ⟨cs, h₁⟩ := hnot hx
      simp only [wp_poll, wp_load, hset, hx, if_false]
      apply wp_copy hreads hlate _ _ hinv₁ h₁ (hG cs) (hdata cs)
      intro l₂ s₂ _ h₂ hcopied _
      exact hgranted h₂ hcopied

theorem wp_lockTuple_write (speculativeRead : Bool)
    (hL : L.Governs init (Increments L.count id) P)
    (hreads : ∀ s e, e.verb.isRead = true → P.permit s e) (hearly : Copies first L.first L.count early)
    (hlate : Copies first L.first L.count late) (hword : ¬early.lands (.old, lockWord))
    (hasks : Asks P nic w op lock lockWord refused
      (fun cs => L.Holding w mine cs (snap init cs cs.length)) (L.Resting w mine) l s)
    : wp P nic w op
        (Locked L first init (fun cs => L.Holding w mine cs (snap init cs cs.length)) w mine)
        (lockTuple speculativeRead lock early late lockWord refused (.ret false)) l s := by
  apply wp_lockTuple speculativeRead hreads hearly hlate hword
    (fun cs => RwLock.holding_steady hL w mine cs _) (fun _ _ _ h => h.data)
    (RwLock.resting_steady w mine) hasks
  intro l s _ hrests s' hr _
  exact (RwLock.resting_steady w mine).rely hr hrests

theorem wp_lockTuple_read {R : Shared W Buffer (Transaction lockCount) → Prop}
    (speculativeRead : Bool) (hL : L.Governs init (Increments L.count id) P)
    (hreads : ∀ s e, e.verb.isRead = true → P.permit s e) (hearly : Copies first L.first L.count early)
    (hlate : Copies first L.first L.count late) (hword : ¬early.lands (.old, lockWord)) (hR : P.Steady w R)
    (hasks : Asks P nic w op lock lockWord refused
      (fun cs s => L.Sharing w mine s ∧ L.Settled cs s) R l s)
    (hback : ∀ l s, R s → wp P nic w op
      (Locked L first init (fun cs s => L.Sharing w mine s ∧ L.Settled cs s) w mine) back l s)
    : wp P nic w op (Locked L first init (fun cs s => L.Sharing w mine s ∧ L.Settled cs s) w mine)
        (lockTuple speculativeRead lock early late lockWord refused back) l s := by
  apply wp_lockTuple speculativeRead hreads hearly hlate hword
    (fun cs => RwLock.settled_steady hL w mine cs) (fun _ _ hinv h _ hi => h.2.mem (hL.inv hinv) hi)
    hR hasks
  exact fun l s _ h => hback l s h

def Released (A : Shared W Buffer (Transaction lockCount) → Prop) (o : Except Terminate Unit)
    : Assertion W Buffer (Transaction lockCount) :=
  fun _ s =>
    match o with
    | .ok _ => A s
    | .error _ => False

omit [DecidableEq W] in
theorem wp_giveBack {v : Verb Buffer} {A : Shared W Buffer (Transaction lockCount) → Prop}
    (orderRelease : Bool) (hA : P.Steady w A)
    (h : ∀ (signaled : Bool) (next : Code Unit),
      (∀ l' s', P.inv s' → A s' → wp P nic w op (Released A) next l' s') →
      wp P nic w op (Released A) (.post .rctx signaled v next) l s)
    : wp P nic w op (Released A) (giveBack orderRelease v) l s := by
  have hret : ∀ l s, P.inv s → A s → wp P nic w op (Released A) (.ret () : Code Unit) l s :=
    fun _ _ _ hs _ hr _ => hA.rely hr hs
  unfold giveBack
  split
  . exact h false _ hret
  . exact h true _ hret

theorem committed_steady (w : W) (op : Transaction lockCount)
    (mine : List (Commit W (Transaction lockCount)))
    : P.Steady w fun s => ∃ words, L.Resting w (⟨w, op, words⟩ :: mine) s := by
  rintro s e hinv hguard hpermit hw ⟨words, h⟩
  exact ⟨words, RwLock.resting_steady w _ hinv hguard hpermit hw h⟩

/-- What an attempt ensures on the tuple itself: writes that are done have committed. -/
def Finished (L : RwLock W Buffer (Transaction lockCount)) (id : Fin lockCount) (w : W)
    (op : Transaction lockCount) (mine : List (Commit W (Transaction lockCount)))
    (o : Except Terminate Bool) : Assertion W Buffer (Transaction lockCount) :=
  fun _ s =>
    match o with
    | .ok locked => ∃ mine', L.Resting w mine' s ∧
        mine'.length = mine.length + writesOn id [(op, locked)]
    | .error _ => False

theorem wp_attempt_read {lock : Code Bool} {bound : Nat}
    (hL : L.Governs init (Increments L.count id) P) (hop : op = .read id) (hcount : 0 < L.count)
    (hbound : first + L.count = bound) (hinit : ∀ i, i < L.count → init i = 0) (hinv : P.inv s)
    (hlock : wp P nic w op
      (Locked L first init (fun cs s => L.Sharing w mine s ∧ L.Settled cs s) w mine) lock l s)
    (hrelease : ∀ l s, L.Sharing w mine s →
      wp P nic w op (Released (L.Resting w mine)) release l s)
    : wp P nic w op (Finished L id w op mine) (attempt lock (verify first bound) release) l s := by
  have hnone (locked : Bool) : writesOn id [(op, locked)] = 0 := by
    simp [hop, writesOn]
  apply wp.bind hinv hlock
  . intro locked l₁ s₁ hinv₁ hlocked
    cases locked with
    | false =>
      intro s₂ hr _
      exact ⟨mine, (RwLock.resting_steady w mine).rely hr hlocked, by rw [hnone]; rfl⟩
    | true =>
      obtain ⟨cs, ⟨hshares₁, hsettled₁⟩, hcopied⟩ := hlocked
      have hverify : (verify first bound).exec l₁ = (.ok (), l₁) := by
        have hchain := (hL.inv hinv₁).chain
        rw [hsettled₁.commits] at hchain
        apply verify_exec (x := BitVec.ofNat 64 cs.length) (by omega)
        intro i hge hlt
        have hcopy := hcopied (i - first) (by omega)
        rw [Nat.add_sub_cancel' hge] at hcopy
        rw [hcopy, snap_increments hchain hinit (by omega)]
      apply wp.exec_bind (verify_local _ _)
      . intro _ _
        rw [hverify]
        apply wp.bind hinv₁ (hrelease _ _ hshares₁)
        . intro _ l₂ s₂ _ hrests₂ s₃ hr _
          exact ⟨mine, (RwLock.resting_steady w mine).rely hr hrests₂, by rw [hnone]; rfl⟩
        . exact fun _ _ _ _ h => h
      . intro e s₂ _ _ he
        rw [hverify] at he
        simp at he
  . exact fun _ _ _ _ h => h

theorem wp_attempt_write {lock : Code Bool} {bound : Nat}
    (hop : op = .write id) (hcount : 0 < L.count) (hbound : first + L.count = bound)
    (hinv : P.inv s)
    (hlock : wp P nic w op
      (Locked L first init (fun cs => L.Holding w mine cs (snap init cs cs.length)) w mine) lock l s)
    (hrelease : ∀ l s cs, P.inv s → L.Holding w mine cs (snap init cs cs.length) s →
      Copied first L.count (fun _ => snap init cs cs.length 0 + 1) l →
      wp P nic w op (Released fun s => ∃ words, L.Resting w (⟨w, op, words⟩ :: mine) s) release l s)
    : wp P nic w op (Finished L id w op mine) (attempt lock (incrementWords first bound) release) l
        s := by
  apply wp.bind hinv hlock
  . intro locked l₁ s₁ hinv₁ hlocked
    cases locked with
    | false =>
      intro s₂ hr _
      exact ⟨mine, (RwLock.resting_steady w mine).rely hr hlocked, by simp [writesOn]⟩
    | true =>
      obtain ⟨cs, hholds₁, hcopied⟩ := hlocked
      apply wp.exec_bind (incrementWords_local _ _)
      . intro _ _
        have hcopied' : Copied first L.count (fun _ => snap init cs cs.length 0 + 1)
            ((incrementWords first bound).exec l₁).2 := by
          intro i hi
          rw [incrementWords_exec (Nat.le_add_right first i) (by omega), ← hcopied 0 hcount,
            Nat.add_zero]
        apply wp.bind hinv₁ (hrelease _ _ cs hinv₁ hholds₁ hcopied')
        . rintro _ l₂ s₂ _ ⟨words, hrests₂⟩ s₃ hr _
          exact ⟨_, (RwLock.resting_steady w _).rely hr hrests₂, by simp [hop, writesOn]⟩
        . exact fun _ _ _ _ h => h
      . intro e s₂ _ _ he
        obtain ⟨_, hok⟩ := (incrementWords_local first bound).exec_ok l₁
        rw [hok] at he
        simp at he
  . exact fun _ _ _ _ h => h

def attemptSpec (L : RwLock W Buffer (Transaction lockCount)) (id : Fin lockCount)
    (wl : Workload Ctx Buffer Terminate Bool (Transaction lockCount))
    (hsynced : ∀ op u, Unsignaled u → Synced .rctx Ends (wl.program op) u)
    (hown : ∀ w op mine l s, P.inv s → op.lockId = id → L.Resting w mine s →
      wp P wl.nic w op (Finished L id w op mine) (wl.program op) l s)
    (haway : ∀ w op mine l s, P.inv s → op.lockId ≠ id → L.Resting w mine s →
      wp P wl.nic w op (fun _ _ s => L.Resting w mine s) (wl.program op) l s)
    : Spec P wl .rctx where
  ready := fun w done _ s => ∃ mine, L.Resting w mine s ∧ mine.length = writesOn id done
  post := fun _ op _ o _ _ =>
    match o with
    | .ok _ => True
    | .error _ => op.lockId ≠ id
  leftover := Unsignaled
  ends := fun _ => Ends
  leftover_of_ends := by
    intro op o u h
    cases o with
    | ok => exact h
    | error =>
      obtain rfl : u = [] := h
      exact unsignaled_nil
  synced := fun op _ hu => hsynced op _ hu
  wp_program := by
    rintro w op since done l s _ hinv _ ⟨mine, hrests, hlen⟩
    by_cases hop : op.lockId = id
    . apply (hown w op mine l s hinv hop hrests).mono hinv
      intro o l' s' _ h
      cases o with
      | ok locked =>
        obtain ⟨mine', hrests', hlen'⟩ := h
        refine ⟨trivial, fun _ => ⟨mine', hrests', ?_⟩⟩
        rw [hlen', hlen, writesOn_cons id (op, locked) done]
      | error => exact h.elim
    . apply (haway w op mine l s hinv hop hrests).mono hinv
      intro o l' s' _ hrests'
      cases o with
      | ok locked =>
        refine ⟨trivial, fun _ => ⟨mine, hrests', ?_⟩⟩
        rw [hlen, writesOn_cons id (op, locked) done, writesOn_of_ne hop, Nat.add_zero]
      | error => exact ⟨hop, fun _ => ⟨mine, hrests', hlen⟩⟩

end Protocol

end LockingBenchmark
