import RdmaSync.OptimisticLocks.Batch
import RdmaSync.Rdma.Solo

/-!
This module contains the proof that writers and readers agree on the layout of the tuple: a read that
no writer disturbs is never restarted and returns the tuple.
-/

namespace OptimisticLocks

open Rdma CommunicationManager
open Rdma.Action (cpus touches serves)

variable {W U : Type} {t : Tuple} {modification : Modification t U} {nic : Nic}
  {init : Nat → Word} {since : Nat} {s : Shared W Buffer (Iteration U)}

/-- No writer is active since `since`: the tuple is the same at every instant, and is not locked. -/
def Undisturbed (t : Tuple) (since : Nat) (s : Shared W Buffer (Iteration U)) : Prop :=
  s.mem (t.block.base + t.lockIdx) = wUnlocked ∧
  ∀ m ∈ s.instants since, ∀ i, i < t.words → m (t.block.base + i) = s.mem (t.block.base + i)

instance (t : Tuple) (since : Nat) (s : Shared W Buffer (Iteration U))
    : Decidable (Undisturbed t since s) :=
  inferInstanceAs (Decidable (_ ∧ _))

namespace Undisturbed

theorem of_hist_nil (hhist : s.hist = []) (hlock : s.mem (t.block.base + t.lockIdx) = wUnlocked)
    : Undisturbed t since s := by
  refine ⟨hlock, ?_⟩
  intro m hm i _
  obtain rfl : m = s.mem := by simpa [Shared.instants, hhist] using hm
  rfl

theorem mem_push {e : Event W Buffer (Iteration U)} (hsince : since ≤ s.hist.length)
    (h : Undisturbed t since (s.push e)) {i : Nat} (hi : i < t.words)
    : s.mem (t.block.base + i) = (s.push e).mem (t.block.base + i) := by
  apply h.2 s.mem _ i hi
  rw [Shared.instants_push hsince]
  exact List.mem_cons_of_mem _ List.mem_cons_self

theorem of_push {e : Event W Buffer (Iteration U)} (hsince : since ≤ s.hist.length)
    (h : Undisturbed t since (s.push e)) : Undisturbed t since s := by
  refine ⟨?_, ?_⟩
  . rw [h.mem_push hsince t.lockIdx_lt, h.1]
  . intro m hm i hi
    rw [h.mem_push hsince hi]
    apply h.2 m _ i hi
    rw [Shared.instants_push hsince]
    exact List.mem_cons_of_mem _ hm

theorem push_read {e : Event W Buffer (Iteration U)} (hsince : since ≤ s.hist.length)
    (h : Undisturbed t since s) (hread : e.verb.isRead = true)
    : Undisturbed t since (s.push e) := by
  have hmem := Shared.push_mem_of_isRead (s := s) hread
  refine ⟨by rw [hmem, h.1], ?_⟩
  rw [Shared.instants_push hsince, hmem]
  intro m hm
  rcases List.mem_cons.mp hm with rfl | hm
  . exact fun _ _ => rfl
  . exact h.2 m hm

end Undisturbed

variable [DecidableEq W]

section Free

theorem mem_of_free (hinv : TupleInv t modification init s)
    (hfree : s.mem (t.block.base + t.lockIdx) = wUnlocked) {i : Nat} (hi : i < t.words)
    (hne : i ≠ t.lockIdx)
    : s.mem (t.block.base + i)
        = snap init (t.block.commits s.hist) (t.block.commits s.hist).length i := by
  exact hinv.mem_of_released (hinv.released_of_free hfree) hi hne

theorem lineVersion_of_free (hc : t.consistency = .faRM)
    (hinit : ∀ v, v < t.words → v % 8 = 0 → init v = init 0)
    (hinv : TupleInv t modification init s)
    (hfree : s.mem (t.block.base + t.lockIdx) = wUnlocked) {v : Nat} (hv : v < t.words)
    (hmod : v % 8 = 0) : s.mem (t.block.base + v) = s.mem (t.block.base + 0) := by
  have hge := t.words_ge
  have hne : ∀ v, v % 8 = 0 → v ≠ t.lockIdx := by
    rintro v hmod rfl
    have := t.isProof_lockIdx
    simp [Tuple.isProof, hc, hmod] at this
  rw [mem_of_free hinv hfree hv (hne v hmod), mem_of_free hinv hfree (by omega) (hne 0 rfl),
    snap_lineVersion hc hinit hinv (Nat.le_refl _) hv hmod,
    snap_lineVersion hc hinit hinv (Nat.le_refl _) (by omega) rfl]

theorem checksum_of_free (hc : t.consistency = .crc) (hinit : init t.crcIdx = checksum t init)
    (hinv : TupleInv t modification init s)
    (hfree : s.mem (t.block.base + t.lockIdx) = wUnlocked)
    : s.mem (t.block.base + t.crcIdx) = checksum t (fun i => s.mem (t.block.base + i)) := by
  rw [mem_of_free hinv hfree (crcIdx_lt t) (crcIdx_ne hc).1,
    snap_checksum hc hinit hinv (Nat.le_refl _)]
  apply checksum_congr
  intro i hlo hhi
  obtain ⟨hi, hne, _⟩ := covered_ne hc hlo hhi
  exact (mem_of_free hinv hfree hi hne).symm

end Free

/-- Unless a writer disturbs it, the attempt returns, and the copy is the tuple. -/
def Agrees (t : Tuple) (b : Bool) (since : Nat) (o : Except OLRestartException (Word × Word))
    : Assertion W Buffer (Iteration U) :=
  fun l s => since ≤ s.hist.length ∧ (Undisturbed t since s →
    (∃ versions, o = .ok versions) ∧
    ∀ i, i < t.words → l (.tupleBuffer b) i = s.mem (t.block.base + i))

theorem agrees_stable (w : W) (b : Bool) (since : Nat)
    (o : Except OLRestartException (Word × Word)) (l : Local Buffer)
    : (tupleProtocol t modification init : Protocol W _ _).Stable w (Agrees t b since o l) := by
  rintro s e _ _ _ _ ⟨hsince, h⟩
  refine ⟨Nat.le_succ_of_le hsince, ?_⟩
  intro hundisturbed
  obtain ⟨hok, hwords⟩ := h (hundisturbed.of_push hsince)
  refine ⟨hok, ?_⟩
  intro i hi
  rw [hwords i hi, hundisturbed.mem_push hsince hi]

/-- The known words of the copy are those of the tuple, as long as no writer disturbs. -/
def Current (t : Tuple) (b : Bool) (n : Nat) (known : Nat → Prop)
    : Assertion W Buffer (Iteration U) :=
  fun l s => n ≤ s.hist.length ∧ ∀ since s', since ≤ n → s.Past s' → Undisturbed t since s' →
    ∀ i, known i → i < t.words → l (.tupleBuffer b) i = s'.mem (t.block.base + i)

section Rules

variable {w : W} {op : Iteration U} {b : Bool} {n : Nat} {known : Nat → Prop} {l : Local Buffer}
  {mine : List (Commit W (Iteration U))}

abbrev attempted (t : Tuple) (w : W) (mine : List (Commit W (Iteration U))) (b : Bool) (n : Nat)
    (o : Except OLRestartException (Word × Word)) : Assertion W Buffer (Iteration U) :=
  fun l s => t.block.Rests w mine s ∧ ∀ since, since ≤ n → Agrees t b since o l s

omit [DecidableEq W] in
theorem current_nothing (hn : n ≤ s.hist.length)
    : Current t b n (fun _ => False) l s := by
  exact ⟨hn, fun _ _ _ _ _ _ h => h.elim⟩

omit [DecidableEq W] in
theorem Current.congr (h : Current t b n known l s) {l' : Local Buffer}
    (hl : ∀ i, l' (.tupleBuffer b) i = l (.tupleBuffer b) i) : Current t b n known l' s := by
  refine ⟨h.1, ?_⟩
  intro since s' hsince hpast hundisturbed i hi hlt
  rw [hl i]
  exact h.2 since s' hsince hpast hundisturbed i hi hlt

theorem current_of_read {s' : Shared W Buffer (Iteration U)} {lo hi : Nat}
    {valid : Iteration U → (Nat → Word) → (Nat → Word) → Prop} (hn : n ≤ s.hist.length)
    (hpast : s.Past s') (hread : t.block.ReadByLine init valid (.tupleBuffer b) lo hi l s s')
    : Current t b n (fun i => lo ≤ i ∧ i < hi) l s' := by
  refine ⟨Nat.le_trans hn hpast.hist.length_le, ?_⟩
  rintro since s'' hsince hpast' hundisturbed i ⟨hlo, hhi⟩ hlt
  obtain ⟨s₁, _, hpast₀, hpast₁, hwords⟩ := hread i hlo hhi
  have := hpast₀.hist.length_le
  rw [hwords i hlo hhi rfl]
  exact hundisturbed.2 s₁.mem ((hpast₁.trans hpast').mem_instants (by omega)) i hlt

/-- Fetch some more words, or the same ones again. -/
theorem wp_fetch {lo hi remoteOffset bytes : Nat} {next : Code (Word × Word)}
    {Q : Except OLRestartException (Word × Word) → Assertion W Buffer (Iteration U)}
    (hoffset : remoteOffset = t.block.addr + 8 * lo) (hbytes : bytes = 8 * (hi - lo))
    (hinv : TupleInv t modification init s) (hrests : t.block.Rests w mine s)
    (h : Current t b n known l s)
    (hnext : ∀ l' s', TupleInv t modification init s' → t.block.Rests w mine s' → s.Past s' →
      Current t b n (fun i => known i ∨ lo ≤ i ∧ i < hi) l' s' →
      wp (tupleProtocol t modification init) nic w op Q next l' s')
    : wp (tupleProtocol t modification init) nic w op Q
        (.post .rctx true (.read (.tupleBuffer b, lo) remoteOffset bytes) next) l s := by
  apply Block.wp_read_lines hoffset hbytes hinv hrests
  intro l' s' hinv' hrests' hpast hread hframe
  apply hnext l' s' hinv' hrests' hpast
  have hcurrent := current_of_read h.1 hpast hread
  refine ⟨hcurrent.1, ?_⟩
  intro since s'' hsince hpast' hundisturbed i hknown hlt
  by_cases hrange : lo ≤ i ∧ i < hi
  . exact hcurrent.2 since s'' hsince hpast' hundisturbed i hrange hlt
  . rw [hframe _ _ (fun hc => hrange hc.2)]
    rcases hknown with hknown | hknown
    . exact h.2 since s'' hsince (hpast.trans hpast') hundisturbed i hknown hlt
    . exact absurd hknown hrange

theorem attempted_error {s' : Shared W Buffer (Iteration U)} {e : OLRestartException}
    (hn : n ≤ s.hist.length) (hrests : t.block.Rests w mine s)
    (hr : (tupleProtocol t modification init).Rely w s s')
    (hnot : ∀ since, since ≤ n → ¬Undisturbed t since s')
    : attempted t w mine b n (.error e) l s' := by
  refine ⟨(Block.rests_steady w mine).rely hr hrests, ?_⟩
  intro since hsince
  have := hr.hist_length
  exact ⟨by omega, fun hundisturbed => absurd hundisturbed (hnot since hsince)⟩

/-- A check that fails only if a writer has disturbed. -/
theorem wp_verify {c : Prop} [Decidable c] {e : OLRestartException} {next : Code (Word × Word)}
    (hn : n ≤ s.hist.length) (hrests : t.block.Rests w mine s)
    (hpass : ∀ since s', since ≤ n → s.Past s' → Undisturbed t since s' → ¬c)
    (hnext : wp (tupleProtocol t modification init) nic w op (attempted t w mine b n) next l s)
    : wp (tupleProtocol t modification init) nic w op (attempted t w mine b n)
        (if c then .throw e else next) l s := by
  by_cases hc : c
  . rw [if_pos hc]
    intro s' hr _
    exact attempted_error hn hrests hr
      (fun since hsince hundisturbed => hpass since s' hsince hr.past hundisturbed hc)
  . rwa [if_neg hc]

theorem wp_verify_local {p : Code Unit} {next : Code (Word × Word)}
    {loads stores : Buffer × Nat → Prop} {throws : OLRestartException → Prop}
    (hp : p.Local loads stores throws) (hstores : ∀ i, ¬stores (.tupleBuffer b, i))
    (hrests : t.block.Rests w mine s) (h : Current t b n known l s)
    (hpass : ∀ since s' e, since ≤ n → s.Past s' → TupleInv t modification init s' →
      Undisturbed t since s' → (p.exec l).1 ≠ .error e)
    (hnext : ∀ l', (∀ i, l' (.tupleBuffer b) i = l (.tupleBuffer b) i) →
      Current t b n known l' s →
      wp (tupleProtocol t modification init) nic w op (attempted t w mine b n) next l' s)
    : wp (tupleProtocol t modification init) nic w op (attempted t w mine b n)
        (p >>= fun _ => next) l s := by
  have hframe : ∀ i, (p.exec l).2 (.tupleBuffer b) i = l (.tupleBuffer b) i :=
    fun i => hp.exec_frame l (hstores i)
  apply wp.exec_bind hp
  . intro _ _
    exact hnext _ hframe (h.congr hframe)
  . intro e s' hr hinv' herror
    exact attempted_error h.1 hrests hr
      (fun since hsince hundisturbed =>
        hpass since s' e hsince hr.past hinv' hundisturbed herror)

theorem wp_verify_lock {e : OLRestartException} {next : Code (Word × Word)}
    (hrests : t.block.Rests w mine s) (h : Current t b n known l s) (hknown : known t.lockIdx)
    (hnext : wp (tupleProtocol t modification init) nic w op (attempted t w mine b n) next l s)
    : wp (tupleProtocol t modification init) nic w op (attempted t w mine b n)
        (if l (.tupleBuffer b) t.lockIdx ≠ 0 then .throw e else next) l s := by
  apply wp_verify h.1 hrests _ hnext
  intro since s' hsince hpast hundisturbed hne
  apply hne
  rw [h.2 since s' hsince hpast hundisturbed _ hknown t.lockIdx_lt]
  exact hundisturbed.1

theorem wp_verify_same {e : OLRestartException} {next : Code (Word × Word)}
    {s₀ : Shared W Buffer (Iteration U)} {l₀ : Local Buffer} {known₀ : Nat → Prop} {i : Nat}
    (hrests : t.block.Rests w mine s) (h₀ : Current t b n known₀ l₀ s₀)
    (h : Current t b n known l s) (hpast₀ : s₀.Past s) (hknown₀ : known₀ i) (hknown : known i)
    (hi : i < t.words)
    (hnext : wp (tupleProtocol t modification init) nic w op (attempted t w mine b n) next l s)
    : wp (tupleProtocol t modification init) nic w op (attempted t w mine b n)
        (if l₀ (.tupleBuffer b) i ≠ l (.tupleBuffer b) i then .throw e else next) l s := by
  apply wp_verify h.1 hrests _ hnext
  intro since s' hsince hpast hundisturbed hne
  apply hne
  rw [h₀.2 since s' hsince (hpast₀.trans hpast) hundisturbed i hknown₀ hi,
    h.2 since s' hsince hpast hundisturbed i hknown hi]

theorem wp_return (hrests : t.block.Rests w mine s) (h : Current t b n known l s)
    (hknown : ∀ i, i < t.words → known i) (versions : Word × Word)
    : wp (tupleProtocol t modification init) nic w op (attempted t w mine b n)
        (.ret versions : Code (Word × Word)) l s := by
  intro s' hr _
  refine ⟨(Block.rests_steady w mine).rely hr hrests, ?_⟩
  intro since hsince
  have := hr.hist_length
  have := h.1
  refine ⟨by omega, ?_⟩
  intro hundisturbed
  exact ⟨⟨versions, rfl⟩,
    fun i hi => h.2 since s' hsince hr.past hundisturbed i (hknown i hi) hi⟩

end Rules

section Reads

variable {w : W} {op : Iteration U} {b : Bool} {opnum : Nat} {l : Local Buffer}
  {mine : List (Commit W (Iteration U))}

theorem wp_attempt_v2_header (hc : t.consistency = .v2) (hl : t.lockType = .headerLock)
    (hinv : TupleInv t modification init s) (h : t.block.Rests w mine s)
    : wp (tupleProtocol t modification init) nic w op (attempted t w mine b s.hist.length)
        (runRead t b opnum) l s := by
  have hge := t.words_ge
  have hbytes := t.bytes_eq
  have hlockIdx : t.lockIdx = 1 := by
    unfold Tuple.lockIdx
    rw [hl]
  rw [runRead_v2_header hc hl, ← hlockIdx]
  -- the version and the lock word
  apply wp_fetch (show _ = t.block.addr + 8 * 0 from rfl) (show 16 = 8 * (2 - 0) from rfl) hinv h
    (current_nothing (Nat.le_refl _))
  intro l₁ s₁ hinv₁ hrests₁ _ hcurrent₁
  rw [wp_poll]
  -- the data
  apply wp_fetch (show _ = t.block.addr + 8 * 2 from rfl)
    (show t.bytes - 16 = 8 * (t.words - 2) by omega) hinv₁ hrests₁ hcurrent₁
  intro l₂ s₂ hinv₂ hrests₂ _ hcurrent₂
  rw [wp_poll, wp_load, wp_load]
  apply wp_verify_lock hrests₂ hcurrent₂ (by omega)
  -- the version again
  apply wp_fetch (show _ = t.block.addr + 8 * 0 from rfl) (show 8 = 8 * (1 - 0) from rfl) hinv₂
    hrests₂ hcurrent₂
  intro l₃ s₃ hinv₃ hrests₃ hpast₃ hcurrent₃
  rw [wp_poll, wp_load]
  apply wp_verify_same hrests₃ hcurrent₂ hcurrent₃ hpast₃ (by omega) (by omega) (by omega)
  rw [wp_load]
  apply wp_verify_lock hrests₃ hcurrent₃ (by omega)
  rw [wp_load]
  exact wp_return hrests₃ hcurrent₃ (by omega) _

theorem wp_attempt_v2_footer (hc : t.consistency = .v2) (hl : t.lockType = .footerLock)
    (hinv : TupleInv t modification init s) (h : t.block.Rests w mine s)
    : wp (tupleProtocol t modification init) nic w op (attempted t w mine b s.hist.length)
        (runRead t b opnum) l s := by
  have hge := t.words_ge
  have hbytes := t.bytes_eq
  have hlockIdx : t.lockIdx = t.words - 1 := by
    unfold Tuple.lockIdx
    rw [hl]
  have hidx : (t.bytes - 16) / 8 = t.words - 2 := by omega
  have hidx' : t.bytes / 8 - 1 = t.lockIdx := by omega
  have hfooter : t.remoteAddress + (t.bytes - 16) = t.block.addr + 8 * (t.words - 2) := by
    show t.remoteAddress + _ = t.remoteAddress + _
    omega
  rw [runRead_v2_footer hc hl, hidx, hidx', wp_store, wp_store]
  -- the footer
  apply wp_fetch hfooter (show 16 = 8 * (t.words - (t.words - 2)) by omega) hinv h
    (current_nothing (Nat.le_refl _))
  intro l₁ s₁ hinv₁ hrests₁ _ hcurrent₁
  rw [wp_poll, wp_load]
  -- the data
  apply wp_fetch (show _ = t.block.addr + 8 * 0 from rfl)
    (show t.bytes - 16 = 8 * (t.words - 2 - 0) by omega) hinv₁ hrests₁ hcurrent₁
  intro l₂ s₂ hinv₂ hrests₂ _ hcurrent₂
  rw [wp_poll, wp_load, wp_load]
  apply wp_verify_lock hrests₂ hcurrent₂ (by omega)
  -- the footer again
  apply wp_fetch hfooter (show 16 = 8 * (t.words - (t.words - 2)) by omega) hinv₂ hrests₂ hcurrent₂
  intro l₃ s₃ hinv₃ hrests₃ hpast₃ hcurrent₃
  rw [wp_poll, wp_load]
  apply wp_verify_same hrests₃ hcurrent₂ hcurrent₃ hpast₃ (by omega) (by omega) (by omega)
  rw [wp_load]
  apply wp_verify_lock hrests₃ hcurrent₃ (by omega)
  rw [wp_load]
  exact wp_return hrests₃ hcurrent₃ (by omega) _

theorem wp_attempt_crc (hc : t.consistency = .crc) (hinit : init t.crcIdx = checksum t init)
    (hinv : TupleInv t modification init s) (h : t.block.Rests w mine s)
    : wp (tupleProtocol t modification init) nic w op (attempted t w mine b s.hist.length)
        (runRead t b opnum) l s := by
  have hge := t.words_ge
  have hlock := t.lockIdx_lt
  rw [runRead_crc hc]
  apply wp_fetch (show _ = t.block.addr + 8 * 0 from rfl)
    (show t.bytes = 8 * (t.words - 0) from t.bytes_eq) hinv h (current_nothing (Nat.le_refl _))
  intro l₁ s₁ hinv₁ hrests₁ _ hcurrent₁
  rw [wp_poll, wp_load, wp_load]
  apply wp_verify_lock hrests₁ hcurrent₁ (by omega)
  apply wp_verify_local (crc_check_local t b) (fun _ => id) hrests₁ hcurrent₁
  . intro since s' e hsince hpast hinv' hundisturbed herror
    have hwords := hcurrent₁.2 since s' hsince hpast hundisturbed
    have hcrc := crcIdx_lt t
    apply crc_check_error herror
    rw [hwords _ (by omega) hcrc, checksum_of_free hc hinit hinv' hundisturbed.1]
    apply checksum_congr
    intro i hlo hhi
    obtain ⟨hi, _⟩ := covered_ne hc hlo hhi
    exact (hwords i (by omega) hi).symm
  . intro l₂ hframe hcurrent₂
    -- the version again
    apply wp_fetch (show _ = t.block.addr + 8 * 0 from rfl) (show 8 = 8 * (1 - 0) from rfl) hinv₁
      hrests₁ hcurrent₂
    intro l₃ s₃ hinv₃ hrests₃ hpast₃ hcurrent₃
    rw [wp_poll, wp_load]
    apply wp_verify_same hrests₃ hcurrent₁ hcurrent₃ hpast₃ (by omega) (by omega) (by omega)
    rw [wp_load]
    apply wp_verify_lock hrests₃ hcurrent₃ (by omega)
    rw [wp_load]
    exact wp_return hrests₃ hcurrent₃ (by omega) _

theorem wp_attempt_farm (hc : t.consistency = .faRM) (hbatch : 0 < t.flags.batchSize)
    (hinit : ∀ v, v < t.words → v % 8 = 0 → init v = init 0)
    (hinv : TupleInv t modification init s) (h : t.block.Rests w mine s)
    : wp (tupleProtocol t modification init) nic w op (attempted t w mine b s.hist.length)
        (runRead t b opnum) l s := by
  have hge := t.words_ge
  have hlock := t.lockIdx_lt
  have hchecks : (Prog.forEach (List.range t.flags.batch) fun _ =>
      FaRM.checkConsistencyProof t.flags (.tupleBuffer b, 0) t.bytes).Local (inTuple t b)
      (fun a => a.1 = .userBuffer) (fun _ => True) :=
    Prog.Local.forEach fun _ _ => farm_check_local t b
  rw [runRead_farm hc]
  apply wp_readBatch (Flags.batch_pos.mpr hbatch) hinv h
  intro l₁ s₁ hinv₁ hrests₁ hpast₁ hread
  have hcurrent₁ := current_of_read (Nat.le_refl _) hpast₁ hread
  rw [wp_poll]
  apply wp_verify_local hchecks (by simp) hrests₁ hcurrent₁
  . intro since s' e hsince hpast hinv' hundisturbed herror
    have hwords := hcurrent₁.2 since s' hsince hpast hundisturbed
    obtain ⟨v, hv, hmod, hne⟩ := farm_checks_error herror
    apply hne
    rw [hwords v (by omega) hv, hwords 0 (by omega) (by omega)]
    exact lineVersion_of_free hc hinit hinv' hundisturbed.1 hv hmod
  . intro l₂ _ hcurrent₂
    rw [wp_load]
    apply wp_verify_lock hrests₁ hcurrent₂ (by omega)
    rw [wp_load]
    exact wp_return hrests₁ hcurrent₂ (by omega) _

end Reads

section Runs

variable {b : Bool} {opnum : Nat}

theorem attempting_agrees (hc : t.consistency = .faRM ∨ t.consistency = .crc ∨ t.consistency = .v2)
    (hbatch : t.consistency = .faRM → 0 < t.flags.batchSize) (hzero : ∀ i, i < t.words → init i = 0)
    (hcrc : ∀ n, t.flags.crc64 (List.replicate n 0) = 0)
    : Attempting W t modification nic init (Agrees t) := by
  have hge := t.words_ge
  rcases hc with hc | hc | hc
  . exact {
      synced := synced_runRead_farm hc (Int32.ne_of_lt (hbatch hc)).symm
      stable := agrees_stable
      wp_runRead := wp_attempt_farm hc (hbatch hc)
        fun v hv _ => (hzero v hv).trans (hzero 0 (by omega)).symm }
  . have hchecksum : init t.crcIdx = checksum t init := by
      rw [hzero _ (crcIdx_lt t), checksum, ← hcrc (t.words - 3)]
      congr 1
      rw [eq_comm, List.eq_replicate_iff]
      refine ⟨by simp, ?_⟩
      intro x hx
      simp only [List.mem_map, List.mem_range] at hx
      obtain ⟨i, hi, rfl⟩ := hx
      exact hzero _ (covered_ne hc (by omega) (by omega)).1
    exact {
      synced := synced_runRead_crc hc
      stable := agrees_stable
      wp_runRead := wp_attempt_crc hc hchecksum }
  . cases hl : t.lockType with
    | headerLock =>
      exact {
        synced := synced_runRead_v2_header hc hl
        stable := agrees_stable
        wp_runRead := wp_attempt_v2_header hc hl }
    | footerLock =>
      exact {
        synced := synced_runRead_v2_footer hc hl
        stable := agrees_stable
        wp_runRead := wp_attempt_v2_footer hc hl }

theorem posts_runRead (hc : t.consistency = .faRM ∨ t.consistency = .crc ∨ t.consistency = .v2)
    : (runRead t b opnum).Posts fun v => v.isCompareSwap = false := by
  rcases hc with hc | hc | hc
  . apply (posts_runRead_farm hc).mono
    intro v hread
    cases v <;> simp [Verb.isRead, Verb.isCompareSwap] at hread ⊢
  . rw [runRead_crc hc]
    refine ⟨rfl, fun _ _ => ?_⟩
    rw [Prog.posts_ite]
    split
    . trivial
    . apply ((crc_check_local t b).posts _).bind
      intro _
      simp [Prog.posts_ite, Prog.Posts, Verb.isCompareSwap]
  . cases hl : t.lockType with
    | headerLock =>
      rw [runRead_v2_header hc hl]
      simp [Prog.posts_ite, Prog.Posts, Verb.isCompareSwap]
    | footerLock =>
      rw [runRead_v2_footer hc hl]
      simp [Prog.posts_ite, Prog.Posts, Verb.isCompareSwap]

theorem accounts_read {u : Ctx → List (Verb Buffer × Bool)}
    {ends : Except OLRestartException (Word × Word) → (Ctx → List (Verb Buffer × Bool)) → Prop}
    (hc : t.consistency = .faRM ∨ t.consistency = .crc ∨ t.consistency = .v2)
    (hbatch : t.consistency = .faRM → 0 < t.flags.batchSize) (hu : Unsignaled u)
    (hends : ∀ o, ends o (Function.update u .rctx []))
    : Accounts (t.flags.batch + 1) (t.flags.batch + 1) ends (runRead t b opnum) u := by
  rcases hc with hc | hc | hc
  . apply accounts_farm hc (Int32.le_of_lt (hbatch hc)) (Nat.le_succ _) (Nat.le_succ _) hu
    rwa [afterBatch, if_neg (Nat.ne_of_gt (Flags.batch_pos.mpr (hbatch hc)))]
  . exact accounts_crc hc (Nat.succ_pos _) (Nat.succ_pos _) hu hends
  . exact accounts_v2 hc (Nat.succ_pos _) (Nat.succ_pos _) hu hends

def servedSpec (modification : Modification t U) (nic : Nic)
    (hc : t.consistency = .faRM ∨ t.consistency = .crc ∨ t.consistency = .v2)
    (hbatch : t.consistency = .faRM → 0 < t.flags.batchSize)
    : AccountSpec (t.flags.batch + 1) (t.flags.batch + 1) (benchmark t modification nic) where
  leftover := fun u => ∀ c, Published (u c)
  verbs := fun op v =>
    match op with
    | .read _ _ => v.isCompareSwap = false
    | .update _ _ => True
  ends := fun _ _ u => ∀ c, Published (u c)
  leftover_nil := by simp [Published]
  leftover_of_ends := id
  verbs_of_leftover := by
    intro u hu op c p hp
    cases op with
    | read => exact (hu c p hp).2
    | update => trivial
  posts := by
    intro op
    cases op with
    | read b opnum =>
      apply (posts_runRead hc).bind
      intro _
      trivial
    | update b x => exact .of_forall (fun _ => trivial) _
  accounts := by
    intro op u hu
    have hunsignaled : Unsignaled u := fun c p hp => (hu c p hp).1
    have hupdate : ∀ q, Published q → ∀ c, Published (Function.update u .rctx q c) := by
      intro q hq c p hp
      by_cases hc : c = .rctx
      . subst hc
        rw [Function.update_self] at hp
        exact hq p hp
      . rw [Function.update_of_ne hc] at hp
        exact hu c p hp
    cases op with
    | read b opnum =>
      have hread : Accounts (t.flags.batch + 1) (t.flags.batch + 1)
          (fun _ u => ∀ c, Published (u c)) (runRead t b opnum) u :=
        accounts_read hc hbatch hunsignaled fun _ => hupdate [] (by simp [Published])
      exact hread.bind (fun _ _ h => h) (fun _ _ h => h)
    | update b x =>
      have hrun : Accounts (t.flags.batch + 1) (t.flags.batch + 1)
          (fun _ u => ∀ c, Published (u c)) (runUpdate t modification b x) u :=
        accounts_runUpdate (Nat.succ_pos _) (Nat.succ_pos _) hunsignaled fun _ => hupdate
      exact hrun.bind (fun _ _ h => h) (fun _ _ h => h)

/-- Worker `w` is at the read that began at `since`, and no writer has been active meanwhile. -/
structure AtRead (S : Spec (W := W) (tupleProtocol t modification init)
      (benchmark t modification nic) .rctx)
    (A : AccountSpec (t.flags.batch + 1) (t.flags.batch + 1) (benchmark t modification nic))
    (w : W) (b : Bool) (opnum since : Nat)
    (s : Sys W Ctx Buffer OLRestartException (Option (Word × Word)) (Iteration U)) : Prop where
  sysOk : S.SysOk s
  accounts : ∀ w, A.WorkerOk (s.worker w)
  running : ∃ p, (s.worker w).control = .running (.read b opnum) since p
  undisturbed : Undisturbed t since s.shared

theorem keptBy_atRead
    (S : Spec (W := W) (tupleProtocol t modification init) (benchmark t modification nic) .rctx)
    (hc : t.consistency = .faRM ∨ t.consistency = .crc ∨ t.consistency = .v2)
    (hbatch : t.consistency = .faRM → 0 < t.flags.batchSize) (w : W) (b : Bool) (opnum since : Nat)
    : Sys.KeptBy (benchmark t modification nic) w
        (AtRead S (servedSpec modification nic hc hbatch) w b opnum since) := by
  rintro s a ⟨hok, haccounts, ⟨p, hcontrol⟩, hundisturbed⟩ he hw
  have hstep : Sys.Reach (benchmark t modification nic) Sys.anyStep s (s.next _ a) :=
    .step a .refl he trivial
  have hok' := S.sysOk_of_reach (fun _ _ _ _ _ _ _ _ => trivial) hok hstep
  have haccounts' := AccountSpec.workerOk_next haccounts a he
  cases a with
  | start | finish => exact hw.elim
  | cpu w' n =>
    obtain rfl : w' = w := hw
    refine ⟨hok', haccounts', ?_, hundisturbed⟩
    obtain ⟨p', hp'⟩ := Worker.control_cpu (benchmark t modification nic) n hcontrol
    exact ⟨p', by simpa [Sys.next] using hp'⟩
  | complete w' c =>
    obtain rfl : w' = w := hw
    refine ⟨hok', haccounts', ⟨p, ?_⟩, hundisturbed⟩
    simpa [Sys.next, Worker.control_complete] using hcontrol
  | touch w' c chunk =>
    obtain rfl : w' = w := hw
    cases hq : (s.worker w').queue c with
    | nil => simp [Sys.enabled, hq] at he
    | cons f fs =>
      have hallow : f.verb.allows (benchmark t modification nic).nic f.pending chunk = true := by
        simpa only [Sys.enabled, hq] using he
      have hcas : f.verb.isCompareSwap = false :=
        (haccounts w').verb hcontrol (hq ▸ List.mem_cons_self)
      have hpermit : t.block.Permit init (IterationValid t modification) s.shared
          (f.event w' chunk) := (hok.worker w').permit S hok.inv hq hallow trivial
      have hread := Block.isRead_of_free hok.inv hundisturbed.1 hpermit hcas
      refine ⟨hok', haccounts', ⟨p, ?_⟩, ?_⟩
      . simpa [Sys.next, hq, Worker.touch] using hcontrol
      . simp only [Sys.next, hq]
        exact hundisturbed.push_read (hok.since_le S hcontrol) hread

/-- The read that began at `since` is about to return, and the copy is the tuple. -/
def ReturnsTuple (t : Tuple) (w : W) (b : Bool) (opnum since : Nat)
    (s : Sys W Ctx Buffer OLRestartException (Option (Word × Word)) (Iteration U)) : Prop :=
  (∃ versions, (s.worker w).control = .running (.read b opnum) since (.ret (some versions))) ∧
  ∀ i, i < t.words → (s.worker w).buf (.tupleBuffer b) i = s.shared.mem (t.block.base + i)

/--
In every run from a zeroed tuple, a read that no writer disturbs is not restarted and returns the
tuple whenever it is over, and it can always be brought to its end.
-/
def ReturnsUndisturbed (W : Type) [DecidableEq W] (t : Tuple) (modification : Modification t U)
    (nic : Nic) : Prop :=
  ∀ (s₀ s : Sys W Ctx Buffer OLRestartException (Option (Word × Word)) (Iteration U))
    (w : W) (b : Bool) (opnum since : Nat) (p : Code (Option (Word × Word))),
    s₀.Fresh → (∀ i, i < t.words → s₀.shared.mem (t.block.base + i) = 0) →
    Sys.Reach (benchmark t modification nic) Sys.anyStep s₀ s →
    (s.worker w).control = .running (.read b opnum) since p → Undisturbed t since s.shared →
    (isOver p = true → ReturnsTuple t w b opnum since s) ∧
      ∃ s', Sys.Alone (benchmark t modification nic) w s s' ∧
        Undisturbed t since s'.shared ∧ ReturnsTuple t w b opnum since s'

theorem returnsUndisturbed_of_batch
    (hc : t.consistency = .faRM ∨ t.consistency = .crc ∨ t.consistency = .v2)
    (hbatch : t.consistency = .faRM → 0 < t.flags.batchSize)
    (hcrc : ∀ n, t.flags.crc64 (List.replicate n 0) = 0) (horder : nic.inOrderWrites = true)
    : ReturnsUndisturbed W t modification nic := by
  intro s₀ s w b opnum since p hfresh hzero hreach hcontrol hundisturbed
  have hR : Attempting W t modification nic (fun i => s₀.shared.mem (t.block.base + i)) (Agrees t) :=
    attempting_agrees hc hbatch hzero hcrc
  -- A read that is over.
  have hover : ∀ s : Sys W Ctx Buffer OLRestartException (Option (Word × Word)) (Iteration U),
      (hR.spec horder).SysOk s → Undisturbed t since s.shared →
      ((∃ a, (s.worker w).control = .running (.read b opnum) since (.ret a)) ∨
        ∃ e, (s.worker w).control = .running (.read b opnum) since (.throw e)) →
      ReturnsTuple t w b opnum since s := by
    rintro s hok hundisturbed (⟨a, hret⟩ | ⟨e, hthrow⟩)
    . have hpost := hok.post_ret _ hret (fun _ h => h)
      cases a with
      | none => exact hpost.elim
      | some versions => exact ⟨⟨versions, hret⟩, (hpost.2 hundisturbed).2⟩
    . have hpost := hok.post_throw _ hthrow (fun _ h => h)
      obtain ⟨⟨_, herror⟩, _⟩ := hpost.2 hundisturbed
      simp at herror
  have hok := hR.sysOk horder hfresh rfl (hzero _ t.lockIdx_lt) hreach
  have hat : AtRead (hR.spec horder) (servedSpec modification nic hc hbatch) w b opnum since s :=
    ⟨hok, AccountSpec.workerOk_of_reach _ hfresh hreach, ⟨p, hcontrol⟩, hundisturbed⟩
  constructor
  . intro h
    apply hover s hok hundisturbed
    cases p with
    | ret a => exact .inl ⟨a, hcontrol⟩
    | throw e => exact .inr ⟨e, hcontrol⟩
    | _ => simp [isOver] at h
  . have hkept := keptBy_atRead (hR.spec horder) hc hbatch w b opnum since
    obtain ⟨s', halone, hends⟩ := Sys.endsAlone hkept
      (fun s _ _ _ _ _ h hpoll => (h.accounts w).awaits hpoll) hat hcontrol
    have hat' := hkept.reach hat halone
    exact ⟨s', halone, hat'.undisturbed, hover s' hat'.sysOk hat'.undisturbed hends⟩

/-- A read without any READs returns whatever is in its buffers. -/
theorem not_returnsUndisturbed (hc : t.consistency = .faRM) (hbatch : ¬0 < t.flags.batchSize)
    (modification : Modification t U) (nic : Nic)
    : ¬ReturnsUndisturbed Bool t modification nic := by
  intro h
  have hsilent : (runTest t modification (.read false 0)).Silent := by
    have hzero : t.flags.batch = 0 := Nat.eq_zero_of_not_pos (mt Flags.batch_pos.mp hbatch)
    rw [runTest, runRead_farm hc, hzero]
    simp [Prog.silent_ite, Prog.Silent]
  let s₀ : Sys Bool Ctx Buffer OLRestartException (Option (Word × Word)) (Iteration U) :=
    Sys.initial (fun _ => 0) (fun _ _ => 1)
  let s := s₀.next (benchmark t modification nic) (.start true (Iteration.read false 0))
  have hreach : Sys.Reach (benchmark t modification nic) Sys.anyStep s₀ s :=
    .step (.start true (Iteration.read false 0)) .refl rfl trivial
  obtain ⟨_, s', halone, _, _, hwords⟩ := h s₀ s true false 0 0 _ (Sys.initial_fresh _ _)
    (fun _ _ => rfl) hreach rfl (.of_hist_nil rfl rfl)
  have hat : Sys.AtSilent true s s' :=
    (Sys.keptBy_atSilent _ true s).reach ⟨rfl, rfl, fun _ => rfl, _, _, _, rfl, hsilent⟩ halone
  have hword := hwords 0 (by have := t.words_ge; omega)
  rw [hat.buf, hat.shared] at hword
  have hstale : (1 : Word) = 0 := hword
  simp at hstale

/-- Undisturbed reads return the tuple, unless FaRM reads do not post any READ. -/
theorem undisturbed_read_returns_tuple
    (hc : t.consistency = .faRM ∨ t.consistency = .crc ∨ t.consistency = .v2)
    (hcrc : ∀ n, t.flags.crc64 (List.replicate n 0) = 0)
    : (∀ (W U : Type) [DecidableEq W] (modification : Modification t U) (nic : Nic),
        nic.inOrderWrites = true → ReturnsUndisturbed W t modification nic) ↔
      (t.consistency = .faRM → 0 < t.flags.batchSize) := by
  constructor
  . intro h hfarm
    by_contra hbatch
    exact not_returnsUndisturbed hfarm hbatch (incrementAll t)
      { atomicReadBytes := 0, inOrderWrites := true } (h Bool Unit _ _ rfl)
  . intro hbatch W U _ modification nic horder
    exact returnsUndisturbed_of_batch hc hbatch hcrc horder

def readsUndisturbed (t : Tuple) (w : W)
    (s : Sys W Ctx Buffer OLRestartException (Option (Word × Word)) (Iteration U)) : Bool :=
  match (s.worker w).control with
  | .running (.read _ _) since _ => decide (Undisturbed t since s.shared)
  | .running (.update _ _) _ _ | .idle => false

/-- The reader is in the middle of its read, after a writer has committed. -/
def startedRun : List (Action Bool Ctx (Iteration Unit)) :=
  List.flatten [
    [.start false (.update false ())], cpus false 2, serves false .rctx [0],
    serves false .rctx [1, 2], [.cpu false 1], cpus false 19, serves false .rctx [1, 2],
    serves false .rctx [0], [.start true (.read false 0)], cpus true 1, touches true .rctx [2]]

theorem undisturbed_read_returns_startedRun
    : ∃ (s : Sys Bool Ctx Buffer OLRestartException (Option (Word × Word)) (Iteration Unit))
        (b : Bool) (opnum since : Nat),
        ReturnsTuple (sampleTuple .faRM .headerLock 0) true b opnum since s := by
  have hrun : ((Sys.initial (fun _ => 0) (fun _ _ => 0)).run
      (benchmark (sampleTuple .faRM .headerLock 0) (incrementAll _)
        { atomicReadBytes := 0, inOrderWrites := true })
      startedRun).any (readsUndisturbed (sampleTuple .faRM .headerLock 0) true) = true := by
    decide +kernel
  obtain ⟨s, hreach, hreads⟩ := Sys.exists_reach_of_run hrun
  unfold readsUndisturbed at hreads
  split at hreads
  . next b opnum since p hcontrol =>
    have hreturns : ReturnsUndisturbed Bool (sampleTuple .faRM .headerLock 0) (incrementAll _)
        { atomicReadBytes := 0, inOrderWrites := true } :=
      (undisturbed_read_returns_tuple (.inl rfl) (fun _ => rfl)).mpr (fun _ => by decide) Bool Unit _
        _ rfl
    obtain ⟨_, s', _, _, hreturns⟩ := hreturns _ s true b opnum since p (Sys.initial_fresh _ _)
      (fun _ _ => rfl) hreach hcontrol (of_decide_eq_true hreads)
    exact ⟨s', b, opnum, since, hreturns⟩
  . simp at hreads
  . simp at hreads

theorem undisturbed_read_returns_stale
    : ¬ReturnsUndisturbed Bool ((sampleTuple .faRM .headerLock 0).withBatchSize 0) (incrementAll _)
        { atomicReadBytes := 0, inOrderWrites := true } := by
  exact not_returnsUndisturbed rfl (by decide) _ _

end Runs

end OptimisticLocks
