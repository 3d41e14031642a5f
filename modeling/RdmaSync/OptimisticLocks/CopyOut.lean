import RdmaSync.OptimisticLocks.Farm

/-!
This module contains what the consistency check of FaRM copies to the user buffer. Lines are read
eight words apart and should be written seven words apart, which they are for the first two.
-/

namespace OptimisticLocks

open Rdma CommunicationManager

variable {c : Buffer} {off bytes : Nat} {flags : Flags} {l : Local Buffer}

/--
When all lines of a block have the same version, the check returns and leaves the payload of the
block without gaps in the first words of the user buffer, and nothing else anywhere.
-/
def CopiesPayload (flags : Flags) (bytes : Nat) : Prop :=
  ∀ (c : Buffer) (off : Nat) (l : Local Buffer), c ≠ .userBuffer →
    (∀ v < bytes / 8, v % 8 = 0 → l c (off + v) = l c off) →
    ∃ l', (FaRM.checkConsistencyProof flags (c, off) bytes).exec l = (.ok (), l')
      ∧ (∀ n < 7 * (bytes / 64), l' .userBuffer n = l c (off + (n / 7 * 8 + 1 + n % 7)))
      ∧ (∀ n, 7 * (bytes / 64) ≤ n → l' .userBuffer n = l .userBuffer n)
      ∧ ∀ b ≠ .userBuffer, l' b = l b

def memcpy (l : Local Buffer) (c : Buffer) (src dst n : Nat) : Local Buffer :=
  fun b i => if b = .userBuffer ∧ dst ≤ i ∧ i < dst + n then l c (src + (i - dst)) else l b i

theorem memcpy_of_ne {src dst n : Nat} {b : Buffer} (h : b ≠ .userBuffer)
    : memcpy l c src dst n b = l b := by
  funext i
  simp [memcpy, h]

theorem memcpy_succ (hc : c ≠ .userBuffer) (src dst n : Nat)
    : memcpy (l.set (.userBuffer, dst) (l c src)) c (src + 1) (dst + 1) n
        =
      memcpy l c src dst (n + 1) := by
  funext b i
  by_cases hb : b = .userBuffer
  . subst hb
    simp only [memcpy, Local.set_apply, hc, true_and, false_and, if_false]
    by_cases hi : i = dst
    . have hlt : ¬dst + 1 ≤ dst := by omega
      simp [hi, hlt]
    . by_cases hin : dst + 1 ≤ i ∧ i < dst + 1 + n
      . have hin' : dst ≤ i ∧ i < dst + (n + 1) := by omega
        have hsrc : src + 1 + (i - (dst + 1)) = src + (i - dst) := by omega
        rw [if_pos hin, if_pos hin', hsrc]
      . have hin' : ¬(dst ≤ i ∧ i < dst + (n + 1)) := by omega
        rw [if_neg hin, if_neg hin', if_neg hi]
  . rw [memcpy_of_ne hb, memcpy_of_ne hb]
    exact Local.set_of_ne _ _ _ (by simp [hb])

theorem exec_forEach_copy (hc : c ≠ .userBuffer) (src dst first n : Nat)
    : (Prog.forEach (List.range' first n) fun j =>
        (.load (c, src + j) fun x => .store (.userBuffer, dst + j) x (.ret ()) : Code Unit)).exec l
          =
        (.ok (), memcpy l c (src + first) (dst + first) n) := by
  induction n generalizing first l with
  | zero =>
    simp only [List.range'_zero, Prog.forEach_nil, Prog.exec_ret, Prod.mk.injEq, true_and]
    funext b i
    rw [memcpy, if_neg]
    omega
  | succ n ih =>
    rw [List.range'_succ, Prog.forEach_cons]
    simp only [Prog.bind_load, Prog.bind_ret, Prog.bind_store, Prog.exec_load, Prog.exec_store, ih]
    rw [← Nat.add_assoc, ← Nat.add_assoc, memcpy_succ hc]

theorem exec_copyLine (hc : c ≠ .userBuffer) (i : Nat)
    : (FaRM.copyLine (c, off) i).exec l = (.ok (), memcpy l c (off + i + 1) (FaRM.userIdx i) 7) := by
  have hcopy := exec_forEach_copy (l := l) hc (off + i + 1) (FaRM.userIdx i) 0 7
  rw [← List.range_eq_range'] at hcopy
  exact hcopy

/-- The body of the loop. -/
def checkedLine (flags : Flags) (buffer : Buffer × Nat) (prev : Word) (i : Nat) : Code Unit :=
  .load (buffer.1, buffer.2 + i) fun version =>
    if prev ≠ version then
      .throw .restart
    else if flags.memcpy then
      FaRM.copyLine buffer i
    else
      .ret ()

theorem checkConsistencyProof_eq
    : FaRM.checkConsistencyProof flags (c, off) bytes =
        .load (c, off) fun prev =>
          Prog.forEach (strided 0 (bytes / 8) (CL / 8)) (checkedLine flags (c, off) prev) := by
  rfl

theorem exec_checkedLines (hmemcpy : flags.memcpy = true) (hc : c ≠ .userBuffer) {prev : Word}
    {xs : List Nat} (hversions : ∀ i ∈ xs, l c (off + i) = prev)
    : (Prog.forEach xs (checkedLine flags (c, off) prev)).exec l
        =
      (.ok (), xs.foldl (fun l i => memcpy l c (off + i + 1) (FaRM.userIdx i) 7) l) := by
  induction xs generalizing l with
  | nil => rfl
  | cons x xs ih =>
    have hx : (checkedLine flags (c, off) prev x).exec l
        = (.ok (), memcpy l c (off + x + 1) (FaRM.userIdx x) 7) := by
      simp [checkedLine, hversions x List.mem_cons_self, hmemcpy, exec_copyLine hc]
    rw [Prog.forEach_cons, Prog.exec_bind, hx, List.foldl_cons]
    apply ih
    intro i hi
    rw [memcpy_of_ne hc]
    exact hversions i (List.mem_cons_of_mem x hi)

theorem exec_checkConsistencyProof (hmemcpy : flags.memcpy = true) (hc : c ≠ .userBuffer)
    (hversions : ∀ v < bytes / 8, v % 8 = 0 → l c (off + v) = l c off)
    : (FaRM.checkConsistencyProof flags (c, off) bytes).exec l
        =
      (.ok (), (strided 0 (bytes / 8) (CL / 8)).foldl
        (fun l i => memcpy l c (off + i + 1) (FaRM.userIdx i) 7) l) := by
  rw [checkConsistencyProof_eq, Prog.exec_load]
  apply exec_checkedLines hmemcpy hc
  intro i hi
  rw [mem_strided (by decide)] at hi
  exact hversions i hi.2.1 hi.2.2

theorem copiesPayload_of_le (hmemcpy : flags.memcpy = true) (hpos : 0 < bytes)
    (haligned : bytes % 64 = 0) (hle : bytes ≤ 128) : CopiesPayload flags bytes := by
  intro c off l hc hversions
  have hbytes : bytes = 64 ∨ bytes = 128 := by omega
  obtain rfl | rfl := hbytes
  . have hlines : strided 0 (64 / 8) (CL / 8) = [0] := by decide
    have hidx : FaRM.userIdx 0 = 0 := by decide
    refine ⟨_, exec_checkConsistencyProof hmemcpy hc hversions, ?_, ?_, ?_⟩
    . intro n hn
      rw [hlines, List.foldl_cons, List.foldl_nil, memcpy, hidx, if_pos ⟨rfl, by omega, by omega⟩]
      congr 1
      omega
    . intro n hn
      rw [hlines, List.foldl_cons, List.foldl_nil, memcpy, hidx, if_neg (by omega)]
    . intro b hb
      rw [hlines, List.foldl_cons, List.foldl_nil, memcpy_of_ne hb]
  . have hlines : strided 0 (128 / 8) (CL / 8) = [0, 8] := by decide
    have hidx : FaRM.userIdx 0 = 0 := by decide
    have hidx' : FaRM.userIdx 8 = 7 := by decide
    refine ⟨_, exec_checkConsistencyProof hmemcpy hc hversions, ?_, ?_, ?_⟩
    . intro n hn
      rw [hlines, List.foldl_cons, List.foldl_cons, List.foldl_nil, memcpy, hidx, hidx']
      by_cases hn' : n < 7
      . rw [if_neg (by omega), memcpy, if_pos ⟨rfl, by omega, by omega⟩]
        congr 1
        omega
      . rw [if_pos ⟨rfl, by omega, by omega⟩, memcpy_of_ne hc]
        congr 1
        omega
    . intro n hn
      rw [hlines, List.foldl_cons, List.foldl_cons, List.foldl_nil, memcpy, hidx, hidx',
        if_neg (by omega), memcpy, if_neg (by omega)]
    . intro b hb
      rw [hlines, List.foldl_cons, List.foldl_cons, List.foldl_nil, memcpy_of_ne hb,
        memcpy_of_ne hb]

/-- Behind the first line, no word is written whose index is two below a multiple of eight. -/
theorem userIdx_mod {i : Nat} (hi : i % 8 = 0) : FaRM.userIdx i = 0 ∨ FaRM.userIdx i % 8 = 7 := by
  by_cases hzero : i = 0
  . subst hzero
    exact .inl (by decide)
  . right
    have hx : (BitVec.ofNat 32 (i - 1)).toNat % 8 = 7 := by
      rw [BitVec.toNat_ofNat]
      omega
    have height : (8 : BitVec 64).toNat = 8 := rfl
    rw [FaRM.userIdx, if_neg hzero, BitVec.toNat_mul, BitVec.toNat_signExtend, BitVec.toNat_setWidth,
      height]
    split <;> omega

theorem copyLine_spares {i : Nat} (hi : i % 8 = 0)
    : (FaRM.copyLine (c, off) i).Local (fun _ => True) (fun a => a ≠ (.userBuffer, 14))
        (fun _ => True) := by
  apply Prog.Local.forEach
  intro j hj
  have hj : j < 7 := by simpa [CL] using hj
  refine .load _ _ trivial ?_
  intro x
  refine .store _ _ _ ?_ (.ret ())
  have hidx := userIdx_mod hi
  simp only [ne_eq, Prod.mk.injEq, true_and]
  omega

theorem not_copiesPayload (haligned : bytes % 64 = 0) (hlt : 128 < bytes)
    : ¬CopiesPayload flags bytes := by
  intro hcopies
  let l : Local Buffer := fun b _ => if b = .userBuffer then 1 else 0
  obtain ⟨l', hexec, hpayload, _⟩ := hcopies (.tupleBuffer true) 0 l (by simp) (fun _ _ _ => rfl)
  have hspares : (FaRM.checkConsistencyProof flags (.tupleBuffer true, 0) bytes).Local
      (fun _ => True) (fun a => a ≠ (.userBuffer, 14)) (fun _ => True) := by
    refine .load _ _ trivial ?_
    intro prev
    apply Prog.Local.forEach
    intro i hi
    rw [mem_strided (by decide)] at hi
    refine .load _ _ trivial ?_
    intro version
    show Prog.Local _ _ _ (if prev ≠ version then .throw .restart
      else if flags.memcpy then FaRM.copyLine _ i else .ret ())
    split
    . exact .throw _ trivial
    . split
      . exact copyLine_spares hi.2.2
      . exact .ret ()
  have hword : l' .userBuffer 14 = l .userBuffer 14 := by
    have hframe := hspares.exec_frame l (b := .userBuffer) (i := 14) (by simp)
    rwa [hexec] at hframe
  rw [hpayload 14 (by omega)] at hword
  exact absurd hword (by decide)

theorem copiesPayload_iff (hmemcpy : flags.memcpy = true) (hpos : 0 < bytes)
    (haligned : bytes % 64 = 0) : CopiesPayload flags bytes ↔ bytes ≤ 128 := by
  refine ⟨?_, copiesPayload_of_le hmemcpy hpos haligned⟩
  intro hcopies
  apply Nat.le_of_not_lt
  intro hlt
  exact not_copiesPayload haligned hlt hcopies

def copyingFlags : Flags where
  batchSize := 1
  memcpy := true
  crc64 := fun _ => 0

theorem copiesPayload_iff_twoLines : CopiesPayload copyingFlags 128 := by
  exact (copiesPayload_iff rfl (by decide) rfl).mpr (by decide)

/-- The third line is copied one word too far. -/
theorem not_copiesPayload_threeLines : ¬CopiesPayload copyingFlags 192 := by
  exact not_copiesPayload rfl (by decide)

end OptimisticLocks
