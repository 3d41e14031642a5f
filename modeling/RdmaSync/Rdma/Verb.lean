import Mathlib.Logic.Function.Basic

/-!
This module contains the one-sided RDMA verbs and the effect each of their atomic steps has on
remote memory and on the local buffers.
-/

namespace Rdma

abbrev Word := BitVec 64

/-- The registered remote memory, by index of the 8-byte word. -/
abbrev Mem := Nat → Word

/-- The registered local buffers of one worker, by buffer and index of the 8-byte word. -/
abbrev Local (β : Type) := β → Nat → Word

/--
The 8 bytes at byte address `a`. They are spread over two words if `a` is not 8-byte aligned.
-/
def load64 (m : Mem) (a : Nat) : Word :=
  if a % 8 = 0 then
    m (a / 8)
  else
    (m (a / 8) >>> (8 * (a % 8))) ||| (m (a / 8 + 1) <<< (64 - 8 * (a % 8)))

def store64 (m : Mem) (a : Nat) (v : Word) : Mem :=
  if a % 8 = 0 then
    Function.update m (a / 8) v
  else
    let sh := 8 * (a % 8)
    let lo := (m (a / 8) <<< (64 - sh)) >>> (64 - sh)
    let hi := (m (a / 8 + 1) >>> sh) <<< sh
    let m := Function.update m (a / 8) (lo ||| (v <<< sh))
    Function.update m (a / 8 + 1) (hi ||| (v >>> (64 - sh)))

theorem aligned_zero : 0 % 8 = 0 := by
  rfl

theorem aligned_eight : 8 % 8 = 0 := by
  rfl

theorem load64_aligned (m : Mem) {a : Nat} (h : a % 8 = 0) : load64 m a = m (a / 8) := by
  simp [load64, h]

theorem store64_aligned (m : Mem) {a : Nat} (v : Word) (h : a % 8 = 0) :
    store64 m a v = Function.update m (a / 8) v := by
  simp [store64, h]

def Local.set [DecidableEq β] (l : Local β) (a : β × Nat) (v : Word) : Local β :=
  fun b i => if b = a.1 ∧ i = a.2 then v else l b i

section LocalSet

variable [DecidableEq β] (l : Local β)

@[simp]
theorem Local.set_self (a : β × Nat) (v : Word) : l.set a v a.1 a.2 = v := by
  simp [Local.set]

theorem Local.set_apply (a : β × Nat) (v : Word) (b : β) (i : Nat) :
    l.set a v b i = if b = a.1 ∧ i = a.2 then v else l b i := by
  rfl

theorem Local.set_of_ne (a : β × Nat) (v : Word) {b : β} {i : Nat} (h : (b, i) ≠ a) :
    l.set a v b i = l b i := by
  have : ¬(b = a.1 ∧ i = a.2) := by
    rintro ⟨rfl, rfl⟩
    exact h rfl
  simp [Local.set, this]

end LocalSet

/-- The verbs a worker posts; `memAddr` is the local, `remoteOffset` the remote byte address. -/
inductive Verb (β : Type) where
  | compareSwap (expected desired : Word) (memAddr : β × Nat) (remoteOffset : Nat)
  | fetchAdd (toAdd : Word) (memAddr : β × Nat) (remoteOffset : Nat)
  | read (memAddr : β × Nat) (remoteOffset bytes : Nat)
  | write (memAddr : β × Nat) (remoteOffset bytes : Nat)
  deriving DecidableEq

structure Nic where
  /-- READs of at most this many bytes are one atomic step. -/
  atomicReadBytes : Nat
  /-- Whether the cache lines of a WRITE are placed in increasing address order. -/
  inOrderWrites : Bool

/-- The 64-byte aligned cache lines that the given byte range touches, in increasing order. -/
def linesOf (remoteOffset bytes : Nat) : List Nat :=
  List.range' (remoteOffset / 64) ((remoteOffset / 8 + bytes / 8 + 7) / 8 - remoteOffset / 64)

theorem mem_linesOf {remoteOffset bytes i : Nat} (h : i < bytes / 8) :
    (remoteOffset / 8 + i) / 8 ∈ linesOf remoteOffset bytes := by
  simp only [linesOf, List.mem_range'_1]
  omega

theorem linesOf_nodup (remoteOffset bytes : Nat) : (linesOf remoteOffset bytes).Nodup := by
  exact List.nodup_range'

namespace Verb

def chunkOf (nic : Nic) (v : Verb β) (i : Nat) : Nat :=
  match v with
  | .compareSwap .. | .fetchAdd .. => 0
  | .read _ remoteOffset bytes =>
    if bytes ≤ nic.atomicReadBytes then 0 else (remoteOffset / 8 + i) / 8
  | .write _ remoteOffset _ => (remoteOffset / 8 + i) / 8

def chunks (nic : Nic) (v : Verb β) : List Nat :=
  match v with
  | .compareSwap .. | .fetchAdd .. => [0]
  | .read _ remoteOffset bytes =>
    if bytes ≤ nic.atomicReadBytes then [0] else linesOf remoteOffset bytes
  | .write _ remoteOffset bytes => linesOf remoteOffset bytes

theorem chunks_nodup (nic : Nic) (v : Verb β) : (v.chunks nic).Nodup := by
  cases v with
  | compareSwap => simp [chunks]
  | fetchAdd => simp [chunks]
  | read =>
    simp only [chunks]
    split
    . simp
    . apply linesOf_nodup
  | write => apply linesOf_nodup

theorem chunkOf_mem_chunks (nic : Nic) (memAddr : β × Nat) (remoteOffset : Nat) {bytes i : Nat}
    (h : i < bytes / 8)
    : (read memAddr remoteOffset bytes).chunkOf nic i
        ∈ (read memAddr remoteOffset bytes).chunks nic := by
  simp only [chunkOf, chunks]
  split
  . simp
  . exact mem_linesOf h

/-- The bytes a WRITE carries: the buffer contents at the time of posting. -/
def payload (v : Verb β) (l : Local β) : Nat → Word :=
  match v with
  | .write memAddr _ bytes => fun i => if i < bytes / 8 then l memAddr.1 (memAddr.2 + i) else 0
  | _ => fun _ => 0

def place (v : Verb β) (payload : Nat → Word) (chunk : Nat) (m : Mem) : Mem :=
  match v with
  | .compareSwap expected desired _ remoteOffset =>
    if load64 m remoteOffset = expected then store64 m remoteOffset desired else m
  | .fetchAdd toAdd _ remoteOffset => store64 m remoteOffset (load64 m remoteOffset + toAdd)
  | .read .. => m
  | .write _ remoteOffset bytes => fun j =>
    if remoteOffset / 8 ≤ j ∧ j < remoteOffset / 8 + bytes / 8 ∧ j / 8 = chunk then
      payload (j - remoteOffset / 8)
    else
      m j

/-- The verb does not write to the remote words number `lo` to `hi`. -/
def Avoids (lo hi : Nat) (v : Verb β) : Prop :=
  match v with
  | .read .. => True
  | .compareSwap _ _ _ remoteOffset | .fetchAdd _ _ remoteOffset =>
    remoteOffset % 8 = 0 ∧ (remoteOffset / 8 < lo ∨ hi < remoteOffset / 8)
  | .write _ remoteOffset bytes => remoteOffset / 8 + bytes / 8 ≤ lo ∨ hi < remoteOffset / 8

theorem place_of_avoids {lo hi j : Nat} {v : Verb β} (h : v.Avoids lo hi) (hlo : lo ≤ j)
    (hhi : j ≤ hi) (payload : Nat → Word) (chunk : Nat) (m : Mem)
    : v.place payload chunk m j = m j := by
  cases v with
  | read => rfl
  | compareSwap expected desired memAddr off =>
    obtain ⟨haligned, hoff⟩ := h
    simp only [place]
    split
    . rw [store64_aligned _ _ haligned, Function.update_of_ne (by omega)]
    . rfl
  | fetchAdd toAdd memAddr off =>
    obtain ⟨haligned, hoff⟩ := h
    simp only [place]
    rw [store64_aligned _ _ haligned, Function.update_of_ne (by omega)]
  | write memAddr off bytes =>
    simp only [Avoids] at h
    simp only [place]
    rw [if_neg (by omega)]

def readsWord (nic : Nic) (v : Verb β) (chunk j : Nat) : Bool :=
  match v with
  | .read _ remoteOffset bytes =>
    remoteOffset / 8 ≤ j && j < remoteOffset / 8 + bytes / 8 &&
      v.chunkOf nic (j - remoteOffset / 8) == chunk
  | _ => false

def lands (v : Verb β) (a : β × Nat) : Prop :=
  match v with
  | .compareSwap _ _ memAddr _ | .fetchAdd _ memAddr _ => a = memAddr
  | .read memAddr _ bytes => a.1 = memAddr.1 ∧ memAddr.2 ≤ a.2 ∧ a.2 < memAddr.2 + bytes / 8
  | .write .. => False

def sends (v : Verb β) (a : β × Nat) : Prop :=
  match v with
  | .write memAddr _ bytes => a.1 = memAddr.1 ∧ memAddr.2 ≤ a.2 ∧ a.2 < memAddr.2 + bytes / 8
  | _ => False

def isCompareSwap (v : Verb β) : Bool :=
  match v with
  | .compareSwap .. => true
  | _ => false

theorem not_lands_of_sends {v : Verb β} {a a' : β × Nat} (h : v.sends a) : ¬v.lands a' := by
  cases v with
  | write => exact fun h => h
  | _ => exact h.elim

theorem payload_congr (v : Verb β) {l l' : Local β}
    (h : ∀ b i, v.sends (b, i) → l b i = l' b i) : v.payload l = v.payload l' := by
  cases v with
  | write memAddr _ bytes =>
    funext i
    simp only [payload]
    split
    . next hi =>
      apply h
      simp [sends, hi]
    . rfl
  | _ => rfl

variable [DecidableEq β]

/-- The effect of one atomic step on the local buffers; `m` is the memory the step acts on. -/
def deliver (nic : Nic) (v : Verb β) (chunk : Nat) (m : Mem) (l : Local β) : Local β :=
  match v with
  | .compareSwap _ _ memAddr remoteOffset | .fetchAdd _ memAddr remoteOffset =>
    l.set memAddr (load64 m remoteOffset)
  | .read memAddr remoteOffset bytes => fun b j =>
    if b = memAddr.1 ∧ memAddr.2 ≤ j ∧ j < memAddr.2 + bytes / 8
        ∧ (read memAddr remoteOffset bytes).chunkOf nic (j - memAddr.2) = chunk then
      m (remoteOffset / 8 + (j - memAddr.2))
    else
      l b j
  | .write .. => l

theorem deliver_of_not_lands (nic : Nic) (v : Verb β) (chunk : Nat) (m : Mem) (l : Local β)
    {b : β} {i : Nat} (h : ¬v.lands (b, i)) : v.deliver nic chunk m l b i = l b i := by
  cases v with
  | compareSwap => exact Local.set_of_ne _ _ _ h
  | fetchAdd => exact Local.set_of_ne _ _ _ h
  | read memAddr remoteOffset bytes =>
    simp only [deliver]
    split
    . next hc => exact absurd ⟨hc.1, hc.2.1, hc.2.2.1⟩ h
    . rfl
  | write => rfl

/-- A store by the CPU commutes with a step that does not land on the stored word. -/
theorem deliver_set (nic : Nic) (v : Verb β) (chunk : Nat) (m : Mem) (l : Local β) (a : β × Nat)
    (x : Word) (h : ¬v.lands a)
    : v.deliver nic chunk m (l.set a x) = (v.deliver nic chunk m l).set a x := by
  funext b i
  by_cases hc : b = a.1 ∧ i = a.2
  . rcases a with ⟨a, k⟩
    rcases hc with ⟨rfl, rfl⟩
    rw [deliver_of_not_lands _ _ _ _ _ h]
    simp [Local.set]
  . cases v <;> simp [deliver, Local.set, hc]

end Verb

end Rdma
