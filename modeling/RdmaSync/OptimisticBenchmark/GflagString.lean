import Mathlib.Algebra.Group.Nat.Defs
import Mathlib.Data.List.Chain
import Mathlib.Data.List.TakeWhile

/-!
This module contains the parser of the workload lists that are given on the command line.
-/

namespace OptimisticBenchmark

def decimal (digits : List Char) : Nat :=
  digits.foldl (fun n d => 10 * n + (d.toNat - '0'.toNat)) 0

/--
`std::from_chars` for an `unsigned`, in base ten: what it leaves in `value`. Characters behind the
digits are not read; `value` is kept if there are no digits or if the number does not fit.
-/
def fromChars (desc : List Char) (value : Nat) : Nat :=
  let digits := desc.takeWhile Char.isDigit
  if digits.isEmpty then
    value
  else if decimal digits < 2 ^ 32 then
    decimal digits
  else
    value

def find (desc : List Char) (c : Char) : Option Nat :=
  desc.idxOf? c

/-- The lambda of `interpretGflagString`. -/
def add (splitted : List Nat) (desc : List Char) : List Nat :=
  splitted ++ [fromChars desc 0]

variable {desc : List Char} {c : Char} {split : Nat}

theorem find_eq_some (h : find desc c = some split)
    : c ∉ desc.take split ∧ desc = desc.take split ++ c :: desc.drop (split + 1) := by
  induction desc generalizing split with
  | nil => simp [find] at h
  | cons d desc ih =>
    rw [find, List.idxOf?_cons] at h
    split at h
    . next hd =>
      obtain rfl : d = c := by simpa using hd
      obtain rfl : 0 = split := by simpa using h
      simp
    . next hd =>
      rw [Option.map_eq_some_iff] at h
      obtain ⟨n, hn, rfl⟩ := h
      obtain ⟨hnotMem, heq⟩ := ih hn
      constructor
      . simp only [List.take_succ_cons, List.mem_cons, not_or]
        exact ⟨fun hcd => hd (by simp [hcd]), hnotMem⟩
      . simp only [List.take_succ_cons, List.drop_succ_cons, List.cons_append]
        rw [← heq]

theorem length_drop_of_find (h : find desc c = some split)
    : (desc.drop (split + 1)).length < desc.length := by
  obtain ⟨_, heq⟩ := find_eq_some h
  have := congrArg List.length heq
  simp only [List.length_append, List.length_cons] at this
  omega

def interpretLoop (desc : List Char) (splitted : List Nat) : List Nat :=
  match h : find desc ' ' with
  | some split => interpretLoop (desc.drop (split + 1)) (add splitted (desc.take split))
  | none => add splitted desc
termination_by desc.length
decreasing_by exact length_drop_of_find h

def interpretGflagString (desc : List Char) : List Nat :=
  interpretLoop desc []

/-- The longest strings of digits in a string, in order. -/
def digitRuns (desc : List Char) : List (List Char) :=
  (desc.splitOnP fun c => !c.isDigit).filter fun run => !run.isEmpty

/--
No two spaces follow each other in the string, nor do they if one more is put before and behind it.
-/
def Separated (desc : List Char) : Prop :=
  (' ' :: (desc ++ [' '])).IsChain fun c d => ¬(c = ' ' ∧ d = ' ')

instance (desc : List Char) : Decidable (Separated desc) :=
  inferInstanceAs (Decidable (List.IsChain _ _))

/-- Every piece between two spaces is converted, also the empty ones. -/
theorem interpretLoop_eq (desc : List Char) (splitted : List Nat)
    : interpretLoop desc splitted
        = splitted ++ (desc.splitOn ' ').map fun piece => fromChars piece 0 := by
  fun_induction interpretLoop desc splitted with
  | case1 desc splitted split h ih =>
    obtain ⟨hnotMem, heq⟩ := find_eq_some h
    have hsplit := List.splitOn_append_cons_self_of_not_mem hnotMem (desc.drop (split + 1))
    rw [← heq] at hsplit
    rw [ih, hsplit, add, List.map_cons, List.append_assoc, List.singleton_append]
  | case2 desc splitted h =>
    have hnotMem : ' ' ∉ desc := List.idxOf?_eq_none_iff.mp h
    rw [List.splitOn_eq_singleton hnotMem, add, List.map_singleton]

theorem splitOnP_congr {p q : Char → Bool} (h : ∀ c ∈ desc, p c = q c)
    : desc.splitOnP p = desc.splitOnP q := by
  induction desc with
  | nil => rfl
  | cons c desc ih =>
    rw [List.forall_mem_cons] at h
    rw [List.splitOnP_cons_eq_if_modifyHead, List.splitOnP_cons_eq_if_modifyHead, h.1, ih h.2]

theorem digitRuns_eq (hchars : ∀ c ∈ desc, c.isDigit = true ∨ c = ' ')
    : digitRuns desc = (desc.splitOn ' ').filter fun piece => !piece.isEmpty := by
  rw [digitRuns, List.splitOn_eq_splitOnP, splitOnP_congr]
  intro c hc
  obtain hdigit | rfl := hchars c hc
  . have hne : c ≠ ' ' := by
      rintro rfl
      exact absurd hdigit (by decide)
    simp [hdigit, hne]
  . rfl

theorem exists_splitOn (desc : List Char) : ∃ piece pieces, desc.splitOn ' ' = piece :: pieces := by
  exact List.exists_cons_of_ne_nil (List.splitOn_ne_nil ' ' desc)

theorem of_mem_splitOn {piece : List Char} (h : piece ∈ desc.splitOn ' ')
    : ∀ c ∈ piece, c ∈ desc ∧ c ≠ ' ' := by
  induction desc generalizing piece with
  | nil =>
    obtain rfl : piece = [] := by simpa using h
    simp
  | cons d desc ih =>
    obtain ⟨p, ps, hsplit⟩ := exists_splitOn desc
    rw [List.splitOn_cons_eq_if_modifyHead, hsplit, List.modifyHead_cons] at h
    rw [hsplit] at ih
    intro c hc
    split at h
    . rw [List.mem_cons] at h
      obtain rfl | hmem := h
      . simp at hc
      . obtain ⟨hdesc, hne⟩ := ih hmem c hc
        exact ⟨List.mem_cons_of_mem d hdesc, hne⟩
    . next hd =>
      rw [List.mem_cons] at h
      obtain rfl | hmem := h
      . rw [List.mem_cons] at hc
        obtain rfl | hc := hc
        . exact ⟨List.mem_cons_self, by simpa using hd⟩
        . obtain ⟨hdesc, hne⟩ := ih List.mem_cons_self c hc
          exact ⟨List.mem_cons_of_mem d hdesc, hne⟩
      . obtain ⟨hdesc, hne⟩ := ih (List.mem_cons_of_mem p hmem) c hc
        exact ⟨List.mem_cons_of_mem d hdesc, hne⟩

theorem isChain_iff (c : Char) {piece : List Char} {pieces : List (List Char)}
    (h : desc.splitOn ' ' = piece :: pieces)
    : (c :: (desc ++ [' '])).IsChain (fun c d => ¬(c = ' ' ∧ d = ' '))
        ↔ (c = ' ' → piece ≠ []) ∧ ∀ p ∈ pieces, p ≠ [] := by
  induction desc generalizing c piece pieces with
  | nil =>
    obtain ⟨rfl, rfl⟩ : piece = [] ∧ pieces = [] := by simpa [eq_comm] using h
    simp
  | cons d desc ih =>
    obtain ⟨p, ps, hsplit⟩ := exists_splitOn desc
    rw [List.splitOn_cons_eq_if_modifyHead, hsplit, List.modifyHead_cons] at h
    rw [List.cons_append, List.isChain_cons_cons, ih d hsplit]
    by_cases hd : d = ' '
    . rw [if_pos (by simpa using hd), List.cons.injEq] at h
      obtain ⟨rfl, rfl⟩ := h
      simp [hd]
    . rw [if_neg (by simpa using hd), List.cons.injEq] at h
      obtain ⟨rfl, rfl⟩ := h
      simp [hd]

theorem separated_iff : Separated desc ↔ ∀ piece ∈ desc.splitOn ' ', piece ≠ [] := by
  obtain ⟨piece, pieces, hsplit⟩ := exists_splitOn desc
  rw [Separated, isChain_iff ' ' hsplit, hsplit, List.forall_mem_cons]
  simp

theorem decimal_lt {digits : List Char} (h : ∀ c ∈ digits, c.isDigit = true)
    : decimal digits < 10 ^ digits.length := by
  have hfold (n : Nat) : digits.foldl (fun n d => 10 * n + (d.toNat - '0'.toNat)) n
      < (n + 1) * 10 ^ digits.length := by
    induction digits generalizing n with
    | nil => simp
    | cons d digits ih =>
      rw [List.forall_mem_cons] at h
      have hdigit : d.toNat - '0'.toNat ≤ 9 := by
        have hd := h.1
        simp only [Char.isDigit, Bool.and_eq_true, decide_eq_true_eq] at hd
        have hle : d.toNat ≤ 57 := hd.2
        have hzero : '0'.toNat = 48 := rfl
        omega
      have hnext := ih h.2 (10 * n + (d.toNat - '0'.toNat))
      have hmul := Nat.mul_le_mul_right (10 ^ digits.length)
        (show 10 * n + (d.toNat - '0'.toNat) + 1 ≤ (n + 1) * 10 by omega)
      rw [List.foldl_cons, List.length_cons, Nat.pow_succ, Nat.mul_comm (10 ^ _), ← Nat.mul_assoc]
      exact Nat.lt_of_lt_of_le hnext hmul
  simpa [decimal] using hfold 0

theorem fromChars_eq {digits : List Char} (h : ∀ c ∈ digits, c.isDigit = true)
    (hlength : digits.length ≤ 9) : fromChars digits 0 = decimal digits := by
  have htake : digits.takeWhile Char.isDigit = digits := List.takeWhile_eq_self_iff.mpr h
  have hlt : decimal digits < 2 ^ 32 := by
    have hpow : 10 ^ digits.length ≤ 10 ^ 9 := Nat.pow_le_pow_right (by omega) hlength
    exact Nat.lt_of_lt_of_le (decimal_lt h) (Nat.le_trans hpow (by decide))
  rw [fromChars, htake, if_pos hlt]
  cases digits with
  | nil => rfl
  | cons => rfl

theorem interpretGflagString_iff (hchars : ∀ c ∈ desc, c.isDigit = true ∨ c = ' ')
    (hruns : ∀ run ∈ digitRuns desc, run.length ≤ 9)
    : interpretGflagString desc = (digitRuns desc).map decimal ↔ Separated desc := by
  rw [digitRuns_eq hchars] at *
  rw [interpretGflagString, interpretLoop_eq, List.nil_append, separated_iff]
  constructor
  . intro h
    have hlength := congrArg List.length h
    rw [List.length_map, List.length_map] at hlength
    have hall := List.length_filter_eq_length_iff.mp hlength.symm
    intro piece hpiece
    simpa using hall piece hpiece
  . intro h
    have hfilter : (desc.splitOn ' ').filter (fun piece => !piece.isEmpty) = desc.splitOn ' ' := by
      rw [List.filter_eq_self]
      intro piece hpiece
      simpa using h piece hpiece
    rw [hfilter] at hruns ⊢
    apply List.map_congr_left
    intro piece hpiece
    apply fromChars_eq
    . intro c hc
      obtain ⟨hmem, hne⟩ := of_mem_splitOn hpiece c hc
      exact (hchars c hmem).resolve_right hne
    . exact hruns piece hpiece

def defaultReadRatios : List Char :=
  ['1', '0', '0', ' ', '5', '0', ' ', '0']

theorem interpretGflagString_iff_defaultReadRatios
    : interpretGflagString defaultReadRatios = (digitRuns defaultReadRatios).map decimal := by
  have hall : defaultReadRatios.all (fun c => c.isDigit || c == ' ') = true := by decide
  have hchars : ∀ c ∈ defaultReadRatios, c.isDigit = true ∨ c = ' ' := by
    intro c hc
    simpa using List.all_eq_true.mp hall c hc
  exact (interpretGflagString_iff hchars (by decide)).mpr (by decide)

/-- Two spaces between two numbers put a zero between them. -/
theorem interpretGflagString_twoSpaces
    : interpretGflagString ['5', ' ', ' ', '7'] = [5, 0, 7]
      ∧ (digitRuns ['5', ' ', ' ', '7']).map decimal = [5, 7] := by
  refine ⟨?_, by decide⟩
  rw [interpretGflagString, interpretLoop_eq]
  decide

end OptimisticBenchmark
