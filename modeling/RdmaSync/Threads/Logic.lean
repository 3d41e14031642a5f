import RdmaSync.Threads.Prog

/-!
This module contains rules to show that the calls of threads keep to a protocol on the shared state,
whatever the other threads do that keep to it.
-/

namespace Threads

variable {T S Call R α : Type}

/-- What threads that make calls may do and rely on. -/
structure Spec (T S Call R : Type) where
  inv : S → Prop
  permit : T → S → S → Prop
  idle : T → S → Prop
  result : T → Call → R → S → Prop

namespace Spec

variable (P : Spec T S Call R) (t : T) (call : Call)

def Stable (A : S → Prop) : Prop :=
  ∀ ⦃u : T⦄ ⦃s s' : S⦄, u ≠ t → P.inv s → P.inv s' → P.permit u s s' → A s → A s'

/-- No step of the program breaks the protocol, and no assertion in it fails. -/
def Safe (p : Prog S R) (s : S) : Prop :=
  match p with
  | .ret _ => P.idle t s
  | .fail => False
  | .atomic enabled update next =>
    ∃ A : S → Prop, P.Stable t A ∧ A s ∧ ∀ s b, P.inv s → A s → enabled s b = true →
      P.inv (update s b) ∧ P.permit t s (update s b) ∧ Safe (next s b) (update s b)
        ∧ ∀ r, next s b = .ret r → P.result t call r (update s b)

/-- The program is safe, and if it is over, its result is right. -/
structure Arrives (p : Prog S R) (s : S) : Prop where
  safe : P.Safe t call p s
  result : ∀ r, p = .ret r → P.result t call r s

variable {P t call} {A : S → Prop} {s : S}

theorem Stable.and {B : S → Prop} (hA : P.Stable t A) (hB : P.Stable t B)
    : P.Stable t (fun s => A s ∧ B s) := by
  rintro u s s' hu hinv hinv' hpermit ⟨ha, hb⟩
  exact ⟨hA hu hinv hinv' hpermit ha, hB hu hinv hinv' hpermit hb⟩

theorem Arrives.ret {r : R} (hidle : P.idle t s) (hresult : P.result t call r s)
    : P.Arrives t call (.ret r) s where
  safe := hidle
  result := by
    intro r' hr
    rwa [← Prog.ret.inj hr]

theorem Arrives.atomic {enabled : S → Bool → Bool} {update : S → Bool → S}
    {next : S → Bool → Prog S R} (A : S → Prop) (hstable : P.Stable t A) (hA : A s)
    (h : ∀ s b, P.inv s → A s → enabled s b = true →
      P.inv (update s b) ∧ P.permit t s (update s b) ∧ P.Arrives t call (next s b) (update s b))
    : P.Arrives t call (.atomic enabled update next) s where
  safe := by
    refine ⟨A, hstable, hA, ?_⟩
    intro s b hinv hA henabled
    obtain ⟨hinv', hpermit, hsafe, hresult⟩ := h s b hinv hA henabled
    exact ⟨hinv', hpermit, hsafe, hresult⟩
  result := by simp

theorem Arrives.load {f : S → α} {k : α → Prog S R} (A : S → Prop) (hstable : P.Stable t A)
    (hA : A s) (hpermit : ∀ s, P.inv s → A s → P.permit t s s)
    (h : ∀ s, P.inv s → A s → P.Arrives t call (k (f s)) s)
    : P.Arrives t call (Prog.load f >>= k) s := by
  refine Arrives.atomic A hstable hA ?_
  intro s b hinv hA _
  exact ⟨hinv, hpermit s hinv hA, h s hinv hA⟩

theorem Arrives.store {f : S → S} {k : Unit → Prog S R} (A : S → Prop) (hstable : P.Stable t A)
    (hA : A s)
    (h : ∀ s, P.inv s → A s → P.inv (f s) ∧ P.permit t s (f s) ∧ P.Arrives t call (k ()) (f s))
    : P.Arrives t call (Prog.store f >>= k) s := by
  refine Arrives.atomic A hstable hA ?_
  intro s b hinv hA _
  exact h s hinv hA

theorem Arrives.await {p : S → Bool} {f : S → S} {k : Unit → Prog S R} (A : S → Prop)
    (hstable : P.Stable t A) (hA : A s)
    (h : ∀ s, P.inv s → A s → p s = true →
      P.inv (f s) ∧ P.permit t s (f s) ∧ P.Arrives t call (k ()) (f s))
    : P.Arrives t call (Prog.await p f >>= k) s := by
  refine Arrives.atomic A hstable hA ?_
  intro s b hinv hA hp
  exact h s hinv hA hp

theorem Arrives.attempt {p : S → Bool} {f : S → S} {k : Bool → Prog S R} (A : S → Prop)
    (hstable : P.Stable t A) (hA : A s) (hpermit : ∀ s, P.inv s → A s → P.permit t s s)
    (hfail : ∀ s, P.inv s → A s → P.Arrives t call (k false) s)
    (h : ∀ s, P.inv s → A s → p s = true →
      P.inv (f s) ∧ P.permit t s (f s) ∧ P.Arrives t call (k true) (f s))
    : P.Arrives t call (Prog.attempt p f >>= k) s := by
  refine Arrives.atomic A hstable hA ?_
  intro s b hinv hA _
  cases hb : b && p s with
  | true =>
    have hp : p s = true := by simp_all
    simpa [hb, Prog.bind] using h s hinv hA hp
  | false => simpa [hb, Prog.bind] using ⟨hinv, hpermit s hinv hA, hfail s hinv hA⟩

theorem Arrives.exchange {p : S → Bool} {f : S → S} {g : S → α} {k : Bool × α → Prog S R}
    (A : S → Prop) (hstable : P.Stable t A) (hA : A s)
    (hpermit : ∀ s, P.inv s → A s → P.permit t s s)
    (hfail : ∀ s, P.inv s → A s → p s = false → P.Arrives t call (k (false, g s)) s)
    (h : ∀ s, P.inv s → A s → p s = true →
      P.inv (f s) ∧ P.permit t s (f s) ∧ P.Arrives t call (k (true, g s)) (f s))
    : P.Arrives t call (Prog.exchange p f g >>= k) s := by
  refine Arrives.atomic A hstable hA ?_
  intro s b hinv hA _
  cases hp : p s with
  | true => simpa [hp, Prog.bind] using h s hinv hA hp
  | false => simpa [hp, Prog.bind] using ⟨hinv, hpermit s hinv hA, hfail s hinv hA hp⟩

theorem Arrives.ensure {b : Bool} {k : Unit → Prog S R} (hb : b = true)
    (h : P.Arrives t call (k ()) s) : P.Arrives t call (Prog.ensure b >>= k) s := by
  simpa [Prog.ensure, hb] using h

/-- What other threads do does not make a program unsafe. -/
theorem Safe.other {p : Prog S R} {u : T} {s' : S} (hu : u ≠ t) (hidle : P.Stable t (P.idle t))
    (hinv : P.inv s) (hinv' : P.inv s') (hpermit : P.permit u s s') (h : P.Safe t call p s)
    : P.Safe t call p s' := by
  cases p with
  | ret r => exact hidle hu hinv hinv' hpermit h
  | fail => exact h.elim
  | atomic enabled update next =>
    obtain ⟨A, hstable, hA, hnext⟩ := h
    exact ⟨A, hstable, hstable hu hinv hinv' hpermit hA, hnext⟩

end Spec

variable [DecidableEq T]

namespace Interface

structure Meets (I : Interface T S Call R) (P : Spec T S Call R) : Prop where
  idle_stable : ∀ t, P.Stable t (P.idle t)
  calls : ∀ t call s, P.inv s → P.idle t s → I.mayCall t call s = true
    → P.Arrives t call (I.body t call) s

end Interface
namespace Spec

variable (P : Spec T S Call R) {I : Interface T S Call R} {s s' : Config T S Call R} {t : T}
  {call : Call} {r : R} {cond : Config T S Call R → Action T Call → Prop}

def ThreadOk (t : T) (thread : Thread S Call R) (s : S) : Prop :=
  match thread with
  | .idle => P.idle t s
  | .running call prog => P.Safe t call prog s

structure Ok (s : Config T S Call R) : Prop where
  inv : P.inv s.shared
  threads : ∀ t, P.ThreadOk t (s.thread t) s.shared

variable {P}

omit [DecidableEq T] in
theorem ThreadOk.other {thread : Thread S Call R} {u : T} {s s' : S} (hu : u ≠ t)
    (hidle : P.Stable t (P.idle t)) (hinv : P.inv s) (hinv' : P.inv s') (hpermit : P.permit u s s')
    (h : P.ThreadOk t thread s) : P.ThreadOk t thread s' := by
  cases thread with
  | idle => exact hidle hu hinv hinv' hpermit h
  | running call prog => exact Safe.other hu hidle hinv hinv' hpermit h

omit [DecidableEq T] in
theorem ok_start {s₀ : S} (hinv : P.inv s₀) (hidle : ∀ t, P.idle t s₀)
    : P.Ok (Interface.start s₀ : Config T S Call R) where
  inv := hinv
  threads := hidle

theorem Ok.setThread {thread : Thread S Call R} (h : P.Ok s)
    (hthread : P.ThreadOk t thread s.shared) : P.Ok (s.setThread t thread) := by
  refine ⟨h.inv, ?_⟩
  intro u
  by_cases hu : u = t
  . subst hu
    simpa [Config.setThread] using hthread
  . simpa [Config.setThread, hu] using h.threads u

theorem Ok.moves (h : P.Ok s) (hI : I.Meets P) (hmoves : I.Moves s t s')
    : P.Ok s' ∧ (s'.shared = s.shared ∨ P.permit t s.shared s'.shared)
      ∧ ∀ call r, s'.thread t = .running call (.ret r) → P.result t call r s'.shared := by
  have hok := h.threads t
  cases hmoves with
  | @call call hthread hmay =>
    rw [hthread] at hok
    have harrives := hI.calls t call s.shared h.inv hok hmay
    refine ⟨h.setThread harrives.safe, .inl rfl, ?_⟩
    intro call' r hr
    simp only [Config.setThread, Function.update_self, Thread.running.injEq] at hr
    obtain ⟨rfl, hr⟩ := hr
    exact harrives.result r hr
  | ret hthread =>
    rw [hthread] at hok
    exact ⟨h.setThread hok, .inl rfl, by simp [Config.setThread]⟩
  | @atomic call enabled update next choice hthread henabled =>
    rw [hthread] at hok
    obtain ⟨A, hstable, hA, hnext⟩ := hok
    obtain ⟨hinv, hpermit, hsafe, hresult⟩ := hnext s.shared choice h.inv hA henabled
    refine ⟨⟨hinv, ?_⟩, .inr hpermit, ?_⟩
    . intro u
      by_cases hu : u = t
      . subst hu
        simpa [Config.setThread, ThreadOk] using hsafe
      . have hother := (h.threads u).other (Ne.symm hu) (hI.idle_stable u) h.inv hinv hpermit
        simpa [Config.setThread, hu] using hother
    . intro call' r hr
      simp only [Config.setThread, Function.update_self, Thread.running.injEq] at hr
      obtain ⟨rfl, hr⟩ := hr
      exact hresult r hr

theorem ok_of_reach {s₀ : S} (h : Step.Reach I.step cond (Interface.start s₀) s) (hI : I.Meets P)
    (hinv : P.inv s₀) (hidle : ∀ t, P.idle t s₀) : P.Ok s :=
  h.invariant (ok_start hinv hidle) fun _ _ _ hok _ hstep =>
    (hok.moves hI (Interface.moves_of_step hstep)).1

omit [DecidableEq T] in
theorem Ok.not_fail (h : P.Ok s) (hthread : s.thread t = .running call .fail) : False := by
  have hok := h.threads t
  rwa [hthread] at hok

omit [DecidableEq T] in
theorem Ok.idle (h : P.Ok s) (hthread : s.thread t = .idle) : P.idle t s.shared := by
  have hok := h.threads t
  rwa [hthread] at hok

theorem Ok.lastStep (h : P.Ok s) (hI : I.Meets P) (hlast : I.LastStep s t call r s')
    : P.result t call r s'.shared := by
  obtain ⟨choice, hstep, hthread⟩ := hlast
  exact (h.moves hI (Interface.moves_of_step hstep)).2.2 call r hthread

/-- A relation that all permitted steps keep holds between the states of a run. -/
theorem relation_of_reach (rel : S → S → Prop) (hok : P.Ok s) (hI : I.Meets P)
    (h : Step.Reach I.step cond s s') (hrefl : ∀ s, rel s s)
    (htrans : ∀ {s s' s''}, rel s s' → rel s' s'' → rel s s'')
    (hpermit : ∀ t s s', P.inv s → P.inv s' → P.permit t s s' → rel s s')
    : rel s.shared s'.shared ∧ P.Ok s' := by
  induction h with
  | refl => exact ⟨hrefl _, hok⟩
  | next a h hc hstep ih =>
    obtain ⟨hrel, hok⟩ := ih
    obtain ⟨hok', hshared | hstep, _⟩ := hok.moves hI (Interface.moves_of_step hstep)
    . exact ⟨hshared ▸ hrel, hok'⟩
    . exact ⟨htrans hrel (hpermit _ _ _ hok.inv hok'.inv hstep), hok'⟩

end Spec
end Threads
