import RdmaSync.Rdma.Verb

/-!
This module contains the programs that run on a worker's CPU: straight line code over the verbs, the
completion queues and the local buffers, with exceptions. Unbounded loops are not programs; they are
operations that a `Workload` starts again.
-/

namespace Rdma

/--
A program over contexts `κ` and buffers `β` that returns an `α` or throws an `ε`. A `poll` node is a
whole polling loop: it spins until the expected number of completions has been taken.
-/
inductive Prog (κ β ε α : Type) where
  | ret (a : α)
  | throw (e : ε)
  | post (rctx : κ) (wc : Bool) (v : Verb β) (next : Prog κ β ε α)
  | poll (rctx : κ) (expected : Nat) (next : Prog κ β ε α)
  | load (a : β × Nat) (next : Word → Prog κ β ε α)
  | store (a : β × Nat) (v : Word) (next : Prog κ β ε α)

namespace Prog

variable {κ β ε α γ : Type}

def bind (p : Prog κ β ε α) (f : α → Prog κ β ε γ) : Prog κ β ε γ :=
  match p with
  | .ret a => f a
  | .throw e => .throw e
  | .post rctx wc v next => .post rctx wc v (next.bind f)
  | .poll rctx expected next => .poll rctx expected (next.bind f)
  | .load a next => .load a (fun x => (next x).bind f)
  | .store a v next => .store a v (next.bind f)

instance : Monad (Prog κ β ε) where
  pure := .ret
  bind := .bind

@[simp]
theorem pure_eq (a : α) : (pure a : Prog κ β ε α) = .ret a := by
  rfl

@[simp]
theorem bind_ret (a : α) (f : α → Prog κ β ε γ) : (.ret a : Prog κ β ε α) >>= f = f a := by
  rfl

@[simp]
theorem bind_throw (e : ε) (f : α → Prog κ β ε γ)
    : (.throw e : Prog κ β ε α) >>= f = .throw e := by
  rfl

@[simp]
theorem bind_post (rctx : κ) (wc : Bool) (v : Verb β) (p : Prog κ β ε α) (f : α → Prog κ β ε γ)
    : (.post rctx wc v p) >>= f = .post rctx wc v (p >>= f) := by
  rfl

@[simp]
theorem bind_poll (rctx : κ) (n : Nat) (p : Prog κ β ε α) (f : α → Prog κ β ε γ)
    : (.poll rctx n p) >>= f = .poll rctx n (p >>= f) := by
  rfl

@[simp]
theorem bind_load (a : β × Nat) (p : Word → Prog κ β ε α) (f : α → Prog κ β ε γ)
    : (.load a p) >>= f = .load a (fun x => p x >>= f) := by
  rfl

@[simp]
theorem bind_store (a : β × Nat) (v : Word) (p : Prog κ β ε α) (f : α → Prog κ β ε γ)
    : (.store a v p) >>= f = .store a v (p >>= f) := by
  rfl

@[simp]
theorem bind_ite (c : Prop) [Decidable c] (p q : Prog κ β ε α) (f : α → Prog κ β ε γ)
    : (if c then p else q) >>= f = if c then p >>= f else q >>= f := by
  split <;> rfl

theorem bind_assoc (p : Prog κ β ε α) (f : α → Prog κ β ε γ) (g : γ → Prog κ β ε δ)
    : (p >>= f) >>= g = p >>= fun a => f a >>= g := by
  induction p with
  | ret => rfl
  | throw => rfl
  | post _ _ _ _ ih => simp [ih]
  | poll _ _ _ ih => simp [ih]
  | load _ _ ih => simp [ih]
  | store _ _ _ ih => simp [ih]

theorem bind_ret_right (p : Prog κ β ε α) : p >>= .ret = p := by
  induction p with
  | ret => rfl
  | throw => rfl
  | post _ _ _ _ ih => simp [ih]
  | poll _ _ _ ih => simp [ih]
  | load _ _ ih => simp [ih]
  | store _ _ _ ih => simp [ih]

def forEach (xs : List γ) (body : γ → Prog κ β ε Unit) : Prog κ β ε Unit :=
  match xs with
  | [] => .ret ()
  | x :: xs => body x >>= fun _ => forEach xs body

@[simp]
theorem forEach_nil (body : γ → Prog κ β ε Unit) : forEach [] body = .ret () := by
  rfl

@[simp]
theorem forEach_cons (x : γ) (xs : List γ) (body : γ → Prog κ β ε Unit)
    : forEach (x :: xs) body = body x >>= fun _ => forEach xs body := by
  rfl

theorem forEach_append (xs ys : List γ) (body : γ → Prog κ β ε Unit)
    : forEach (xs ++ ys) body = forEach xs body >>= fun _ => forEach ys body := by
  induction xs with
  | nil => rfl
  | cons x xs ih => rw [List.cons_append, forEach_cons, forEach_cons, bind_assoc, ih]

theorem forEach_congr {xs : List γ} {body body' : γ → Prog κ β ε Unit}
    (h : ∀ x ∈ xs, body x = body' x) : forEach xs body = forEach xs body' := by
  induction xs with
  | nil => rfl
  | cons x xs ih =>
    rw [forEach_cons, forEach_cons, h x List.mem_cons_self,
      ih fun y hy => h y (List.mem_cons_of_mem x hy)]

def loadAll (as : List (β × Nat)) : Prog κ β ε (List Word) :=
  match as with
  | [] => .ret []
  | a :: as => .load a fun x => loadAll as >>= fun xs => .ret (x :: xs)

/-- All verbs that the program may post satisfy `V`. -/
def Posts (V : Verb β → Prop) (p : Prog κ β ε α) : Prop :=
  match p with
  | .ret _ | .throw _ => True
  | .post _ _ v next => V v ∧ next.Posts V
  | .poll _ _ next | .store _ _ next => next.Posts V
  | .load _ next => ∀ x, (next x).Posts V

theorem Posts.mono {V V' : Verb β → Prop} {p : Prog κ β ε α} (h : p.Posts V)
    (hV : ∀ v, V v → V' v) : p.Posts V' := by
  induction p with
  | ret | throw => trivial
  | post _ _ v next ih => exact ⟨hV v h.1, ih h.2⟩
  | poll _ _ next ih => exact ih h
  | load a next ih => exact fun x => ih x (h x)
  | store a v next ih => exact ih h

theorem Posts.of_forall {V : Verb β → Prop} (hV : ∀ v, V v) (p : Prog κ β ε α) : p.Posts V := by
  induction p with
  | ret | throw => trivial
  | post _ _ v next ih => exact ⟨hV v, ih⟩
  | poll _ _ next ih => exact ih
  | load a next ih => exact ih
  | store a v next ih => exact ih

theorem posts_ite {V : Verb β → Prop} {c : Prop} [Decidable c] {p q : Prog κ β ε α}
    : (if c then p else q).Posts V ↔ if c then p.Posts V else q.Posts V := by
  split <;> exact Iff.rfl

theorem Posts.bind {V : Verb β → Prop} {p : Prog κ β ε α} {f : α → Prog κ β ε γ} (h : p.Posts V)
    (hf : ∀ a, (f a).Posts V) : (p >>= f).Posts V := by
  induction p with
  | ret a => exact hf a
  | throw => trivial
  | post _ _ v next ih => exact ⟨h.1, ih h.2⟩
  | poll _ _ next ih => exact ih h
  | load a next ih => exact fun x => ih x (h x)
  | store a v next ih => exact ih h

theorem Posts.forEach {V : Verb β → Prop} {xs : List γ} {body : γ → Prog κ β ε Unit}
    (h : ∀ x ∈ xs, (body x).Posts V) : (Prog.forEach xs body).Posts V := by
  induction xs with
  | nil => trivial
  | cons x xs ih =>
    apply (h x List.mem_cons_self).bind
    intro _
    exact ih fun y hy => h y (List.mem_cons_of_mem x hy)

/--
The program is local: it only loads words in `loads`, stores words in `stores` and throws exceptions
in `throws`.
-/
inductive Local (loads stores : β × Nat → Prop) (throws : ε → Prop) : Prog κ β ε α → Prop where
  | ret (a : α) : Local loads stores throws (.ret a)
  | throw (e : ε) (h : throws e) : Local loads stores throws (.throw e)
  | load (a : β × Nat) (next : Word → Prog κ β ε α) (h : loads a)
    (hnext : ∀ x, Local loads stores throws (next x)) : Local loads stores throws (.load a next)
  | store (a : β × Nat) (v : Word) (next : Prog κ β ε α) (h : stores a)
    (hnext : Local loads stores throws next) : Local loads stores throws (.store a v next)

namespace Local

variable {loads stores : β × Nat → Prop} {throws : ε → Prop}

theorem mono {loads' stores' : β × Nat → Prop} {p : Prog κ β ε α}
    (hp : Local loads stores throws p) (hloads : ∀ a, loads a → loads' a)
    (hstores : ∀ a, stores a → stores' a) : Local loads' stores' throws p := by
  induction hp with
  | ret a => exact .ret a
  | throw e h => exact .throw e h
  | load a next h _ ih => exact .load a _ (hloads a h) ih
  | store a v next h _ ih => exact .store a v _ (hstores a h) ih

theorem bind {p : Prog κ β ε α} {f : α → Prog κ β ε γ} (hp : Local loads stores throws p)
    (hf : ∀ a, Local loads stores throws (f a)) : Local loads stores throws (p >>= f) := by
  induction hp with
  | ret a => exact hf a
  | throw e h => exact .throw e h
  | load a next h _ ih => exact .load a _ h ih
  | store a v next h _ ih => exact .store a v _ h ih

theorem forEach {xs : List γ} {body : γ → Prog κ β ε Unit}
    (h : ∀ x ∈ xs, Local loads stores throws (body x))
    : Local loads stores throws (Prog.forEach xs body) := by
  induction xs with
  | nil => exact .ret ()
  | cons x xs ih =>
    apply bind
    . exact h x (by simp)
    . intro _
      apply ih
      intro y hy
      exact h y (by simp [hy])

theorem loadAll {as : List (β × Nat)} (h : ∀ a ∈ as, loads a)
    : Local loads stores throws (Prog.loadAll (κ := κ) as) := by
  induction as with
  | nil => exact .ret []
  | cons a as ih =>
    apply Local.load
    . exact h a (by simp)
    . intro x
      apply bind
      . apply ih
        intro b hb
        exact h b (by simp [hb])
      . intro xs
        exact .ret _

theorem posts {p : Prog κ β ε α} (hp : Local loads stores throws p) (V : Verb β → Prop)
    : p.Posts V := by
  induction hp with
  | ret | throw => trivial
  | load a next _ _ ih => exact ih
  | store a v next _ _ ih => exact ih

end Local

variable [DecidableEq β]

def exec (p : Prog κ β ε α) (l : Rdma.Local β) : Except ε α × Rdma.Local β :=
  match p with
  | .ret a => (.ok a, l)
  | .throw e => (.error e, l)
  | .post _ _ _ next | .poll _ _ next => next.exec l
  | .load a next => (next (l a.1 a.2)).exec l
  | .store a v next => next.exec (l.set a v)

section Exec

variable (l : Rdma.Local β)

@[simp]
theorem exec_ret (a : α) : (.ret a : Prog κ β ε α).exec l = (.ok a, l) := by
  rfl

@[simp]
theorem exec_throw (e : ε) : (.throw e : Prog κ β ε α).exec l = (.error e, l) := by
  rfl

@[simp]
theorem exec_load (a : β × Nat) (next : Word → Prog κ β ε α)
    : (Prog.load a next).exec l = (next (l a.1 a.2)).exec l := by
  rfl

@[simp]
theorem exec_store (a : β × Nat) (v : Word) (next : Prog κ β ε α)
    : (Prog.store a v next).exec l = next.exec (l.set a v) := by
  rfl

theorem exec_bind (p : Prog κ β ε α) (f : α → Prog κ β ε γ)
    : (p >>= f).exec l =
        match p.exec l with
        | (.ok a, l) => (f a).exec l
        | (.error e, l) => (.error e, l) := by
  induction p generalizing l with
  | ret => rfl
  | throw => rfl
  | post _ _ _ _ ih => exact ih l
  | poll _ _ _ ih => exact ih l
  | load a _ ih => exact ih (l a.1 a.2) l
  | store a v _ ih => exact ih (l.set a v)

theorem exec_loadAll (as : List (β × Nat))
    : (loadAll as : Prog κ β ε (List Word)).exec l = (.ok (as.map fun a => l a.1 a.2), l) := by
  induction as with
  | nil => rfl
  | cons a as ih => simp [loadAll, exec_bind, ih]

theorem Local.exec_frame {loads stores : β × Nat → Prop} {throws : ε → Prop}
    {p : Prog κ β ε α} (hp : Local loads stores throws p) (l : Rdma.Local β) {b : β} {i : Nat}
    (h : ¬stores (b, i)) : (p.exec l).2 b i = l b i := by
  induction hp generalizing l with
  | ret => rfl
  | throw => rfl
  | load a next _ _ ih =>
    rw [exec_load]
    apply ih
  | store a v next ha _ ih =>
    rw [exec_store, ih]
    apply Local.set_of_ne
    rintro rfl
    exact h ha

theorem Local.exec_ok {loads stores : β × Nat → Prop} {p : Prog κ β ε α}
    (hp : Local loads stores (fun _ => False) p) (l : Rdma.Local β)
    : ∃ a, (p.exec l).1 = .ok a := by
  induction hp generalizing l with
  | ret a => exact ⟨a, rfl⟩
  | throw _ h => exact h.elim
  | load a next _ _ ih => exact ih _ _
  | store a v next _ _ ih => exact ih _

/-- If a loop throws, then one of its iterations does, after others that left buffer `c` alone. -/
theorem exec_forEach_error {xs : List γ} {body : γ → Prog κ β ε Unit} {c : β} {e : ε}
    (hframe : ∀ x ∈ xs, ∀ l i, ((body x).exec l).2 c i = l c i)
    (h : ((forEach xs body).exec l).1 = .error e)
    : ∃ x ∈ xs, ∃ l', (∀ i, l' c i = l c i) ∧ ((body x).exec l').1 = .error e := by
  induction xs generalizing l with
  | nil => simp at h
  | cons x xs ih =>
    have hx := hframe x List.mem_cons_self l
    rw [forEach_cons, exec_bind] at h
    cases hbody : (body x).exec l with
    | mk o l' =>
      rw [hbody] at h hx
      cases o with
      | error e' =>
        refine ⟨x, List.mem_cons_self, l, fun _ => rfl, ?_⟩
        rw [hbody]
        exact h
      | ok _ =>
        obtain ⟨y, hy, l'', hl'', herror⟩ :=
          ih l' (fun z hz => hframe z (List.mem_cons_of_mem x hz)) h
        exact ⟨y, List.mem_cons_of_mem x hy, l'', fun i => (hl'' i).trans (hx i), herror⟩

theorem Local.exec_seq {loads stores : β × Nat → Prop} {p : Prog κ β ε Unit}
    (hp : Local loads stores (fun _ => False) p) (q : Prog κ β ε α) (l : Rdma.Local β)
    : (p >>= fun _ => q).exec l = q.exec (p.exec l).2 := by
  obtain ⟨a, ha⟩ := hp.exec_ok l
  rw [exec_bind]
  generalize p.exec l = r at ha
  rcases r with ⟨o, l'⟩
  simp only at ha
  rw [ha]

end Exec

end Prog

end Rdma
