import Mathlib.Tactic

/-!
# Calls that return, fail or panic

`Outcome` is the result of a call: a value, an error handed to the caller, or a panic.
`Act` is a call that also works on a mutable store. The store survives an error, so what a
failed call leaves behind can be stated. `Act.wp` is the weakest precondition of a call that
must not panic.
-/
namespace UfsFuse

inductive Outcome (ε α : Type) where
  | ok (a : α)
  | err (e : ε)
  | panic
  deriving DecidableEq, Repr

namespace Outcome
variable {ε α β : Type}

def bind (x : Outcome ε α) (f : α → Outcome ε β) : Outcome ε β :=
  match x with
  | ok a => f a
  | err e => err e
  | panic => panic

instance : Monad (Outcome ε) where
  pure := ok
  bind := bind

/-- A slice index or an assertion: panic unless the condition holds. -/
def guard (p : Prop) [Decidable p] : Outcome ε Unit := if p then ok () else panic

@[simp] theorem pure_def (a : α) : (pure a : Outcome ε α) = ok a := rfl
@[simp] theorem ok_bind (a : α) (f : α → Outcome ε β) : (ok a >>= f) = f a := rfl
@[simp] theorem err_bind (e : ε) (f : α → Outcome ε β) : (err e >>= f) = err e := rfl
@[simp] theorem panic_bind (f : α → Outcome ε β) : ((panic : Outcome ε α) >>= f) = panic := rfl

theorem bind_eq_ok {x : Outcome ε α} {f : α → Outcome ε β} {b : β} :
    (x >>= f) = ok b ↔ ∃ a, x = ok a ∧ f a = ok b := by
  cases x <;> simp

theorem guard_true {p : Prop} [Decidable p] (h : p) : (guard p : Outcome ε Unit) = ok () :=
  if_pos h

@[simp] theorem guard_eq_ok {p : Prop} [Decidable p] :
    (guard p : Outcome ε Unit) = ok () ↔ p := by
  unfold guard
  split_ifs with h <;> simp [h]

/-- `if let Ok(a) = x`: an error is dropped, a panic is not. -/
def attempt : Outcome ε α → Outcome ε (Option α)
  | ok a => ok (some a)
  | err _ => ok none
  | panic => panic

/-- Indexing or unwrapping: panic on `none`. -/
def unwrap : Option α → Outcome ε α
  | some a => ok a
  | none => panic

@[simp] theorem attempt_ok (a : α) : attempt (ok a : Outcome ε α) = ok (some a) := rfl
@[simp] theorem attempt_err (e : ε) : attempt (err e : Outcome ε α) = ok none := rfl
@[simp] theorem unwrap_some (a : α) : (unwrap (some a) : Outcome ε α) = ok a := rfl

/-- `for` over a list with a mutable accumulator. -/
def foldM (f : β → α → Outcome ε β) : β → List α → Outcome ε β
  | b, [] => ok b
  | b, a :: as => do
      let b ← f b a
      foldM f b as

/-- A total loop body makes the loop a plain fold, as long as an invariant keeps it total. -/
theorem foldM_ok {f : β → α → Outcome ε β} {g : β → α → β} (inv : β → Prop) (as : List α)
    (step : ∀ b, inv b → ∀ a ∈ as, f b a = ok (g b a) ∧ inv (g b a)) {b : β} (hb : inv b) :
    foldM f b as = ok (as.foldl g b) ∧ inv (as.foldl g b) := by
  induction as generalizing b with
  | nil => exact ⟨rfl, hb⟩
  | cons a as ih =>
    obtain ⟨he, hi⟩ := step b hb a (by simp)
    have hr := ih (fun c hc x hx => step c hc x (by simp [hx])) hi
    simpa [foldM, he] using hr

theorem foldM_append (f : β → α → Outcome ε β) (xs ys : List α) : ∀ b : β,
    foldM f b (xs ++ ys) = foldM f b xs >>= fun c => foldM f c ys := by
  induction xs with
  | nil => exact fun _ => rfl
  | cons x xs ih =>
    intro b
    simp only [List.cons_append, foldM]
    cases f b x with
    | ok c => exact ih c
    | err e => rfl
    | panic => rfl

/-- Rounds that do nothing. -/
theorem foldM_skip {f : β → α → Outcome ε β} {xs : List α} (h : ∀ x ∈ xs, ∀ b, f b x = ok b) :
    ∀ b : β, foldM f b xs = ok b := by
  induction xs with
  | nil => exact fun _ => rfl
  | cons x xs ih =>
    intro b
    rw [foldM, h x (by simp) b]
    exact ih (fun y hy => h y (by simp [hy])) b

/-- Short-circuiting `all` whose test may panic. -/
def allM (p : α → Outcome ε Bool) : List α → Outcome ε Bool
  | [] => ok true
  | a :: as => do if ← p a then allM p as else ok false

theorem allM_ok {p : α → Outcome ε Bool} {q : α → Bool} {as : List α}
    (h : ∀ a ∈ as, p a = ok (q a)) : allM p as = ok (as.all q) := by
  induction as with
  | nil => rfl
  | cons a as ih =>
    have hr := ih fun x hx => h x (by simp [hx])
    cases hq : q a <;> simp [allM, h a, hq, hr]

end Outcome

/-- A call on a mutable store of type `σ`. -/
def Act (ε σ α : Type) : Type := σ → Outcome ε α × σ

namespace Act
variable {ε σ α β : Type}

def bind (x : Act ε σ α) (f : α → Act ε σ β) : Act ε σ β := fun s =>
  match x s with
  | (.ok a, t) => f a t
  | (.err e, t) => (.err e, t)
  | (.panic, t) => (.panic, t)

instance : Monad (Act ε σ) where
  pure a := fun s => (.ok a, s)
  bind := bind

/-- A call that only looks at the store. -/
def read (f : σ → Outcome ε α) : Act ε σ α := fun s => (f s, s)

def lift (o : Outcome ε α) : Act ε σ α := read fun _ => o

def fail (e : ε) : Act ε σ α := lift (.err e)

/-- Overwrite the store, or panic and leave it alone. -/
def update (f : σ → Outcome ε σ) : Act ε σ Unit := fun s =>
  match f s with
  | .ok t => (.ok (), t)
  | .err e => (.err e, s)
  | .panic => (.panic, s)

/-- `for` over a list, stopping at the first error. -/
def each (f : α → Act ε σ Unit) : List α → Act ε σ Unit
  | [] => pure ()
  | a :: as => do
      f a
      each f as

/-- `for` over a list that pushes one result for each element. -/
def collect (f : α → Act ε σ β) : List α → Act ε σ (List β)
  | [] => pure []
  | a :: as => do
      let b ← f a
      let bs ← collect f as
      pure (b :: bs)

/-- `for` over a list that returns out of the loop at the first result. -/
def firstSome (f : α → Act ε σ (Option β)) : List α → Act ε σ (Option β)
  | [] => pure none
  | a :: as => do
      match ← f a with
      | some b => pure (some b)
      | none => firstSome f as

/-- From `s` the call does not panic, returns values in `Q` and errors in `E`. -/
def wp (x : Act ε σ α) (s : σ) (Q : α → σ → Prop) (E : ε → σ → Prop) : Prop :=
  match x s with
  | (.ok a, t) => Q a t
  | (.err e, t) => E e t
  | (.panic, _) => False

section Rules
variable {s : σ} {Q : β → σ → Prop} {E : ε → σ → Prop}

@[simp] theorem wp_pure {Q : α → σ → Prop} (a : α) :
    (pure a : Act ε σ α).wp s Q E ↔ Q a s := Iff.rfl

@[simp] theorem wp_bind (x : Act ε σ α) (f : α → Act ε σ β) :
    (x >>= f).wp s Q E ↔ x.wp s (fun a t => (f a).wp t Q E) E := by
  change (match (match x s with
    | (.ok a, t) => f a t
    | (.err e, t) => (.err e, t)
    | (.panic, t) => (.panic, t)) with
    | (.ok a, t) => Q a t
    | (.err e, t) => E e t
    | (.panic, _) => False) ↔ _
  rcases h : x s with ⟨_ | _ | _, t⟩ <;> simp [wp, h]

@[simp] theorem wp_fail {Q : α → σ → Prop} (e : ε) :
    (fail e : Act ε σ α).wp s Q E ↔ E e s := Iff.rfl

theorem wp_read {Q : α → σ → Prop} {f : σ → Outcome ε α} {a : α} (h : f s = .ok a) :
    (read f).wp s Q E ↔ Q a s := by
  simp [wp, read, h]

theorem wp_lift {Q : α → σ → Prop} {o : Outcome ε α} {a : α} (h : o = .ok a) :
    (lift o : Act ε σ α).wp s Q E ↔ Q a s := wp_read h

theorem wp_update {Q : Unit → σ → Prop} {f : σ → Outcome ε σ} {t : σ} (h : f s = .ok t) :
    (update f).wp s Q E ↔ Q () t := by
  simp [wp, update, h]

theorem wp_ite {p : Prop} [Decidable p] {x y : Act ε σ β} :
    (if p then x else y).wp s Q E ↔ (p → x.wp s Q E) ∧ (¬p → y.wp s Q E) := by
  split_ifs with h <;> simp [h]

/-- Consequence: weaken what is known about values and errors. -/
theorem wp.mono {x : Act ε σ α} {Q Q' : α → σ → Prop} {E E' : ε → σ → Prop}
    (h : x.wp s Q E) (hQ : ∀ a t, Q a t → Q' a t) (hE : ∀ e t, E e t → E' e t) :
    x.wp s Q' E' := by
  unfold wp at h ⊢
  split at h
  · exact hQ _ _ h
  · exact hE _ _ h
  · exact h

theorem wp.and {x : Act ε σ α} {Q Q' : α → σ → Prop} {E E' : ε → σ → Prop}
    (h : x.wp s Q E) (h' : x.wp s Q' E') :
    x.wp s (fun a t => Q a t ∧ Q' a t) (fun e t => E e t ∧ E' e t) := by
  unfold wp at h h' ⊢
  split at h <;> simp_all

theorem wp.ok {x : Act ε σ α} {Q : α → σ → Prop} {a : α} {t : σ}
    (h : x.wp s Q E) (hx : x s = (.ok a, t)) : Q a t := by
  simpa [wp, hx] using h

theorem wp.err {x : Act ε σ α} {Q : α → σ → Prop} {e : ε} {t : σ}
    (h : x.wp s Q E) (hx : x s = (.err e, t)) : E e t := by
  simpa [wp, hx] using h

theorem wp.no_panic {x : Act ε σ α} {Q : α → σ → Prop} {t : σ}
    (h : x.wp s Q E) : x s ≠ (.panic, t) := by
  intro hx
  simp [wp, hx] at h

theorem wp.ok_or_err {x : Act ε σ α} {Q : α → σ → Prop} (h : x.wp s Q E) :
    (∃ a t, x s = (.ok a, t) ∧ Q a t) ∨ ∃ e t, x s = (.err e, t) ∧ E e t := by
  rcases hx : x s with ⟨a | e | _, t⟩
  · exact .inl ⟨a, t, rfl, h.ok hx⟩
  · exact .inr ⟨e, t, rfl, h.err hx⟩
  · exact (h.no_panic hx).elim

/-- Every call satisfies its own behaviour, so two specifications can be compared through it. -/
theorem wp_self_ok {x : Act ε σ α} {a : α} {t : σ} (hx : x s = (.ok a, t)) :
    x.wp s (fun b u => b = a ∧ u = t) fun _ _ => False := by
  simp [wp, hx]

theorem bind_eq_ok {x : Act ε σ α} {f : α → Act ε σ β} {b : β} {t : σ} :
    (x >>= f) s = (.ok b, t) ↔ ∃ a u, x s = (.ok a, u) ∧ f a u = (.ok b, t) := by
  change Act.bind x f s = _ ↔ _
  unfold Act.bind
  rcases x s with ⟨_ | _ | _, u⟩ <;> simp

/-- After a first part that succeeds the rest runs. -/
theorem bind_of_ok {x : Act ε σ α} {f : α → Act ε σ β} {a : α} {t : σ} (h : x s = (.ok a, t)) :
    (x >>= f) s = f a t := by
  change Act.bind x f s = _
  rw [Act.bind, h]

theorem read_eq_ok {f : σ → Outcome ε α} {a : α} {t : σ} :
    read f s = (.ok a, t) ↔ f s = .ok a ∧ s = t := Prod.mk_inj

theorem lift_eq_ok {o : Outcome ε α} {a : α} {t : σ} :
    lift o s = (.ok a, t) ↔ o = .ok a ∧ s = t := Prod.mk_inj

theorem update_eq_ok {f : σ → Outcome ε σ} {u : Unit} {t : σ} :
    update f s = (.ok u, t) ↔ f s = .ok t := by
  unfold update
  cases f s <;> simp

theorem read_ok_bind {f : σ → Outcome ε α} {g : α → Act ε σ β} {a : α} (h : f s = .ok a) :
    (read f >>= g) s = g a s := by
  change (match (f s, s) with
    | (.ok a, t) => g a t
    | (.err e, t) => (.err e, t)
    | (.panic, t) => (.panic, t)) = _
  rw [h]

theorem lift_ok_bind {a : α} {f : α → Act ε σ β} : (lift (.ok a) >>= f) = f a := rfl

theorem fail_ne_ok {e : ε} {a : α} {t : σ} : fail e s ≠ (.ok a, t) := by
  intro h
  cases congrArg Prod.fst h

/-- Loop rule: the invariant speaks about the elements still to come. -/
theorem wp_each {f : α → Act ε σ Unit} (inv : List α → σ → Prop)
    (step : ∀ a as t, inv (a :: as) t → (f a).wp t (fun _ u => inv as u) E)
    {as : List α} (h : inv as s) : (each f as).wp s (fun _ t => inv [] t) E := by
  induction as generalizing s with
  | nil => exact h
  | cons a as ih =>
    simp only [each, wp_bind]
    exact (step a as s h).mono (fun _ _ hu => ih hu) fun _ _ he => he

/-- Loop rule for `collect`: the invariant relates the results so far, the elements still to
come and the store. -/
theorem wp_collect {f : α → Act ε σ β} (inv : List β → List α → σ → Prop)
    (step : ∀ bs a as t, inv bs (a :: as) t →
      (f a).wp t (fun b u => inv (bs ++ [b]) as u) E)
    {bs : List β} {as : List α} (h : inv bs as s) :
    (collect f as).wp s (fun cs t => inv (bs ++ cs) [] t) E := by
  induction as generalizing s bs with
  | nil => simpa [collect] using h
  | cons a as ih =>
    simp only [collect, wp_bind]
    refine (step bs a as s h).mono (fun b u hu => ?_) fun _ _ he => he
    refine (ih hu).mono (fun cs t ht => ?_) fun _ _ he => he
    simpa using ht

/-- Loop rule for `firstSome`: a round either returns or keeps the invariant. -/
theorem wp_firstSome {f : α → Act ε σ (Option β)} {Q : Option β → σ → Prop}
    (inv : List α → σ → Prop)
    (step : ∀ a as t, inv (a :: as) t →
      (f a).wp t (fun r u => match r with | some b => Q (some b) u | none => inv as u) E)
    (done : ∀ t, inv [] t → Q none t)
    {as : List α} (h : inv as s) : (firstSome f as).wp s Q E := by
  induction as generalizing s with
  | nil => exact done s h
  | cons a as ih =>
    simp only [firstSome, wp_bind]
    refine (step a as s h).mono (fun r u hu => ?_) fun _ _ he => he
    cases r with
    | none => exact ih hu
    | some b => exact hu

end Rules
end Act
end UfsFuse
