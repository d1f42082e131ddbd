import UfsFuse.Outcome

/-!
# Calls seen through a representation

`x.hoare R d Q E`: on every store that represents `d`, the call `x` does not panic; with a value it
leaves a store that represents some `d'` which satisfies `Q`, with an error a store that
satisfies `E`. The relation `R` hides how the abstract state is stored; an error may leave a store
that represents nothing, so `E` speaks about the store itself.
-/
namespace UfsFuse
namespace Act
variable {ε σ δ α β : Type} {R : σ → δ → Prop}

structure hoare (R : σ → δ → Prop) (x : Act ε σ α) (d : δ) (Q : α → δ → Prop)
    (E : ε → σ → Prop) : Prop where
  run : ∀ s, R s d → x.wp s (fun a t => ∃ d', R t d' ∧ Q a d') E

variable {d : δ} {E : ε → σ → Prop}

theorem hoare_pure {Q : α → δ → Prop} {a : α} (h : Q a d) :
    hoare R (pure a : Act ε σ α) d Q E := ⟨fun _ hs => ⟨d, hs, h⟩⟩

theorem hoare_fail {Q : α → δ → Prop} {e : ε} (h : ∀ s, R s d → E e s) :
    hoare R (fail e : Act ε σ α) d Q E := ⟨fun s hs => h s hs⟩

theorem hoare.bind {x : Act ε σ α} {f : α → Act ε σ β} {Q : β → δ → Prop} {P : α → δ → Prop}
    (hx : x.hoare R d P E) (hf : ∀ a d', P a d' → (f a).hoare R d' Q E) :
    (x >>= f).hoare R d Q E := by
  constructor
  intro s hs
  rw [wp_bind]
  refine (hx.run s hs).mono (fun a t ht => ?_) fun _ _ he => he
  obtain ⟨d', ht', hp⟩ := ht
  exact (hf a d' hp).run t ht'

theorem hoare.mono {x : Act ε σ α} {Q Q' : α → δ → Prop} {E' : ε → σ → Prop}
    (h : x.hoare R d Q E) (hQ : ∀ a d', Q a d' → Q' a d') (hE : ∀ e t, E e t → E' e t) :
    x.hoare R d Q' E' := by
  constructor
  intro s hs
  refine (h.run s hs).mono (fun a t ht => ?_) hE
  obtain ⟨d', ht', hq⟩ := ht
  exact ⟨d', ht', hQ a d' hq⟩

theorem hoare.post {x : Act ε σ α} {Q Q' : α → δ → Prop} (h : x.hoare R d Q E)
    (hQ : ∀ a d', Q a d' → Q' a d') : x.hoare R d Q' E := h.mono hQ fun _ _ he => he

theorem hoare_read {f : σ → Outcome ε α} {Q : α → δ → Prop}
    (h : ∀ s, R s d → ∃ a, f s = .ok a ∧ Q a d) : (read f).hoare R d Q E := by
  constructor
  intro s hs
  obtain ⟨a, ha, hq⟩ := h s hs
  exact (wp_read ha).mpr ⟨d, hs, hq⟩

theorem hoare_lift {o : Outcome ε α} {a : α} {Q : α → δ → Prop} (ho : o = .ok a) (h : Q a d) :
    (lift o : Act ε σ α).hoare R d Q E := hoare_read fun _ _ => ⟨a, ho, h⟩

theorem hoare_lift_bind {o : Outcome ε α} {a : α} {f : α → Act ε σ β} {Q : β → δ → Prop}
    (ho : o = .ok a) (h : (f a).hoare R d Q E) : (lift o >>= f).hoare R d Q E := by
  subst ho
  constructor
  intro s hs
  rw [wp_bind]
  exact h.run s hs

/-- A read whose value the abstract state determines. -/
theorem hoare_read_bind {f : σ → Outcome ε α} {a : α} {k : α → Act ε σ β} {Q : β → δ → Prop}
    (h : ∀ s, R s d → f s = .ok a) (hk : (k a).hoare R d Q E) : (read f >>= k).hoare R d Q E :=
  (hoare_read (Q := fun b d' => b = a ∧ d' = d) fun s hs => ⟨a, h s hs, rfl, rfl⟩).bind
    fun _ _ ⟨hb, hd⟩ => hb ▸ hd ▸ hk

/-- A step whose effect on the abstract state is known. -/
theorem hoare.step {x : Act ε σ α} {f : α → Act ε σ β} {Q : β → δ → Prop} {P : α → Prop} {d₀ : δ}
    (hx : x.hoare R d (fun a d' => d' = d₀ ∧ P a) E) (hf : ∀ a, P a → (f a).hoare R d₀ Q E) :
    (x >>= f).hoare R d Q E :=
  hx.bind fun a _ ⟨hd, ha⟩ => hd ▸ hf a ha

theorem hoare.seq {x : Act ε σ Unit} {f : Unit → Act ε σ β} {Q : β → δ → Prop} {d₀ : δ}
    (hx : x.hoare R d (fun _ d' => d' = d₀) E) (hf : (f ()).hoare R d₀ Q E) :
    (x >>= f).hoare R d Q E :=
  hx.bind fun _ _ hd => hd ▸ hf

theorem hoare_lift_err {o : Outcome ε α} {e : ε} {Q : α → δ → Prop} (ho : o = .err e)
    (h : ∀ s, R s d → E e s) : (lift o : Act ε σ α).hoare R d Q E := by
  subst ho
  exact hoare_fail h

theorem hoare_update {f : σ → Outcome ε σ} {Q : Unit → δ → Prop} {d' : δ}
    (h : ∀ s, R s d → ∃ t, f s = .ok t ∧ R t d') (hq : Q () d') :
    (update f).hoare R d Q E := by
  constructor
  intro s hs
  obtain ⟨t, ht, hr⟩ := h s hs
  exact (wp_update ht).mpr ⟨d', hr, hq⟩

theorem hoare_ite {p : Prop} [Decidable p] {x y : Act ε σ α} {Q : α → δ → Prop}
    (hx : p → x.hoare R d Q E) (hy : ¬p → y.hoare R d Q E) :
    (if p then x else y).hoare R d Q E := by
  split_ifs with hp
  · exact hx hp
  · exact hy hp

theorem bind_pure_unit (x : Act ε σ Unit) : (x >>= fun _ => pure ()) = x := by
  funext s
  change Act.bind x _ s = x s
  unfold Act.bind
  cases h : x s with
  | mk o t =>
    cases o with
    | ok a => rfl
    | err e => rfl
    | panic => rfl

/-- A call whose value is dropped. -/
theorem hoare_discard_bind {x : Act ε σ α} {k : Unit → Act ε σ β} {Q : β → δ → Prop}
    {P : α → δ → Prop} (hx : x.hoare R d P E) (hk : ∀ a d', P a d' → (k ()).hoare R d' Q E) :
    (discard x >>= k).hoare R d Q E := by
  have hd : (discard x : Act ε σ Unit) = x >>= fun _ => pure () := rfl
  rw [hd]
  exact (hx.bind (Q := fun _ d' => ∃ a, P a d') fun a _ ha => hoare_pure ⟨a, ha⟩).bind
    fun _ d' ⟨a, ha⟩ => hk a d' ha

/-- Loop rule; the invariant speaks about the elements still to come. -/
theorem hoare_each {f : α → Act ε σ Unit} (inv : List α → δ → Prop)
    (step : ∀ a as d', inv (a :: as) d' → (f a).hoare R d' (fun _ d'' => inv as d'') E)
    {as : List α} (h : inv as d) : (each f as).hoare R d (fun _ d' => inv [] d') E := by
  induction as generalizing d with
  | nil => exact hoare_pure h
  | cons a as ih => exact (step a as d h).bind fun _ d' hd' => ih hd'

theorem hoare_collect_from {f : α → Act ε σ β} (inv : List β → List α → δ → Prop)
    (step : ∀ bs a as d', inv bs (a :: as) d' →
      (f a).hoare R d' (fun b d'' => inv (bs ++ [b]) as d'') E)
    {bs : List β} {as : List α} (h : inv bs as d) :
    (collect f as).hoare R d (fun cs d' => inv (bs ++ cs) [] d') E := by
  induction as generalizing d bs with
  | nil => exact hoare_pure (by simpa using h)
  | cons a as ih =>
    refine (step bs a as d h).bind fun b d' hd' => (ih hd').bind fun cs d'' hd'' => ?_
    exact hoare_pure (by simpa using hd'')

/-- Loop rule for `collect`: the results so far, the elements still to come, the state. -/
theorem hoare_collect {f : α → Act ε σ β} (inv : List β → List α → δ → Prop)
    (step : ∀ bs a as d', inv bs (a :: as) d' →
      (f a).hoare R d' (fun b d'' => inv (bs ++ [b]) as d'') E)
    {as : List α} (h : inv [] as d) : (collect f as).hoare R d (fun cs d' => inv cs [] d') E :=
  hoare_collect_from inv step h

/-- Loop rule for `firstSome`: a round returns, or it keeps the invariant. -/
theorem hoare_firstSome {f : α → Act ε σ (Option β)} {Q : Option β → δ → Prop}
    (inv : List α → δ → Prop)
    (step : ∀ a as d', inv (a :: as) d' →
      (f a).hoare R d' (fun r d'' => match r with | some b => Q (some b) d'' | none => inv as d'') E)
    (done : ∀ d', inv [] d' → Q none d')
    {as : List α} (h : inv as d) : (firstSome f as).hoare R d Q E := by
  induction as generalizing d with
  | nil => exact hoare_pure (done d h)
  | cons a as ih =>
    refine (step a as d h).bind fun r d' hd' => ?_
    cases r with
    | none => exact ih hd'
    | some b => exact hoare_pure hd'

/-- What a successful run from a store that represents `d` leaves behind. -/
theorem hoare.ok {x : Act ε σ α} {Q : α → δ → Prop} {s t : σ} {a : α}
    (h : x.hoare R d Q E) (hs : R s d) (hx : x s = (.ok a, t)) : ∃ d', R t d' ∧ Q a d' :=
  (h.run s hs).ok hx

theorem hoare.err {x : Act ε σ α} {Q : α → δ → Prop} {s t : σ} {e : ε}
    (h : x.hoare R d Q E) (hs : R s d) (hx : x s = (.err e, t)) : E e t :=
  (h.run s hs).err hx

theorem hoare.no_panic {x : Act ε σ α} {Q : α → δ → Prop} {s t : σ}
    (h : x.hoare R d Q E) (hs : R s d) : x s ≠ (.panic, t) :=
  (h.run s hs).no_panic

/-! ## Invariants -/

/-- Whatever comes of the call, the store has `P` afterwards if it had `P` before. -/
def Keeps (P : σ → Prop) (x : Act ε σ α) : Prop := ∀ s, P s → P (x s).2

section Keeps
variable {P : σ → Prop}

theorem keeps_pure (a : α) : (pure a : Act ε σ α).Keeps P := fun _ h => h

theorem keeps_read (f : σ → Outcome ε α) : (read f).Keeps P := fun _ h => h

theorem keeps_fail (e : ε) : (fail e : Act ε σ α).Keeps P := fun _ h => h

/-- A call that leaves `P`, followed by calls that keep it. -/
theorem bind_keeps {x : Act ε σ α} {f : α → Act ε σ β} {s : σ} (h : P (x s).2)
    (hf : ∀ a, (f a).Keeps P) : P ((x >>= f) s).2 := by
  change P (Act.bind x f s).2
  unfold Act.bind
  rcases hxs : x s with ⟨a | e | _, t⟩
  · rw [hxs] at h
    exact hf a t h
  · rw [hxs] at h
    exact h
  · rw [hxs] at h
    exact h

theorem Keeps.bind {x : Act ε σ α} {f : α → Act ε σ β} (hx : x.Keeps P) (hf : ∀ a, (f a).Keeps P) :
    (x >>= f).Keeps P := fun s hs => bind_keeps (hx s hs) hf

/-- What was read is known in the rest of the call. -/
theorem keeps_read_bind {f : σ → Outcome ε α} {k : α → Act ε σ β}
    (h : ∀ s a, P s → f s = .ok a → P (k a s).2) : (read f >>= k).Keeps P := by
  intro s hs
  change P (Act.bind (read f) k s).2
  unfold Act.bind
  rcases hfs : read f s with ⟨a | e | _, t⟩
  · have hst : f s = .ok a ∧ s = t := Prod.mk.inj hfs
    rw [← hst.2]
    exact h s a hs hst.1
  · have hst : f s = .err e ∧ s = t := Prod.mk.inj hfs
    rw [← hst.2]
    exact hs
  · have hst : f s = .panic ∧ s = t := Prod.mk.inj hfs
    rw [← hst.2]
    exact hs

theorem keeps_ite {p : Prop} [Decidable p] {x y : Act ε σ α} (hx : p → x.Keeps P)
    (hy : ¬p → y.Keeps P) : (if p then x else y).Keeps P := by
  split_ifs with hp
  · exact hx hp
  · exact hy hp

/-- A change of the store that keeps `P`. -/
theorem keeps_update {f : σ → Outcome ε σ} (h : ∀ s t, P s → f s = .ok t → P t) :
    (update f).Keeps P := by
  intro s hs
  unfold update
  cases hf : f s with
  | ok t => exact h s t hs hf
  | err e => exact hs
  | panic => exact hs

end Keeps

end Act
end UfsFuse
