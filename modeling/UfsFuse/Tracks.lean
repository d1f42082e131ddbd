import UfsFuse.Outcome

/-!
# Two runs side by side

A program on a store of its own, and the same program on a larger store of which the first is a part.
`x` tracks `y` if from related stores it returns what `y` returns and leaves related stores, unless
`y` panics: an index that is out of the part may be inside the whole.
-/
namespace UfsFuse

namespace Outcome
variable {ε α β : Type} {x y : Outcome ε α}

/-- `x` is what `y` is, unless that is a panic. -/
def Tracks (x y : Outcome ε α) : Prop := y = .panic ∨ x = y

theorem Tracks.refl (x : Outcome ε α) : x.Tracks x := .inr rfl

theorem Tracks.of_eq (h : x = y) : x.Tracks y := .inr h

theorem tracks_panic : x.Tracks .panic := .inl rfl

theorem Tracks.eq (h : x.Tracks y) (hy : y ≠ .panic) : x = y := h.resolve_left hy

theorem Tracks.ok {a : α} (h : x.Tracks (.ok a)) : x = .ok a := h.eq nofun

theorem Tracks.bind {f g : α → Outcome ε β} (h : x.Tracks y)
    (hf : ∀ a, y = .ok a → (f a).Tracks (g a)) : (x >>= f).Tracks (y >>= g) := by
  cases h with
  | inl h =>
    rw [h]
    exact tracks_panic
  | inr h =>
    subst h
    cases x with
    | ok a => exact hf a rfl
    | err e => exact .refl _
    | panic => exact tracks_panic

theorem Tracks.ite {p : Prop} [Decidable p] {x' y' : Outcome ε α} (h : p → x.Tracks y)
    (h' : ¬p → x'.Tracks y') : (if p then x else x').Tracks (if p then y else y') := by
  split_ifs with hp
  · exact h hp
  · exact h' hp

theorem Tracks.foldM {f g : β → α → Outcome ε β} {as : List α}
    (h : ∀ b, ∀ a ∈ as, (f b a).Tracks (g b a)) :
    ∀ b, (Outcome.foldM f b as).Tracks (Outcome.foldM g b as) := by
  induction as with
  | nil => exact fun _ => .refl _
  | cons a as ih =>
    intro b
    exact (h b a (List.mem_cons_self ..)).bind fun b' _ =>
      ih (fun c d hd => h c d (List.mem_cons_of_mem _ hd)) b'

end Outcome

namespace Act
variable {ε σ τ α β : Type} {R : σ → τ → Prop}

/-- From `s` the call does what `y` does from `t`, unless that panics. -/
def TracksAt (R : σ → τ → Prop) (x : Act ε σ α) (y : Act ε τ α) (s : σ) (t : τ) : Prop :=
  (y t).1 = .panic ∨ (x s).1 = (y t).1 ∧ R (x s).2 (y t).2

/-- From related stores the call does what `y` does, unless that panics. -/
def Tracks (R : σ → τ → Prop) (x : Act ε σ α) (y : Act ε τ α) : Prop :=
  ∀ s t, R s t → x.TracksAt R y s t

section At
variable {x : Act ε σ α} {y : Act ε τ α} {s : σ} {t : τ}

theorem TracksAt.no_panic (h : x.TracksAt R y s t) (hy : (y t).1 ≠ .panic) :
    (x s).1 = (y t).1 ∧ R (x s).2 (y t).2 := h.resolve_left hy

/-- A second run that succeeds is matched. -/
theorem TracksAt.ok {a : α} {t' : τ} (h : x.TracksAt R y s t) (hy : y t = (.ok a, t')) :
    ∃ s', x s = (.ok a, s') ∧ R s' t' := by
  obtain ⟨hx, hR⟩ := h.no_panic (by rw [hy]; exact nofun)
  rw [hy] at hx hR
  exact ⟨_, Prod.ext hx rfl, hR⟩

/-- What is known of the second run may be used in the rest. -/
theorem TracksAt.bind {f : α → Act ε σ β} {g : α → Act ε τ β} (h : x.TracksAt R y s t)
    (hf : ∀ a s' t', R s' t' → y t = (.ok a, t') → (f a).TracksAt R (g a) s' t') :
    (x >>= f).TracksAt R (y >>= g) s t := by
  change (Act.bind y g t).1 = _ ∨ (Act.bind x f s).1 = (Act.bind y g t).1 ∧ _
  change _ ∨ _ ∧ R (Act.bind x f s).2 (Act.bind y g t).2
  unfold TracksAt at h
  unfold Act.bind
  rcases hy : y t with ⟨a | e | _, t'⟩
  · obtain ⟨h₁, h₂⟩ := (hy ▸ h).resolve_left nofun
    rcases hx : x s with ⟨r, s'⟩
    rw [hx] at h₁ h₂
    cases h₁
    exact hf a s' t' h₂ hy
  · obtain ⟨h₁, h₂⟩ := (hy ▸ h).resolve_left nofun
    rcases hx : x s with ⟨r, s'⟩
    rw [hx] at h₁ h₂
    cases h₁
    exact .inr ⟨rfl, h₂⟩
  · exact .inl rfl

/-- What a condition on the second run gives may be used in the rest. -/
theorem TracksAt.bind_wp {f : α → Act ε σ β} {g : α → Act ε τ β} {Q : α → τ → Prop} {E : ε → τ → Prop}
    (h : x.TracksAt R y s t) (hw : y.wp t Q E)
    (hf : ∀ a s' t', R s' t' → Q a t' → (f a).TracksAt R (g a) s' t') :
    (x >>= f).TracksAt R (y >>= g) s t :=
  h.bind fun a s' t' hR hrun => hf a s' t' hR (hw.ok hrun)

theorem TracksAt.discard (h : x.TracksAt R y s t) :
    (Functor.discard x : Act ε σ Unit).TracksAt R (Functor.discard y) s t :=
  h.bind fun _ _ _ hR _ => .inr ⟨rfl, hR⟩

theorem TracksAt.ite {p : Prop} [Decidable p] {x' : Act ε σ α} {y' : Act ε τ α}
    (h : p → x.TracksAt R y s t) (h' : ¬p → x'.TracksAt R y' s t) :
    (if p then x else x').TracksAt R (if p then y else y') s t := by
  split_ifs with hp
  · exact h hp
  · exact h' hp

theorem tracksAt_pure (a : α) (h : R s t) :
    (pure a : Act ε σ α).TracksAt R (pure a) s t := .inr ⟨rfl, h⟩

theorem tracksAt_fail (e : ε) (h : R s t) :
    (fail e : Act ε σ α).TracksAt R (fail e) s t := .inr ⟨rfl, h⟩

theorem tracksAt_read {f : σ → Outcome ε α} {g : τ → Outcome ε α} (hf : (f s).Tracks (g t))
    (h : R s t) : (read f).TracksAt R (read g) s t := hf.imp id fun he => ⟨he, h⟩

/-- Two first parts that return the same and change nothing. -/
theorem tracksAt_ok_bind {a : α} {k : α → Act ε σ β} {k' : α → Act ε τ β} (hx : x s = (.ok a, s))
    (hy : y t = (.ok a, t)) (hk : (k a).TracksAt R (k' a) s t) :
    (x >>= k).TracksAt R (y >>= k') s t := by
  unfold TracksAt
  rwa [bind_of_ok hx, bind_of_ok hy]

/-- A read and what follows it. -/
theorem tracksAt_read_bind {f : σ → Outcome ε α} {g : τ → Outcome ε α} {k : α → Act ε σ β}
    {k' : α → Act ε τ β} (hf : (f s).Tracks (g t)) (h : R s t)
    (hk : ∀ a, g t = .ok a → (k a).TracksAt R (k' a) s t) :
    (read f >>= k).TracksAt R (read g >>= k') s t := by
  cases hf with
  | inl hp =>
    refine .inl ?_
    change (Act.bind (read g) k' t).1 = .panic
    rw [Act.bind, read, hp]
  | inr he =>
    cases hg : g t with
    | ok a =>
      have hk := hk a hg
      unfold TracksAt
      rwa [bind_of_ok (x := read g) (a := a) (t := t) (by rw [read, hg]),
        bind_of_ok (x := read f) (a := a) (t := s) (by rw [read, he, hg])]
    | err e =>
      refine .inr ?_
      change (Act.bind (read f) k s).1 = (Act.bind (read g) k' t).1 ∧
        R (Act.bind (read f) k s).2 (Act.bind (read g) k' t).2
      rw [Act.bind, Act.bind, read, read, he, hg]
      exact ⟨rfl, h⟩
    | panic =>
      refine .inl ?_
      change (Act.bind (read g) k' t).1 = .panic
      rw [Act.bind, read, hg]

/-- A write that returns no error. -/
theorem tracksAt_update {f : σ → Outcome ε σ} {g : τ → Outcome ε τ} (he : ∀ e, g t ≠ .err e)
    (h : ∀ t', g t = .ok t' → ∃ s', f s = .ok s' ∧ R s' t') :
    (update f).TracksAt R (update g) s t := by
  unfold TracksAt update
  cases hg : g t with
  | ok t' =>
    obtain ⟨s', hf, hR⟩ := h t' hg
    rw [hf]
    exact .inr ⟨rfl, hR⟩
  | err e => exact absurd hg (he e)
  | panic => exact .inl rfl

end At

section Everywhere
variable {x : Act ε σ α} {y : Act ε τ α}

theorem tracks_pure (a : α) : (pure a : Act ε σ α).Tracks R (pure a) := fun _ _ => tracksAt_pure a

theorem tracks_fail (e : ε) : (fail e : Act ε σ α).Tracks R (fail e) := fun _ _ => tracksAt_fail e

theorem tracks_lift (o : Outcome ε α) : (lift o : Act ε σ α).Tracks R (lift o) :=
  fun _ _ => tracksAt_read (.refl o)

theorem tracks_read {f : σ → Outcome ε α} {g : τ → Outcome ε α}
    (hf : ∀ s t, R s t → (f s).Tracks (g t)) : (read f).Tracks R (read g) :=
  fun s t h => tracksAt_read (hf s t h) h

theorem Tracks.bind {f : α → Act ε σ β} {g : α → Act ε τ β} (h : x.Tracks R y)
    (hf : ∀ a, (f a).Tracks R (g a)) : (x >>= f).Tracks R (y >>= g) :=
  fun s t hR => (h s t hR).bind fun a s' t' hR' _ => hf a s' t' hR'

theorem Tracks.ite {p : Prop} [Decidable p] {x' : Act ε σ α} {y' : Act ε τ α}
    (h : p → x.Tracks R y) (h' : ¬p → x'.Tracks R y') :
    (if p then x else x').Tracks R (if p then y else y') :=
  fun s t hR => TracksAt.ite (fun hp => h hp s t hR) fun hp => h' hp s t hR

theorem Tracks.each {f : α → Act ε σ Unit} {g : α → Act ε τ Unit} {as : List α}
    (h : ∀ a ∈ as, (f a).Tracks R (g a)) : (Act.each f as).Tracks R (Act.each g as) := by
  induction as with
  | nil => exact tracks_pure ()
  | cons a as ih =>
    exact (h a (List.mem_cons_self ..)).bind fun _ => ih fun b hb => h b (List.mem_cons_of_mem _ hb)

theorem Tracks.collect {f : α → Act ε σ β} {g : α → Act ε τ β} {as : List α}
    (h : ∀ a ∈ as, (f a).Tracks R (g a)) : (Act.collect f as).Tracks R (Act.collect g as) := by
  induction as with
  | nil => exact tracks_pure []
  | cons a as ih =>
    exact (h a (List.mem_cons_self ..)).bind fun b =>
      (ih fun c hc => h c (List.mem_cons_of_mem _ hc)).bind fun bs => tracks_pure (b :: bs)

theorem Tracks.firstSome {f : α → Act ε σ (Option β)} {g : α → Act ε τ (Option β)} {as : List α}
    (h : ∀ a ∈ as, (f a).Tracks R (g a)) : (Act.firstSome f as).Tracks R (Act.firstSome g as) := by
  induction as with
  | nil => exact tracks_pure none
  | cons a as ih =>
    refine (h a (List.mem_cons_self ..)).bind fun r => ?_
    cases r with
    | none => exact ih fun c hc => h c (List.mem_cons_of_mem _ hc)
    | some b => exact tracks_pure (some b)

theorem Tracks.discard {x : Act ε σ α} {y : Act ε τ α} (h : x.Tracks R y) :
    (Functor.discard x : Act ε σ Unit).Tracks R (Functor.discard y) :=
  h.bind fun _ => tracks_pure ()

end Everywhere
end Act

/-! ## Runs -/

/-- Commands one after the other, each with what came out. -/
inductive StepRun {γ ο σ : Type} (step : γ → σ → ο → σ → Prop) : σ → List (γ × ο) → σ → Prop
  | nil (s : σ) : StepRun step s [] s
  | cons {c : γ} {o : ο} {s t u : σ} {cs : List (γ × ο)} (h : step c s o t)
      (rest : StepRun step t cs u) : StepRun step s ((c, o) :: cs) u

namespace StepRun
variable {γ ο σ τ : Type} {step : γ → σ → ο → σ → Prop} {s s' : σ} {cs : List (γ × ο)}

/-- Steps that a second system matches make runs that it matches. -/
theorem simulates {step' : γ → τ → ο → τ → Prop} {R : σ → τ → Prop}
    (hstep : ∀ c s o s' t, step c s o s' → R s t → ∃ t', step' c t o t' ∧ R s' t')
    (h : StepRun step s cs s') : ∀ t, R s t → ∃ t', StepRun step' t cs t' ∧ R s' t' := by
  induction h with
  | nil s => exact fun t hR => ⟨t, .nil t, hR⟩
  | cons hdo _ ih =>
    intro t hR
    obtain ⟨t₁, hdo', hR₁⟩ := hstep _ _ _ _ t hdo hR
    obtain ⟨t₂, hrest, hR₂⟩ := ih t₁ hR₁
    exact ⟨t₂, .cons hdo' hrest, hR₂⟩

/-- An invariant that may name what was done. -/
theorem keeps {I : List (γ × ο) → σ → Prop}
    (hstep : ∀ done c o s t, I done s → step c s o t → I (done ++ [(c, o)]) t)
    (h : StepRun step s cs s') : ∀ done, I done s → I (done ++ cs) s' := by
  induction h with
  | nil s =>
    intro done hI
    rwa [List.append_nil]
  | @cons c o s t u cs hdo _ ih =>
    intro done hI
    have hnext := ih (done ++ [(c, o)]) (hstep done c o s t hI hdo)
    rwa [List.append_assoc] at hnext

end StepRun
end UfsFuse
