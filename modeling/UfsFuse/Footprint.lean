import UfsFuse.Outcome
import Mathlib.Order.Defs.Unbundled

/-!
# What a call leaves behind

A call stays within a preorder on its stores if every run ends in a later store, also one that fails or
panics half way. What it returns has a property that the rest of the program may use.
-/
namespace UfsFuse.Act
variable {ε σ α β : Type}

/-- Every run goes to a later store and returns a value with the property. -/
def Within (F : σ → σ → Prop) (P : α → Prop) (x : Act ε σ α) : Prop :=
  ∀ s, F s (x s).2 ∧ ∀ a, (x s).1 = .ok a → P a

section Rules
variable {F : σ → σ → Prop} {P P' : α → Prop} {Q : β → Prop} {x y : Act ε σ α} {as : List β}

theorem Within.post (h : x.Within F P) (hP : ∀ a, P a → P' a) : x.Within F P' :=
  fun s => ⟨(h s).1, fun a ha => hP a ((h s).2 a ha)⟩

/-- A run that succeeds. -/
theorem Within.ok {s t : σ} {a : α} (h : x.Within F P) (hx : x s = (.ok a, t)) : F s t ∧ P a := by
  obtain ⟨hF, hP⟩ := h s
  rw [hx] at hF hP
  exact ⟨hF, hP a rfl⟩

theorem Within.ite {p : Prop} [Decidable p] (hx : p → x.Within F P) (hy : ¬p → y.Within F P) :
    (if p then x else y).Within F P := by
  split_ifs with hp
  · exact hx hp
  · exact hy hp

/-- A write that the preorder allows. -/
theorem within_update {f : σ → Outcome ε σ} [Std.Refl F] (h : ∀ s t, f s = .ok t → F s t) :
    (update f).Within F fun _ => True := by
  intro s
  refine ⟨?_, fun _ _ => trivial⟩
  unfold update
  cases hf : f s with
  | ok t => exact h s t hf
  | err e => exact Std.Refl.refl s
  | panic => exact Std.Refl.refl s

section Reads
variable [Std.Refl F]

theorem within_read {f : σ → Outcome ε α} (h : ∀ s a, f s = .ok a → P a) : (read f).Within F P :=
  fun s => ⟨Std.Refl.refl s, h s⟩

theorem within_lift {o : Outcome ε α} (h : ∀ a, o = .ok a → P a) : (lift o).Within F P :=
  within_read fun _ => h

theorem within_read_any {f : σ → Outcome ε α} : (read f).Within F fun _ => True :=
  within_read fun _ _ _ => trivial

theorem within_lift_any {o : Outcome ε α} : (lift o).Within F fun _ => True := within_read_any

theorem within_pure {a : α} (h : P a) : (pure a : Act ε σ α).Within F P := by
  refine fun s => ⟨Std.Refl.refl s, fun b hb => ?_⟩
  cases hb
  exact h

theorem within_fail {e : ε} : (fail e : Act ε σ α).Within F P :=
  within_lift fun a h => by cases h

end Reads

section Sequences
variable [IsTrans σ F]

/-- One call after the other. -/
theorem Within.bind {f : α → Act ε σ β} (hx : x.Within F P) (hf : ∀ a, P a → (f a).Within F Q) :
    (x >>= f).Within F Q := by
  intro s
  obtain ⟨hF, hP⟩ := hx s
  change F s (Act.bind x f s).2 ∧ ∀ b, (Act.bind x f s).1 = .ok b → Q b
  unfold Act.bind
  cases hs : x s with
  | mk o t =>
    rw [hs] at hF hP
    cases o with
    | ok a =>
      obtain ⟨hF', hQ⟩ := hf a (hP a rfl) t
      exact ⟨IsTrans.trans s t _ hF hF', hQ⟩
    | err e => exact ⟨hF, fun b hb => by cases hb⟩
    | panic => exact ⟨hF, fun b hb => by cases hb⟩

variable [Std.Refl F]

theorem Within.each {f : β → Act ε σ Unit} (h : ∀ b ∈ as, (f b).Within F fun _ => True) :
    (Act.each f as).Within F fun _ => True := by
  induction as with
  | nil => exact within_pure trivial
  | cons b bs ih =>
    rw [List.forall_mem_cons] at h
    exact h.1.bind fun _ _ => ih h.2

theorem Within.collect {f : β → Act ε σ α} (h : ∀ b ∈ as, (f b).Within F P) :
    (Act.collect f as).Within F fun results => ∀ a ∈ results, P a := by
  induction as with
  | nil => exact within_pure (by simp)
  | cons b bs ih =>
    rw [List.forall_mem_cons] at h
    refine h.1.bind fun a ha => (ih h.2).bind fun results hresults => within_pure ?_
    rw [List.forall_mem_cons]
    exact ⟨ha, hresults⟩

theorem Within.firstSome {f : β → Act ε σ (Option α)}
    (h : ∀ b ∈ as, (f b).Within F fun r => ∀ a ∈ r, P a) :
    (Act.firstSome f as).Within F fun r => ∀ a ∈ r, P a := by
  induction as with
  | nil => exact within_pure (by simp)
  | cons b bs ih =>
    rw [List.forall_mem_cons] at h
    refine h.1.bind fun r hr => ?_
    cases r with
    | none => exact ih h.2
    | some a => exact within_pure hr

end Sequences
end Rules
end UfsFuse.Act
