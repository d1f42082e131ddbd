import UfsFuse.Outcome

/-!
# Loops that may panic

Rules for `for` loops over lists: rounds that do nothing, loops inside loops, and loops that collect
problems.
-/
namespace UfsFuse.Outcome

variable {ε α β γ : Type}

theorem foldM_congr {f g : β → α → Outcome ε β} : ∀ {xs : List α} {b : β},
    (∀ x ∈ xs, ∀ b, f b x = g b x) → foldM f b xs = foldM g b xs := by
  intro xs
  induction xs with
  | nil => exact fun _ => rfl
  | cons x xs ih =>
    intro b h
    rw [foldM, foldM, h x (List.mem_cons_self ..)]
    cases g b x with
    | ok c => exact ih fun y hy => h y (List.mem_cons_of_mem _ hy)
    | err e => rfl
    | panic => rfl

theorem foldM_map {f : β → γ → Outcome ε β} {g : α → γ} : ∀ {xs : List α} {b : β},
    foldM f b (xs.map g) = foldM (fun b x => f b (g x)) b xs := by
  intro xs
  induction xs with
  | nil => exact rfl
  | cons x xs ih =>
    intro b
    rw [List.map_cons, foldM, foldM]
    cases f b (g x) with
    | ok c => exact ih
    | err e => rfl
    | panic => rfl

/-- Rounds of a loop that do nothing can be left out. -/
theorem foldM_filter {f : β → α → Outcome ε β} {p : α → Bool} : ∀ {xs : List α} {b : β},
    (∀ x ∈ xs, p x = false → ∀ b, f b x = .ok b) →
      foldM f b xs = foldM f b (xs.filter p) := by
  intro xs
  induction xs with
  | nil => exact fun _ => rfl
  | cons x xs ih =>
    intro b h
    have hrest := fun y hy => h y (List.mem_cons_of_mem x hy)
    cases hp : p x with
    | false =>
      rw [foldM, h x (List.mem_cons_self ..) hp, ok_bind, List.filter_cons_of_neg (by
        simp [hp])]
      exact ih hrest
    | true =>
      rw [List.filter_cons_of_pos hp, foldM, foldM]
      cases f b x with
      | ok c => exact ih hrest
      | err e => rfl
      | panic => rfl

/-- A loop over groups with a loop over their members is one loop over numbers. -/
theorem foldM_groups {f : β → γ → ℕ → ℕ → Outcome ε β} {m : ℕ} (hm : 0 < m) (d : γ)
    (xs : List γ) : ∀ b : β,
    foldM (fun b x => foldM (fun b i => f b x.1 x.2 i) b (List.range m)) b xs.zipIdx =
      foldM (fun b n => f b (xs.getD (n / m) d) (n / m) (n % m)) b
        (List.range (xs.length * m)) := by
  induction xs using List.reverseRecOn with
  | nil => simp [foldM]
  | append_singleton xs x ih =>
    intro b
    have hdm : ∀ i < m, (xs.length * m + i) / m = xs.length ∧ (xs.length * m + i) % m = i := by
      intro i hi
      rw [Nat.add_comm, Nat.add_mul_div_right _ _ hm, Nat.div_eq_of_lt hi, Nat.zero_add,
        Nat.add_mul_mod_self_right, Nat.mod_eq_of_lt hi]
      exact ⟨rfl, rfl⟩
    have hinner : ∀ c : β, foldM (fun b i => f b x xs.length i) c (List.range m) =
        foldM (fun b n => f b ((xs ++ [x]).getD (n / m) d) (n / m) (n % m)) c
          ((List.range m).map (xs.length * m + ·)) := by
      intro c
      rw [foldM_map]
      refine foldM_congr fun i hi b => ?_
      obtain ⟨h1, h2⟩ := hdm i (List.mem_range.mp hi)
      rw [h1, h2]
      simp
    rw [List.zipIdx_append, foldM_append, ih, List.length_append, List.length_singleton,
      Nat.succ_mul, List.range_add, foldM_append]
    have hlow : foldM (fun b n => f b (xs.getD (n / m) d) (n / m) (n % m)) b
        (List.range (xs.length * m)) =
        foldM (fun b n => f b ((xs ++ [x]).getD (n / m) d) (n / m) (n % m)) b
          (List.range (xs.length * m)) := by
      refine foldM_congr fun n hn b => ?_
      have hlt : n / m < xs.length := Nat.div_lt_of_lt_mul (by
        rw [Nat.mul_comm]
        exact List.mem_range.mp hn)
      rw [List.getD_eq_getElem?_getD, List.getD_eq_getElem?_getD, List.getElem?_append_left hlt]
    rw [hlow]
    cases foldM (fun b n => f b ((xs ++ [x]).getD (n / m) d) (n / m) (n % m)) b
      (List.range (xs.length * m)) with
    | ok c =>
      rw [ok_bind, ok_bind, ← hinner]
      simp only [List.zipIdx_singleton, Nat.zero_add, foldM]
      cases foldM (fun b i => f b x xs.length i) c (List.range m) with
      | ok c => rfl
      | err e => rfl
      | panic => rfl
    | err e => rfl
    | panic => rfl

/-- A loop that collects problems finds none exactly when no round does. -/
theorem foldM_eq_nil {f : List γ → α → Outcome ε (List γ)} {P : α → Prop}
    (h : ∀ ps x, f ps x = .ok [] ↔ ps = [] ∧ P x) (xs : List α) : ∀ ps,
    foldM f ps xs = .ok [] ↔ ps = [] ∧ ∀ x ∈ xs, P x := by
  induction xs with
  | nil =>
    intro ps
    simp [foldM]
  | cons x xs ih =>
    intro ps
    rw [foldM, bind_eq_ok, List.forall_mem_cons, ← and_assoc, ← h]
    constructor
    · rintro ⟨qs, hq, hrest⟩
      obtain ⟨rfl, hall⟩ := (ih qs).mp hrest
      exact ⟨hq, hall⟩
    · rintro ⟨hq, hall⟩
      exact ⟨[], hq, (ih []).mpr ⟨rfl, hall⟩⟩

end UfsFuse.Outcome
