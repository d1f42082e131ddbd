import UfsFuse.DirBlock

/-!
# Trees of names

What the directories of a volume amount to: inodes, some of them directories, each directory with
its entries and the directory above it. `Sound` says that the directories form one tree below the
root, that names are distinct and that every inode in use has a name. Entering, leaving and moving
keep it, and change the numbers of links as the program counts them.
-/
namespace UfsFuse

structure NameTree where
  live : Finset ℕ
  dirs : Finset ℕ
  /-- the entries of a directory other than "." and ".." -/
  kids : ℕ → Multiset Entry
  up : ℕ → ℕ

/-- How many of these entries name inode `n`. -/
def naming (n : ℕ) (s : Multiset Entry) : ℕ := s.countP (·.inode = n)

@[simp] theorem naming_zero (n : ℕ) : naming n 0 = 0 := Multiset.countP_zero _

@[simp] theorem naming_cons (n : ℕ) (e : Entry) (s : Multiset Entry) :
    naming n (e ::ₘ s) = naming n s + if e.inode = n then 1 else 0 := Multiset.countP_cons _ _ _

theorem naming_pos {n : ℕ} {s : Multiset Entry} : 0 < naming n s ↔ ∃ e ∈ s, e.inode = n :=
  Multiset.countP_pos

theorem naming_erase {n : ℕ} {e : Entry} {s : Multiset Entry} (h : e ∈ s) :
    naming n (s.erase e) + (if e.inode = n then 1 else 0) = naming n s := by
  conv_rhs => rw [← Multiset.cons_erase h]
  rw [naming_cons]

namespace NameTree

/-- All entries of a directory. -/
def records (N : NameTree) (d : ℕ) : Multiset Entry :=
  ⟨dotName, d⟩ ::ₘ ⟨dotdotName, N.up d⟩ ::ₘ N.kids d

/-- The names of inode `n` other than "." and "..". -/
def entered (N : NameTree) (n : ℕ) : ℕ := ∑ d ∈ N.dirs, naming n (N.kids d)

/-- All records that name inode `n`. -/
def links (N : NameTree) (n : ℕ) : ℕ := ∑ d ∈ N.dirs, naming n (N.records d)

structure Sound (N : NameTree) : Prop where
  root : ufsRootInode ∈ N.dirs
  root_up : N.up ufsRootInode = ufsRootInode
  dirs_live : N.dirs ⊆ N.live
  names : ∀ d ∈ N.dirs, ((N.records d).map Entry.name).Nodup
  named : ∀ d ∈ N.dirs, ∀ e ∈ N.kids d, e.name ≠ []
  target : ∀ d ∈ N.dirs, ∀ e ∈ N.kids d, e.inode ∈ N.live
  up_eq : ∀ d ∈ N.dirs, ∀ e ∈ N.kids d, e.inode ∈ N.dirs → N.up e.inode = d
  once : ∀ s ∈ N.dirs, N.entered s = if s = ufsRootInode then 0 else 1
  found : ∀ n ∈ N.live, n ∉ N.dirs → 0 < N.entered n
  reached : ∀ d ∈ N.dirs, ∃ k, N.up^[k] d = ufsRootInode

section Counting
variable {N N' : NameTree} {n p : ℕ} {e : Entry}

theorem links_eq (N : NameTree) (n : ℕ) : N.links n =
    (if n ∈ N.dirs then 1 else 0) + (N.dirs.filter (N.up · = n)).card + N.entered n := by
  have h1 : ∑ d ∈ N.dirs, (if d = n then 1 else 0) = if n ∈ N.dirs then 1 else 0 :=
    Finset.sum_ite_eq' _ _ _
  have h2 : ∑ d ∈ N.dirs, (if N.up d = n then 1 else 0) = (N.dirs.filter (N.up · = n)).card :=
    (Finset.card_filter _ _).symm
  rw [links, entered, ← h1, ← h2, ← Finset.sum_add_distrib, ← Finset.sum_add_distrib]
  refine Finset.sum_congr rfl fun d _ => ?_
  simp only [records, naming_cons]
  omega

theorem entered_pos (hp : p ∈ N.dirs) (he : e ∈ N.kids p) : 0 < N.entered e.inode :=
  (naming_pos.mpr ⟨e, he, rfl⟩).trans_le
    (Finset.single_le_sum (f := fun d => naming e.inode (N.kids d)) (fun _ _ => Nat.zero_le _) hp)

theorem exists_of_entered (h : 0 < N.entered n) : ∃ d ∈ N.dirs, ∃ e ∈ N.kids d, e.inode = n := by
  obtain ⟨d, hd, h0⟩ := Finset.exists_ne_zero_of_sum_ne_zero (Nat.pos_iff_ne_zero.mp h)
  exact ⟨d, hd, naming_pos.mp (Nat.pos_of_ne_zero h0)⟩

/-- New entries in one directory. -/
theorem entered_update {ks : Multiset Entry} (hp : p ∈ N.dirs) (hd : N'.dirs = N.dirs)
    (hk : N'.kids = Function.update N.kids p ks) :
    N'.entered n + naming n (N.kids p) = N.entered n + naming n ks := by
  have hsum : ∀ f : ℕ → Multiset Entry, ∑ d ∈ N.dirs, naming n (f d) =
      naming n (f p) + ∑ d ∈ N.dirs.erase p, naming n (f d) := fun f =>
    (Finset.add_sum_erase _ _ hp).symm
  rw [entered, entered, hd, hk, hsum, hsum N.kids, Function.update_self]
  have hrest : ∑ d ∈ N.dirs.erase p, naming n (Function.update N.kids p ks d) =
      ∑ d ∈ N.dirs.erase p, naming n (N.kids d) :=
    Finset.sum_congr rfl fun d hd => by rw [Function.update_of_ne (Finset.ne_of_mem_erase hd)]
  omega

end Counting

namespace Sound
variable {N : NameTree} {n p q s d : ℕ} {e e' : Entry}

theorem live_of_dir (h : N.Sound) (hd : d ∈ N.dirs) : d ∈ N.live := h.dirs_live hd

theorem kid_ne_root (h : N.Sound) (hp : p ∈ N.dirs) (he : e ∈ N.kids p) : e.inode ≠ ufsRootInode := by
  intro hr
  have hpos := N.entered_pos hp he
  rw [hr, h.once _ h.root, if_pos rfl] at hpos
  exact absurd hpos (lt_irrefl 0)

theorem up_mem (h : N.Sound) (hd : d ∈ N.dirs) : N.up d ∈ N.dirs := by
  by_cases hr : d = ufsRootInode
  · rw [hr, h.root_up]
    exact h.root
  · have ho := h.once d hd
    rw [if_neg hr] at ho
    obtain ⟨p, hp, e, he, rfl⟩ := N.exists_of_entered (ho ▸ Nat.one_pos)
    rw [h.up_eq p hp e he hd]
    exact hp

theorem iterate_mem (h : N.Sound) (hd : d ∈ N.dirs) (k : ℕ) : N.up^[k] d ∈ N.dirs := by
  induction k generalizing d with
  | zero => exact hd
  | succ k ih => exact ih (h.up_mem hd)

/-- An entry of a directory is where its target says. -/
theorem kid_of_dir (h : N.Sound) (hs : s ∈ N.dirs) (hr : s ≠ ufsRootInode) :
    ∃ e ∈ N.kids (N.up s), e.inode = s := by
  have ho := h.once s hs
  rw [if_neg hr] at ho
  obtain ⟨p, hp, e, he, rfl⟩ := N.exists_of_entered (ho ▸ Nat.one_pos)
  rw [h.up_eq p hp e he hs]
  exact ⟨e, he, rfl⟩

/-- A directory is entered once in its parent. -/
theorem naming_dir (h : N.Sound) (hp : p ∈ N.dirs) (he : e ∈ N.kids p) (hs : e.inode ∈ N.dirs) :
    naming e.inode (N.kids p) = 1 := by
  have ho := h.once _ hs
  rw [if_neg (h.kid_ne_root hp he)] at ho
  have hle : naming e.inode (N.kids p) ≤ N.entered e.inode :=
    Finset.single_le_sum (f := fun d => naming e.inode (N.kids d)) (fun _ _ => Nat.zero_le _) hp
  have hpos := naming_pos.mpr ⟨e, he, rfl⟩
  omega

/-- The number of links of a directory: two and one for each directory in it. -/
theorem links_dir (h : N.Sound) (hd : d ∈ N.dirs) :
    N.links d = 2 + ((N.dirs.erase ufsRootInode).filter (N.up · = d)).card := by
  have hsplit : N.dirs = insert ufsRootInode (N.dirs.erase ufsRootInode) :=
    (Finset.insert_erase h.root).symm
  have hcard : (N.dirs.filter (N.up · = d)).card =
      ((N.dirs.erase ufsRootInode).filter (N.up · = d)).card + if d = ufsRootInode then 1 else 0 := by
    conv_lhs => rw [hsplit]
    rw [Finset.filter_insert, h.root_up]
    by_cases hr : ufsRootInode = d
    · rw [if_pos hr, if_pos hr.symm, Finset.card_insert_of_notMem]
      exact fun hm => absurd (Finset.mem_filter.mp hm).1 (Finset.notMem_erase _ _)
    · rw [if_neg hr, if_neg (Ne.symm hr), Nat.add_zero]
  rw [N.links_eq, if_pos hd, h.once d hd, hcard]
  split_ifs <;> omega

/-- The number of links of a file: its names. -/
theorem links_file (hn : n ∉ N.dirs) (h : N.Sound) : N.links n = N.entered n := by
  have hempty : N.dirs.filter (N.up · = n) = ∅ :=
    Finset.filter_eq_empty_iff.mpr fun d hd he => hn (he ▸ h.up_mem hd)
  rw [N.links_eq, if_neg hn, hempty, Finset.card_empty, Nat.zero_add]

end Sound
/-! ## Changes -/

/-- A name for a file, old or new. -/
def enter (N : NameTree) (p : ℕ) (e : Entry) : NameTree :=
  { N with
    live := insert e.inode N.live
    kids := Function.update N.kids p (e ::ₘ N.kids p) }

/-- A name of a file is taken away, with its last name the file. -/
def leave (N : NameTree) (p : ℕ) (e : Entry) : NameTree :=
  { N with
    live := if N.entered e.inode = 1 then N.live.erase e.inode else N.live
    kids := Function.update N.kids p ((N.kids p).erase e) }

/-- A new empty directory. -/
def enterDir (N : NameTree) (p : ℕ) (e : Entry) : NameTree where
  live := insert e.inode N.live
  dirs := insert e.inode N.dirs
  kids := Function.update (Function.update N.kids e.inode 0) p (e ::ₘ N.kids p)
  up := Function.update N.up e.inode p

/-- An empty directory is taken away. -/
def leaveDir (N : NameTree) (p : ℕ) (e : Entry) : NameTree :=
  { N with
    live := N.live.erase e.inode
    dirs := N.dirs.erase e.inode
    kids := Function.update N.kids p ((N.kids p).erase e) }

/-- A directory goes from `p`, where `e` names it, to `q`, where `e'` does. -/
def moveDir (N : NameTree) (p q : ℕ) (e e' : Entry) : NameTree :=
  { N with
    kids := Function.update (Function.update N.kids q (e' ::ₘ N.kids q)) p
      ((Function.update N.kids q (e' ::ₘ N.kids q) p).erase e)
    up := Function.update N.up e.inode q }

theorem enter_kids (N : NameTree) (p : ℕ) (e : Entry) :
    (N.enter p e).kids = Function.update N.kids p (e ::ₘ N.kids p) := rfl
theorem leave_kids (N : NameTree) (p : ℕ) (e : Entry) :
    (N.leave p e).kids = Function.update N.kids p ((N.kids p).erase e) := rfl
theorem leaveDir_kids (N : NameTree) (p : ℕ) (e : Entry) :
    (N.leaveDir p e).kids = Function.update N.kids p ((N.kids p).erase e) := rfl

/-- An entry goes from `p`, where it is `e`, to `q` under the name `name`. -/
def move (N : NameTree) (p q : ℕ) (e : Entry) (name : Str) : NameTree :=
  if e.inode ∈ N.dirs then N.moveDir p q e ⟨name, e.inode⟩
  else (N.enter q ⟨name, e.inode⟩).leave p e

theorem enterDir_up (N : NameTree) (p : ℕ) (e : Entry) :
    (N.enterDir p e).up = Function.update N.up e.inode p := rfl
theorem moveDir_up (N : NameTree) (p q : ℕ) (e e' : Entry) :
    (N.moveDir p q e e').up = Function.update N.up e.inode q := rfl

/-- The name is free in directory `p`. -/
def Fresh (N : NameTree) (p : ℕ) (name : Str) : Prop := name ∉ (N.records p).map Entry.name

namespace Sound
variable {N : NameTree} {n p q s d : ℕ} {e e' : Entry}

theorem names_cons (hf : N.Fresh p e.name) (hn : ((N.records p).map Entry.name).Nodup) :
    ((⟨dotName, p⟩ ::ₘ ⟨dotdotName, N.up p⟩ ::ₘ e ::ₘ N.kids p : Multiset Entry).map
      Entry.name).Nodup := by
  rw [Multiset.cons_swap _ e, Multiset.cons_swap _ e, Multiset.map_cons, Multiset.nodup_cons]
  exact ⟨hf, hn⟩

theorem names_erase (hn : ((N.records p).map Entry.name).Nodup) (up : ℕ) (e : Entry) :
    ((⟨dotName, p⟩ ::ₘ ⟨dotdotName, up⟩ ::ₘ (N.kids p).erase e : Multiset Entry).map
      Entry.name).Nodup := by
  simp only [records, Multiset.map_cons] at hn ⊢
  have hle : ((N.kids p).erase e).map Entry.name ≤ (N.kids p).map Entry.name :=
    Multiset.map_le_map (Multiset.erase_le _ _)
  exact Multiset.nodup_of_le (Multiset.cons_le_cons _ (Multiset.cons_le_cons _ hle)) hn

theorem enter (h : N.Sound) (hp : p ∈ N.dirs) (hf : N.Fresh p e.name) (hne : e.name ≠ [])
    (he : e.inode ∉ N.dirs) : (N.enter p e).Sound := by
  have hcount : ∀ n, (N.enter p e).entered n = N.entered n + if e.inode = n then 1 else 0 := by
    intro n
    have hc := @entered_update N (N.enter p e) n p (e ::ₘ N.kids p) hp rfl rfl
    rw [naming_cons] at hc
    omega
  have hkids : ∀ d ∈ N.dirs, ∀ x ∈ (N.enter p e).kids d, x ∈ N.kids d ∨ d = p ∧ x = e := by
    intro d hd x hx
    by_cases hdp : d = p
    · subst hdp
      rw [enter_kids, Function.update_self, Multiset.mem_cons] at hx
      exact hx.symm.imp_right fun hxe => ⟨rfl, hxe⟩
    · rw [enter_kids, Function.update_of_ne hdp] at hx
      exact .inl hx
  refine ⟨h.root, h.root_up, h.dirs_live.trans (Finset.subset_insert _ _), ?_, ?_, ?_, ?_, ?_, ?_,
    h.reached⟩
  · intro d hd
    by_cases hdp : d = p
    · subst hdp
      rw [records, enter_kids, Function.update_self]
      exact names_cons hf (h.names d hd)
    · rw [records, enter_kids, Function.update_of_ne hdp]
      exact h.names d hd
  · intro d hd x hx
    rcases hkids d hd x hx with hx | ⟨-, rfl⟩
    · exact h.named d hd x hx
    · exact hne
  · intro d hd x hx
    rcases hkids d hd x hx with hx | ⟨-, rfl⟩
    · exact Finset.mem_insert_of_mem (h.target d hd x hx)
    · exact Finset.mem_insert_self _ _
  · intro d hd x hx hxd
    rcases hkids d hd x hx with hx | ⟨-, rfl⟩
    · exact h.up_eq d hd x hx hxd
    · exact absurd hxd he
  · intro s hs
    have hse : e.inode ≠ s := fun hse => he (hse ▸ hs)
    rw [hcount, if_neg hse]
    exact h.once s hs
  · intro n hn hnd
    rw [hcount]
    cases Finset.mem_insert.mp hn with
    | inl hne => rw [if_pos hne.symm]; omega
    | inr hl => exact (h.found n hl hnd).trans_le (Nat.le_add_right _ _)

theorem leave (h : N.Sound) (hp : p ∈ N.dirs) (hk : e ∈ N.kids p) (he : e.inode ∉ N.dirs) :
    (N.leave p e).Sound := by
  have hcount : ∀ n, (N.leave p e).entered n + (if e.inode = n then 1 else 0) = N.entered n := by
    intro n
    have hc := @entered_update N (N.leave p e) n p ((N.kids p).erase e) hp rfl rfl
    have hx := naming_erase (n := n) hk
    omega
  have hkids : ∀ d, ∀ x ∈ (N.leave p e).kids d, x ∈ N.kids d := by
    intro d x hx
    by_cases hdp : d = p
    · subst hdp
      rw [leave_kids, Function.update_self] at hx
      exact Multiset.mem_of_mem_erase hx
    · rwa [leave_kids, Function.update_of_ne hdp] at hx
  have hlive : ∀ n ∈ N.live, n = e.inode ∧ N.entered n = 1 ∨ n ∈ (N.leave p e).live := by
    intro n hn
    rw [NameTree.leave]
    split_ifs with h1
    · by_cases hne : n = e.inode
      · exact .inl ⟨hne, hne ▸ h1⟩
      · exact .inr (Finset.mem_erase.mpr ⟨hne, hn⟩)
    · exact .inr hn
  have hsub : (N.leave p e).live ⊆ N.live := by
    rw [NameTree.leave]
    split_ifs
    · exact Finset.erase_subset _ _
    · exact subset_rfl
  refine ⟨h.root, h.root_up, fun d hd => ?_, ?_, fun d hd x hx => h.named d hd x (hkids d x hx), ?_,
    fun d hd x hx hxd => h.up_eq d hd x (hkids d x hx) hxd, ?_, ?_, h.reached⟩
  · rcases hlive d (h.dirs_live hd) with ⟨rfl, -⟩ | hl
    · exact absurd hd he
    · exact hl
  · intro d hd
    by_cases hdp : d = p
    · subst hdp
      rw [records, leave_kids, Function.update_self]
      exact names_erase (h.names d hd) _ _
    · rw [records, leave_kids, Function.update_of_ne hdp]
      exact h.names d hd
  · intro d hd x hx
    rcases hlive _ (h.target d hd x (hkids d x hx)) with ⟨hxe, h1⟩ | hl
    · have hpos := (N.leave p e).entered_pos hd hx
      have hc := hcount x.inode
      rw [if_pos hxe.symm, h1] at hc
      omega
    · exact hl
  · intro s hs
    have hse : e.inode ≠ s := fun hse => he (hse ▸ hs)
    have hc := hcount s
    rw [if_neg hse, Nat.add_zero] at hc
    rw [hc]
    exact h.once s hs
  · intro n hn hnd
    have hc := hcount n
    have hpos := h.found n (hsub hn) hnd
    by_cases hne : e.inode = n
    · rw [if_pos hne] at hc
      rw [NameTree.leave] at hn
      split_ifs at hn with h1
      · exact absurd hne.symm (Finset.ne_of_mem_erase hn)
      · rw [hne] at h1
        omega
    · rw [if_neg hne] at hc
      omega

/-- Redirecting one step does not matter to a walk that never gets there. -/
theorem iterate_update {f : ℕ → ℕ} {s q n : ℕ} (h : ∀ k, f^[k] n ≠ s) (k : ℕ) :
    (Function.update f s q)^[k] n = f^[k] n := by
  induction k with
  | zero => rfl
  | succ k ih => rw [Function.iterate_succ_apply', Function.iterate_succ_apply', ih,
      Function.update_of_ne (h k)]

theorem records_names (N : NameTree) (d : ℕ) :
    (N.records d).map Entry.name = dotName ::ₘ dotdotName ::ₘ (N.kids d).map Entry.name := by
  simp only [records, Multiset.map_cons]

theorem enterDir_kids_self (N : NameTree) {p : ℕ} {e : Entry} :
    (N.enterDir p e).kids p = e ::ₘ N.kids p := Function.update_self ..

theorem enterDir_kids_new (N : NameTree) {p : ℕ} {e : Entry} (h : e.inode ≠ p) :
    (N.enterDir p e).kids e.inode = 0 := by
  simp only [NameTree.enterDir, Function.update_of_ne h, Function.update_self]

theorem enterDir_kids_of_ne (N : NameTree) {p d : ℕ} {e : Entry} (hp : d ≠ p) (he : d ≠ e.inode) :
    (N.enterDir p e).kids d = N.kids d := by
  simp only [NameTree.enterDir, Function.update_of_ne hp, Function.update_of_ne he]

theorem entered_enterDir (hp : p ∈ N.dirs) (he : e.inode ∉ N.dirs) (n : ℕ) :
    (N.enterDir p e).entered n = N.entered n + if e.inode = n then 1 else 0 := by
  have hep : e.inode ≠ p := fun h => he (h ▸ hp)
  have hc := @entered_update N (N.enter p e) n p (e ::ₘ N.kids p) hp rfl rfl
  have hsum : (N.enterDir p e).entered n = (N.enter p e).entered n := by
    rw [entered, entered]
    refine (Finset.sum_insert he).trans ?_
    rw [enterDir_kids_new N hep, naming_zero, Nat.zero_add]
    refine Finset.sum_congr rfl fun d hd => ?_
    have hde : d ≠ e.inode := fun h => he (h ▸ hd)
    by_cases hdp : d = p
    · rw [hdp, enterDir_kids_self, enter_kids, Function.update_self]
    · rw [enterDir_kids_of_ne N hdp hde, enter_kids, Function.update_of_ne hdp]
  rw [naming_cons] at hc
  omega

theorem enterDir (h : N.Sound) (hp : p ∈ N.dirs) (hf : N.Fresh p e.name) (hne : e.name ≠ [])
    (he : e.inode ∉ N.live) : (N.enterDir p e).Sound := by
  have hed : e.inode ∉ N.dirs := fun hd => he (h.dirs_live hd)
  have hep : e.inode ≠ p := fun hh => hed (hh ▸ hp)
  have hcount := fun n => entered_enterDir hp hed n
  have hzero : N.entered e.inode = 0 := by
    by_contra hpos
    obtain ⟨d, hd, x, hx, hxe⟩ := N.exists_of_entered (Nat.pos_of_ne_zero hpos)
    exact he (hxe ▸ h.target d hd x hx)
  have hkids : ∀ d ∈ (N.enterDir p e).dirs, ∀ x ∈ (N.enterDir p e).kids d,
      d ∈ N.dirs ∧ x ∈ N.kids d ∨ d = p ∧ x = e := by
    intro d hd x hx
    by_cases hde : d = e.inode
    · rw [hde, enterDir_kids_new N hep] at hx
      exact absurd hx (Multiset.notMem_zero _)
    · have hdN := Finset.mem_of_mem_insert_of_ne hd hde
      by_cases hdp : d = p
      · subst hdp
        rw [enterDir_kids_self, Multiset.mem_cons] at hx
        exact hx.symm.imp (fun hx => ⟨hdN, hx⟩) fun hxe => ⟨rfl, hxe⟩
      · rw [enterDir_kids_of_ne N hdp hde] at hx
        exact .inl ⟨hdN, hx⟩
  have hup : ∀ d ∈ N.dirs, (N.enterDir p e).up d = N.up d := fun d hd =>
    Function.update_of_ne (fun hh : d = e.inode => hed (hh ▸ hd)) _ _
  have hreach : ∀ d ∈ N.dirs, ∃ k, (N.enterDir p e).up^[k] d = ufsRootInode := by
    intro d hd
    obtain ⟨k, hk⟩ := h.reached d hd
    refine ⟨k, ?_⟩
    have hav : ∀ j, N.up^[j] d ≠ e.inode := fun j hj => hed (hj ▸ h.iterate_mem hd j)
    exact (iterate_update hav k).trans hk
  refine ⟨Finset.mem_insert_of_mem h.root, ?_, Finset.insert_subset_insert _ h.dirs_live, ?_, ?_,
    ?_, ?_, ?_, ?_, ?_⟩
  · rw [hup _ h.root]
    exact h.root_up
  · intro d hd
    rw [records_names]
    by_cases hde : d = e.inode
    · rw [hde, enterDir_kids_new N hep]
      decide
    · have hdN := Finset.mem_of_mem_insert_of_ne hd hde
      by_cases hdp : d = p
      · subst hdp
        have hc := names_cons hf (h.names d hdN)
        simp only [Multiset.map_cons] at hc
        rw [enterDir_kids_self, Multiset.map_cons]
        exact hc
      · rw [enterDir_kids_of_ne N hdp hde, ← records_names]
        exact h.names d hdN
  · intro d hd x hx
    rcases hkids d hd x hx with ⟨hdN, hx⟩ | ⟨-, rfl⟩
    · exact h.named d hdN x hx
    · exact hne
  · intro d hd x hx
    rcases hkids d hd x hx with ⟨hdN, hx⟩ | ⟨-, rfl⟩
    · exact Finset.mem_insert_of_mem (h.target d hdN x hx)
    · exact Finset.mem_insert_self _ _
  · intro d hd x hx hxd
    rcases hkids d hd x hx with ⟨hdN, hx⟩ | ⟨rfl, rfl⟩
    · have hxe : x.inode ≠ e.inode := fun hh => he (hh ▸ h.target d hdN x hx)
      have hxN := Finset.mem_of_mem_insert_of_ne hxd hxe
      rw [hup _ hxN]
      exact h.up_eq d hdN x hx hxN
    · exact Function.update_self _ _ _
  · intro s hs
    rw [hcount]
    by_cases hse : s = e.inode
    · have hsr : s ≠ ufsRootInode := fun hh => hed (hse ▸ hh ▸ h.root)
      rw [if_pos hse.symm, if_neg hsr, hse, hzero]
    · rw [if_neg (Ne.symm hse)]
      exact h.once s (Finset.mem_of_mem_insert_of_ne hs hse)
  · intro n hn hnd
    rw [hcount]
    by_cases hne' : n = e.inode
    · rw [if_pos hne'.symm]
      omega
    · exact (h.found n (Finset.mem_of_mem_insert_of_ne hn hne')
        fun hd => hnd (Finset.mem_insert_of_mem hd)).trans_le (Nat.le_add_right _ _)
  · intro d hd
    by_cases hde : d = e.inode
    · obtain ⟨k, hk⟩ := hreach p hp
      refine ⟨k + 1, ?_⟩
      have hstep : (N.enterDir p e).up d = p := by
        rw [hde]
        exact Function.update_self _ _ _
      rw [Function.iterate_succ_apply, hstep, hk]
    · exact hreach d (Finset.mem_of_mem_insert_of_ne hd hde)

theorem entered_leaveDir (hp : p ∈ N.dirs) (hk : e ∈ N.kids p) (hs : e.inode ∈ N.dirs)
    (hempty : N.kids e.inode = 0) (n : ℕ) :
    (N.leaveDir p e).entered n + (if e.inode = n then 1 else 0) = N.entered n := by
  have hep : e.inode ≠ p := by
    rintro rfl
    rw [hempty] at hk
    exact absurd hk (Multiset.notMem_zero _)
  have hc := @entered_update N (N.leave p e) n p ((N.kids p).erase e) hp rfl rfl
  have hx := naming_erase (n := n) hk
  have hsum : (N.leaveDir p e).entered n = (N.leave p e).entered n := by
    have h0 : naming n ((N.leave p e).kids e.inode) = 0 := by
      rw [leave_kids, Function.update_of_ne hep, hempty, naming_zero]
    have hadd := Finset.add_sum_erase N.dirs (fun d => naming n ((N.leave p e).kids d)) hs
    simp only [h0, Nat.zero_add] at hadd
    exact hadd
  omega

theorem leaveDir (h : N.Sound) (hp : p ∈ N.dirs) (hk : e ∈ N.kids p) (hs : e.inode ∈ N.dirs)
    (hempty : N.kids e.inode = 0) : (N.leaveDir p e).Sound := by
  have hcount := fun n => entered_leaveDir hp hk hs hempty n
  have hr := h.kid_ne_root hp hk
  have hzero : (N.leaveDir p e).entered e.inode = 0 := by
    have hc := hcount e.inode
    rw [if_pos rfl, h.once _ hs, if_neg hr] at hc
    omega
  have hdirs : ∀ d ∈ (N.leaveDir p e).dirs, d ∈ N.dirs := fun d hd => Finset.mem_of_mem_erase hd
  have hkids : ∀ d, ∀ x ∈ (N.leaveDir p e).kids d, x ∈ N.kids d := by
    intro d x hx
    by_cases hdp : d = p
    · subst hdp
      rw [leaveDir_kids, Function.update_self] at hx
      exact Multiset.mem_of_mem_erase hx
    · rwa [leaveDir_kids, Function.update_of_ne hdp] at hx
  refine ⟨Finset.mem_erase.mpr ⟨Ne.symm hr, h.root⟩, h.root_up,
    Finset.erase_subset_erase _ h.dirs_live, ?_,
    fun d hd x hx => h.named d (hdirs d hd) x (hkids d x hx), ?_,
    fun d hd x hx hxd => h.up_eq d (hdirs d hd) x (hkids d x hx) (hdirs _ hxd), ?_, ?_,
    fun d hd => h.reached d (hdirs d hd)⟩
  · intro d hd
    have hn := h.names d (hdirs d hd)
    by_cases hdp : d = p
    · subst hdp
      rw [records, leaveDir_kids, Function.update_self]
      exact names_erase hn _ _
    · rw [records, leaveDir_kids, Function.update_of_ne hdp]
      exact hn
  · intro d hd x hx
    refine Finset.mem_erase.mpr ⟨fun hxe => ?_, h.target d (hdirs d hd) x (hkids d x hx)⟩
    have hpos := (N.leaveDir p e).entered_pos hd hx
    rw [hxe, hzero] at hpos
    exact absurd hpos (lt_irrefl 0)
  · intro s' hs'
    have hc := hcount s'
    rw [if_neg (Finset.ne_of_mem_erase hs').symm, Nat.add_zero] at hc
    rw [hc]
    exact h.once s' (hdirs _ hs')
  · intro n hn hnd
    have hne := Finset.ne_of_mem_erase hn
    have hc := hcount n
    rw [if_neg (Ne.symm hne), Nat.add_zero] at hc
    rw [hc]
    exact h.found n (Finset.mem_of_mem_erase hn) fun hd => hnd (Finset.mem_erase.mpr ⟨hne, hd⟩)

/-- The entries after a move, before the old one is taken away. -/
theorem moveDir_kids (N : NameTree) {p q : ℕ} {e e' : Entry} (d : ℕ) :
    (N.moveDir p q e e').kids d = if d = p then ((N.enter q e').kids p).erase e
      else (N.enter q e').kids d := by
  by_cases hdp : d = p
  · subst hdp
    rw [if_pos rfl]
    exact Function.update_self ..
  · rw [if_neg hdp]
    exact Function.update_of_ne hdp ..

theorem mem_moveDir (hdist : p = q → e' ≠ e) {x : Entry} (hx : x ∈ (N.moveDir p q e e').kids d) :
    x ∈ N.kids d ∧ (d = p → naming x.inode ((N.kids p).erase e) ≠ 0) ∨ d = q ∧ x = e' := by
  rw [moveDir_kids] at hx
  by_cases hdq : d = q
  · subst hdq
    by_cases hxe : x = e'
    · exact .inr ⟨rfl, hxe⟩
    · left
      rw [enter_kids, Function.update_self] at hx
      by_cases hdp : d = p
      · subst hdp
        rw [if_pos rfl, Function.update_self, Multiset.erase_cons_tail _ (hdist rfl),
          Multiset.mem_cons] at hx
        have hx' := hx.resolve_left hxe
        exact ⟨Multiset.mem_of_mem_erase hx', fun _ => (naming_pos.mpr ⟨x, hx', rfl⟩).ne'⟩
      · rw [if_neg hdp, Multiset.mem_cons] at hx
        exact ⟨hx.resolve_left hxe, fun hh => absurd hh hdp⟩
  · left
    by_cases hdp : d = p
    · subst hdp
      rw [if_pos rfl, enter_kids, Function.update_of_ne hdq] at hx
      exact ⟨Multiset.mem_of_mem_erase hx, fun _ => (naming_pos.mpr ⟨x, hx, rfl⟩).ne'⟩
    · rw [if_neg hdp, enter_kids, Function.update_of_ne hdq] at hx
      exact ⟨hx, fun hh => absurd hh hdp⟩

theorem entered_moveDir (hp : p ∈ N.dirs) (hq : q ∈ N.dirs) (hk : e ∈ N.kids p)
    (hsame : e'.inode = e.inode) (n : ℕ) : (N.moveDir p q e e').entered n = N.entered n := by
  have hk' : e ∈ (N.enter q e').kids p := by
    by_cases hpq : p = q
    · rw [hpq, enter_kids, Function.update_self]
      exact Multiset.mem_cons_of_mem (hpq ▸ hk)
    · rw [enter_kids, Function.update_of_ne hpq]
      exact hk
  have h1 := @entered_update N (N.enter q e') n q (e' ::ₘ N.kids q) hq rfl rfl
  have h2 := @entered_update (N.enter q e') (N.moveDir p q e e') n p
    (((N.enter q e').kids p).erase e) hp rfl rfl
  have h3 := naming_erase (n := n) hk'
  rw [naming_cons, hsame] at h1
  omega

/-- A new entry of a fresh name keeps the names of every directory distinct. -/
theorem enter_names (h : N.Sound) (hf : N.Fresh q e'.name) (hd : d ∈ N.dirs) :
    (((N.enter q e').records d).map Entry.name).Nodup := by
  rw [records_names]
  by_cases hdq : d = q
  · subst hdq
    have hc := names_cons hf (h.names d hd)
    simp only [Multiset.map_cons] at hc
    rw [enter_kids, Function.update_self, Multiset.map_cons]
    exact hc
  · rw [enter_kids, Function.update_of_ne hdq, ← records_names]
    exact h.names d hd

/-- An entry is not the new one of a fresh name. -/
theorem ne_of_fresh (hf : N.Fresh q e'.name) (hk : e ∈ N.kids q) : e' ≠ e := by
  rintro rfl
  exact hf (Multiset.mem_map_of_mem _ (Multiset.mem_cons_of_mem (Multiset.mem_cons_of_mem hk)))

theorem moveDir (h : N.Sound) (hp : p ∈ N.dirs) (hq : q ∈ N.dirs) (hk : e ∈ N.kids p)
    (hs : e.inode ∈ N.dirs) (hsame : e'.inode = e.inode) (hf : N.Fresh q e'.name)
    (hne : e'.name ≠ []) (hout : ∀ k, N.up^[k] q ≠ e.inode) :
    (N.moveDir p q e e').Sound := by
  have hdist : p = q → e' ≠ e := fun hpq => ne_of_fresh hf (hpq ▸ hk)
  have hr := h.kid_ne_root hp hk
  have hcount := fun n => entered_moveDir hp hq hk hsame n
  have hups : (N.moveDir p q e e').up e.inode = q := Function.update_self ..
  have hup : ∀ d, d ≠ e.inode → (N.moveDir p q e e').up d = N.up d := fun d hd =>
    Function.update_of_ne hd ..
  have hqreach : ∃ k, (N.moveDir p q e e').up^[k] q = ufsRootInode := by
    obtain ⟨k, hk⟩ := h.reached q hq
    exact ⟨k, (iterate_update hout k).trans hk⟩
  refine ⟨h.root, ?_, h.dirs_live, ?_, ?_, ?_, ?_, ?_, ?_, ?_⟩
  · rw [hup _ (Ne.symm hr)]
    exact h.root_up
  · intro d hd
    have hbig := h.enter_names hf hd
    rw [records_names] at hbig
    rw [records_names, moveDir_kids]
    split_ifs with hdp
    · subst hdp
      refine Multiset.nodup_of_le (Multiset.cons_le_cons _ (Multiset.cons_le_cons _ ?_)) hbig
      exact Multiset.map_le_map (Multiset.erase_le _ _)
    · exact hbig
  · intro d hd x hx
    rcases mem_moveDir hdist hx with ⟨hx, -⟩ | ⟨-, rfl⟩
    · exact h.named d hd x hx
    · exact hne
  · intro d hd x hx
    rcases mem_moveDir hdist hx with ⟨hx, -⟩ | ⟨-, rfl⟩
    · exact h.target d hd x hx
    · rw [hsame]
      exact h.dirs_live hs
  · intro d hd x hx hxd
    rcases mem_moveDir hdist hx with ⟨hx, hdp⟩ | ⟨rfl, rfl⟩
    · by_cases hxe : x.inode = e.inode
      · have hdp' : d = p := by
          rw [← h.up_eq d hd x hx hxd, hxe, h.up_eq p hp e hk hs]
        have h1 := h.naming_dir hp hk hs
        have h2 := naming_erase (n := e.inode) hk
        have h3 := hdp hdp'
        rw [if_pos rfl, h1] at h2
        rw [hxe] at h3
        omega
      · rw [hup _ hxe]
        exact h.up_eq d hd x hx hxd
    · rw [hsame]
      exact hups
  · intro s hs'
    rw [hcount]
    exact h.once s hs'
  · intro n hn hnd
    rw [hcount]
    exact h.found n hn hnd
  · -- a walk to the root either stays clear of the moved directory or goes on from `q`
    intro d hd
    obtain ⟨k, hk⟩ := h.reached d hd
    clear hd
    induction k generalizing d with
    | zero => exact ⟨0, hk⟩
    | succ k ih =>
      by_cases hds : d = e.inode
      · obtain ⟨j, hj⟩ := hqreach
        refine ⟨j + 1, ?_⟩
        rw [Function.iterate_succ_apply, hds, hups, hj]
      · obtain ⟨j, hj⟩ := ih (N.up d) hk
        refine ⟨j + 1, ?_⟩
        rw [Function.iterate_succ_apply, hup d hds, hj]

theorem move (h : N.Sound) (hp : p ∈ N.dirs) (hq : q ∈ N.dirs) (hk : e ∈ N.kids p) {name : Str}
    (hf : N.Fresh q name) (hne : name ≠ [])
    (hout : e.inode ∈ N.dirs → ∀ k, N.up^[k] q ≠ e.inode) : (N.move p q e name).Sound := by
  rw [NameTree.move]
  split_ifs with hs
  · exact h.moveDir hp hq hk hs rfl hf hne (hout hs)
  · refine (@enter N q ⟨name, e.inode⟩ h hq hf hne hs).leave hp ?_ hs
    rw [enter_kids]
    by_cases hpq : p = q
    · rw [hpq, Function.update_self]
      exact Multiset.mem_cons_of_mem (hpq ▸ hk)
    · rw [Function.update_of_ne hpq]
      exact hk

end Sound
/-! ## Numbers of links -/
section Links
variable {N : NameTree} {n p q : ℕ} {e e' : Entry}

theorem links_enter (hp : p ∈ N.dirs) :
    (N.enter p e).links n = N.links n + if e.inode = n then 1 else 0 := by
  have hc := @entered_update N (N.enter p e) n p (e ::ₘ N.kids p) hp rfl rfl
  rw [naming_cons] at hc
  have h1 := (N.enter p e).links_eq n
  have h2 := N.links_eq n
  have h3 : (N.enter p e).dirs.filter ((N.enter p e).up · = n) = N.dirs.filter (N.up · = n) := rfl
  have h4 : (N.enter p e).dirs = N.dirs := rfl
  rw [h3, h4] at h1
  omega

theorem links_leave (hp : p ∈ N.dirs) (hk : e ∈ N.kids p) :
    (N.leave p e).links n + (if e.inode = n then 1 else 0) = N.links n := by
  have hc := @entered_update N (N.leave p e) n p ((N.kids p).erase e) hp rfl rfl
  have hx := naming_erase (n := n) hk
  have h1 := (N.leave p e).links_eq n
  have h2 := N.links_eq n
  have h3 : (N.leave p e).dirs.filter ((N.leave p e).up · = n) = N.dirs.filter (N.up · = n) := rfl
  have h4 : (N.leave p e).dirs = N.dirs := rfl
  rw [h3, h4] at h1
  omega

theorem links_enterDir (h : N.Sound) (hp : p ∈ N.dirs) (he : e.inode ∉ N.live) (hn : n ∈ N.live) :
    (N.enterDir p e).links n = N.links n + if n = p then 1 else 0 := by
  have hed : e.inode ∉ N.dirs := fun hd => he (h.dirs_live hd)
  have hne : n ≠ e.inode := fun hh => he (hh ▸ hn)
  have hfil : (N.enterDir p e).dirs.filter ((N.enterDir p e).up · = n) =
      if n = p then insert e.inode (N.dirs.filter (N.up · = n)) else N.dirs.filter (N.up · = n) := by
    have hold : N.dirs.filter ((N.enterDir p e).up · = n) = N.dirs.filter (N.up · = n) := by
      refine Finset.filter_congr fun d hd => ?_
      have hde : d ≠ e.inode := fun hh => hed (hh ▸ hd)
      rw [enterDir_up, Function.update_of_ne hde]
    have hup : (N.enterDir p e).up e.inode = p := Function.update_self ..
    have hins : (N.enterDir p e).dirs = insert e.inode N.dirs := rfl
    rw [hins, Finset.filter_insert, hup, hold]
    by_cases hnp : n = p
    · rw [if_pos hnp.symm, if_pos hnp]
    · rw [if_neg (Ne.symm hnp), if_neg hnp]
  have hcount := Sound.entered_enterDir hp hed n
  rw [if_neg hne.symm, Nat.add_zero] at hcount
  have hmem : n ∈ (N.enterDir p e).dirs ↔ n ∈ N.dirs := by
    have hins : (N.enterDir p e).dirs = insert e.inode N.dirs := rfl
    rw [hins, Finset.mem_insert]
    exact or_iff_right hne
  rw [links_eq, links_eq, hfil, hcount, if_congr hmem rfl rfl]
  by_cases hnp : n = p
  · rw [if_pos hnp, if_pos hnp, Finset.card_insert_of_notMem]
    · omega
    · exact fun hm => hed (Finset.mem_filter.mp hm).1
  · rw [if_neg hnp, if_neg hnp]
    omega

theorem links_enterDir_new (h : N.Sound) (hp : p ∈ N.dirs) (hf : N.Fresh p e.name)
    (hne : e.name ≠ []) (he : e.inode ∉ N.live) : (N.enterDir p e).links e.inode = 2 := by
  have hs := h.enterDir hp hf hne he
  have hed : e.inode ∉ N.dirs := fun hd => he (h.dirs_live hd)
  have hep : e.inode ≠ p := fun hh => hed (hh ▸ hp)
  rw [hs.links_dir (Finset.mem_insert_self _ _), Finset.filter_eq_empty_iff.mpr]
  · rfl
  · intro d hd hup
    have hd' := Finset.mem_of_mem_erase hd
    by_cases hde : d = e.inode
    · rw [hde] at hup
      exact hep (hup.symm.trans (Function.update_self ..))
    · have hdN := Finset.mem_of_mem_insert_of_ne hd' hde
      rw [enterDir_up, Function.update_of_ne hde] at hup
      exact hed (hup ▸ h.up_mem hdN)

theorem links_leaveDir (h : N.Sound) (hp : p ∈ N.dirs) (hk : e ∈ N.kids p) (hs : e.inode ∈ N.dirs)
    (hempty : N.kids e.inode = 0) (hne : n ≠ e.inode) :
    (N.leaveDir p e).links n + (if n = p then 1 else 0) = N.links n := by
  have hcount := Sound.entered_leaveDir hp hk hs hempty n
  rw [if_neg hne.symm, Nat.add_zero] at hcount
  have hup := h.up_eq p hp e hk hs
  have hfil : (N.dirs.filter (N.up · = n)).card =
      ((N.leaveDir p e).dirs.filter (N.up · = n)).card + if n = p then 1 else 0 := by
    have hins : N.dirs = insert e.inode (N.leaveDir p e).dirs := (Finset.insert_erase hs).symm
    conv_lhs => rw [hins]
    rw [Finset.filter_insert, hup]
    by_cases hnp : n = p
    · rw [if_pos hnp.symm, if_pos hnp, Finset.card_insert_of_notMem]
      exact fun hm => Finset.notMem_erase _ _ (Finset.mem_filter.mp hm).1
    · rw [if_neg (Ne.symm hnp), if_neg hnp, Nat.add_zero]
  have hmem : n ∈ (N.leaveDir p e).dirs ↔ n ∈ N.dirs := by
    have hins : (N.leaveDir p e).dirs = N.dirs.erase e.inode := rfl
    rw [hins, Finset.mem_erase]
    exact and_iff_right hne
  have h1 := (N.leaveDir p e).links_eq n
  have h3 : (N.leaveDir p e).up = N.up := rfl
  rw [h3, if_congr hmem rfl rfl] at h1
  have h2 := N.links_eq n
  omega

theorem links_moveDir (h : N.Sound) (hp : p ∈ N.dirs) (hq : q ∈ N.dirs) (hk : e ∈ N.kids p)
    (hs : e.inode ∈ N.dirs) (hsame : e'.inode = e.inode) :
    (N.moveDir p q e e').links n + (if n = p then 1 else 0) =
      N.links n + if n = q then 1 else 0 := by
  have hcount := Sound.entered_moveDir hp hq hk hsame n
  have hup := h.up_eq p hp e hk hs
  have hrest : ∀ f : ℕ → ℕ, (N.dirs.filter (f · = n)).card =
      ((N.dirs.erase e.inode).filter (f · = n)).card + if f e.inode = n then 1 else 0 := by
    intro f
    conv_lhs => rw [← Finset.insert_erase hs]
    rw [Finset.filter_insert]
    split_ifs
    · rw [Finset.card_insert_of_notMem]
      exact fun hm => Finset.notMem_erase _ _ (Finset.mem_filter.mp hm).1
    · rfl
  have hother : (N.dirs.erase e.inode).filter ((N.moveDir p q e e').up · = n) =
      (N.dirs.erase e.inode).filter (N.up · = n) := by
    refine Finset.filter_congr fun d hd => ?_
    rw [moveDir_up, Function.update_of_ne (Finset.ne_of_mem_erase hd)]
  have hnew : (N.moveDir p q e e').up e.inode = q := Function.update_self ..
  have h1 := (N.moveDir p q e e').links_eq n
  have h2 := N.links_eq n
  have h3 : (N.moveDir p q e e').dirs = N.dirs := rfl
  rw [h3, hrest, hother, hnew] at h1
  rw [hrest, hup] at h2
  have hc1 : (if q = n then 1 else 0) = if n = q then 1 else 0 := if_congr eq_comm rfl rfl
  have hc2 : (if p = n then 1 else 0) = if n = p then 1 else 0 := if_congr eq_comm rfl rfl
  rw [hc1] at h1
  rw [hc2] at h2
  omega

end Links
end NameTree
end UfsFuse
