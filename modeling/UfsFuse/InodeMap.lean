import UfsFuse.Allocate

/-!
# The inode map

`InodeMap sb D used dirs`: the maps of `D` mark exactly the inodes of `used`, and the counts of free
inodes and of directories are right, `dirs` being the inodes that were allocated as directories.
Specifications of the inode allocator and of freeing.
-/
namespace UfsFuse

def Disk.inodeUsed (sb : Superblock) (D : Disk) (n : ℕ) : Bool :=
  (D.cg (n / sb.ipg)).used (n % sb.ipg)

/-- The inodes of `ns` in group `c`. -/
def inGroup (sb : Superblock) (ns : Finset ℕ) (c : ℕ) : Finset ℕ := ns.filter fun n => n / sb.ipg = c

theorem mem_inGroup {sb : Superblock} {ns : Finset ℕ} {c n : ℕ} :
    n ∈ inGroup sb ns c ↔ n ∈ ns ∧ n / sb.ipg = c := Finset.mem_filter

structure InodeMap (sb : Superblock) (D : Disk) (used dirs : Finset ℕ) : Prop where
  magic : ∀ c < sb.ncg, (D.cg c).magic = ufsCgMagic
  mem : ∀ n < sb.inodes, (D.inodeUsed sb n = true ↔ n ∈ used)
  inRange : ∀ n ∈ used, n < sb.inodes
  dirs_sub : dirs ⊆ used
  nifree : ∀ c < sb.ncg, (D.cg c).counts.nifree + (inGroup sb used c).card = sb.ipg
  ndir : ∀ c < sb.ncg, (D.cg c).counts.ndir = (inGroup sb dirs c).card
  total_nifree : D.total.nifree + used.card = sb.inodes
  total_ndir : D.total.ndir = dirs.card

/-- Everything in a header that inode allocation leaves alone. -/
def CgView.spaceCore (v : CgView) : CgView :=
  { v with irotor := 0, used := fun _ => false, counts := { v.counts with ndir := 0, nifree := 0 } }

def Csum.spaceCore (t : Csum) : Csum := { t with ndir := 0, nifree := 0 }

/-- Only the inode maps and the counts of inodes and directories may differ. -/
structure InodeOnly (D D' : Disk) : Prop where
  cg : ∀ c, (D'.cg c).spaceCore = (D.cg c).spaceCore
  total : D'.total.spaceCore = D.total.spaceCore
  ino : D'.ino = D.ino
  data : D'.data = D.data

/-- Set the bit of inode `i` of group `c`, with new counts. -/
def Disk.setInodeBit (D : Disk) (c i : ℕ) (u : Bool) (rot nifree ndir : ℕ) (total : Csum) : Disk :=
  (D.setCg c { D.cg c with
    irotor := rot
    used := Function.update (D.cg c).used i u
    counts := { (D.cg c).counts with nifree := nifree, ndir := ndir } }).setTotal total

namespace Disk
variable (D : Disk) (c i : ℕ) (u : Bool) (rot nifree ndir : ℕ) (total : Csum)

theorem setInodeBit_other {c' : ℕ} (h : c' ≠ c) :
    (D.setInodeBit c i u rot nifree ndir total).cg c' = D.cg c' := Function.update_of_ne h _ _

theorem setInodeBit_self : (D.setInodeBit c i u rot nifree ndir total).cg c = { D.cg c with
    irotor := rot
    used := Function.update (D.cg c).used i u
    counts := { (D.cg c).counts with nifree := nifree, ndir := ndir } } :=
  Function.update_self ..

theorem setInodeBit_only (h : total.spaceCore = D.total.spaceCore) :
    InodeOnly D (D.setInodeBit c i u rot nifree ndir total) where
  cg c' := by
    by_cases hcc : c' = c
    · rw [hcc, setInodeBit_self]
      rfl
    · rw [setInodeBit_other _ _ _ _ _ _ _ _ hcc]
  total := h
  ino := rfl
  data := rfl

end Disk

namespace InodeOnly
variable {D D' D'' : Disk}

theorem refl (D : Disk) : InodeOnly D D := ⟨fun _ => rfl, rfl, rfl, rfl⟩

theorem free (h : InodeOnly D D') (c : ℕ) : (D'.cg c).free = (D.cg c).free := by
  have hf := congrArg CgView.free (h.cg c)
  exact hf

theorem nbfree (h : InodeOnly D D') (c : ℕ) :
    (D'.cg c).counts.nbfree = (D.cg c).counts.nbfree :=
  congrArg (fun v => v.counts.nbfree) (h.cg c)

theorem total_nbfree (h : InodeOnly D D') : D'.total.nbfree = D.total.nbfree := by
  have hf := congrArg Csum.nbfree h.total
  exact hf

/-- The ledger does not look at inode maps. -/
theorem space {sb : Superblock} {runs : List Run} (h : InodeOnly D D') (hs : Space sb D runs) :
    Space sb D' runs where
  magic c hc := (congrArg CgView.magic (h.cg c)).trans (hs.magic c hc)
  ndblk c hc := (congrArg CgView.ndblk (h.cg c)).trans (hs.ndblk c hc)
  isRun := hs.isRun
  apart := hs.apart
  free_data c hc i hi := hs.free_data c hc i (by rwa [← h.free])
  owned f hf := by
    rw [Disk.isFree, h.free]
    exact hs.owned f hf
  nbfree c hc := by
    rw [h.nbfree, hs.nbfree c hc, CgView.wholeBlocks, CgView.wholeBlocks, h.free]
  total := by
    rw [h.total_nbfree, hs.total]
    refine Finset.sum_congr rfl fun c _ => ?_
    rw [CgView.wholeBlocks, CgView.wholeBlocks, h.free]

end InodeOnly

namespace InodeMap
variable {sb : Superblock} {D D' : Disk} {used dirs : Finset ℕ}

/-- The inode map looks neither at free blocks nor at inodes or data. -/
theorem congr (h : InodeMap sb D used dirs) (hc : ∀ c, (D'.cg c).core = (D.cg c).core)
    (ht : D'.total.core = D.total.core) : InodeMap sb D' used dirs where
  magic c hlt := (congrArg CgView.magic (hc c)).trans (h.magic c hlt)
  mem n hn := by
    have hu := congrArg CgView.used (hc (n / sb.ipg))
    change (D'.cg (n / sb.ipg)).used = (D.cg (n / sb.ipg)).used at hu
    rw [Disk.inodeUsed, hu]
    exact h.mem n hn
  inRange := h.inRange
  dirs_sub := h.dirs_sub
  nifree c hlt := by
    have hn : (D'.cg c).counts.nifree = (D.cg c).counts.nifree :=
      congrArg (fun v => v.counts.nifree) (hc c)
    rw [hn]
    exact h.nifree c hlt
  ndir c hlt := (congrArg (fun v => v.counts.ndir) (hc c)).trans (h.ndir c hlt)
  total_nifree := by
    have hn := congrArg Csum.nifree ht
    change D'.total.nifree = D.total.nifree at hn
    rw [hn]
    exact h.total_nifree
  total_ndir := (congrArg Csum.ndir ht).trans h.total_ndir

/-! ### Group-local and slice-wide inode numbers -/

theorem number_div (g : sb.Geometry) {c i : ℕ} (hi : i < sb.ipg) : (c * sb.ipg + i) / sb.ipg = c := by
  rw [Nat.add_comm, Nat.add_mul_div_right _ _ g.ipg_pos, Nat.div_eq_of_lt hi, Nat.zero_add]

theorem number_mod {c i : ℕ} (hi : i < sb.ipg) : (c * sb.ipg + i) % sb.ipg = i := by
  rw [Nat.add_comm, Nat.add_mul_mod_self_right, Nat.mod_eq_of_lt hi]

theorem number_lt {c i : ℕ} (hc : c < sb.ncg) (hi : i < sb.ipg) : c * sb.ipg + i < sb.inodes := by
  have h := Nat.mul_le_mul_right sb.ipg (Nat.succ_le_of_lt hc)
  rw [Nat.succ_mul] at h
  rw [Superblock.inodes]
  omega

/-- A group with a free count has an unused inode. -/
theorem exists_unused (g : sb.Geometry) (h : InodeMap sb D used dirs) {c : ℕ} (hc : c < sb.ncg)
    (hf : (D.cg c).counts.nifree ≠ 0) : ∃ i < sb.ipg, (D.cg c).used i = false := by
  by_contra hall
  push Not at hall
  have hsub : sb.ipg ≤ (inGroup sb used c).card := by
    calc sb.ipg = (Finset.range sb.ipg).card := (Finset.card_range _).symm
      _ ≤ (inGroup sb used c).card := by
          refine Finset.card_le_card_of_injOn (fun i => c * sb.ipg + i) (fun i hi => ?_)
            fun i _ j _ hij => Nat.add_left_cancel hij
          have hi' := Finset.mem_range.mp hi
          refine Finset.mem_filter.mpr ⟨?_, number_div g hi'⟩
          rw [← h.mem _ (number_lt hc hi'), Disk.inodeUsed, number_div g hi', number_mod hi']
          exact Bool.eq_true_of_not_eq_false (hall i hi')
  have := h.nifree c hc
  omega

theorem not_mem_of_unused (g : sb.Geometry) (h : InodeMap sb D used dirs) {c i : ℕ}
    (hc : c < sb.ncg) (hi : i < sb.ipg) (hu : (D.cg c).used i = false) :
    c * sb.ipg + i ∉ used := by
  rw [← h.mem _ (number_lt hc hi), Disk.inodeUsed, number_div g hi, number_mod hi, hu]
  exact Bool.false_ne_true

theorem inGroup_card_le (h : InodeMap sb D used dirs) {c : ℕ} (hc : c < sb.ncg) :
    (inGroup sb dirs c).card ≤ (inGroup sb used c).card ∧
      (inGroup sb used c).card ≤ sb.ipg := by
  refine ⟨Finset.card_le_card (Finset.filter_subset_filter _ h.dirs_sub), ?_⟩
  have := h.nifree c hc
  omega

section Change
variable {c i : ℕ}

theorem inGroup_insert (g : sb.Geometry) (hi : i < sb.ipg) (ns : Finset ℕ) (c' : ℕ) :
    inGroup sb (insert (c * sb.ipg + i) ns) c' =
      if c' = c then insert (c * sb.ipg + i) (inGroup sb ns c') else inGroup sb ns c' := by
  rw [inGroup, Finset.filter_insert, number_div g hi]
  by_cases hcc : c' = c
  · rw [if_pos hcc.symm, if_pos hcc]
    rfl
  · rw [if_neg (Ne.symm hcc), if_neg hcc]
    rfl

theorem inGroup_erase (g : sb.Geometry) (hi : i < sb.ipg) (ns : Finset ℕ) (c' : ℕ) :
    inGroup sb (ns.erase (c * sb.ipg + i)) c' =
      if c' = c then (inGroup sb ns c').erase (c * sb.ipg + i) else inGroup sb ns c' := by
  rw [inGroup, Finset.filter_erase]
  by_cases hcc : c' = c
  · rw [if_pos hcc]
    rfl
  · rw [if_neg hcc, Finset.erase_eq_of_notMem]
    · rfl
    · rw [Finset.mem_filter, number_div g hi]
      exact fun hm => hcc hm.2.symm

/-- Membership after the bit of one inode changed. -/
theorem mem_update (g : sb.Geometry) (h : InodeMap sb D used dirs) (hi : i < sb.ipg) {v : Bool}
    {after : Finset ℕ} (hcg : ∀ c', c' ≠ c → D'.cg c' = D.cg c')
    (hused : (D'.cg c).used = Function.update (D.cg c).used i v)
    (hself : v = true ↔ c * sb.ipg + i ∈ after)
    (hother : ∀ m, m ≠ c * sb.ipg + i → (m ∈ after ↔ m ∈ used)) :
    ∀ n < sb.inodes, (D'.inodeUsed sb n = true ↔ n ∈ after) := by
  intro n hn
  have hdm := Nat.div_add_mod' n sb.ipg
  by_cases hnc : n = c * sb.ipg + i
  · rw [← hnc] at hself
    rw [← hself, Disk.inodeUsed, hnc, number_div g hi, number_mod hi, hused,
      Function.update_self]
  · rw [hother n hnc, ← h.mem n hn, Disk.inodeUsed, Disk.inodeUsed]
    by_cases hcc : n / sb.ipg = c
    · rw [hcc] at hdm
      rw [hcc, hused, Function.update_of_ne (by omega)]
    · rw [hcg _ hcc]

/-- An inode becomes used. -/
theorem insert (g : sb.Geometry) (h : InodeMap sb D used dirs) (hc : c < sb.ncg) (hi : i < sb.ipg)
    (hu : (D.cg c).used i = false) {directory : Bool}
    (hcg : ∀ c', c' ≠ c → D'.cg c' = D.cg c')
    (hused : (D'.cg c).used = Function.update (D.cg c).used i true)
    (hmagic : (D'.cg c).magic = (D.cg c).magic)
    (hn : (D'.cg c).counts.nifree + 1 = (D.cg c).counts.nifree)
    (hd : (D'.cg c).counts.ndir = (D.cg c).counts.ndir + directory.toNat)
    (htn : D'.total.nifree + 1 = D.total.nifree)
    (htd : D'.total.ndir = D.total.ndir + directory.toNat) :
    InodeMap sb D' (Insert.insert (c * sb.ipg + i) used)
      (if directory then Insert.insert (c * sb.ipg + i) dirs else dirs) := by
  have hnot := h.not_mem_of_unused g hc hi hu
  have hnotd : c * sb.ipg + i ∉ dirs := fun hm => hnot (h.dirs_sub hm)
  constructor
  · intro c' hc'
    by_cases hcc : c' = c
    · rw [hcc, hmagic, h.magic c hc]
    · rw [hcg c' hcc, h.magic c' hc']
  · refine h.mem_update g hi hcg hused (by simp) fun m hm => ?_
    rw [Finset.mem_insert, or_iff_right hm]
  · intro n hm
    rcases Finset.mem_insert.mp hm with rfl | hm
    · exact number_lt hc hi
    · exact h.inRange n hm
  · split_ifs
    · exact Finset.insert_subset_insert _ h.dirs_sub
    · exact h.dirs_sub.trans (Finset.subset_insert _ _)
  · intro c' hc'
    have hcount := h.nifree c' hc'
    rw [inGroup_insert g hi]
    split_ifs with hcc
    · subst hcc
      rw [Finset.card_insert_of_notMem fun hm => hnot (mem_inGroup.mp hm).1]
      omega
    · rw [hcg c' hcc]
      exact hcount
  · intro c' hc'
    have hcount := h.ndir c' hc'
    cases directory with
    | false =>
      by_cases hcc : c' = c
      · subst hcc
        exact hd.trans hcount
      · rw [hcg c' hcc]
        exact hcount
    | true =>
      rw [if_pos rfl, inGroup_insert g hi]
      split_ifs with hcc
      · subst hcc
        rw [Finset.card_insert_of_notMem fun hm => hnotd (mem_inGroup.mp hm).1, hd, hcount]
        rfl
      · rw [hcg c' hcc]
        exact hcount
  · have := h.total_nifree
    rw [Finset.card_insert_of_notMem hnot]
    omega
  · cases directory with
    | false => exact htd.trans h.total_ndir
    | true =>
      rw [if_pos rfl, Finset.card_insert_of_notMem hnotd, htd, h.total_ndir]
      rfl

/-- An inode becomes unused. -/
theorem erase (g : sb.Geometry) (h : InodeMap sb D used dirs) (hc : c < sb.ncg) (hi : i < sb.ipg)
    (hu : c * sb.ipg + i ∈ used) {directory : Bool}
    (hdir : directory = true ↔ c * sb.ipg + i ∈ dirs)
    (hcg : ∀ c', c' ≠ c → D'.cg c' = D.cg c')
    (hused : (D'.cg c).used = Function.update (D.cg c).used i false)
    (hmagic : (D'.cg c).magic = (D.cg c).magic)
    (hn : (D'.cg c).counts.nifree = (D.cg c).counts.nifree + 1)
    (hd : (D'.cg c).counts.ndir + directory.toNat = (D.cg c).counts.ndir)
    (htn : D'.total.nifree = D.total.nifree + 1)
    (htd : D'.total.ndir + directory.toNat = D.total.ndir) :
    InodeMap sb D' (used.erase (c * sb.ipg + i)) (dirs.erase (c * sb.ipg + i)) := by
  constructor
  · intro c' hc'
    by_cases hcc : c' = c
    · rw [hcc, hmagic, h.magic c hc]
    · rw [hcg c' hcc, h.magic c' hc']
  · refine h.mem_update g hi hcg hused (by simp) fun m hm => ?_
    rw [Finset.mem_erase, and_iff_right hm]
  · exact fun n hm => h.inRange n (Finset.mem_of_mem_erase hm)
  · exact Finset.erase_subset_erase _ h.dirs_sub
  · intro c' hc'
    have hcount := h.nifree c' hc'
    rw [inGroup_erase g hi]
    split_ifs with hcc
    · subst hcc
      have hmem : c' * sb.ipg + i ∈ inGroup sb used c' :=
        mem_inGroup.mpr ⟨hu, number_div g hi⟩
      have := Finset.card_erase_add_one hmem
      omega
    · rw [hcg c' hcc]
      exact hcount
  · intro c' hc'
    have hcount := h.ndir c' hc'
    rw [inGroup_erase g hi]
    split_ifs with hcc
    · subst hcc
      cases directory with
      | false =>
        rw [Finset.erase_eq_of_notMem fun hm => by simpa using hdir.mpr (mem_inGroup.mp hm).1]
        exact hd.trans hcount
      | true =>
        have hmem : c' * sb.ipg + i ∈ inGroup sb dirs c' :=
          mem_inGroup.mpr ⟨hdir.mp rfl, number_div g hi⟩
        have hcard := Finset.card_erase_add_one hmem
        simp only [Bool.toNat_true] at hd
        omega
    · rw [hcg c' hcc]
      exact hcount
  · have hcard := Finset.card_erase_add_one hu
    have := h.total_nifree
    omega
  · cases directory with
    | false =>
      rw [Finset.erase_eq_of_notMem fun hm => by simpa using hdir.mpr hm]
      exact htd.trans h.total_ndir
    | true =>
      have hcard := Finset.card_erase_add_one (hdir.mp rfl)
      have := h.total_ndir
      simp only [Bool.toNat_true] at htd
      omega

end Change
end InodeMap

/-! ## Choosing an inode -/
section Choose
variable {b : Bytes}

theorem isInodeUsed_eq {i : ℕ} (hi : i < maxipg) (hb : CgOff.free ≤ b.length) :
    isInodeUsed b i = .ok ((CgView.decode b).used i) := by
  have hin : CgOff.iused + i / nbby < b.length := by
    simp only [maxipg, CgOff.free] at hi hb
    simp only [CgOff.iused, nbby]
    omega
  simp only [maxipg] at hi
  rw [isInodeUsed, Outcome.guard_true hin]
  simp [CgView.decode, hi]

theorem firstUnusedInode_eq (hb : CgOff.free ≤ b.length) : ∀ {candidates : List ℕ},
    (∀ i ∈ candidates, i < maxipg) → (∃ i ∈ candidates, (CgView.decode b).used i = false) →
    ∃ i ∈ candidates, firstUnusedInode b candidates = .ok (some i) ∧
      (CgView.decode b).used i = false := by
  intro candidates
  induction candidates with
  | nil => exact fun _ ⟨i, hi, _⟩ => absurd hi List.not_mem_nil
  | cons a rest ih =>
    intro hlt hex
    rw [firstUnusedInode, isInodeUsed_eq (hlt a (List.mem_cons_self ..)) hb, Outcome.ok_bind]
    cases hu : (CgView.decode b).used a with
    | false => exact ⟨a, List.mem_cons_self .., rfl, hu⟩
    | true =>
      obtain ⟨i, hi, hfree⟩ := hex
      have hrest : ∃ i ∈ rest, (CgView.decode b).used i = false := by
        rcases List.mem_cons.mp hi with rfl | hi
        · rw [hu] at hfree
          exact absurd hfree Bool.noConfusion
        · exact ⟨i, hi, hfree⟩
      obtain ⟨j, hj, he, hfj⟩ := ih (fun k hk => hlt k (List.mem_cons_of_mem _ hk)) hrest
      exact ⟨j, List.mem_cons_of_mem _ hj, he, hfj⟩

theorem chooseInode_eq {sb : Superblock} (g : sb.Geometry) (hb : CgOff.free ≤ b.length)
    {preferred : Option ℕ} (hp : ∀ p ∈ preferred, p < sb.ipg)
    (hex : ∃ i < sb.ipg, (CgView.decode b).used i = false) :
    ∃ i < sb.ipg, chooseInode sb b preferred = .ok (some i) ∧
      (CgView.decode b).used i = false := by
  have hipg := g.ipg_le
  have hpos := g.ipg_pos
  set start := b.u32 CgOff.irotor % sb.ipg with hstart
  have hs : start < sb.ipg := Nat.mod_lt _ hpos
  have hscan : ∃ i < sb.ipg, firstUnusedInode b
      ((List.range sb.ipg).map fun offset => (start + offset) % sb.ipg) = .ok (some i) ∧
      (CgView.decode b).used i = false := by
    obtain ⟨i, hi, hu⟩ := hex
    have hlt : ∀ j ∈ (List.range sb.ipg).map (fun offset => (start + offset) % sb.ipg),
        j < sb.ipg := by
      intro j hj
      obtain ⟨o, -, rfl⟩ := List.mem_map.mp hj
      exact Nat.mod_lt _ hpos
    have hmem : i ∈ (List.range sb.ipg).map (fun offset => (start + offset) % sb.ipg) := by
      by_cases hsi : start ≤ i
      · refine List.mem_map.mpr ⟨i - start, List.mem_range.mpr (by omega), ?_⟩
        rw [Nat.add_sub_cancel' hsi, Nat.mod_eq_of_lt hi]
      · refine List.mem_map.mpr ⟨sb.ipg + i - start, List.mem_range.mpr (by omega), ?_⟩
        rw [Nat.add_sub_cancel' (by omega), Nat.add_mod_left, Nat.mod_eq_of_lt hi]
    obtain ⟨j, hj, he, hf⟩ := firstUnusedInode_eq hb
      (fun j hj => (hlt j hj).trans_le (by simpa [maxipg] using hipg)) ⟨i, hmem, hu⟩
    exact ⟨j, hlt j hj, he, hf⟩
  cases preferred with
  | none => exact hscan
  | some p =>
    rw [chooseInode.eq_def]
    have hpl : p < sb.ipg := hp p rfl
    simp only [isInodeUsed_eq (show p < maxipg by simp only [maxipg]; omega) hb, Outcome.ok_bind]
    cases hu : (CgView.decode b).used p with
    | true => exact hscan
    | false => exact ⟨p, hpl, rfl, hu⟩

end Choose

/-! ## Specifications -/
section Rules
variable {ufs : Ufs} {D : Disk} {used dirs : Finset ℕ} {E : Fault → Bytes → Prop}

/-- Inode `n` was taken. -/
structure TookInode (sb : Superblock) (D D' : Disk) (used dirs : Finset ℕ) (directory : Bool)
    (n : ℕ) : Prop where
  fresh : n ∉ used
  lt : n < sb.inodes
  map : InodeMap sb D' (insert n used) (if directory then insert n dirs else dirs)
  only : InodeOnly D D'

theorem setInodeState_eq {b : Bytes} {i : ℕ} {v : Bool} (hi : i < maxipg)
    (hb : CgOff.free ≤ b.length) : ∃ b', setInodeState b i v = .ok b' ∧ b'.length = b.length ∧
      CgView.decode b' =
        { CgView.decode b with used := Function.update (CgView.decode b).used i v } := by
  have hin : CgOff.iused + i / nbby < b.length := by
    simp only [maxipg, CgOff.free] at hi hb
    simp only [CgOff.iused, nbby]
    omega
  exact ⟨setBitAt b CgOff.iused i v, by rw [setInodeState, Outcome.guard_true hin]; rfl,
    setBitAt_length hin, decode_setUsed hi hb⟩

theorem adjustU32At_length {b : Bytes} {off : ℕ} {delta : ℤ} (h : off + 4 ≤ b.length) :
    (adjustU32At b off delta).length = b.length := by
  rw [adjustU32At, Bytes.putU32_length h]

theorem allocateInodeIn_hoare (g : ufs.sb.Geometry) (h : InodeMap ufs.sb D used dirs)
    {preferred : Option ℕ} (hp : ∀ p ∈ preferred, p < ufs.sb.ipg) {directory : Bool} {c : ℕ}
    (hc : c < ufs.sb.ncg) :
    (allocateInodeIn ufs preferred directory c).hoare ufs.Holds D
      (fun r D' => match r with
        | some n => TookInode ufs.sb D D' used dirs directory n
        | none => D' = D ∧ (D.cg c).counts.nifree = 0) E := by
  refine (readAllocatableCgBlock_hoare hc (h.magic c hc)).bind ?_
  rintro b D' ⟨rfl, hlen, hdec⟩
  have hmagic : b.u32 CgOff.magic = ufsCgMagic := by
    rw [← h.magic c hc, ← hdec]
    rfl
  have hnifree : b.u32 CgOff.nifree = (D'.cg c).counts.nifree := by
    rw [← hdec]
    rfl
  rw [if_neg (by simp [hmagic]), hnifree]
  by_cases hz : (D'.cg c).counts.nifree = 0
  · rw [if_pos hz]
    exact Act.hoare_pure ⟨rfl, hz⟩
  rw [if_neg hz]
  have hfb : CgOff.free ≤ b.length := by
    rw [hlen]
    exact g.free_le_bsize
  have hipg := g.ipg_le
  obtain ⟨i, hi, hchoose, hu⟩ := chooseInode_eq g hfb hp (by
    rw [hdec]
    exact h.exists_unused g hc hz)
  rw [hdec] at hu
  refine Act.hoare_lift_bind hchoose ?_
  have him : i < maxipg := by
    simp only [maxipg]
    omega
  obtain ⟨b₁, hb₁, hl₁, hd₁⟩ := setInodeState_eq (v := true) him hfb
  refine Act.hoare_lift_bind hb₁ ?_
  have hf₁ : CgOff.free ≤ b₁.length := by rwa [hl₁]
  have hl₂ : (b₁.putU32 CgOff.irotor i).length = b₁.length := by
    refine Bytes.putU32_length ?_
    simp only [CgOff.free, CgOff.irotor] at hf₁ ⊢
    omega
  have hd₂ := decode_putIrotor (v := i) hf₁ (by simp only [maxipg] at him; omega)
  have hl₃ : (adjustCgFreeInodes (b₁.putU32 CgOff.irotor i) (-1)).length = b₁.length := by
    rw [adjustCgFreeInodes, adjustU32At_length, hl₂]
    rw [hl₂]
    simp only [CgOff.free, CgOff.nifree] at hf₁ ⊢
    omega
  have hd₃ := @decode_adjustCgFreeInodes (b₁.putU32 CgOff.irotor i) (-1) (by rwa [hl₂])
  have hcount := h.nifree c hc
  have htotal := h.total_nifree
  have hin := g.inodes_lt
  have hcard := h.inGroup_card_le hc
  have hdirs := Finset.card_le_card h.dirs_sub
  have hle : used.card ≤ ufs.sb.inodes := by
    rw [← Finset.card_range ufs.sb.inodes]
    exact Finset.card_le_card fun n hn => Finset.mem_range.mpr (h.inRange n hn)
  have hfresh := h.not_mem_of_unused g hc hi hu
  have hlt := InodeMap.number_lt hc hi
  have hroom : used.card < ufs.sb.inodes := by
    rcases Nat.lt_or_ge used.card ufs.sb.inodes with hlt' | hge
    · exact hlt'
    · have hall : used = Finset.range ufs.sb.inodes := by
        refine Finset.eq_of_subset_of_card_le (fun n hn => Finset.mem_range.mpr (h.inRange n hn)) ?_
        rwa [Finset.card_range]
      exact absurd (hall ▸ Finset.mem_range.mpr hlt) hfresh
  have hinodes : ufs.sb.inodes < 2 ^ 32 := hin
  have hn : bump (D'.cg c).counts.nifree (-1) + 1 = (D'.cg c).counts.nifree := by
    have hb : bump (D'.cg c).counts.nifree (-1) = (D'.cg c).counts.nifree - 1 :=
      bump_eq (by omega) (by omega)
    omega
  have ht : bump D'.total.nifree (-1) + 1 = D'.total.nifree := by
    have hb : bump D'.total.nifree (-1) = D'.total.nifree - 1 := bump_eq (by omega) (by omega)
    omega
  have hndir := h.ndir c hc
  have htdir := h.total_ndir
  have hd : bump (D'.cg c).counts.ndir 1 = (D'.cg c).counts.ndir + 1 := bump_eq rfl (by omega)
  have htd : bump D'.total.ndir 1 = D'.total.ndir + 1 := bump_eq rfl (by omega)
  -- both ways end in the same kind of state
  have hdone : ∀ {nd : ℕ} {total : Csum}, nd = (D'.cg c).counts.ndir + directory.toNat →
      total.spaceCore = D'.total.spaceCore → total.nifree = bump D'.total.nifree (-1) →
      total.ndir = D'.total.ndir + directory.toNat →
      TookInode ufs.sb D' (D'.setInodeBit c i true i (bump (D'.cg c).counts.nifree (-1)) nd total)
        used dirs directory (c * ufs.sb.ipg + i) := by
    intro nd total hnd hsc htn htd'
    refine ⟨hfresh, hlt, ?_, Disk.setInodeBit_only _ _ _ _ _ _ _ _ hsc⟩
    refine h.insert g hc hi hu (fun c' hcc => Disk.setInodeBit_other _ _ _ _ _ _ _ _ hcc) ?_ ?_ ?_
      ?_ ?_ htd'
    · rw [Disk.setInodeBit_self]
    · rw [Disk.setInodeBit_self]
    · rw [Disk.setInodeBit_self]
      exact hn
    · rw [Disk.setInodeBit_self]
      exact hnd
    · change total.nifree + 1 = _
      rw [htn, ht]
  cases directory with
  | false =>
    simp only [Bool.false_eq_true, if_false]
    refine (writeCgBlock_hoare hc (hl₃.trans (hl₁.trans hlen)) rfl).seq ?_
    refine (adjustSuperblockFreeInodes_hoare rfl).seq ?_
    rw [hd₃, hd₂, hd₁, hdec]
    exact Act.hoare_pure (hdone rfl rfl rfl rfl)
  | true =>
    simp only [if_true]
    have hf₃ : CgOff.free ≤ (adjustCgFreeInodes (b₁.putU32 CgOff.irotor i) (-1)).length := by
      rwa [hl₃]
    have hl₄ : (adjustCgDirectoryCount (adjustCgFreeInodes (b₁.putU32 CgOff.irotor i) (-1))
        1).length = b₁.length := by
      rw [adjustCgDirectoryCount, adjustU32At_length, hl₃]
      simp only [CgOff.free, CgOff.ndir] at hf₃ ⊢
      omega
    refine (writeCgBlock_hoare hc (hl₄.trans (hl₁.trans hlen)) rfl).seq ?_
    refine (adjustSuperblockFreeInodes_hoare rfl).seq ?_
    refine (adjustSuperblockDirectoryCount_hoare rfl).seq ?_
    rw [decode_adjustCgDirectoryCount hf₃, hd₃, hd₂, hd₁, hdec]
    exact Act.hoare_pure (hdone hd rfl rfl htd)

theorem allocateInode_hoare (g : ufs.sb.Geometry) (h : InodeMap ufs.sb D used dirs)
    {preferred : Option ℕ} {directory : Bool} :
    (allocateInode ufs preferred directory).hoare ufs.Holds D
      (fun n D' => TookInode ufs.sb D D' used dirs directory n)
      (Unchanged ufs D (used.card = ufs.sb.inodes)) := by
  have hloop : (Act.firstSome (fun attempt => allocateInodeIn ufs
      (if attempt = 0 then preferred.map (· % ufs.sb.ipg) else none) directory
      (((preferred.map ufs.sb.itog).getD 0 + attempt) % ufs.sb.ncg)) (List.range ufs.sb.ncg)).hoare ufs.Holds D
      (fun r D' => match r with
        | some n => TookInode ufs.sb D D' used dirs directory n
        | none => D' = D ∧ ∀ c < ufs.sb.ncg, (D.cg c).counts.nifree = 0)
      (Unchanged ufs D (used.card = ufs.sb.inodes)) := by
    refine Act.hoare_firstSome
      (fun as d => d = D ∧ ∀ a < ufs.sb.ncg, a ∈ as ∨
        (D.cg (((preferred.map ufs.sb.itog).getD 0 + a) % ufs.sb.ncg)).counts.nifree = 0) ?_ ?_ ?_
    · rintro a as d ⟨rfl, hrest⟩
      refine (allocateInodeIn_hoare g h (fun p hp => ?_) (Nat.mod_lt _ g.ncg_pos)).post ?_
      · split_ifs at hp
        · obtain ⟨near, -, rfl⟩ := Option.mem_map.mp hp
          exact Nat.mod_lt _ g.ipg_pos
        · exact absurd hp (Option.not_mem_none _)
      intro r d' hr
      cases r with
      | some n => exact hr
      | none =>
        obtain ⟨rfl, hnone⟩ := hr
        refine ⟨rfl, fun a' ha' => ?_⟩
        rcases hrest a' ha' with hm | hm
        · rcases List.mem_cons.mp hm with rfl | hm
          · exact .inr hnone
          · exact .inl hm
        · exact .inr hm
    · rintro d ⟨rfl, hrest⟩
      refine ⟨rfl, fun c hc => ?_⟩
      obtain ⟨a, ha, he⟩ := exists_attempt g ((preferred.map ufs.sb.itog).getD 0) hc
      rcases hrest a ha with hm | hm
      · exact absurd hm List.not_mem_nil
      · rw [← he]
        exact hm
    · exact ⟨rfl, fun a ha => .inl (List.mem_range.mpr ha)⟩
  refine hloop.bind ?_
  intro r d hr
  cases r with
  | some n => exact Act.hoare_pure hr
  | none =>
    obtain ⟨rfl, hnone⟩ := hr
    refine Act.hoare_fail fun image hi => ⟨hi, ?_⟩
    -- every group is full, so every inode is used
    have hfiber : used.card = ∑ c ∈ Finset.range ufs.sb.ncg, (inGroup ufs.sb used c).card :=
      Finset.card_eq_sum_card_fiberwise fun n hn =>
        Finset.mem_coe.mpr (Finset.mem_range.mpr (Superblock.div_ipg_lt (h.inRange n hn)))
    rw [hfiber, Finset.sum_congr rfl fun c hc => ?_, Finset.sum_const, Finset.card_range,
      smul_eq_mul, Superblock.inodes]
    have hc' := Finset.mem_range.mp hc
    have hcount := h.nifree c hc'
    rw [hnone c hc', Nat.zero_add] at hcount
    exact hcount

theorem freeInode_hoare (g : ufs.sb.Geometry) (h : InodeMap ufs.sb D used dirs) {n : ℕ}
    (hn : n ∈ used) {directory : Bool} (hdir : directory = true ↔ n ∈ dirs) :
    (freeInode ufs n directory).hoare ufs.Holds D
      (fun _ D' => InodeMap ufs.sb D' (used.erase n) (dirs.erase n) ∧ InodeOnly D D') E := by
  have hlt := h.inRange n hn
  have hc := Superblock.div_ipg_lt hlt
  have hi := g.mod_ipg_lt n
  have hnum : n / ufs.sb.ipg * ufs.sb.ipg + n % ufs.sb.ipg = n := Nat.div_add_mod' n ufs.sb.ipg
  have hu : (D.cg (n / ufs.sb.ipg)).used (n % ufs.sb.ipg) = true := (h.mem n hlt).mpr hn
  rw [freeInode]
  dsimp only
  rw [Superblock.itog]
  generalize n / ufs.sb.ipg = c at *
  generalize n % ufs.sb.ipg = i at *
  subst hnum
  refine (readCgBlock_hoare hc).bind ?_
  rintro b D' ⟨rfl, hlen, hdec⟩
  have hmagic : b.u32 CgOff.magic = ufsCgMagic := by
    rw [← h.magic c hc, ← hdec]
    rfl
  rw [if_neg (by simp [hmagic])]
  have hfb : CgOff.free ≤ b.length := by
    rw [hlen]
    exact g.free_le_bsize
  have hipg := g.ipg_le
  have him : i < maxipg := by
    simp only [maxipg]
    omega
  refine Act.hoare_lift_bind (isInodeUsed_eq him hfb) ?_
  rw [hdec, hu]
  simp only [not_true_eq_false, if_false]
  obtain ⟨b₁, hb₁, hl₁, hd₁⟩ := setInodeState_eq (v := false) him hfb
  refine Act.hoare_lift_bind hb₁ ?_
  have hf₁ : CgOff.free ≤ b₁.length := by rwa [hl₁]
  have hl₂ : (adjustCgFreeInodes b₁ 1).length = b₁.length := by
    rw [adjustCgFreeInodes, adjustU32At_length]
    simp only [CgOff.free, CgOff.nifree] at hf₁ ⊢
    omega
  have hd₂ := @decode_adjustCgFreeInodes _ 1 hf₁
  have hcount := h.nifree c hc
  have htotal := h.total_nifree
  have hinodes : ufs.sb.inodes < 2 ^ 32 := g.inodes_lt
  have hsome : 0 < used.card := Finset.card_pos.mpr ⟨_, hn⟩
  have hnb : bump (D'.cg c).counts.nifree 1 = (D'.cg c).counts.nifree + 1 := bump_eq rfl (by omega)
  have htb : bump D'.total.nifree 1 = D'.total.nifree + 1 := bump_eq rfl (by omega)
  have hcard := h.inGroup_card_le hc
  have hndir := h.ndir c hc
  have htdir := h.total_ndir
  have hdone : ∀ {nd : ℕ} {total : Csum}, nd + directory.toNat = (D'.cg c).counts.ndir →
      total.spaceCore = D'.total.spaceCore → total.nifree = bump D'.total.nifree 1 →
      total.ndir + directory.toNat = D'.total.ndir →
      InodeMap ufs.sb (D'.setInodeBit c i false (D'.cg c).irotor
        (bump (D'.cg c).counts.nifree 1) nd total) (used.erase (c * ufs.sb.ipg + i))
        (dirs.erase (c * ufs.sb.ipg + i)) ∧
      InodeOnly D' (D'.setInodeBit c i false (D'.cg c).irotor
        (bump (D'.cg c).counts.nifree 1) nd total) := by
    intro nd total hnd hsc htn htd'
    refine ⟨?_, Disk.setInodeBit_only _ _ _ _ _ _ _ _ hsc⟩
    refine h.erase g hc hi hn hdir (fun c' hcc => Disk.setInodeBit_other _ _ _ _ _ _ _ _ hcc) ?_ ?_
      ?_ ?_ ?_ htd'
    · rw [Disk.setInodeBit_self]
    · rw [Disk.setInodeBit_self]
    · rw [Disk.setInodeBit_self]
      exact hnb
    · rw [Disk.setInodeBit_self]
      exact hnd
    · exact htn.trans htb
  cases directory with
  | false =>
    simp only [Bool.false_eq_true, if_false]
    refine (writeCgBlock_hoare hc (hl₂.trans (hl₁.trans hlen)) rfl).seq ?_
    refine (adjustSuperblockFreeInodes_hoare rfl).seq ?_
    rw [hd₂, hd₁, hdec]
    exact Act.hoare_pure (hdone rfl rfl rfl rfl)
  | true =>
    have hmem := hdir.mp rfl
    have hpos : 0 < (inGroup ufs.sb dirs c).card :=
      Finset.card_pos.mpr ⟨_, mem_inGroup.mpr ⟨hmem, InodeMap.number_div g hi⟩⟩
    have hpos' : 0 < dirs.card := Finset.card_pos.mpr ⟨_, hmem⟩
    have hdle := Finset.card_le_card h.dirs_sub
    have hd : bump (D'.cg c).counts.ndir (-1) + 1 = (D'.cg c).counts.ndir := by
      have hb : bump (D'.cg c).counts.ndir (-1) = (D'.cg c).counts.ndir - 1 :=
        bump_eq (by omega) (by omega)
      omega
    have htd : bump D'.total.ndir (-1) + 1 = D'.total.ndir := by
      have hb : bump D'.total.ndir (-1) = D'.total.ndir - 1 := bump_eq (by omega) (by omega)
      omega
    simp only [if_true]
    have hf₂ : CgOff.free ≤ (adjustCgFreeInodes b₁ 1).length := by rwa [hl₂]
    have hl₃ : (adjustCgDirectoryCount (adjustCgFreeInodes b₁ 1) (-1)).length = b₁.length := by
      rw [adjustCgDirectoryCount, adjustU32At_length, hl₂]
      simp only [CgOff.free, CgOff.ndir] at hf₂ ⊢
      omega
    refine (writeCgBlock_hoare hc (hl₃.trans (hl₁.trans hlen)) rfl).seq ?_
    refine (adjustSuperblockFreeInodes_hoare rfl).seq ?_
    refine adjustSuperblockDirectoryCount_hoare ?_
    rw [decode_adjustCgDirectoryCount hf₂, hd₂, hd₁, hdec]
    exact hdone hd rfl rfl htd

end Rules
end UfsFuse
