import UfsFuse.Recount
import UfsFuse.Volume

/-!
# Derived counts

What a recount finds: the whole free blocks of the ledger and the inodes of the inode map. So the
counts that a recount stores are those that ledger and inode map ask for.
-/
namespace UfsFuse

section Blocks
variable {sb : Superblock} {v : CgView}

/-- Whole blocks in a group whose free bits stop at its end. -/
theorem CgView.blockCount_eq (hfrag : 0 < sb.frag) (hn : v.ndblk ≤ sb.fpg)
    (hfree : ∀ i, v.free i = true → i < v.ndblk) :
    v.blockCount sb.frag = (v.wholeBlocks sb).card := by
  rw [CgView.blockCount, Nat.count_eq_card_filter_range]
  congr 1
  ext k
  rw [CgView.wholeBlocks, Finset.mem_filter, Finset.mem_filter, Finset.mem_range, Finset.mem_range]
  refine and_congr_left fun hall => ?_
  have hlast := hfree _ (hall (sb.frag - 1) (by omega))
  have hk := Nat.le_mul_of_pos_right k hfrag
  refine iff_of_true ?_ (by omega)
  rw [← Nat.succ_le_iff, Nat.le_div_iff_mul_le hfrag, Nat.succ_mul]
  omega

theorem CgView.freeCount_le (v : CgView) : v.freeCount ≤ v.ndblk := Nat.count_le _

theorem CgView.blockCount_mul_le (v : CgView) (frag : ℕ) :
    v.blockCount frag * frag ≤ v.freeCount := by
  have h1 := v.count_windows frag (v.ndblk / frag)
  have h2 := v.sum_windows frag (v.ndblk / frag)
  have h3 := Nat.count_monotone (v.free · = true) (Nat.div_mul_le_self v.ndblk frag)
  rw [CgView.blockCount, CgView.freeCount]
  omega

/-- Free fragments are counted as whole blocks and as the rest. -/
theorem derived_freeCount (c : ℕ) (ino : ℕ → Dinode) :
    (v.derived sb c ino).nbfree * sb.frag + (v.derived sb c ino).nffree = v.freeCount := by
  have h := v.blockCount_mul_le sb.frag
  rw [CgView.derived]
  dsimp only
  omega

end Blocks

/-! ## The range of the counts -/
section Range
variable {sb : Superblock} {D : Disk} (g : sb.Geometry)
include g

theorem Superblock.Geometry.two_le_ipg : 2 ≤ sb.ipg := by
  have h1 := Nat.le_of_dvd g.ipg_pos g.inopb_dvd
  have h2 := g.inopb_eq
  have h3 := g.frag_pos
  omega

theorem derived_bounds (hn : ∀ c < sb.ncg, (D.cg c).ndblk = sb.groupFrags c) {c : ℕ}
    (hc : c < sb.ncg) : (D.derived sb c).ndir ≤ sb.ipg ∧ (D.derived sb c).nifree ≤ sb.ipg ∧
      (D.derived sb c).nbfree ≤ sb.groupFrags c ∧ (D.derived sb c).nffree ≤ sb.groupFrags c := by
  have h1 := @derived_freeCount sb (D.cg c) c D.ino
  have h2 := (D.cg c).freeCount_le
  rw [hn c hc] at h2
  have h3 := Nat.le_mul_of_pos_right (D.derived sb c).nbfree (show 0 < sb.frag from by
    have := g.frag_pos
    omega)
  unfold Disk.derived at h3 ⊢
  refine ⟨Nat.count_le _, ?_, by omega, by omega⟩
  rw [CgView.derived]
  dsimp only
  omega

/-- Sums of counts that groups bound. -/
theorem sum_counts_lt {f : ℕ → ℕ}
    (hall : (∀ c < sb.ncg, f c ≤ sb.ipg) ∨ ∀ c < sb.ncg, f c ≤ sb.groupFrags c) :
    ∑ c ∈ Finset.range sb.ncg, f c < 2 ^ 32 := by
  have hi := g.inodes_lt
  have hd := g.dsize_lt
  cases hall with
  | inl hall =>
    have hsum : ∑ c ∈ Finset.range sb.ncg, f c ≤ sb.ncg * sb.ipg := by
      have := Finset.sum_le_card_nsmul (Finset.range sb.ncg) f sb.ipg fun c hc =>
        hall c (Finset.mem_range.mp hc)
      rwa [Finset.card_range, smul_eq_mul] at this
    omega
  | inr hall =>
    have hsum : ∑ c ∈ Finset.range sb.ncg, f c ≤ sb.dsize :=
      (Finset.sum_le_sum fun c hc => hall c (Finset.mem_range.mp hc)).trans
        ((sum_groupFrags_le sb _).trans (min_le_right _ _))
    omega

/-- The counts fit the words they are stored in. -/
theorem derived_stored (hn : ∀ c < sb.ncg, (D.cg c).ndblk = sb.groupFrags c) {c : ℕ}
    (hc : c < sb.ncg) : (D.derived sb c).stored = D.derived sb c := by
  obtain ⟨h1, h2, h3, h4⟩ := derived_bounds g hn hc
  have hi := g.ipg_le
  have hd := g.dsize_lt
  have he := g.group_end hc
  unfold Csum.stored
  rw [Nat.mod_eq_of_lt (by omega), Nat.mod_eq_of_lt (by omega), Nat.mod_eq_of_lt (by omega),
    Nat.mod_eq_of_lt (by omega)]

theorem derivedTotal_stored (hn : ∀ c < sb.ncg, (D.cg c).ndblk = sb.groupFrags c) :
    (D.derivedTotal sb).stored = D.derivedTotal sb := by
  have hb := fun c hc => derived_bounds g hn (c := c) hc
  unfold Csum.stored Disk.derivedTotal
  rw [Nat.mod_eq_of_lt (sum_counts_lt g (.inl fun c hc => (hb c hc).1)),
    Nat.mod_eq_of_lt (sum_counts_lt g (.inr fun c hc => (hb c hc).2.2.1)),
    Nat.mod_eq_of_lt (sum_counts_lt g (.inl fun c hc => (hb c hc).2.1)),
    Nat.mod_eq_of_lt (sum_counts_lt g (.inr fun c hc => (hb c hc).2.2.2))]

end Range

/-! ## Recounted groups -/
section Recounted
variable {sb : Superblock} {D : Disk} (g : sb.Geometry)
  (hn : ∀ c < sb.ncg, (D.cg c).ndblk = sb.groupFrags c)
include g hn

/-- A recounted group: its maps as they were, its counts derived. -/
theorem recounted_cg {c : ℕ} (hc : c < sb.ncg) : (D.recounted sb).cg c =
    { D.cg c with irotor := clampRotor sb (D.cg c), counts := D.derived sb c } := by
  have hcg : (D.recounted sb).cg c = (D.cg c).recounted sb (D.derived sb c) := if_pos hc
  rw [hcg, CgView.recounted, derived_stored g hn hc]

theorem recounted_total : (D.recounted sb).total = D.derivedTotal sb := derivedTotal_stored g hn

/-- A recount makes the counts of a ledger right. -/
theorem Space.recounted {runs : List Run} (hmagic : ∀ c < sb.ncg, (D.cg c).magic = ufsCgMagic)
    (isRun : ∀ r ∈ runs, sb.IsRun r.1 r.2) (apart : runs.Pairwise Run.Apart)
    (free_data : ∀ c < sb.ncg, ∀ i, (D.cg c).free i = true → sb.dblkno ≤ i ∧ i < sb.groupFrags c)
    (owned : ∀ f, sb.IsData f → (D.isFree sb f = false ↔ Covered runs f)) :
    Space sb (D.recounted sb) runs := by
  have hblocks : ∀ c < sb.ncg, (D.derived sb c).nbfree = ((D.cg c).wholeBlocks sb).card := by
    intro c hc
    refine CgView.blockCount_eq (by have := g.frag_pos; omega) ?_ fun i hi => ?_
    · rw [hn c hc]
      exact Superblock.groupFrags_le sb c
    · rw [hn c hc]
      exact (free_data c hc i hi).2
  have hwhole : ∀ c < sb.ncg, ((D.recounted sb).cg c).wholeBlocks sb = (D.cg c).wholeBlocks sb :=
    fun c hc => by
      rw [recounted_cg g hn hc]
      rfl
  refine ⟨fun c hc => ?_, fun c hc => ?_, isRun, apart, fun c hc => ?_, fun f hf => ?_,
    fun c hc => ?_, ?_⟩
  · rw [recounted_cg g hn hc]
    exact hmagic c hc
  · rw [recounted_cg g hn hc]
    exact hn c hc
  · rw [recounted_cg g hn hc]
    exact free_data c hc
  · rw [Disk.isFree, recounted_cg g hn hf.1]
    exact owned f hf
  · rw [hwhole c hc, recounted_cg g hn hc]
    exact hblocks c hc
  · rw [recounted_total g hn]
    rw [Finset.sum_congr rfl fun c hc => by rw [hwhole c (Finset.mem_range.mp hc)]]
    exact Finset.sum_congr rfl fun c hc => hblocks c (Finset.mem_range.mp hc)

end Recounted

/-! ## Inodes -/
section Inodes
variable {sb : Superblock} {D : Disk} {ns used dirs : Finset ℕ} {c : ℕ}

/-- The inodes of one group, by their numbers in the group. -/
theorem inGroup_card (g : sb.Geometry) :
    (inGroup sb ns c).card = Nat.count (fun i => c * sb.ipg + i ∈ ns) sb.ipg := by
  rw [Nat.count_eq_card_filter_range]
  refine Finset.card_nbij' (· % sb.ipg) (c * sb.ipg + ·) ?_ ?_ ?_ ?_
  · intro n hn
    obtain ⟨h1, h2⟩ := mem_inGroup.mp hn
    have hdm := Nat.div_add_mod' n sb.ipg
    rw [h2] at hdm
    simp only [Finset.coe_filter, Set.mem_ofPred_eq, Finset.mem_range]
    exact ⟨g.mod_ipg_lt n, by rwa [hdm]⟩
  · intro i hi
    simp only [Finset.coe_filter, Set.mem_ofPred_eq, Finset.mem_range] at hi
    exact mem_inGroup.mpr ⟨hi.2, InodeMap.number_div g hi.1⟩
  · intro n hn
    have hdm := Nat.div_add_mod' n sb.ipg
    rw [(mem_inGroup.mp hn).2] at hdm
    exact hdm
  · intro i hi
    simp only [Finset.coe_filter, Set.mem_ofPred_eq, Finset.mem_range] at hi
    exact InodeMap.number_mod hi.1

/-- Every inode is in one group. -/
theorem sum_inGroup (h : ∀ n ∈ ns, n < sb.inodes) :
    ∑ c ∈ Finset.range sb.ncg, (inGroup sb ns c).card = ns.card :=
  (Finset.card_eq_sum_card_fiberwise fun n hn =>
    Finset.mem_coe.mpr (Finset.mem_range.mpr (Superblock.div_ipg_lt (h n hn)))).symm

theorem count_split {p q : ℕ → Prop} [DecidablePred p] [DecidablePred q] {k n : ℕ} (hk : k ≤ n)
    (hlow : ∀ i < k, p i) (hq : ∀ i < n, q i ↔ k ≤ i ∧ p i) : Nat.count p n = k + Nat.count q n := by
  obtain ⟨m, rfl⟩ := Nat.exists_eq_add_of_le hk
  have h1 : Nat.count p k = k := Nat.count_of_forall hlow
  have h2 : Nat.count q k = 0 := Nat.count_of_forall_not fun i hi hqi =>
    absurd ((hq i (by omega)).mp hqi).1 (not_le.mpr hi)
  rw [Nat.count_add, Nat.count_add, h1, h2, Nat.zero_add]
  congr 1
  refine count_congr fun i hi => ?_
  rw [hq (k + i) (by omega)]
  exact (and_iff_right (Nat.le_add_right k i)).symm

variable (g : sb.Geometry) (hmem : ∀ n < sb.inodes, (D.inodeUsed sb n = true ↔ n ∈ used))
include g hmem

theorem used_iff {i : ℕ} (hc : c < sb.ncg) (hi : i < sb.ipg) :
    (D.cg c).used i = true ↔ c * sb.ipg + i ∈ used := by
  rw [← hmem _ (InodeMap.number_lt hc hi), Disk.inodeUsed, InodeMap.number_div g hi,
    InodeMap.number_mod hi]

/-- The free inodes of a group, with 0 and 1 always taken. -/
theorem derived_nifree (h0 : 0 ∈ used) (h1 : 1 ∈ used) (hc : c < sb.ncg) :
    (D.derived sb c).nifree + (inGroup sb used c).card = sb.ipg := by
  have hr : reservedIn c ≤ sb.ipg := by
    have := g.two_le_ipg
    unfold reservedIn
    split_ifs <;> omega
  have hsplit : (inGroup sb used c).card =
      reservedIn c + Nat.count ((D.cg c).Counts c) sb.ipg := by
    rw [inGroup_card g]
    refine count_split hr (fun i hi => ?_) fun i hi => ?_
    · by_cases hc0 : c = 0
      · subst hc0
        have hi2 : i < 2 := hi
        rw [Nat.zero_mul, Nat.zero_add]
        interval_cases i
        · exact h0
        · exact h1
      · rw [reservedIn, if_neg hc0] at hi
        exact absurd hi (Nat.not_lt_zero i)
    · exact and_congr_right fun _ => used_iff g hmem hc hi
  have hle : Nat.count (fun i => c * sb.ipg + i ∈ used) sb.ipg ≤ sb.ipg := Nat.count_le _
  rw [inGroup_card g] at hsplit ⊢
  rw [Disk.derived, CgView.derived]
  dsimp only
  omega

/-- The directories of a group. -/
theorem derived_ndir (hdirs : ∀ n ∈ dirs, n ∈ used ∧ 2 ≤ n)
    (hdir : ∀ n ∈ used, 2 ≤ n → ((D.ino n).isDirectory = true ↔ n ∈ dirs)) (hc : c < sb.ncg) :
    (D.derived sb c).ndir = (inGroup sb dirs c).card := by
  rw [inGroup_card g]
  refine count_congr fun i hi => ?_
  have hres : reservedIn c ≤ i ∧ c * sb.ipg + i ∈ used ↔
      c * sb.ipg + i ∈ used ∧ 2 ≤ c * sb.ipg + i := by
    have hipg := g.two_le_ipg
    rw [and_comm, and_congr_right_iff]
    intro _
    unfold reservedIn
    by_cases hc0 : c = 0
    · subst hc0
      rw [if_pos rfl, Nat.zero_mul, Nat.zero_add]
    · rw [if_neg hc0]
      have := Nat.le_mul_of_pos_left sb.ipg (Nat.pos_of_ne_zero hc0)
      omega
  rw [CgView.CountsDir, CgView.Counts, used_iff g hmem hc hi, hres]
  constructor
  · rintro ⟨⟨hu, h2⟩, hd⟩
    exact (hdir _ hu h2).mp hd
  · intro hd
    obtain ⟨hu, h2⟩ := hdirs _ hd
    exact ⟨⟨hu, h2⟩, (hdir _ hu h2).mpr hd⟩

/-- A recount makes the counts of an inode map right. -/
theorem InodeMap.recounted (hn : ∀ c < sb.ncg, (D.cg c).ndblk = sb.groupFrags c)
    (hmagic : ∀ c < sb.ncg, (D.cg c).magic = ufsCgMagic) (inRange : ∀ n ∈ used, n < sb.inodes)
    (h0 : 0 ∈ used) (h1 : 1 ∈ used) (hdirs : ∀ n ∈ dirs, n ∈ used ∧ 2 ≤ n)
    (hdir : ∀ n ∈ used, 2 ≤ n → ((D.ino n).isDirectory = true ↔ n ∈ dirs)) :
    InodeMap sb (D.recounted sb) used dirs := by
  have hnifree := fun c hc => derived_nifree (c := c) g hmem h0 h1 hc
  have hndir := fun c hc => derived_ndir (c := c) g hmem hdirs hdir hc
  refine ⟨fun c hc => ?_, fun n hlt => ?_, inRange, fun n hd => (hdirs n hd).1, fun c hc => ?_,
    fun c hc => ?_, ?_, ?_⟩
  · rw [recounted_cg g hn hc]
    exact hmagic c hc
  · rw [Disk.inodeUsed, recounted_cg g hn (Superblock.div_ipg_lt hlt)]
    exact hmem n hlt
  · rw [recounted_cg g hn hc]
    exact hnifree c hc
  · rw [recounted_cg g hn hc]
    exact hndir c hc
  · rw [recounted_total g hn, ← sum_inGroup inRange, Superblock.inodes]
    have hsum : ∑ c ∈ Finset.range sb.ncg, ((D.derived sb c).nifree + (inGroup sb used c).card) =
        sb.ncg * sb.ipg := by
      rw [Finset.sum_congr rfl fun c hc => hnifree c (Finset.mem_range.mp hc), Finset.sum_const,
        Finset.card_range, smul_eq_mul]
    rw [← hsum, Finset.sum_add_distrib]
    rfl
  · rw [recounted_total g hn, ← sum_inGroup fun n hd => inRange n (hdirs n hd).1]
    exact Finset.sum_congr rfl fun c hc => hndir c (Finset.mem_range.mp hc)

end Inodes
end UfsFuse
