import UfsFuse.SliceLayout

/-!
# Slices in order

What `build_slice_layout` computes in plain numbers, where nothing overflows. Slices begin and end on
cylinders, one after the other, and root takes what is left of the disk.
-/
namespace UfsFuse

/-! ## The plan in plain numbers -/

/-- `align_up` in plain numbers. -/
def alignTo (value alignment : ℕ) : ℕ := if alignment = 0 then value else ceilTo value alignment

theorem le_alignTo (value alignment : ℕ) : value ≤ alignTo value alignment := by
  unfold alignTo
  by_cases h : alignment = 0
  · rw [if_pos h]
  · rw [if_neg h]
    exact le_ceilTo (Nat.pos_of_ne_zero h)

theorem dvd_ceilTo (v a : ℕ) : a ∣ ceilTo v a := Dvd.intro _ rfl

structure SlicePlan where
  spc : ℕ
  total : ℕ
  standStart : ℕ
  standCount : ℕ
  swapCount : ℕ
  rootAlign : ℕ

namespace SlicePlan

/-- Where the slice after `stop` begins. -/
def next (plan : SlicePlan) (stop : ℕ) : ℕ := ceilTo (alignTo stop plan.rootAlign) plan.spc

def standEnd (plan : SlicePlan) : ℕ := plan.standStart + plan.standCount
def swapStart (plan : SlicePlan) : ℕ := plan.next plan.standEnd
def swapEnd (plan : SlicePlan) : ℕ := plan.swapStart + plan.swapCount
def rootStart (plan : SlicePlan) : ℕ := plan.next plan.swapEnd

end SlicePlan

/-- The plan for a disk and the options. -/
def planOf (geometry : RawDiskGeometry) (opts : SliceLayoutOptions) : SlicePlan :=
  let spc := geometry.heads.toNat * geometry.sectorsPerTrack.toNat
  { spc
    total := geometry.cylinders.toNat * spc
    standStart := ceilTo opts.standStartSector.toNat spc
    standCount := ceilTo (opts.standSizeMb.toNat * 1024 * 1024 / 512) spc
    swapCount := ceilTo (opts.swapSizeMb.toNat * 1024 * 1024 / 512) spc
    rootAlign := opts.rootAlignSectors.toNat }

/-- No `u64` operation of `build_slice_layout` overflows; with an empty slice the last ones are not
reached. -/
structure NoOverflow (geometry : RawDiskGeometry) (opts : SliceLayoutOptions) : Prop where
  total : (planOf geometry opts).total < 2 ^ 64
  standStart : (planOf geometry opts).standStart < 2 ^ 64
  standSize : opts.standSizeMb.toNat * 1024 * 1024 < 2 ^ 64
  swapSize : opts.swapSizeMb.toNat * 1024 * 1024 < 2 ^ 64
  standCount : (planOf geometry opts).standCount < 2 ^ 64
  swapCount : (planOf geometry opts).swapCount < 2 ^ 64
  starts : 0 < (planOf geometry opts).standCount → 0 < (planOf geometry opts).swapCount →
    (planOf geometry opts).standEnd < 2 ^ 64 ∧
      alignTo (planOf geometry opts).standEnd (planOf geometry opts).rootAlign < 2 ^ 64 ∧
      (planOf geometry opts).swapStart < 2 ^ 64 ∧ (planOf geometry opts).swapEnd < 2 ^ 64 ∧
      alignTo (planOf geometry opts).swapEnd (planOf geometry opts).rootAlign < 2 ^ 64 ∧
      (planOf geometry opts).rootStart < 2 ^ 64

/-! ## Without overflow -/
section Exact
variable {geometry : RawDiskGeometry} {opts : SliceLayoutOptions} {v a mb : UInt64}

theorem alignUp_exact (h : alignTo v.toNat a.toNat < 2 ^ 64) :
    (Sectors.alignUp v a).toNat = alignTo v.toNat a.toNat := by
  unfold alignTo at h ⊢
  by_cases ha : a = 0
  · rw [ha, alignUp_zero]
    exact (if_pos rfl).symm
  · have hne : a.toNat ≠ 0 := (toNat_pos_of_ne_zero ha).ne'
    rw [if_neg hne] at h ⊢
    rw [alignUp_toNat v ha, Nat.mod_eq_of_lt h]

theorem sectorsOfMb_exact (h : mb.toNat * 1024 * 1024 < 2 ^ 64) :
    (sectorsOfMb mb).toNat = mb.toNat * 1024 * 1024 / 512 := by
  have hmib : (1024 : UInt64).toNat = 1024 := by decide
  have hsector : (512 : UInt64).toNat = 512 := by decide
  have hfirst : mb.toNat * 1024 < 2 ^ 64 :=
    Nat.lt_of_le_of_lt (Nat.le_mul_of_pos_right _ (by norm_num)) h
  unfold sectorsOfMb
  rw [UInt64.toNat_div, UInt64.toNat_mul, UInt64.toNat_mul, hmib, hsector, Nat.mod_eq_of_lt hfirst,
    Nat.mod_eq_of_lt h]

theorem totalSectors_exact (h : (planOf geometry opts).total < 2 ^ 64) :
    geometry.totalSectors.toNat = (planOf geometry opts).total := by
  have hc := geometry.cylinders.toNat_lt
  have hh := geometry.heads.toNat_lt
  have hfirst : (geometry.cylinders.toUInt64 * geometry.heads.toUInt64).toNat =
      geometry.cylinders.toNat * geometry.heads.toNat := by
    rw [UInt64.toNat_mul, UInt32.toNat_toUInt64, UInt32.toNat_toUInt64]
    exact Nat.mod_eq_of_lt (by nlinarith)
  unfold RawDiskGeometry.totalSectors
  rw [UInt64.toNat_mul, hfirst, UInt32.toNat_toUInt64, Nat.mul_assoc]
  exact Nat.mod_eq_of_lt h

/-- With cylinders the plan's slices are on cylinders. -/
structure Positive (geometry : RawDiskGeometry) : Prop where
  cylinders : 0 < geometry.cylinders.toNat
  heads : 0 < geometry.heads.toNat
  sectors : 0 < geometry.sectorsPerTrack.toNat

theorem Positive.spc (h : Positive geometry) : 0 < (planOf geometry opts).spc :=
  Nat.mul_pos h.heads h.sectors

theorem Positive.total (h : Positive geometry) : 0 < (planOf geometry opts).total :=
  Nat.mul_pos h.cylinders (Nat.mul_pos h.heads h.sectors)

/-- The numbers of the code are those of the plan. -/
theorem NoOverflow.exact (h : NoOverflow geometry opts) (hpos : Positive geometry) :
    geometry.sectorsPerCylinder.toNat = (planOf geometry opts).spc ∧
      geometry.totalSectors.toNat = (planOf geometry opts).total ∧
      (Sectors.alignUp opts.standStartSector geometry.sectorsPerCylinder).toNat =
        (planOf geometry opts).standStart ∧
      (Sectors.alignUp (sectorsOfMb opts.standSizeMb) geometry.sectorsPerCylinder).toNat =
        (planOf geometry opts).standCount ∧
      (Sectors.alignUp (sectorsOfMb opts.swapSizeMb) geometry.sectorsPerCylinder).toNat =
        (planOf geometry opts).swapCount := by
  have hspc := geometry.sectorsPerCylinder_toNat
  have hne : geometry.heads.toNat * geometry.sectorsPerTrack.toNat ≠ 0 :=
    (Nat.mul_pos hpos.heads hpos.sectors).ne'
  have halign : ∀ {value : UInt64} {n : ℕ}, value.toNat = n →
      ceilTo n (geometry.heads.toNat * geometry.sectorsPerTrack.toNat) < 2 ^ 64 →
      (Sectors.alignUp value geometry.sectorsPerCylinder).toNat =
        ceilTo n (geometry.heads.toNat * geometry.sectorsPerTrack.toNat) := by
    rintro value n rfl hlt
    have heq : alignTo value.toNat geometry.sectorsPerCylinder.toNat =
        ceilTo value.toNat (geometry.heads.toNat * geometry.sectorsPerTrack.toNat) := by
      rw [hspc, alignTo, if_neg hne]
    rw [alignUp_exact (heq ▸ hlt), heq]
  exact ⟨hspc, totalSectors_exact h.total, halign rfl h.standStart,
    halign (sectorsOfMb_exact h.standSize) h.standCount,
    halign (sectorsOfMb_exact h.swapSize) h.swapCount⟩

/-- One slice after the other. -/
theorem nextStart_exact (hpos : Positive geometry) {stop : UInt64} {n : ℕ} (hstop : stop.toNat = n)
    (h₁ : alignTo n (planOf geometry opts).rootAlign < 2 ^ 64)
    (h₂ : (planOf geometry opts).next n < 2 ^ 64) :
    (nextStart stop opts.rootAlignSectors geometry.sectorsPerCylinder).toNat =
      (planOf geometry opts).next n := by
  subst hstop
  have hfirst : (Sectors.alignUp stop opts.rootAlignSectors).toNat =
      alignTo stop.toNat (planOf geometry opts).rootAlign := alignUp_exact h₁
  have hne : (planOf geometry opts).spc ≠ 0 := hpos.spc.ne'
  have heq : alignTo (Sectors.alignUp stop opts.rootAlignSectors).toNat
      geometry.sectorsPerCylinder.toNat = (planOf geometry opts).next stop.toNat := by
    rw [hfirst, geometry.sectorsPerCylinder_toNat, alignTo]
    exact if_neg hne
  unfold nextStart
  rw [alignUp_exact (heq ▸ h₂), heq]

theorem NoOverflow.exact_starts (h : NoOverflow geometry opts) (hpos : Positive geometry)
    (hstand : 0 < (planOf geometry opts).standCount) (hswap : 0 < (planOf geometry opts).swapCount) :
    (nextStart (Sectors.alignUp opts.standStartSector geometry.sectorsPerCylinder +
      Sectors.alignUp (sectorsOfMb opts.standSizeMb) geometry.sectorsPerCylinder)
      opts.rootAlignSectors geometry.sectorsPerCylinder).toNat = (planOf geometry opts).swapStart ∧
    (nextStart (nextStart (Sectors.alignUp opts.standStartSector geometry.sectorsPerCylinder +
      Sectors.alignUp (sectorsOfMb opts.standSizeMb) geometry.sectorsPerCylinder)
      opts.rootAlignSectors geometry.sectorsPerCylinder +
        Sectors.alignUp (sectorsOfMb opts.swapSizeMb) geometry.sectorsPerCylinder)
      opts.rootAlignSectors geometry.sectorsPerCylinder).toNat = (planOf geometry opts).rootStart := by
  obtain ⟨-, -, hstart, hcount, hswapCount⟩ := h.exact hpos
  obtain ⟨hend, halign, hswapStart, hswapEnd, halign', hrootStart⟩ := h.starts hstand hswap
  have hstop : (Sectors.alignUp opts.standStartSector geometry.sectorsPerCylinder +
      Sectors.alignUp (sectorsOfMb opts.standSizeMb) geometry.sectorsPerCylinder).toNat =
      (planOf geometry opts).standEnd := by
    rw [UInt64.toNat_add, hstart, hcount]
    exact Nat.mod_eq_of_lt hend
  have hnext := nextStart_exact hpos hstop halign hswapStart
  have hstop' : (nextStart (Sectors.alignUp opts.standStartSector geometry.sectorsPerCylinder +
      Sectors.alignUp (sectorsOfMb opts.standSizeMb) geometry.sectorsPerCylinder)
      opts.rootAlignSectors geometry.sectorsPerCylinder +
        Sectors.alignUp (sectorsOfMb opts.swapSizeMb) geometry.sectorsPerCylinder).toNat =
      (planOf geometry opts).swapEnd := by
    rw [UInt64.toNat_add, hnext, hswapCount]
    exact Nat.mod_eq_of_lt hswapEnd
  exact ⟨hnext, nextStart_exact hpos hstop' halign' hrootStart⟩

end Exact

/-! ## The layout -/

/-- The sectors of the UNIX partition. -/
def DiskLayout.partition (layout : DiskLayout) : Set ℤ :=
  Set.Ico layout.unixPartitionStart.toNat
    (layout.unixPartitionStart.toNat + layout.unixPartitionSize.toNat)

/-- The slices of a layout for these options: in order, on cylinders, where and as large as they were
asked for, inside the UNIX partition and up to the end of the disk. -/
structure SlicesOrdered (geometry : RawDiskGeometry) (opts : SliceLayoutOptions)
    (partition : Set ℤ) (backup root swap stand : VtocPartition) : Prop where
  tags : backup.tag = vBackup ∧ root.tag = layoutTagRoot ∧ swap.tag = layoutTagSwap ∧
    stand.tag = layoutTagStand
  nonempty : 0 < stand.sectorCount ∧ 0 < swap.sectorCount ∧ 0 < root.sectorCount
  apart : [stand.sectors, swap.sectors, root.sectors].Pairwise Disjoint
  ordered : stand.startSector + stand.sectorCount ≤ swap.startSector ∧
    swap.startSector + swap.sectorCount ≤ root.startSector
  onCylinders : ∀ p ∈ [stand, swap, root], ((planOf geometry opts).spc : ℤ) ∣ p.startSector ∧
    ((planOf geometry opts).spc : ℤ) ∣ p.startSector + p.sectorCount
  positions : opts.standStartSector.toNat ≤ stand.startSector ∧
    alignTo (stand.startSector + stand.sectorCount).toNat opts.rootAlignSectors.toNat ≤
      swap.startSector ∧
    alignTo (swap.startSector + swap.sectorCount).toNat opts.rootAlignSectors.toNat ≤ root.startSector
  sizes : (opts.standSizeMb.toNat * 1024 * 1024 / 512 : ℕ) ≤ stand.sectorCount ∧
    (opts.swapSizeMb.toNat * 1024 * 1024 / 512 : ℕ) ≤ swap.sectorCount
  covered : backup.sectors = partition
  inside : ∀ p ∈ [stand, swap, root], p.sectors ⊆ partition
  rootEnd : root.startSector + root.sectorCount = (planOf geometry opts).total

def DiskLayout.Sound (layout : DiskLayout) (geometry : RawDiskGeometry) (opts : SliceLayoutOptions) :
    Prop :=
  ∃ backup root swap stand, layout.slices = [backup, root, swap, stand] ∧
    SlicesOrdered geometry opts layout.partition backup root swap stand

/-- What makes the layout fail: an empty stand or swap slice, a stand slice at sector 0, or no cylinder
for root. -/
def SlicePlan.Fails (plan : SlicePlan) : Prop :=
  plan.standCount = 0 ∨ plan.swapCount = 0 ∨ plan.standStart = 0 ∨
    plan.total < plan.rootStart + plan.spc

section Layout
variable {geometry : RawDiskGeometry} {opts : SliceLayoutOptions} {layout : DiskLayout}

theorem u64_eq_zero_iff {n : UInt64} : n = 0 ↔ n.toNat = 0 := by
  rw [← UInt64.toNat_inj]
  rfl

/-- On cylinders there is a cylinder between two different sectors. -/
theorem room_iff {spc start total : ℕ} (hpos : 0 < spc) (hs : spc ∣ start) (ht : spc ∣ total) :
    total < start + spc ↔ total ≤ start := by
  obtain ⟨a, rfl⟩ := hs
  obtain ⟨b, rfl⟩ := ht
  rw [← Nat.mul_succ, Nat.mul_lt_mul_left hpos, Nat.mul_le_mul_left_iff hpos, Nat.lt_succ_iff]

/-- Root takes the rest of the disk. -/
theorem rootCount_exact {total root spc : UInt64} {t r s : ℕ} (ht : total.toNat = t)
    (hr : root.toNat = r) (hs : spc.toNat = s) (hst : s ∣ t) (hsr : s ∣ r) (hle : r ≤ t) :
    ((total - root) / spc * spc).toNat = t - r := by
  subst ht hr hs
  have hlt := total.toNat_lt
  have hrest : (total - root).toNat = total.toNat - root.toNat :=
    UInt64.toNat_sub_of_le _ _ (UInt64.le_iff_toNat_le.mpr hle)
  rw [UInt64.toNat_mul, UInt64.toNat_div, hrest, Nat.div_mul_cancel (Nat.dvd_sub hst hsr)]
  exact Nat.mod_eq_of_lt (by omega)

theorem buildSliceLayout_err_iff (h : NoOverflow geometry opts) (hpos : Positive geometry) :
    (∃ e, buildSliceLayout geometry opts = .err e) ↔ (planOf geometry opts).Fails := by
  obtain ⟨hspc, htotal, hstart, hcount, hswapCount⟩ := h.exact hpos
  have hspcpos := @Positive.spc geometry opts hpos
  have hspcne : geometry.sectorsPerCylinder ≠ 0 := fun hz =>
    hspcpos.ne' (hspc.symm.trans (u64_eq_zero_iff.mp hz))
  have hone : (1 : UInt64).toNat = 1 := by decide
  have hdvd : (planOf geometry opts).spc ∣ (planOf geometry opts).rootStart := dvd_ceilTo _ _
  have hdvd' : (planOf geometry opts).spc ∣ (planOf geometry opts).total := Dvd.intro_left _ rfl
  unfold buildSliceLayout SlicePlan.Fails
  dsimp only
  split_ifs with hstandZero hswapZero hlow hbeyond hrootZero
  · exact iff_of_true ⟨_, rfl⟩ (.inl (hcount.symm.trans (u64_eq_zero_iff.mp hstandZero)))
  · exact iff_of_true ⟨_, rfl⟩ (.inr (.inl (hswapCount.symm.trans (u64_eq_zero_iff.mp hswapZero))))
  all_goals
    have hstand : (planOf geometry opts).standCount ≠ 0 :=
      fun hz => hstandZero (u64_eq_zero_iff.mpr (hcount.trans hz))
    have hswap : (planOf geometry opts).swapCount ≠ 0 :=
      fun hz => hswapZero (u64_eq_zero_iff.mpr (hswapCount.trans hz))
    rw [UInt64.lt_iff_toNat_lt, hone, hstart] at hlow
    rw [room_iff hspcpos hdvd hdvd']
  · exact iff_of_true ⟨_, rfl⟩ (.inr (.inr (.inl (by omega))))
  all_goals
    obtain ⟨-, hroot⟩ := h.exact_starts hpos (Nat.pos_of_ne_zero hstand) (Nat.pos_of_ne_zero hswap)
    unfold nextStart at hroot
    rw [UInt64.le_iff_toNat_le, hroot, htotal] at hbeyond
  · exact iff_of_true ⟨_, rfl⟩ (.inr (.inr (.inr hbeyond)))
  all_goals
    have hrootCount := rootCount_exact htotal hroot hspc hdvd' hdvd (by omega)
    rw [Outcome.guard_true hspcne, Outcome.ok_bind]
  · rw [u64_eq_zero_iff, hrootCount] at hrootZero
    omega
  · exact iff_of_false (by rintro ⟨_, he⟩; cases he) (by omega)

theorem asI64_exact {v : UInt64} {n : ℕ} (h : v.toNat = n) (hn : n < 2 ^ 63) : asI64 v = n := by
  rw [asI64_eq, h, if_pos hn]

/-- A slice and the end of the disk when the layout was built. -/
theorem SlicePlan.ordered (plan : SlicePlan) (hspc : 0 < plan.spc) :
    alignTo plan.standEnd plan.rootAlign ≤ plan.swapStart ∧
      alignTo plan.swapEnd plan.rootAlign ≤ plan.rootStart ∧ plan.standEnd ≤ plan.swapStart ∧
      plan.swapEnd ≤ plan.rootStart := by
  have hswap : alignTo plan.standEnd plan.rootAlign ≤ plan.swapStart := le_ceilTo hspc
  have hroot : alignTo plan.swapEnd plan.rootAlign ≤ plan.rootStart := le_ceilTo hspc
  exact ⟨hswap, hroot, (le_alignTo _ _).trans hswap, (le_alignTo _ _).trans hroot⟩

/-- The layout in plain numbers. -/
theorem buildSliceLayout_exact (h : NoOverflow geometry opts) (hpos : Positive geometry)
    (hl : buildSliceLayout geometry opts = .ok layout) :
    ∃ root rootCount swap swapCount stand standCount : UInt64,
      layout = ⟨1, (geometry.totalSectors - 1).toUInt32,
        [⟨0, vBackup, layoutFlagRaw, asI64 1, asI64 (geometry.totalSectors - 1)⟩,
          ⟨1, layoutTagRoot, layoutFlagFs, asI64 root, asI64 rootCount⟩,
          ⟨2, layoutTagSwap, layoutFlagRaw, asI64 swap, asI64 swapCount⟩,
          ⟨10, layoutTagStand, layoutFlagFs, asI64 stand, asI64 standCount⟩]⟩ ∧
      root.toNat = (planOf geometry opts).rootStart ∧
      rootCount.toNat = (planOf geometry opts).total - (planOf geometry opts).rootStart ∧
      swap.toNat = (planOf geometry opts).swapStart ∧
      swapCount.toNat = (planOf geometry opts).swapCount ∧
      stand.toNat = (planOf geometry opts).standStart ∧
      standCount.toNat = (planOf geometry opts).standCount ∧
      0 < (planOf geometry opts).standCount ∧ 0 < (planOf geometry opts).swapCount ∧
      0 < (planOf geometry opts).standStart ∧
      (planOf geometry opts).rootStart < (planOf geometry opts).total := by
  obtain ⟨hspc, htotal, hstart, hcount, hswapCount⟩ := h.exact hpos
  obtain ⟨stand, standCount, swap, swapCount, root, rootCount, rfl, rfl, rfl, rfl, rfl, rfl, hne₁,
    hne₂, -, hone, hlt, hlayout⟩ := buildSliceLayout_ok hl
  have hstandPos := toNat_pos_of_ne_zero hne₁
  have hswapPos := toNat_pos_of_ne_zero hne₂
  rw [hcount] at hstandPos
  rw [hswapCount] at hswapPos
  obtain ⟨hswap, hroot⟩ := h.exact_starts hpos hstandPos hswapPos
  rw [UInt64.lt_iff_toNat_lt, hroot, htotal] at hlt
  rw [UInt64.le_iff_toNat_le, hstart] at hone
  exact ⟨_, _, _, _, _, _, hlayout, hroot,
    rootCount_exact htotal hroot hspc (Dvd.intro_left _ rfl) (dvd_ceilTo _ _) hlt.le, hswap,
    hswapCount, hstart, hcount, hstandPos, hswapPos, hone, hlt⟩

theorem VtocPartition.disjoint_of_le {p q : VtocPartition}
    (h : p.startSector + p.sectorCount ≤ q.startSector) : Disjoint p.sectors q.sectors := by
  rw [Set.disjoint_left]
  rintro x ⟨-, hx⟩ ⟨hx', -⟩
  omega

theorem buildSliceLayout_sound (h : NoOverflow geometry opts) (hpos : Positive geometry)
    (hmax : (planOf geometry opts).total ≤ 2 ^ 32)
    (hl : buildSliceLayout geometry opts = .ok layout) : layout.Sound geometry opts := by
  obtain ⟨root, rootCount, swap, swapCount, stand, standCount, rfl, hroot, hrootCount, hswap,
    hswapCount, hstand, hstandCount, hpos₁, hpos₂, hone, hlt⟩ := buildSliceLayout_exact h hpos hl
  have hspcpos := @Positive.spc geometry opts hpos
  have htotal := totalSectors_exact h.total
  obtain ⟨halign₁, halign₂, hle₁, hle₂⟩ := (planOf geometry opts).ordered hspcpos
  have hone' : (1 : UInt64).toNat = 1 := by decide
  have hsize : (geometry.totalSectors - 1).toNat = (planOf geometry opts).total - 1 := by
    rw [UInt64.toNat_sub_of_le _ _ (UInt64.le_iff_toNat_le.mpr (by omega)), htotal, hone']
  have hpartition : DiskLayout.partition ⟨1, (geometry.totalSectors - 1).toUInt32, []⟩ =
      Set.Ico (1 : ℤ) (planOf geometry opts).total := by
    have hlen : (geometry.totalSectors - 1).toUInt32.toNat = (planOf geometry opts).total - 1 := by
      rw [UInt64.toNat_toUInt32, hsize]
      exact Nat.mod_eq_of_lt (by omega)
    unfold DiskLayout.partition
    dsimp only
    rw [hlen, show (1 : UInt32).toNat = 1 by decide]
    congr 1
    omega
  have hstandEnd : (planOf geometry opts).standEnd =
    (planOf geometry opts).standStart + (planOf geometry opts).standCount := rfl
  have hswapEnd : (planOf geometry opts).swapEnd =
    (planOf geometry opts).swapStart + (planOf geometry opts).swapCount := rfl
  rw [asI64_exact hroot (by omega), asI64_exact hrootCount (by omega), asI64_exact hswap (by omega),
    asI64_exact hswapCount (by omega), asI64_exact hstand (by omega),
    asI64_exact hstandCount (by omega), asI64_exact hsize (by omega), asI64_exact hone' (by omega)]
  have hdvd : (planOf geometry opts).spc ∣ (planOf geometry opts).standStart ∧
      (planOf geometry opts).spc ∣ (planOf geometry opts).standCount ∧
      (planOf geometry opts).spc ∣ (planOf geometry opts).swapStart ∧
      (planOf geometry opts).spc ∣ (planOf geometry opts).swapCount ∧
      (planOf geometry opts).spc ∣ (planOf geometry opts).rootStart ∧
      (planOf geometry opts).spc ∣ (planOf geometry opts).total :=
    ⟨dvd_ceilTo _ _, dvd_ceilTo _ _, dvd_ceilTo _ _, dvd_ceilTo _ _, dvd_ceilTo _ _,
      Dvd.intro_left _ rfl⟩
  have hrequested : opts.standStartSector.toNat ≤ (planOf geometry opts).standStart ∧
      opts.standSizeMb.toNat * 1024 * 1024 / 512 ≤ (planOf geometry opts).standCount ∧
      opts.swapSizeMb.toNat * 1024 * 1024 / 512 ≤ (planOf geometry opts).swapCount :=
    ⟨le_ceilTo hspcpos, le_ceilTo hspcpos, le_ceilTo hspcpos⟩
  have halign : (planOf geometry opts).rootAlign = opts.rootAlignSectors.toNat := rfl
  rw [halign] at halign₁ halign₂
  obtain ⟨hd₁, hd₂, hd₃, hd₄, hd₅, hd₆⟩ := hdvd
  obtain ⟨hr₁, hr₂, hr₃⟩ := hrequested
  refine ⟨_, _, _, _, rfl, ?_⟩
  change SlicesOrdered _ _ (DiskLayout.partition ⟨1, (geometry.totalSectors - 1).toUInt32, []⟩) _ _ _ _
  rw [hpartition]
  exact {
    tags := ⟨rfl, rfl, rfl, rfl⟩
    nonempty := ⟨Int.natCast_pos.mpr hpos₁, Int.natCast_pos.mpr hpos₂, by
      dsimp only
      omega⟩
    apart := by
      simp only [List.pairwise_cons, List.mem_cons, List.not_mem_nil, or_false, forall_eq_or_imp,
        forall_eq, IsEmpty.forall_iff, implies_true, List.Pairwise.nil, and_true]
      refine ⟨⟨?_, ?_⟩, ?_⟩ <;> exact VtocPartition.disjoint_of_le (by dsimp only; omega)
    ordered := by
      dsimp only
      omega
    onCylinders := by
      simp only [List.mem_cons, List.not_mem_nil, or_false, forall_eq_or_imp, forall_eq]
      have hend := Nat.add_sub_of_le hlt.le
      norm_cast
      rw [hend]
      exact ⟨⟨hd₁, dvd_add hd₁ hd₂⟩, ⟨hd₃, dvd_add hd₃ hd₄⟩, hd₅, hd₆⟩
    positions := by
      refine ⟨Int.ofNat_le.mpr hr₁, ?_, ?_⟩
      · exact Int.ofNat_le.mpr halign₁
      · exact Int.ofNat_le.mpr halign₂
    sizes := ⟨Int.ofNat_le.mpr hr₂, Int.ofNat_le.mpr hr₃⟩
    covered := by
      simp only [VtocPartition.sectors]
      congr 1
      omega
    inside := by
      simp only [List.mem_cons, List.not_mem_nil, or_false, forall_eq_or_imp, forall_eq,
        VtocPartition.sectors]
      refine ⟨Set.Ico_subset_Ico ?_ ?_, Set.Ico_subset_Ico ?_ ?_, Set.Ico_subset_Ico ?_ ?_⟩ <;> omega
    rootEnd := by
      dsimp only
      omega }

theorem buildSliceLayout_ne_panic (hpos : Positive geometry) :
    buildSliceLayout geometry opts ≠ .panic := by
  have hspcne : geometry.sectorsPerCylinder ≠ 0 := fun hz => by
    have hspc := geometry.sectorsPerCylinder_toNat
    rw [hz] at hspc
    exact (Nat.mul_pos hpos.heads hpos.sectors).ne hspc
  unfold buildSliceLayout
  dsimp only
  rw [Outcome.guard_true hspcne]
  split_ifs <;> exact fun h => by cases h

/-- With more than 2^32 sectors the size of the partition in the layout is cut. -/
theorem DiskLayout.Sound.total_le (h : NoOverflow geometry opts)
    (hpos : Positive geometry) (hl : buildSliceLayout geometry opts = .ok layout)
    (hs : layout.Sound geometry opts) : (planOf geometry opts).total ≤ 2 ^ 32 := by
  obtain ⟨root, rootCount, swap, swapCount, stand, standCount, hlayout, -⟩ :=
    buildSliceLayout_exact h hpos hl
  obtain ⟨backup, root, swap, stand, -, ho⟩ := hs
  obtain ⟨-, -, hroot⟩ := ho.nonempty
  have hend := ho.rootEnd
  have hmem : root.startSector + root.sectorCount - 1 ∈ root.sectors := ⟨by omega, by omega⟩
  obtain ⟨-, hlast⟩ := ho.inside root (by simp) hmem
  have hstart : layout.unixPartitionStart.toNat = 1 := by rw [hlayout]; rfl
  have hsize := layout.unixPartitionSize.toNat_lt
  omega

/-- Slices made for a disk are sound exactly on disks of up to 2^32 sectors, when there is a layout at
all; there is none exactly when no cylinder is left for root, a size is zero or stand begins at
sector 0. -/
theorem buildSliceLayout_sound_iff (hpos : Positive geometry) (h : NoOverflow geometry opts) :
    ((∀ layout, buildSliceLayout geometry opts = .ok layout → layout.Sound geometry opts) ∧
      ((∃ e, buildSliceLayout geometry opts = .err e) ↔ (planOf geometry opts).Fails)) ↔
    ((planOf geometry opts).total ≤ 2 ^ 32 ∨ (planOf geometry opts).Fails) := by
  have herr := buildSliceLayout_err_iff h hpos
  constructor
  · rintro ⟨hsound, -⟩
    by_cases hf : (planOf geometry opts).Fails
    · exact .inr hf
    · cases hl : buildSliceLayout geometry opts with
      | ok layout => exact .inl ((hsound layout hl).total_le h hpos hl)
      | err e => exact .inr (herr.mp ⟨e, hl⟩)
      | panic => exact absurd hl (buildSliceLayout_ne_panic hpos)
  · rintro (hmax | hf)
    · exact ⟨fun _ hl => buildSliceLayout_sound h hpos hmax hl, herr⟩
    · obtain ⟨e, he⟩ := herr.mpr hf
      refine ⟨fun _ hl => ?_, herr⟩
      rw [he] at hl
      cases hl

end Layout

/-- The default options on a disk of 324 MiB. -/
theorem buildSliceLayout_sound_default :
    ((∀ layout, buildSliceLayout ⟨659, 16, 63⟩ ⟨64, 16, 64, 2048⟩ = .ok layout →
        layout.Sound ⟨659, 16, 63⟩ ⟨64, 16, 64, 2048⟩) ∧
      ((∃ e, buildSliceLayout ⟨659, 16, 63⟩ ⟨64, 16, 64, 2048⟩ = .err e) ↔
        (planOf ⟨659, 16, 63⟩ ⟨64, 16, 64, 2048⟩).Fails)) ↔
    ((planOf ⟨659, 16, 63⟩ ⟨64, 16, 64, 2048⟩).total ≤ 2 ^ 32 ∨
      (planOf ⟨659, 16, 63⟩ ⟨64, 16, 64, 2048⟩).Fails) :=
  buildSliceLayout_sound_iff ⟨by decide, by decide, by decide⟩
    ⟨by decide +kernel, by decide +kernel, by decide +kernel, by decide +kernel, by decide +kernel,
      by decide +kernel, fun _ _ => by decide +kernel⟩

/-- The default options on a disk of 2 TiB, whose partition is cut to 751 sectors. -/
theorem buildSliceLayout_partition_cut :
    ¬∀ (geometry : RawDiskGeometry) (opts : SliceLayoutOptions), Positive geometry →
      NoOverflow geometry opts →
      (∀ layout, buildSliceLayout geometry opts = .ok layout → layout.Sound geometry opts) ∧
        ((∃ e, buildSliceLayout geometry opts = .err e) ↔ (planOf geometry opts).Fails) := by
  intro hall
  have hpos : Positive ⟨4260881, 16, 63⟩ := ⟨by decide, by decide, by decide⟩
  have h : NoOverflow ⟨4260881, 16, 63⟩ ⟨64, 16, 64, 2048⟩ :=
    ⟨by decide +kernel, by decide +kernel, by decide +kernel, by decide +kernel, by decide +kernel,
      by decide +kernel, fun _ _ => by decide +kernel⟩
  obtain ⟨hsound, -⟩ := hall _ _ hpos h
  have hl : ∃ layout, buildSliceLayout ⟨4260881, 16, 63⟩ ⟨64, 16, 64, 2048⟩ = .ok layout ∧
      layout.unixPartitionSize = 751 := ⟨_, rfl, by decide +kernel⟩
  obtain ⟨layout, hl, -⟩ := hl
  exact absurd ((hsound layout hl).total_le h hpos hl) (by decide +kernel)

end UfsFuse
