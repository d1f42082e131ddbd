import UfsFuse.SkeletonImage
import Mathlib

/-!
# The standard slice layout and the head of the partition

The bootstrap, the pdinfo sector, the VTOC and the alternates take the first 34 sectors of the
UNIX partition. `build_slice_layout` only keeps the stand slice out of sector 0.
-/
namespace UfsFuse

/-! ## Rounding up -/

/-- The first multiple of `a` from `v` on. -/
def ceilTo (v a : ℕ) : ℕ := a * (v ⌈/⌉ a)

section CeilTo
variable {v a b : ℕ}

theorem le_ceilTo (ha : 0 < a) : v ≤ ceilTo v a := le_smul_ceilDiv ha

theorem ceilTo_lt (ha : 0 < a) : ceilTo v a < v + a := by
  have hd := Nat.div_mul_le_self (v + a - 1) a
  rw [ceilTo, Nat.ceilDiv_eq_add_pred_div, Nat.mul_comm]
  omega

theorem ceilTo_le (ha : 0 < a) (h : v ≤ a * b) : ceilTo v a ≤ a * b :=
  Nat.mul_le_mul_left a ((ceilDiv_le_iff_le_smul ha).mpr h)

theorem ceilTo_of_le (hv : 0 < v) (h : v ≤ a) : ceilTo v a = a := by
  have ha : 0 < a := hv.trans_le h
  have hone : v ⌈/⌉ a = 1 := by
    refine le_antisymm ((ceilDiv_le_iff_le_smul ha).mpr (by simpa using h)) ?_
    by_contra hlt
    have hz : ceilTo v a = 0 := by rw [ceilTo, Nat.lt_one_iff.mp (not_le.mp hlt), Nat.mul_zero]
    have hge := @le_ceilTo v a ha
    omega
  rw [ceilTo, hone, Nat.mul_one]

theorem ceilTo_of_le_two (hv : a < v) (h : v ≤ 2 * a) : ceilTo v a = 2 * a := by
  have ha : 0 < a := by omega
  have hle : ceilTo v a ≤ a * 2 := ceilTo_le ha (by omega)
  have hge := @le_ceilTo v a ha
  have hgt : 1 < v ⌈/⌉ a := by
    by_contra hn
    have hm : a * (v ⌈/⌉ a) ≤ a * 1 := Nat.mul_le_mul_left a (not_lt.mp hn)
    rw [ceilTo] at hge
    omega
  have hm : a * 2 ≤ a * (v ⌈/⌉ a) := Nat.mul_le_mul_left a hgt
  rw [ceilTo] at hle ⊢
  omega

theorem ceilTo_two_mul (ha : 0 < a) : ceilTo (2 * v) a ≤ 2 * ceilTo v a := by
  have hge := @le_ceilTo v a ha
  have h := @ceilTo_le (2 * v) a (2 * (v ⌈/⌉ a)) ha (by
    rw [ceilTo] at hge
    rw [Nat.mul_left_comm]
    omega)
  rwa [Nat.mul_left_comm] at h

end CeilTo

/-! ## Rounding up in `u64` -/

theorem toNat_pos_of_ne_zero {n : UInt64} (h : n ≠ 0) : 0 < n.toNat := by
  rw [Nat.pos_iff_ne_zero]
  exact fun hz => h (UInt64.toNat_inj.mp hz)

theorem divCeil_toNat {value divisor : UInt64} (hd : divisor ≠ 0) :
    (Sectors.divCeil value divisor).toNat = value.toNat ⌈/⌉ divisor.toNat := by
  have hpos := toNat_pos_of_ne_zero hd
  have hv := value.toNat_lt
  have hdm := Nat.div_add_mod value.toNat divisor.toNat
  have hmod := Nat.mod_lt value.toNat hpos
  have hr : 0 < value % divisor ↔ 0 < value.toNat % divisor.toNat := by
    rw [UInt64.lt_iff_toNat_lt, UInt64.toNat_mod]
    rfl
  have hsum : value.toNat + divisor.toNat - 1 =
      divisor.toNat * (value.toNat / divisor.toNat) +
        (value.toNat % divisor.toNat + divisor.toNat - 1) := by omega
  rw [Nat.ceilDiv_eq_add_pred_div, hsum, Nat.mul_add_div hpos, Sectors.divCeil]
  by_cases h : 0 < value % divisor
  · have hrpos := hr.mp h
    have hone : (value.toNat % divisor.toNat + divisor.toNat - 1) / divisor.toNat = 1 :=
      Nat.div_eq_of_lt_le (by omega) (by omega)
    have hq : value.toNat / divisor.toNat ≤ value.toNat / 2 :=
      Nat.div_le_div_left (by omega) (by norm_num)
    rw [if_pos h, hone, UInt64.toNat_add, UInt64.toNat_div]
    exact Nat.mod_eq_of_lt (by
      rw [show (1 : UInt64).toNat = 1 from rfl]
      omega)
  · have hzero := mt hr.mpr h
    have hnone : (value.toNat % divisor.toNat + divisor.toNat - 1) / divisor.toNat = 0 :=
      Nat.div_eq_of_lt (by omega)
    rw [if_neg h, hnone, UInt64.toNat_div, Nat.add_zero]

/-- `align_up`, in which the last product may overflow. -/
theorem alignUp_toNat (value : UInt64) {alignment : UInt64} (ha : alignment ≠ 0) :
    (Sectors.alignUp value alignment).toNat = ceilTo value.toNat alignment.toNat % 2 ^ 64 := by
  rw [Sectors.alignUp, if_neg ha, UInt64.toNat_mul, divCeil_toNat ha, Nat.mul_comm, ceilTo]

section AlignUp
variable {v a : UInt64}

/-- The aligned value, or what is left of it after an overflow. -/
theorem alignUp_cases (v : UInt64) (ha : 0 < a.toNat) :
    ((Sectors.alignUp v a).toNat = ceilTo v.toNat a.toNat ∧ ceilTo v.toNat a.toNat < 2 ^ 64) ∨
      (Sectors.alignUp v a).toNat + 2 ^ 64 = ceilTo v.toNat a.toNat := by
  have hne : a ≠ 0 := fun h => by
    rw [h] at ha
    exact absurd ha (lt_irrefl _)
  have hv := v.toNat_lt
  have hlt := @ceilTo_lt v.toNat a.toNat ha
  have ha' := a.toNat_lt
  rw [alignUp_toNat v hne]
  by_cases hover : ceilTo v.toNat a.toNat < 2 ^ 64
  · exact .inl ⟨Nat.mod_eq_of_lt hover, hover⟩
  · refine .inr ?_
    rw [Nat.mod_eq_sub_mod (not_lt.mp hover), Nat.mod_eq_of_lt (by omega)]
    omega

theorem alignUp_zero (v : UInt64) : Sectors.alignUp v 0 = v := if_pos rfl

theorem alignUp_of_le (hv : 0 < v.toNat) (h : v.toNat ≤ a.toNat) : Sectors.alignUp v a = a := by
  have hne : a ≠ 0 := fun ha => by
    rw [ha] at h
    exact absurd (hv.trans_le h) (lt_irrefl _)
  rw [← UInt64.toNat_inj, alignUp_toNat v hne, ceilTo_of_le hv h]
  exact Nat.mod_eq_of_lt a.toNat_lt

end AlignUp

/-! ## Where a slice starts after the one before it -/

/-- Slices after stand start on a boundary of both alignments. -/
def nextStart (stop rootAlign spc : UInt64) : UInt64 :=
  Sectors.alignUp (Sectors.alignUp stop rootAlign) spc

section NextStart
variable {stop rootAlign spc : UInt64}

theorem nextStart_of_le (h0 : 0 < stop.toNat) (h : stop.toNat ≤ rootAlign.toNat) :
    nextStart stop rootAlign spc = Sectors.alignUp rootAlign spc := by
  rw [nextStart, alignUp_of_le h0 h]

variable (hpos : 0 < spc.toNat) (hspc : spc.toNat ≤ 1008)
include hpos hspc

/-- A small alignment moves a start on the disk forward. -/
theorem nextStart_near (h : rootAlign.toNat < stop.toNat) (hs : stop.toNat ≤ 2 ^ 62) :
    stop.toNat ≤ (nextStart stop rootAlign spc).toNat := by
  have hfirst : stop.toNat ≤ (Sectors.alignUp stop rootAlign).toNat ∧
      (Sectors.alignUp stop rootAlign).toNat ≤ 2 ^ 63 := by
    cases Nat.eq_zero_or_pos rootAlign.toNat with
    | inl hz =>
      rw [show rootAlign = 0 from UInt64.toNat_inj.mp hz, alignUp_zero]
      omega
    | inr hp =>
      have hge := @le_ceilTo stop.toNat rootAlign.toNat hp
      have hlt := @ceilTo_lt stop.toNat rootAlign.toNat hp
      have hcases := alignUp_cases stop hp
      omega
  have hge := @le_ceilTo (Sectors.alignUp stop rootAlign).toNat spc.toNat hpos
  have hlt := @ceilTo_lt (Sectors.alignUp stop rootAlign).toNat spc.toNat hpos
  have hcases := alignUp_cases (Sectors.alignUp stop rootAlign) hpos
  rw [nextStart]
  omega

/-- Beyond the range of `i64` the start stays there, or a huge alignment takes it back. -/
theorem nextStart_far (h : rootAlign.toNat < stop.toNat) (hge : 2 ^ 63 ≤ stop.toNat)
    (hlt : stop.toNat < 2 ^ 63 + 2 ^ 60) :
    2 ^ 63 ≤ (nextStart stop rootAlign spc).toNat ∨
      (nextStart stop rootAlign spc).toNat < 2 ^ 62 ∧ 2 ^ 62 < rootAlign.toNat := by
  have hfirst : 2 ^ 63 ≤ (Sectors.alignUp stop rootAlign).toNat ∧
        (Sectors.alignUp stop rootAlign).toNat < stop.toNat + max 1 rootAlign.toNat ∨
      (Sectors.alignUp stop rootAlign).toNat < 2 ^ 61 ∧ 2 ^ 62 < rootAlign.toNat := by
    cases Nat.eq_zero_or_pos rootAlign.toNat with
    | inl hz =>
      rw [show rootAlign = 0 from UInt64.toNat_inj.mp hz, alignUp_zero]
      exact .inl ⟨hge, by omega⟩
    | inr hp =>
      have hle := @le_ceilTo stop.toNat rootAlign.toNat hp
      have hup := @ceilTo_lt stop.toNat rootAlign.toNat hp
      have hcases := alignUp_cases stop hp
      omega
  have hle := @le_ceilTo (Sectors.alignUp stop rootAlign).toNat spc.toNat hpos
  have hup := @ceilTo_lt (Sectors.alignUp stop rootAlign).toNat spc.toNat hpos
  have hcases := alignUp_cases (Sectors.alignUp stop rootAlign) hpos
  rw [nextStart]
  omega

omit hspc in
theorem alignUp_lt_of_far (h : (Sectors.alignUp rootAlign spc).toNat < 35)
    (h35 : 35 ≤ rootAlign.toNat) : 2 ^ 64 < rootAlign.toNat + spc.toNat := by
  have hle := @le_ceilTo rootAlign.toNat spc.toNat hpos
  have hup := @ceilTo_lt rootAlign.toNat spc.toNat hpos
  have hcases := alignUp_cases rootAlign hpos
  omega

omit hspc in
/-- An alignment just below the end of `i64` sends the start after it beyond `i64`. -/
theorem nextStart_twice (hbig : 2 ^ 62 < rootAlign.toNat) (hstop : rootAlign.toNat < stop.toNat)
    (htwo : stop.toNat ≤ 2 * rootAlign.toNat)
    (hceil : ceilTo rootAlign.toNat spc.toNat < 2 ^ 63) :
    2 ^ 43 < (nextStart stop rootAlign spc).toNat := by
  have hge := @le_ceilTo rootAlign.toNat spc.toNat hpos
  have hne : rootAlign ≠ 0 := fun h => by
    rw [h] at hbig
    exact absurd hbig (by norm_num)
  have hfirst : (Sectors.alignUp stop rootAlign).toNat = 2 * rootAlign.toNat := by
    rw [alignUp_toNat stop hne, ceilTo_of_le_two hstop htwo]
    exact Nat.mod_eq_of_lt (by omega)
  have hle := @le_ceilTo (2 * rootAlign.toNat) spc.toNat hpos
  have htwice := @ceilTo_two_mul rootAlign.toNat spc.toNat hpos
  have hcases := alignUp_cases (Sectors.alignUp stop rootAlign) hpos
  rw [hfirst] at hcases
  rw [nextStart]
  omega

/-- A slice whose `i64` bounds pass the validation ends on the disk or beyond `i64`. -/
def EndsInRange (start count : UInt64) : Prop :=
  start.toNat + count.toNat ≤ 2 ^ 43 ∨ 2 ^ 63 ≤ start.toNat + count.toNat

/-- When stand starts behind the head, swap and root do too, unless rounding up the root alignment
overflows. -/
theorem starts_behind_iff {stand standCount swapCount : UInt64} {swap root : UInt64}
    (hswap : swap = nextStart (stand + standCount) rootAlign spc)
    (hroot : root = nextStart (swap + swapCount) rootAlign spc)
    (hstand : 35 ≤ stand.toNat) (hstand63 : stand.toNat < 2 ^ 63)
    (hn₁ : 0 < standCount.toNat ∧ standCount.toNat ≤ 2 ^ 56)
    (hn₂ : 0 < swapCount.toNat ∧ swapCount.toNat ≤ 2 ^ 56) (hfit₁ : EndsInRange stand standCount)
    (hfit₂ : EndsInRange swap swapCount) (hswap63 : swap.toNat < 2 ^ 63)
    (hroot43 : root.toNat ≤ 2 ^ 43) :
    35 ≤ swap.toNat ∧ 35 ≤ root.toNat ↔
      rootAlign.toNat < 35 ∨ 35 ≤ (Sectors.alignUp rootAlign spc).toNat := by
  have hstop₁ : (stand + standCount).toNat = stand.toNat + standCount.toNat := by
    rw [UInt64.toNat_add]
    exact Nat.mod_eq_of_lt (by omega)
  have hstop₂ : (swap + swapCount).toNat = swap.toNat + swapCount.toNat := by
    rw [UInt64.toNat_add]
    exact Nat.mod_eq_of_lt (by omega)
  have hle := @le_ceilTo rootAlign.toNat spc.toNat hpos
  have hup := @ceilTo_lt rootAlign.toNat spc.toNat hpos
  have hcases := alignUp_cases rootAlign hpos
  constructor
  · -- rounding the alignment up overflows only where the alignment itself is the next start
    rintro ⟨h, -⟩
    by_contra hc
    have hfar := alignUp_lt_of_far hpos
      (show (Sectors.alignUp rootAlign spc).toNat < 35 by omega) (by omega)
    rw [hswap, nextStart_of_le (by omega) (by omega)] at h
    omega
  · intro hP
    have hbehind : ∀ {stop : UInt64}, 35 ≤ stop.toNat → stop.toNat ≤ rootAlign.toNat →
        35 ≤ (nextStart stop rootAlign spc).toNat := by
      intro stop h35 hA
      rw [nextStart_of_le (by omega) hA]
      omega
    -- a start beyond `i64` that the alignment does not cover leaves no room for root
    have hnotFar : ¬(2 ^ 63 ≤ stand.toNat + standCount.toNat ∧
        rootAlign.toNat < stand.toNat + standCount.toNat) := by
      rintro ⟨hfar, hA⟩
      have hnext := nextStart_far hpos hspc (hstop₁ ▸ hA) (hstop₁ ▸ hfar) (by omega)
      rw [← hswap] at hnext
      obtain ⟨hback, hbig⟩ := hnext.resolve_left (by omega)
      unfold EndsInRange at hfit₂
      rw [nextStart_of_le (by omega) (by omega)] at hroot
      rw [hroot] at hroot43
      omega
    have hswap35 : 35 ≤ swap.toNat := by
      rw [hswap]
      by_cases hA : rootAlign.toNat < (stand + standCount).toNat
      · cases hfit₁ with
        | inl hnear =>
          have hnext := nextStart_near hpos hspc hA (by omega)
          omega
        | inr hfar => exact absurd ⟨hfar, by omega⟩ hnotFar
      · exact hbehind (by omega) (not_lt.mp hA)
    refine ⟨hswap35, ?_⟩
    by_cases hA : rootAlign.toNat < (swap + swapCount).toNat
    · cases hfit₂ with
      | inl hnear =>
        have hnext := nextStart_near hpos hspc hA (by omega)
        rw [hroot]
        omega
      | inr hfar =>
        have hnext := nextStart_far hpos hspc hA (by omega) (by omega)
        rw [← hroot] at hnext
        obtain ⟨-, hbig⟩ := hnext.resolve_left (by omega)
        have hcover : (stand + standCount).toNat ≤ rootAlign.toNat := by
          unfold EndsInRange at hfit₁
          omega
        rw [nextStart_of_le (by omega) hcover] at hswap
        rw [← hswap] at hcases
        exact absurd hroot43 (not_le.mpr (by
          rw [hroot]
          exact nextStart_twice hpos (by omega) (by omega) (by omega) (by omega)))
    · rw [hroot]
      exact hbehind (by omega) (not_lt.mp hA)

end NextStart

/-! ## The layout -/

/-- The sectors of a slice. -/
def VtocPartition.sectors (partition : VtocPartition) : Set ℤ :=
  Set.Ico partition.startSector (partition.startSector + partition.sectorCount)

/-- What the tools keep at the head of the partition: the bootstrap up to the pdinfo sector, that
sector, the VTOC block inside it and the next one, and the four sectors of the alternates. -/
def headSectors (start : ℤ) : Set ℤ :=
  Set.Ico start (start + hdpdloc) ∪ {start + hdpdloc} ∪
    Set.Icc (start + hdpdloc) (start + hdpdloc + 1) ∪ Set.Ico (start + 30) (start + 34)

/-- No stand, swap or root slice meets the head of the partition. -/
def DiskLayout.HeadKept (layout : DiskLayout) : Prop :=
  ∀ partition ∈ layout.slices, partition.tag ≠ vBackup →
    Disjoint partition.sectors (headSectors layout.unixPartitionStart.toNat)

theorem headSectors_eq (start : ℤ) : headSectors start = Set.Ico start (start + 34) := by
  ext x
  simp only [headSectors, Set.mem_union, Set.mem_Ico, Set.mem_Icc, Set.mem_singleton_iff, hdpdloc]
  omega

/-- Every byte of the metadata blocks of an image is in the head of its partition. -/
theorem Skeleton.writes_head (k : Skeleton) {off i : ℕ} {block : Bytes}
    (hw : (off, block) ∈ k.writes) (h0 : off ≠ 0) (hi : off ≤ i ∧ i < off + block.length) :
    ((i / sectorSize : ℕ) : ℤ) ∈ headSectors k.start := by
  rw [headSectors_eq]
  have hranges : (off, block.length) ∈ k.writes.map fun f => (f.1, f.2.length) :=
    List.mem_map.mpr ⟨_, hw, rfl⟩
  rw [k.writes_ranges] at hranges
  simp only [List.mem_cons, List.not_mem_nil, or_false, Prod.mk.injEq, hdpdloc, sectorSize]
    at hranges ⊢
  rw [Set.mem_Ico]
  omega

/-- A slice behind sector 1 is clear of the head exactly when it starts behind it. -/
theorem disjoint_headSectors_iff {partition : VtocPartition} (h1 : 1 ≤ partition.startSector)
    (hcount : 0 < partition.sectorCount) :
    Disjoint partition.sectors (headSectors 1) ↔ 35 ≤ partition.startSector := by
  rw [headSectors_eq, VtocPartition.sectors, Set.Ico_disjoint_Ico]
  omega

theorem asI64_eq (v : UInt64) :
    asI64 v = if v.toNat < 2 ^ 63 then (v.toNat : ℤ) else (v.toNat : ℤ) - 2 ^ 64 := by
  have hcond := BitVec.toInt_eq_toNat_cond v.toBitVec
  rw [asI64, Int64.toInt, UInt64.toBitVec_toInt64, hcond, UInt64.toNat_toBitVec]
  by_cases h : v.toNat < 2 ^ 63
  · rw [if_pos h, if_pos (by omega)]
  · rw [if_neg h, if_neg (by omega)]
    norm_num

theorem addI64_cases {a b : ℤ} (ha : 0 ≤ a) (ha63 : a < 2 ^ 63) (hb : 0 ≤ b) (hb63 : b < 2 ^ 63) :
    addI64 a b = a + b ∧ a + b < 2 ^ 63 ∨ 2 ^ 63 ≤ a + b := by
  by_cases h : a + b < 2 ^ 63
  · exact .inl ⟨Int.bmod_eq_of_le (by omega) (by omega), h⟩
  · exact .inr (not_lt.mp h)

/-- No size in mebibytes overflows when it is rounded up to whole cylinders. -/
theorem alignUp_sectorsOfMb_le (mb : UInt64) {spc : UInt64} (hpos : 0 < spc.toNat)
    (hspc : spc.toNat ≤ 1008) : (Sectors.alignUp (sectorsOfMb mb) spc).toNat ≤ 2 ^ 56 := by
  have hlt := (mb * 1024 * 1024).toNat_lt
  have hdiv : (sectorsOfMb mb).toNat = (mb * 1024 * 1024).toNat / 512 := UInt64.toNat_div _ _
  have hup := @ceilTo_lt (sectorsOfMb mb).toNat spc.toNat hpos
  have hcases := alignUp_cases (sectorsOfMb mb) hpos
  omega

section Layout
variable {geometry : RawDiskGeometry} {opts : SliceLayoutOptions} {layout : DiskLayout}

/-- The slices of a layout and the checks they passed. -/
theorem buildSliceLayout_ok (h : buildSliceLayout geometry opts = .ok layout) :
    ∃ stand standCount swap swapCount root rootCount : UInt64,
      stand = Sectors.alignUp opts.standStartSector geometry.sectorsPerCylinder ∧
      standCount = Sectors.alignUp (sectorsOfMb opts.standSizeMb) geometry.sectorsPerCylinder ∧
      swapCount = Sectors.alignUp (sectorsOfMb opts.swapSizeMb) geometry.sectorsPerCylinder ∧
      swap = nextStart (stand + standCount) opts.rootAlignSectors geometry.sectorsPerCylinder ∧
      root = nextStart (swap + swapCount) opts.rootAlignSectors geometry.sectorsPerCylinder ∧
      rootCount = (geometry.totalSectors - root) / geometry.sectorsPerCylinder *
        geometry.sectorsPerCylinder ∧
      standCount ≠ 0 ∧ swapCount ≠ 0 ∧ rootCount ≠ 0 ∧ 1 ≤ stand ∧ root < geometry.totalSectors ∧
      layout = ⟨1, (geometry.totalSectors - 1).toUInt32,
        [⟨0, vBackup, layoutFlagRaw, asI64 1, asI64 (geometry.totalSectors - 1)⟩,
          ⟨1, layoutTagRoot, layoutFlagFs, asI64 root, asI64 rootCount⟩,
          ⟨2, layoutTagSwap, layoutFlagRaw, asI64 swap, asI64 swapCount⟩,
          ⟨10, layoutTagStand, layoutFlagFs, asI64 stand, asI64 standCount⟩]⟩ := by
  unfold buildSliceLayout at h
  dsimp only at h
  split_ifs at h with hstandCount hswapCount hstand hroot hrootCount
  · obtain ⟨_, _, h⟩ := Outcome.bind_eq_ok.mp h
    cases h
  · obtain ⟨_, _, h⟩ := Outcome.bind_eq_ok.mp h
    exact ⟨_, _, _, _, _, _, rfl, rfl, rfl, rfl, rfl, rfl, hstandCount, hswapCount, hrootCount,
      UInt64.not_lt.mp hstand, UInt64.not_le.mp hroot, (Outcome.ok.inj h).symm⟩

/-- A slice that passed the validation, in unsigned terms. -/
theorem fits_asI64 {index tag flag : ℕ} {slice count : UInt64} {unixStart unixEnd : ℤ}
    (h : VtocPartition.Fits unixStart unixEnd ⟨index, tag, flag, asI64 slice, asI64 count⟩)
    (hend : unixEnd ≤ 2 ^ 43) :
    slice.toNat < 2 ^ 63 ∧ count.toNat < 2 ^ 63 ∧ asI64 slice = slice.toNat ∧
      asI64 count = count.toNat ∧ unixStart ≤ slice.toNat ∧ EndsInRange slice count := by
  have hstart := asI64_eq slice
  have hcount := asI64_eq count
  have h0 := h.start_nonneg
  have h1 := h.count_nonneg
  have h2 := h.start_le
  have h3 := h.end_le
  have hs := slice.toNat_lt
  have hc := count.toNat_lt
  dsimp only at h0 h1 h2 h3
  have hs63 : slice.toNat < 2 ^ 63 := by
    by_contra hn
    rw [hstart, if_neg hn] at h0
    omega
  have hc63 : count.toNat < 2 ^ 63 := by
    by_contra hn
    rw [hcount, if_neg hn] at h1
    omega
  rw [if_pos hs63] at hstart
  rw [if_pos hc63] at hcount
  refine ⟨hs63, hc63, hstart, hcount, by omega, ?_⟩
  have hsum := addI64_cases h0 (by omega) h1 (by omega)
  unfold EndsInRange
  omega

theorem addI64_partition (start size : UInt32) :
    addI64 start.toNat size.toNat = start.toNat + size.toNat := by
  have hs := start.toNat_lt
  have hz := size.toNat_lt
  exact Int.bmod_eq_of_le (by omega) (by omega)

variable {volume addressing : Str} {bootCode : Option Bytes} {file image : Bytes}

/-- An image made from a standard layout keeps the head of its partition clear of the slices exactly
when stand starts behind it and rounding the root alignment up to whole cylinders does not wrap
around to the head. -/
theorem buildSliceLayout_headKept_iff (hl : buildSliceLayout geometry opts = .ok layout)
    (hs : createRawImageSkeleton geometry layout.unixPartitionStart layout.unixPartitionSize volume
      layout.slices bootCode addressing file = (.ok (), image)) :
    layout.HeadKept ↔
      35 ≤ (Sectors.alignUp opts.standStartSector geometry.sectorsPerCylinder).toNat ∧
        (opts.rootAlignSectors.toNat < 35 ∨
          35 ≤ (Sectors.alignUp opts.rootAlignSectors geometry.sectorsPerCylinder).toNat) := by
  have r := SkeletonRequest.of_ok hs
  have hpos : 0 < geometry.sectorsPerCylinder.toNat := by
    rw [geometry.sectorsPerCylinder_toNat]
    exact Nat.mul_pos r.valid.heads_pos r.valid.sectors_pos
  have hspc : geometry.sectorsPerCylinder.toNat ≤ 1008 := by
    rw [geometry.sectorsPerCylinder_toNat]
    exact Nat.mul_le_mul r.valid.heads_le r.valid.sectors_le
  have htotal := r.valid.totalSectors_le
  obtain ⟨stand, standCount, swap, swapCount, root, rootCount, hstand, hstandCount, hswapCount,
    hswap, hroot, _, hn₁, hn₂, hn₃, _, hrootlt, hlayout⟩ := buildSliceLayout_ok hl
  have hfits := (validateVtocLoop_iff _ []).mp r.slices_ok
  have hend : addI64 layout.unixPartitionStart.toNat layout.unixPartitionSize.toNat ≤ 2 ^ 43 := by
    have hle := r.partition_le
    rw [addI64_partition]
    omega
  have hslice : ∀ p ∈ layout.slices, p.Fits layout.unixPartitionStart.toNat
      (addI64 layout.unixPartitionStart.toNat layout.unixPartitionSize.toNat) :=
    fun p hp => (hfits.1 p hp).1
  have hstart1 : layout.unixPartitionStart = 1 := by rw [hlayout]
  rw [hstart1] at hslice hend
  have hslices : layout.slices = _ := congrArg DiskLayout.slices hlayout
  simp only [hslices, List.forall_mem_cons, List.not_mem_nil, IsEmpty.forall_iff, implies_true,
    and_true] at hslice
  obtain ⟨_, hr, hw, hst⟩ := hslice
  obtain ⟨_, _, hr₁, hr₂, hr₃, _⟩ := fits_asI64 hr hend
  obtain ⟨hw63, _, hw₁, hw₂, hw₃, hwfit⟩ := fits_asI64 hw hend
  obtain ⟨hs63, _, hs₁, hs₂, hs₃, hsfit⟩ := fits_asI64 hst hend
  have hp₁ := toNat_pos_of_ne_zero hn₁
  have hp₂ := toNat_pos_of_ne_zero hn₂
  have hp₃ := toNat_pos_of_ne_zero hn₃
  have hkept : layout.HeadKept ↔ 35 ≤ root.toNat ∧ 35 ≤ swap.toNat ∧ 35 ≤ stand.toNat := by
    have hclear : ∀ {index tag flag : ℕ} {slice count : UInt64}, asI64 slice = slice.toNat →
        asI64 count = count.toNat → (1 : ℤ) ≤ slice.toNat → 0 < count.toNat →
        (Disjoint (VtocPartition.sectors ⟨index, tag, flag, asI64 slice, asI64 count⟩)
          (headSectors ((1 : UInt32).toNat : ℤ)) ↔ 35 ≤ slice.toNat) := by
      intro index tag flag slice count hslice hcount hone hcpos
      have hiff := @disjoint_headSectors_iff ⟨index, tag, flag, asI64 slice, asI64 count⟩
        (by dsimp only; omega) (by dsimp only; omega)
      dsimp only at hiff
      rw [hslice] at hiff ⊢
      exact hiff.trans (by omega)
    rw [DiskLayout.HeadKept, hslices, hstart1]
    simp only [List.forall_mem_cons, List.not_mem_nil, IsEmpty.forall_iff, implies_true, and_true,
      ne_eq, not_true_eq_false, true_and, vBackup, layoutTagRoot, layoutTagSwap, layoutTagStand,
      Nat.reduceEqDiff, not_false_eq_true, forall_const]
    rw [hclear hr₁ hr₂ hr₃ hp₃, hclear hw₁ hw₂ hw₃ hp₂, hclear hs₁ hs₂ hs₃ hp₁]
  have hcount₁ := alignUp_sectorsOfMb_le opts.standSizeMb hpos hspc
  have hcount₂ := alignUp_sectorsOfMb_le opts.swapSizeMb hpos hspc
  rw [← hstandCount] at hcount₁
  rw [← hswapCount] at hcount₂
  have hroot43 : root.toNat ≤ 2 ^ 43 := by
    have hlt := UInt64.lt_iff_toNat_lt.mp hrootlt
    omega
  rw [hkept, ← hstand]
  constructor
  · rintro ⟨h₃, h₂, h₁⟩
    exact ⟨h₁, (starts_behind_iff hpos hspc hswap hroot h₁ hs63 ⟨hp₁, hcount₁⟩ ⟨hp₂, hcount₂⟩ hsfit
      hwfit hw63 hroot43).mp ⟨h₂, h₃⟩⟩
  · rintro ⟨h₁, halign⟩
    obtain ⟨h₂, h₃⟩ := (starts_behind_iff hpos hspc hswap hroot h₁ hs63 ⟨hp₁, hcount₁⟩
      ⟨hp₂, hcount₂⟩ hsfit hwfit hw63 hroot43).mpr halign
    exact ⟨h₃, h₂, h₁⟩

end Layout

/-! ## Two layouts -/

/-- The default options on a disk of 324 MiB. -/
theorem buildSliceLayout_headKept_default :
    ∃ layout image, buildSliceLayout ⟨659, 16, 63⟩ ⟨64, 16, 64, 2048⟩ = .ok layout ∧
      createRawImageSkeleton ⟨659, 16, 63⟩ layout.unixPartitionStart layout.unixPartitionSize []
        layout.slices none diskAddressingChs [] = (.ok (), image) ∧ layout.HeadKept := by
  have hl : buildSliceLayout ⟨659, 16, 63⟩ ⟨64, 16, 64, 2048⟩ = .ok ⟨1, 664271,
      [⟨0, 5, 0x201, 1, 664271⟩, ⟨1, 2, 0x200, 168336, 495936⟩, ⟨2, 3, 0x201, 35280, 132048⟩,
        ⟨10, 9, 0x200, 1008, 33264⟩]⟩ := by decide +kernel
  have r : SkeletonRequest ⟨659, 16, 63⟩ 1 664271
      [⟨0, 5, 0x201, 1, 664271⟩, ⟨1, 2, 0x200, 168336, 495936⟩, ⟨2, 3, 0x201, 35280, 132048⟩,
        ⟨10, 9, 0x200, 1008, 33264⟩] none diskAddressingChs :=
    { valid := validateGeometry_iff.mp (by decide +kernel)
      start_pos := by decide +kernel
      size_pos := by decide +kernel
      partition_le := by decide +kernel
      slices_ok := by decide +kernel
      bootCode_le := fun _ h => by cases h
      fits := by decide +kernel }
  obtain ⟨k, _, _, _, _, _, _, hrun⟩ := r.run [] []
  exact ⟨_, k.image, hl, hrun, (buildSliceLayout_headKept_iff hl hrun).mpr (by decide +kernel)⟩

/-- Stand asked for at sector 1 of a disk with small cylinders lands in the bootstrap. -/
theorem buildSliceLayout_headLost :
    ¬∀ (geometry : RawDiskGeometry) (opts : SliceLayoutOptions) (layout : DiskLayout)
      (volume addressing : Str) (bootCode : Option Bytes) (file image : Bytes),
      buildSliceLayout geometry opts = .ok layout →
      createRawImageSkeleton geometry layout.unixPartitionStart layout.unixPartitionSize volume
        layout.slices bootCode addressing file = (.ok (), image) → layout.HeadKept := by
  intro hall
  have hl : buildSliceLayout ⟨400, 1, 16⟩ ⟨1, 1, 1, 2048⟩ = .ok ⟨1, 6399,
      [⟨0, 5, 0x201, 1, 6399⟩, ⟨1, 2, 0x200, 6144, 256⟩, ⟨2, 3, 0x201, 4096, 2048⟩,
        ⟨10, 9, 0x200, 16, 2048⟩]⟩ := by decide +kernel
  have r : SkeletonRequest ⟨400, 1, 16⟩ 1 6399
      [⟨0, 5, 0x201, 1, 6399⟩, ⟨1, 2, 0x200, 6144, 256⟩, ⟨2, 3, 0x201, 4096, 2048⟩,
        ⟨10, 9, 0x200, 16, 2048⟩] none diskAddressingChs :=
    { valid := validateGeometry_iff.mp (by decide +kernel)
      start_pos := by decide +kernel
      size_pos := by decide +kernel
      partition_le := by decide +kernel
      slices_ok := by decide +kernel
      bootCode_le := fun _ h => by cases h
      fits := by decide +kernel }
  obtain ⟨k, _, _, _, _, _, _, hrun⟩ := r.run [] []
  have hkept := hall _ _ _ _ _ _ _ _ hl hrun ⟨10, 9, 0x200, 16, 2048⟩ (by simp) (by decide)
  have hbehind := (@disjoint_headSectors_iff ⟨10, 9, 0x200, 16, 2048⟩ (by norm_num) (by norm_num)).mp
    hkept
  exact absurd hbehind (by norm_num)

end UfsFuse
