import UfsFuse.Skeleton

/-!
# The image of a skeleton

The pdinfo sector, the VTOC block and the alternates block overlap on the disk. Each parser reads a
prefix of its block that no later write reaches, so the image reads back as its four blocks.
-/
namespace UfsFuse

/-! ## Validation -/

/-- What `validate_geometry` checks. -/
structure RawDiskGeometry.Valid (geometry : RawDiskGeometry) (diskAddressing : Str) : Prop where
  cylinders_pos : 0 < geometry.cylinders.toNat
  heads_pos : 0 < geometry.heads.toNat
  sectors_pos : 0 < geometry.sectorsPerTrack.toNat
  addressing : diskAddressing = diskAddressingChs ∨ diskAddressing = diskAddressingLba28
  cylinders_le : diskAddressing = diskAddressingChs → geometry.cylinders.toNat ≤ maxChsCylinders
  heads_le : geometry.heads.toNat ≤ maxKernelChsHeads
  sectors_le : geometry.sectorsPerTrack.toNat ≤ maxChsSectorsPerTrack

section Geometry
variable {geometry : RawDiskGeometry} {addressing : Str}

theorem toNat_pos_iff {n : UInt32} : 0 < n.toNat ↔ n ≠ 0 := by
  rw [Nat.pos_iff_ne_zero, ne_eq, ne_eq, ← UInt32.toNat_inj]
  rfl

theorem validateGeometry_iff :
    validateGeometry geometry addressing = .ok () ↔ geometry.Valid addressing := by
  have hiff : geometry.Valid addressing ↔
      (0 < geometry.cylinders.toNat ∧ 0 < geometry.heads.toNat ∧
        0 < geometry.sectorsPerTrack.toNat) ∧
      (addressing = diskAddressingChs ∨ addressing = diskAddressingLba28) ∧
      (addressing = diskAddressingChs → geometry.cylinders.toNat ≤ maxChsCylinders) ∧
      geometry.heads.toNat ≤ maxKernelChsHeads ∧
      geometry.sectorsPerTrack.toNat ≤ maxChsSectorsPerTrack :=
    ⟨fun ⟨a, b, c, d, e, f, g⟩ => ⟨⟨a, b, c⟩, d, e, f, g⟩,
      fun ⟨⟨a, b, c⟩, d, e, f, g⟩ => ⟨a, b, c, d, e, f, g⟩⟩
  rw [hiff]
  simp only [toNat_pos_iff]
  unfold validateGeometry
  split_ifs with h1 h2 h3 h4 h5
  · exact iff_of_false (by simp) fun h => by tauto
  · exact iff_of_false (by simp) fun h => by tauto
  · exact iff_of_false (by simp) fun h => absurd (h.2.2.1 h3.1) (not_le.mpr h3.2)
  · exact iff_of_false (by simp) fun h => absurd h.2.2.2.1 (not_le.mpr h4)
  · exact iff_of_false (by simp) fun h => absurd h.2.2.2.2 (not_le.mpr h5)
  · refine iff_of_true rfl ⟨by tauto, by tauto, fun ha => ?_, not_lt.mp h4, not_lt.mp h5⟩
    exact not_lt.mp fun hc => h3 ⟨ha, hc⟩

theorem RawDiskGeometry.sectorsPerCylinder_toNat (geometry : RawDiskGeometry) :
    geometry.sectorsPerCylinder.toNat = geometry.heads.toNat * geometry.sectorsPerTrack.toNat := by
  have hh := geometry.heads.toNat_lt
  have hs := geometry.sectorsPerTrack.toNat_lt
  rw [sectorsPerCylinder, UInt64.toNat_mul, UInt32.toNat_toUInt64, UInt32.toNat_toUInt64]
  exact Nat.mod_eq_of_lt (by nlinarith)

/-- No sector count of a valid geometry overflows. -/
theorem RawDiskGeometry.Valid.totalSectors_toNat (h : geometry.Valid addressing) :
    geometry.totalSectors.toNat =
      geometry.cylinders.toNat * (geometry.heads.toNat * geometry.sectorsPerTrack.toNat) := by
  have hc := geometry.cylinders.toNat_lt
  have hh := h.heads_le
  have hs := h.sectors_le
  have hhs : geometry.heads.toNat * geometry.sectorsPerTrack.toNat ≤ 16 * 63 := Nat.mul_le_mul hh hs
  have hch : geometry.cylinders.toNat * geometry.heads.toNat ≤ 2 ^ 32 * 16 :=
    Nat.mul_le_mul hc.le hh
  have hall : geometry.cylinders.toNat * (geometry.heads.toNat * geometry.sectorsPerTrack.toNat) ≤
      2 ^ 32 * (16 * 63) := Nat.mul_le_mul hc.le hhs
  rw [totalSectors, UInt64.toNat_mul, UInt64.toNat_mul, UInt32.toNat_toUInt64,
    UInt32.toNat_toUInt64, UInt32.toNat_toUInt64,
    Nat.mod_eq_of_lt (hch.trans_lt (show 2 ^ 32 * 16 < 2 ^ 64 by norm_num)), Nat.mul_assoc]
  exact Nat.mod_eq_of_lt (hall.trans_lt (by norm_num))

theorem RawDiskGeometry.Valid.totalSectors_le (h : geometry.Valid addressing) :
    geometry.totalSectors.toNat ≤ 2 ^ 32 * (16 * 63) := by
  rw [h.totalSectors_toNat]
  exact Nat.mul_le_mul geometry.cylinders.toNat_lt.le (Nat.mul_le_mul h.heads_le h.sectors_le)

end Geometry

/-- What `validate_vtoc_partitions` checks of one slice. -/
structure VtocPartition.Fits (unixStart unixEnd : ℤ) (partition : VtocPartition) : Prop where
  index_lt : partition.index < 16
  start_nonneg : 0 ≤ partition.startSector
  count_nonneg : 0 ≤ partition.sectorCount
  start_le : unixStart ≤ partition.startSector
  end_le : addI64 partition.startSector partition.sectorCount ≤ unixEnd

section Slices
variable {unixStart unixEnd : ℤ}

theorem validateVtocLoop_iff (partitions : List VtocPartition) : ∀ seen : List ℕ,
    validateVtocLoop unixStart unixEnd seen partitions = .ok () ↔
      (∀ p ∈ partitions, p.Fits unixStart unixEnd ∧ p.index ∉ seen) ∧
        (partitions.map (·.index)).Nodup := by
  induction partitions with
  | nil =>
    intro seen
    simp [validateVtocLoop]
  | cons p rest ih =>
    intro seen
    have hfits : p.Fits unixStart unixEnd ↔ ¬16 ≤ p.index ∧ ¬p.startSector < 0 ∧
        ¬p.sectorCount < 0 ∧ ¬p.startSector < unixStart ∧
        ¬addI64 p.startSector p.sectorCount > unixEnd :=
      ⟨fun ⟨a, b, c, d, e⟩ => ⟨not_le.mpr a, not_lt.mpr b, not_lt.mpr c, not_lt.mpr d, not_lt.mpr e⟩,
        fun ⟨a, b, c, d, e⟩ => ⟨not_le.mp a, not_lt.mp b, not_lt.mp c, not_lt.mp d, not_lt.mp e⟩⟩
    have hmem : (∀ q ∈ p :: rest, q.Fits unixStart unixEnd ∧ q.index ∉ seen) ∧
        ((p :: rest).map (·.index)).Nodup ↔
        (p.Fits unixStart unixEnd ∧ p.index ∉ seen) ∧
          (∀ q ∈ rest, q.Fits unixStart unixEnd ∧ q.index ∉ p.index :: seen) ∧
            (rest.map (·.index)).Nodup := by
      rw [List.forall_mem_cons, List.map_cons, List.nodup_cons]
      simp only [List.mem_cons, List.mem_map, not_or, not_exists, not_and]
      constructor
      · rintro ⟨⟨hp, hrest⟩, hnew, hnd⟩
        exact ⟨hp, fun q hq => ⟨(hrest q hq).1, hnew q hq, (hrest q hq).2⟩, hnd⟩
      · rintro ⟨hp, hrest, hnd⟩
        exact ⟨⟨hp, fun q hq => ⟨(hrest q hq).1, (hrest q hq).2.2⟩⟩,
          fun q hq => (hrest q hq).2.1, hnd⟩
    rw [hmem, ← ih, hfits, validateVtocLoop]
    split_ifs <;> simp_all

end Slices

/-! ## The blocks -/
section Blocks
variable {geometry : RawDiskGeometry} {out : Bytes}

theorem encodeChs_length {lba : UInt64} {saturate : Bool}
    (h : encodeChs lba geometry saturate = .ok out) : out.length = 3 := by
  unfold encodeChs at h
  by_cases h0 : lba = 0
  · rw [if_pos h0] at h
    cases h
    rfl
  · rw [if_neg h0] at h
    by_cases hlba : maxChsLba geometry < lba ∧ saturate = false
    · rw [if_pos hlba] at h
      cases h
    · rw [if_neg hlba] at h
      obtain ⟨_, _, h⟩ := Outcome.bind_eq_ok.mp h
      cases h
      rfl

/-- The entry carries the flag, the type and the bounds of the partition. -/
theorem serializePartitionEntry_ok {partition : PartitionEntry} {saturate : Bool}
    (h : serializePartitionEntry partition geometry saturate = .ok out) :
    out.length = 16 ∧ out.byte 0 = (if partition.bootable then 0x80 else 0) ∧
      out.byte 4 = partition.partitionType ∧ out.u32 8 = partition.startLba % 2 ^ 32 ∧
      out.u32 12 = partition.sectorCount % 2 ^ 32 := by
  unfold serializePartitionEntry at h
  obtain ⟨startChs, hstart, h⟩ := Outcome.bind_eq_ok.mp h
  obtain ⟨endChs, hend, h⟩ := Outcome.bind_eq_ok.mp h
  obtain ⟨a, b, c, rfl⟩ := List.length_eq_three.mp (encodeChs_length hstart)
  obtain ⟨d, e, f, rfl⟩ := List.length_eq_three.mp (encodeChs_length hend)
  cases h
  refine ⟨rfl, rfl, rfl, ?_, ?_⟩
  · exact Bytes.leNat_le 4 partition.startLba
  · exact Bytes.leNat_le 4 partition.sectorCount

theorem bootCodeSector_length {bootCode : Option Bytes} (h : bootCodeSector bootCode = .ok out) :
    out.length = 512 := by
  cases bootCode with
  | none =>
    cases h
    exact Bytes.zeros_length _
  | some code =>
    simp only [bootCodeSector] at h
    by_cases hlen : code.length > 446
    · rw [if_pos hlen] at h
      cases h
    · rw [if_neg hlen] at h
      cases h
      have hin : 0 + code.length ≤ (Bytes.zeros sectorSize).length := by
        rw [Bytes.zeros_length, sectorSize]
        omega
      exact (Bytes.overlay_length hin).trans (Bytes.zeros_length _)

/-- The entry of the partition and the signature. -/
theorem buildMbr_ok {start size : UInt32} {bootCode : Option Bytes} {addressing : Str}
    (h : buildMbr geometry start size bootCode addressing = .ok out) :
    out.length = sectorSize ∧ ∃ entry,
      serializePartitionEntry (unixPartitionEntry start size) geometry
        (addressing == diskAddressingLba28) = .ok entry ∧ out.slice 446 16 = entry ∧
      out.u16 510 = 0xAA55 := by
  unfold buildMbr at h
  obtain ⟨sector, hsector, h⟩ := Outcome.bind_eq_ok.mp h
  obtain ⟨entry, hentry, h⟩ := Outcome.bind_eq_ok.mp h
  have hl := (serializePartitionEntry_ok hentry).1
  have hs := bootCodeSector_length hsector
  have hin : 446 + entry.length ≤ sector.length := by omega
  have hle := Bytes.overlay_length hin
  cases h
  have hsig : 510 + (Bytes.le 2 0xAA55).length ≤ (sector.overlay 446 entry).length := by
    rw [hle, Bytes.le_length]
    omega
  refine ⟨?_, entry, hentry, ?_, ?_⟩
  · rw [Bytes.putU16_length (by omega), hle, hs]
  · rw [Bytes.putU16, Bytes.slice_overlay_disjoint hsig (by omega), ← hl,
      Bytes.slice_overlay_same hin]
  · exact Bytes.u16_putU16_same (by omega)

/-- The new partition is the one that an inspection follows. -/
theorem buildMbr_active {start size : UInt32} {bootCode : Option Bytes} {addressing : Str}
    (h : buildMbr geometry start size bootCode addressing = .ok out) :
    ∃ entry, findActiveUnixPartition ⟨out.u16 510, (List.range 4).map (entryAt out)⟩ = some entry ∧
      entry.index = 1 ∧ entry.bootable = true ∧ entry.partitionType = unixwarePartitionType ∧
      entry.startLba = start.toNat ∧ entry.sectorCount = size.toNat := by
  obtain ⟨_, raw, hraw, hslice, _⟩ := buildMbr_ok h
  obtain ⟨_, hflag, htype, hstart, hcount⟩ := serializePartitionEntry_ok hraw
  have hb : (entryAt out 0).bootable = true := by
    change ((out.slice 446 16).byte 0 == 0x80) = true
    rw [hslice, hflag]
    rfl
  have ht : (entryAt out 0).partitionType = unixwarePartitionType := by
    change (out.slice 446 16).byte 4 = _
    rw [hslice, htype]
    rfl
  refine ⟨entryAt out 0, ?_, rfl, hb, ht, ?_, ?_⟩
  · rw [findActiveUnixPartition, List.range_succ_eq_map, List.map_cons, List.find?_cons_of_pos]
    · rfl
    · rw [hb, ht]
      rfl
  · change (out.slice 446 16).u32 8 = _
    rw [hslice, hstart]
    exact Nat.mod_eq_of_lt start.toNat_lt
  · change (out.slice 446 16).u32 12 = _
    rw [hslice, hcount]
    exact Nat.mod_eq_of_lt size.toNat_lt

/-- In a valid geometry an LBA has a CHS field if it is on the disk or may be clamped. -/
theorem encodeChs_returns {lba : UInt64} {saturate : Bool} {addressing : Str}
    (hg : geometry.Valid addressing)
    (h : saturate = true ∨ lba.toNat < geometry.totalSectors.toNat) :
    ∃ out, encodeChs lba geometry saturate = .ok out := by
  have hspc : geometry.sectorsPerCylinder ≠ 0 := by
    intro hz
    have hp := Nat.mul_pos hg.heads_pos hg.sectors_pos
    rw [← geometry.sectorsPerCylinder_toNat, hz] at hp
    exact absurd hp (lt_irrefl _)
  unfold encodeChs
  by_cases h0 : lba = 0
  · exact ⟨_, if_pos h0⟩
  · rw [if_neg h0, if_neg]
    · dsimp only
      rw [Outcome.guard_true hspc]
      exact ⟨_, rfl⟩
    · intro hc
      rcases h with h | h
      · exact absurd (h.symm.trans hc.2) (by decide)
      · have hlt := UInt64.lt_iff_toNat_lt.mp hc.1
        have hone : (1 : UInt64) ≤ geometry.totalSectors := by
          rw [UInt64.le_iff_toNat_le]
          exact Nat.one_le_of_lt h
        rw [maxChsLba, UInt64.toNat_sub_of_le _ _ hone] at hlt
        exact absurd hlt (not_lt.mpr (Nat.le_sub_one_of_lt h))

/-- `build_mbr` fails on nothing but boot code that is too large. -/
theorem buildMbr_returns {start size : UInt32} {bootCode : Option Bytes} {addressing : Str}
    (hg : geometry.Valid addressing) (hcode : ∀ code ∈ bootCode, code.length ≤ 446)
    (hstart : 1 ≤ start.toNat)
    (hfit : start.toNat + size.toNat ≤ geometry.totalSectors.toNat) (hsize : 1 ≤ size.toNat) :
    ∃ out, buildMbr geometry start size bootCode addressing = .ok out := by
  have hss := start.toNat_lt
  have hzs := size.toNat_lt
  have hsector : ∃ sector, bootCodeSector bootCode = .ok sector := by
    cases bootCode with
    | none => exact ⟨_, rfl⟩
    | some code => exact ⟨_, if_neg (not_lt.mpr (hcode code rfl))⟩
  obtain ⟨sector, hsector⟩ := hsector
  have hof : ∀ n < 2 ^ 33, (UInt64.ofNat n).toNat = n := fun n hn => by
    rw [UInt64.toNat_ofNat']
    exact Nat.mod_eq_of_lt (hn.trans (by norm_num))
  have hsat : ∀ n < 2 ^ 33, n < geometry.totalSectors.toNat →
      ∃ out, encodeChs (UInt64.ofNat n) geometry (addressing == diskAddressingLba28) = .ok out :=
    fun n hn hlt => encodeChs_returns hg (.inr (by rwa [hof n hn]))
  obtain ⟨startChs, hs⟩ := hsat start.toNat (by omega) (by omega)
  obtain ⟨endChs, he⟩ := hsat (start.toNat + (size.toNat - 1)) (by omega) (by omega)
  rw [buildMbr, hsector, Outcome.ok_bind, serializePartitionEntry]
  dsimp only [unixPartitionEntry]
  rw [hs, Outcome.ok_bind, he, Outcome.ok_bind]
  exact ⟨_, rfl⟩

/-- The fields of a new pdinfo sector. -/
def pdinfoFields (geometry : RawDiskGeometry) (logicalSector0 vtocPtr vtocLen altPtr altLen : ℕ) :
    List (ℕ × Bytes) :=
  [(0, .le 4 0), (4, .le 4 validPd), (8, .le 4 1), (24, .le 4 geometry.cylinders.toNat),
    (28, .le 4 geometry.heads.toNat), (32, .le 4 geometry.sectorsPerTrack.toNat),
    (36, .le 4 sectorSize), (40, .le 4 logicalSector0), (84, .le 4 vtocPtr), (88, .le 2 vtocLen),
    (92, .le 4 altPtr), (96, .le 2 altLen)]

/-- Their offsets and lengths. -/
def pdinfoRanges : List (ℕ × ℕ) :=
  [(0, 4), (4, 4), (8, 4), (24, 4), (28, 4), (32, 4), (36, 4), (40, 4), (84, 4), (88, 2), (92, 4),
    (96, 2)]

section Pdinfo
variable {logicalSector0 vtocPtr vtocLen altPtr altLen : ℕ}

theorem buildPdinfo_eq :
    buildPdinfo geometry logicalSector0 vtocPtr vtocLen altPtr altLen =
      (Bytes.zeros sectorSize).overlays
        (pdinfoFields geometry logicalSector0 vtocPtr vtocLen altPtr altLen) := rfl

theorem pdinfoFields_ranges :
    ((pdinfoFields geometry logicalSector0 vtocPtr vtocLen altPtr altLen).map
      fun f => (f.1, f.2.length)) = pdinfoRanges := rfl

theorem pdinfoFields_inside :
    ∀ f ∈ pdinfoFields geometry logicalSector0 vtocPtr vtocLen altPtr altLen,
      f.1 + f.2.length ≤ (Bytes.zeros sectorSize).length :=
  Bytes.fields_inside pdinfoFields_ranges (by rw [Bytes.zeros_length]; decide)

theorem pdinfoFields_apart :
    (pdinfoFields geometry logicalSector0 vtocPtr vtocLen altPtr altLen).Pairwise
      Bytes.FieldsApart :=
  Bytes.pairwise_fieldsApart pdinfoFields_ranges (by decide)

theorem buildPdinfo_length :
    (buildPdinfo geometry logicalSector0 vtocPtr vtocLen altPtr altLen).length = sectorSize := by
  rw [buildPdinfo_eq, Bytes.overlays_length pdinfoFields_inside, Bytes.zeros_length]

/-- What a reader of the sector needs to go on. -/
theorem buildPdinfo_pointers {sector : Bytes}
    (h : buildPdinfo geometry logicalSector0 vtocPtr vtocLen altPtr altLen = sector) :
    sector.u32 4 = validPd ∧ sector.u32 84 = vtocPtr % 2 ^ 32 ∧
      sector.u16 88 = vtocLen % 2 ^ 16 ∧ sector.u32 92 = altPtr % 2 ^ 32 ∧
      sector.u16 96 = altLen % 2 ^ 16 := by
  rw [buildPdinfo_eq] at h
  subst h
  have h4 : ∀ o v, (o, Bytes.le 4 v) ∈
      pdinfoFields geometry logicalSector0 vtocPtr vtocLen altPtr altLen → _ :=
    fun o v hm => Bytes.overlays_u32 pdinfoFields_inside pdinfoFields_apart hm
  have h2 : ∀ o v, (o, Bytes.le 2 v) ∈
      pdinfoFields geometry logicalSector0 vtocPtr vtocLen altPtr altLen → _ :=
    fun o v hm => Bytes.overlays_u16 pdinfoFields_inside pdinfoFields_apart hm
  have hsanity := h4 4 validPd (by simp [pdinfoFields])
  refine ⟨hsanity.trans (by norm_num), h4 84 vtocPtr ?_, h2 88 vtocLen ?_, h4 92 altPtr ?_,
    h2 96 altLen ?_⟩
  all_goals simp [pdinfoFields]

end Pdinfo

/-- The fields of one slice in the VTOC block. -/
def vtocPartitionFields (partition : VtocPartition) : List (ℕ × Bytes) :=
  let base := partitionStructOffset + partition.index * partitionStructSize
  [(base, .le 2 partition.tag), (base + 2, .le 2 partition.flag),
    (base + 4, .le 4 (partition.startSector % 2 ^ 32).toNat),
    (base + 8, .le 4 (partition.sectorCount % 2 ^ 32).toNat)]

section Vtoc
variable {block : Bytes} {partition : VtocPartition}

theorem vtocPartitionFields_inside (hb : block.length = sectorSize) (hi : partition.index < 16) :
    ∀ f ∈ vtocPartitionFields partition, f.1 + f.2.length ≤ block.length := by
  rw [hb]
  simp only [vtocPartitionFields, partitionStructOffset, partitionStructSize, List.forall_mem_cons,
    Bytes.le_length, List.not_mem_nil, IsEmpty.forall_iff, implies_true, and_true, sectorSize]
  omega

theorem putVtocPartition_eq (hb : block.length = sectorSize) (hi : partition.index < 16) :
    putVtocPartition block partition = .ok (block.overlays (vtocPartitionFields partition)) ∧
      (block.overlays (vtocPartitionFields partition)).length = sectorSize := by
  refine ⟨?_, (Bytes.overlays_length (vtocPartitionFields_inside hb hi)).trans hb⟩
  have hin : partitionStructOffset + partition.index * partitionStructSize + partitionStructSize ≤
      block.length := by
    simp only [partitionStructOffset, partitionStructSize, hb, sectorSize]
    omega
  rw [putVtocPartition]
  dsimp only
  rw [Outcome.guard_true hin]
  rfl

/-- The fields in front of the slices. -/
def vtocHeaderFields (volume : Str) (partitions : List VtocPartition) : List (ℕ × Bytes) :=
  [(0, .le 4 vtocSane), (4, .le 4 1), (8, volume.take 8),
    (16, .le 2 (((partitions.map (·.index)).max?.map (· + 1)).getD 0))]

/-- The block before the slices are stored. -/
def vtocHeader (volume : Str) (partitions : List VtocPartition) : Bytes :=
  (Bytes.zeros sectorSize).overlays (vtocHeaderFields volume partitions)

section Header
variable (volume : Str) (partitions : List VtocPartition)

theorem vtocHeaderFields_inside :
    ∀ f ∈ vtocHeaderFields volume partitions, f.1 + f.2.length ≤ (Bytes.zeros sectorSize).length := by
  simp only [vtocHeaderFields, List.forall_mem_cons, Bytes.le_length, List.not_mem_nil,
    IsEmpty.forall_iff, implies_true, and_true, Bytes.zeros_length, sectorSize, List.length_take]
  omega

theorem vtocHeaderFields_apart :
    (vtocHeaderFields volume partitions).Pairwise Bytes.FieldsApart := by
  simp only [vtocHeaderFields, List.pairwise_cons, List.forall_mem_cons, Bytes.FieldsApart,
    Bytes.le_length, List.not_mem_nil, IsEmpty.forall_iff, implies_true, and_true,
    List.length_take, List.Pairwise.nil]
  omega

theorem vtocHeader_length : (vtocHeader volume partitions).length = sectorSize := by
  rw [vtocHeader, Bytes.overlays_length (vtocHeaderFields_inside volume partitions),
    Bytes.zeros_length]

end Header

/-- Slices with an index below 16 can all be stored. -/
theorem buildVtoc_eq {volume : Str} {partitions : List VtocPartition}
    (h : ∀ p ∈ partitions, p.index < 16) :
    buildVtoc volume partitions = .ok (partitions.foldl
        (fun block p => block.overlays (vtocPartitionFields p)) (vtocHeader volume partitions)) ∧
      (partitions.foldl (fun block p => block.overlays (vtocPartitionFields p))
        (vtocHeader volume partitions)).length = sectorSize := by
  have hfold := Outcome.foldM_ok (fun block : Bytes => block.length = sectorSize) partitions
    (fun _ hb p hp => putVtocPartition_eq hb (h p hp)) (vtocHeader_length volume partitions)
  exact hfold

/-- The slices leave the header of the block alone. -/
theorem vtocSlices_header {partitions : List VtocPartition} :
    ∀ {block : Bytes}, block.length = sectorSize → (∀ p ∈ partitions, p.index < 16) →
      (partitions.foldl (fun block p => block.overlays (vtocPartitionFields p)) block).slice 0 60 =
        block.slice 0 60 := by
  induction partitions with
  | nil => exact fun _ _ => rfl
  | cons p rest ih =>
    intro block hb hi
    have hin := vtocPartitionFields_inside hb (hi p (by simp))
    have hrest := ih ((Bytes.overlays_length hin).trans hb) fun q hq => hi q (by simp [hq])
    refine hrest.trans (Bytes.overlays_slice_apart hin ?_)
    simp only [vtocPartitionFields, partitionStructOffset, partitionStructSize,
      List.forall_mem_cons, List.not_mem_nil, IsEmpty.forall_iff, implies_true, and_true]
    omega

theorem buildVtoc_sanity {volume : Str} {partitions : List VtocPartition}
    (hi : ∀ p ∈ partitions, p.index < 16) (h : buildVtoc volume partitions = .ok block) :
    block.u32 0 = vtocSane := by
  have hblock := Outcome.ok.inj (h.symm.trans (buildVtoc_eq hi).1)
  have hheader := vtocSlices_header (vtocHeader_length volume partitions) hi
  rw [← hblock] at hheader
  have h0 : ∀ b : Bytes, b.u32 0 = (b.slice 0 60).u32 0 := fun b =>
    (@Bytes.u32_slice b 0 60 0 (by norm_num)).symm
  have hstored := Bytes.overlays_u32 (vtocHeaderFields_inside volume partitions)
    (vtocHeaderFields_apart volume partitions) (List.mem_cons_self (a := (0, Bytes.le 4 vtocSane)))
  rw [h0, hheader, ← h0]
  exact hstored.trans (by norm_num)

end Vtoc

theorem buildEmptyAltInfo_length : buildEmptyAltInfo.length = 2048 := by decide +kernel

/-- The empty tables. -/
theorem parseAltInfo_empty :
    (parseAltInfo buildEmptyAltInfo 0 : Outcome IoError AltInfo) =
      .ok ⟨altSanity, altVersion, ⟨0, 0, 0, []⟩, ⟨0, 0, 0, []⟩⟩ := by
  decide +kernel

end Blocks

/-! ## The image -/

/-- The four blocks of a new image. -/
structure Skeleton where
  total : ℕ
  start : ℕ
  mbr : Bytes
  pdinfo : Bytes
  vtoc : Bytes
  alternates : Bytes
  mbr_length : mbr.length = sectorSize
  pdinfo_length : pdinfo.length = sectorSize
  vtoc_length : vtoc.length = sectorSize
  alternates_length : alternates.length = 2048
  start_pos : 1 ≤ start
  fits : start + 34 ≤ total

namespace Skeleton

/-- The blocks in the order they are written. -/
def writes (k : Skeleton) : List (ℕ × Bytes) :=
  [(0, k.mbr), ((k.start + hdpdloc) * sectorSize, k.pdinfo),
    ((k.start + hdpdloc) * sectorSize + 100, k.vtoc), ((k.start + 30) * sectorSize, k.alternates)]

def image (k : Skeleton) : Bytes := (Bytes.zeros (k.total * sectorSize)).overlays k.writes

variable (k : Skeleton)

/-- The offsets and lengths of the writes. -/
theorem writes_ranges : k.writes.map (fun f => (f.1, f.2.length)) =
    [(0, 512), ((k.start + hdpdloc) * sectorSize, 512),
      ((k.start + hdpdloc) * sectorSize + 100, 512), ((k.start + 30) * sectorSize, 2048)] := by
  simp only [writes, List.map_cons, List.map_nil, k.mbr_length, k.pdinfo_length, k.vtoc_length,
    k.alternates_length, sectorSize]

theorem writes_inside : ∀ f ∈ k.writes, f.1 + f.2.length ≤ k.total * sectorSize := by
  have hfits := k.fits
  refine Bytes.fields_inside k.writes_ranges ?_
  simp only [List.forall_mem_cons, List.not_mem_nil, IsEmpty.forall_iff, implies_true, and_true,
    hdpdloc, sectorSize]
  omega

theorem image_length : k.image.length = k.total * sectorSize := by
  rw [image, Bytes.overlays_length, Bytes.zeros_length]
  rw [Bytes.zeros_length]
  exact k.writes_inside

/-- The blank file with the first writes done. -/
def written (before : List (ℕ × Bytes)) : Bytes :=
  (Bytes.zeros (k.total * sectorSize)).overlays before

section Split
variable {k} {before after : List (ℕ × Bytes)} {off len : ℕ} {block : Bytes}

/-- There is room for the next block. -/
theorem written_room (hw : k.writes = before ++ (off, block) :: after) :
    off + block.length ≤ (k.written before).length ∧
      (k.written before).length = k.total * sectorSize := by
  have hin := k.writes_inside
  rw [hw] at hin
  have hl : (k.written before).length = k.total * sectorSize := by
    rw [written, Bytes.overlays_length, Bytes.zeros_length]
    rw [Bytes.zeros_length]
    exact fun f hf => hin f (List.mem_append_left _ hf)
  refine ⟨?_, hl⟩
  rw [hl]
  exact hin (off, block) (by simp)

theorem written_append :
    k.written (before ++ [(off, block)]) = (k.written before).overlay off block := by
  rw [written, Bytes.overlays, List.foldl_append]
  rfl

/-- The part of a block that the writes after it leave alone is in the image. -/
theorem image_slice (hw : k.writes = before ++ (off, block) :: after) (hlen : len ≤ block.length)
    (hafter : ∀ f ∈ after, off + len ≤ f.1 ∨ f.1 + f.2.length ≤ off) :
    k.image.slice off len = block.slice 0 len := by
  obtain ⟨hroom, hl⟩ := written_room hw
  have hin := k.writes_inside
  rw [hw] at hin
  have himage : k.image = ((k.written before).overlay off block).overlays after := by
    rw [image, hw, Bytes.overlays, List.foldl_append, List.foldl_cons]
    rfl
  rw [himage, Bytes.overlays_slice_apart]
  · rw [Bytes.slice_overlay_inside hroom le_rfl (by omega), Nat.sub_self]
  · rw [Bytes.overlay_length hroom, hl]
    exact fun f hf => hin f (by simp [hf])
  · exact hafter

end Split

theorem image_mbr : readSector k.image 0 1 = k.mbr := by
  have hstart := k.start_pos
  have hl := k.mbr_length
  have hs := @image_slice k [] _ _ sectorSize _ rfl hl.ge (by
    simp only [List.forall_mem_cons, List.not_mem_nil, IsEmpty.forall_iff, implies_true, and_true,
      hdpdloc, sectorSize]
    omega)
  rw [readSector, Nat.zero_mul, Nat.one_mul, hs, ← hl, Bytes.slice_full]

theorem image_pdinfo :
    (readSector k.image (k.start + hdpdloc) 1).slice 0 98 = k.pdinfo.slice 0 98 := by
  have hs := @image_slice k [_] _ _ 98 _ rfl (by rw [k.pdinfo_length]; norm_num) (by
    simp only [List.forall_mem_cons, List.not_mem_nil, IsEmpty.forall_iff, implies_true, and_true,
      hdpdloc, sectorSize]
    omega)
  rw [readSector, Bytes.slice_slice (by norm_num), Nat.add_zero, hs]

theorem image_vtoc :
    (readSector k.image (k.start + hdpdloc) 2).slice 100 252 = k.vtoc.slice 0 252 := by
  have hs := @image_slice k [_, _] _ _ 252 _ rfl (by rw [k.vtoc_length]; norm_num) (by
    simp only [List.forall_mem_cons, List.not_mem_nil, IsEmpty.forall_iff, implies_true, and_true,
      hdpdloc, sectorSize]
    omega)
  rw [readSector, Bytes.slice_slice (by norm_num), hs]

theorem image_alternates : readSector k.image (k.start + 30) 4 = k.alternates := by
  have hl := k.alternates_length
  have hs := @image_slice k [_, _, _] _ _ 2048 _ rfl hl.ge (by simp)
  rw [readSector, show 4 * sectorSize = 2048 by norm_num, hs, ← hl, Bytes.slice_full]

theorem readPdinfo_image : readPdinfo k.image k.start = .ok (pdinfoAt k.pdinfo) := by
  have hfits := k.fits
  have hl := k.image_length
  rw [readPdinfo_eq, ← pdinfoAt_slice, k.image_pdinfo, pdinfoAt_slice]
  rw [hl, hdpdloc, sectorSize]
  omega

theorem readVtoc_image {pd : PdInfo} (hptr : pd.vtocPtr = skeletonVtocPtr)
    (hlen : pd.vtocLen = skeletonVtocLen) : readVtoc k.image k.start pd = .ok (vtocAt k.vtoc 0) := by
  have hfits := k.fits
  have hread : readVtoc k.image k.start pd =
      parseVtoc (readSector k.image (k.start + hdpdloc) 2) 100 := by
    rw [readVtoc, hptr, hlen]
    rfl
  rw [hread, parseVtoc_eq, ← vtocAt_slice, k.image_vtoc, vtocAt_slice]
  rw [readSector_length, k.image_length, hdpdloc, sectorSize]
  omega

theorem readAltInfo_image {pd : PdInfo} {alt : AltInfo} (hptr : pd.altPtr = skeletonAltPtr)
    (hlen : pd.altLen = 2048)
    (halt : (parseAltInfo k.alternates 0 : Outcome IoError AltInfo) = .ok alt)
    (hvalid : isValidAltInfo alt = true) : readAltInfo k.image k.start pd = .ok (some alt) := by
  have hread : readAltInfo k.image k.start pd = (do
      let altInfo ← parseAltInfo (readSector k.image (k.start + 30) 4) 0
      if ¬isValidAltInfo altInfo then pure none else pure (some altInfo)) := by
    rw [readAltInfo, hptr, hlen]
    rfl
  rw [hread, k.image_alternates, halt, Outcome.ok_bind, if_neg (not_not.mpr hvalid)]
  rfl

/-- Outside the four blocks the image is zero. -/
theorem image_zero {i : ℕ} (hmbr : sectorSize ≤ i)
    (hhead : i < (k.start + hdpdloc) * sectorSize ∨ (k.start + 34) * sectorSize ≤ i) :
    k.image.byte i = 0 := by
  have hapart : ∀ f ∈ k.writes, i + 1 ≤ f.1 ∨ f.1 + f.2.length ≤ i := by
    simp only [writes, List.forall_mem_cons, k.mbr_length, k.pdinfo_length, k.vtoc_length,
      k.alternates_length, List.not_mem_nil, IsEmpty.forall_iff, implies_true, and_true, hdpdloc,
      sectorSize] at hmbr hhead ⊢
    omega
  rw [image, Bytes.overlays_byte_apart _ hapart, Bytes.byte_zeros]
  rw [Bytes.zeros_length]
  exact k.writes_inside

/-- Every write finds its place in the file. -/
theorem writeAt_eq {before after : List (ℕ × Bytes)} {off : ℕ} {block : Bytes}
    (hw : k.writes = before ++ (off, block) :: after) :
    writeAt off block (k.written before) = (.ok (), k.written (before ++ [(off, block)])) := by
  rw [written_append, writeAt, Act.update, Nat.max_eq_left (written_room hw).1, Bytes.resize_self]

end Skeleton

section Create
variable {geometry : RawDiskGeometry} {start size : UInt32} {volume addressing : Str}
  {slices : List VtocPartition} {bootCode : Option Bytes} {file image : Bytes}

/-- What `create_raw_image_skeleton` requires of its arguments. -/
structure SkeletonRequest (geometry : RawDiskGeometry) (start size : UInt32)
    (slices : List VtocPartition) (bootCode : Option Bytes) (addressing : Str) : Prop where
  valid : geometry.Valid addressing
  start_pos : 1 ≤ start.toNat
  size_pos : 1 ≤ size.toNat
  partition_le : start.toNat + size.toNat ≤ geometry.totalSectors.toNat
  slices_ok : validateVtocPartitions start.toNat size.toNat slices = .ok ()
  bootCode_le : ∀ code ∈ bootCode, code.length ≤ 446
  fits : start.toNat + 34 ≤ geometry.totalSectors.toNat

theorem validateUnixPartition_iff {total : UInt64} :
    validateUnixPartition total start.toUInt64 size.toUInt64 = .ok () ↔
      1 ≤ start.toNat ∧ 1 ≤ size.toNat ∧ start.toNat + size.toNat ≤ total.toNat := by
  have hs := start.toNat_lt
  have hz := size.toNat_lt
  have hsum : (start.toUInt64 + size.toUInt64).toNat = start.toNat + size.toNat := by
    rw [UInt64.toNat_add, UInt32.toNat_toUInt64, UInt32.toNat_toUInt64]
    exact Nat.mod_eq_of_lt (by omega)
  have h1 : start.toUInt64 < 1 ↔ start.toNat < 1 := by
    rw [UInt64.lt_iff_toNat_lt, UInt32.toNat_toUInt64]
    rfl
  have h2 : size.toUInt64 = 0 ↔ size.toNat = 0 := by
    rw [← UInt64.toNat_inj, UInt32.toNat_toUInt64]
    rfl
  unfold validateUnixPartition
  simp only [h1, h2, gt_iff_lt, UInt64.lt_iff_toNat_lt, hsum]
  split_ifs with hlt hz hgt
  · exact iff_of_false (by simp) (by omega)
  · exact iff_of_false (by simp) (by omega)
  · exact iff_of_false (by simp) (by omega)
  · exact iff_of_true rfl (by omega)

theorem RawDiskGeometry.Valid.totalBytes (h : geometry.Valid addressing) :
    (geometry.totalSectors * 512).toNat = geometry.totalSectors.toNat * sectorSize := by
  have hle := h.totalSectors_le
  rw [UInt64.toNat_mul]
  exact Nat.mod_eq_of_lt (by
    rw [show (512 : UInt64).toNat = 512 from rfl]
    omega)

theorem skeletonVtocPtr_split (start : ℕ) :
    (start + skeletonVtocPtr / sectorSize) * sectorSize + skeletonVtocPtr % sectorSize =
      (start + hdpdloc) * sectorSize + 100 := by
  simp only [skeletonVtocPtr, hdpdloc, sectorSize]

theorem skeletonAltPtr_split (start : ℕ) :
    (start + skeletonAltPtr / sectorSize) * sectorSize + skeletonAltPtr % sectorSize =
      (start + 30) * sectorSize := by
  simp only [skeletonAltPtr, sectorSize]
  omega

theorem bootCodeSector_le {sector : Bytes} (h : bootCodeSector bootCode = .ok sector) :
    ∀ code ∈ bootCode, code.length ≤ 446 := by
  intro code hcode
  cases hcode
  simp only [bootCodeSector] at h
  by_contra hlong
  rw [if_pos (not_le.mp hlong)] at h
  cases h

/-- A run that succeeds got a request that it may serve. -/
theorem SkeletonRequest.of_ok
    (h : createRawImageSkeleton geometry start size volume slices bootCode addressing file =
      (.ok (), image)) : SkeletonRequest geometry start size slices bootCode addressing := by
  unfold createRawImageSkeleton at h
  obtain ⟨_, _, hgeometry, h⟩ := Act.bind_eq_ok.mp h
  obtain ⟨_, _, hpartition, h⟩ := Act.bind_eq_ok.mp h
  obtain ⟨_, _, hslices, h⟩ := Act.bind_eq_ok.mp h
  obtain ⟨_, _, _, h⟩ := Act.bind_eq_ok.mp h
  obtain ⟨mbr, _, hmbr, h⟩ := Act.bind_eq_ok.mp h
  obtain ⟨_, _, _, h⟩ := Act.bind_eq_ok.mp h
  obtain ⟨_, _, _, h⟩ := Act.bind_eq_ok.mp h
  obtain ⟨vtoc, _, _, h⟩ := Act.bind_eq_ok.mp h
  have hvalid := validateGeometry_iff.mp (Act.lift_eq_ok.mp hgeometry).1
  obtain ⟨hstart, hsize, hle⟩ := validateUnixPartition_iff.mp (Act.lift_eq_ok.mp hpartition).1
  obtain ⟨_, hsector, _⟩ := Outcome.bind_eq_ok.mp (Act.lift_eq_ok.mp hmbr).1
  refine ⟨hvalid, hstart, hsize, hle, (Act.lift_eq_ok.mp hslices).1, bootCodeSector_le hsector, ?_⟩
  rw [hvalid.totalBytes] at h
  split_ifs at h with hvtoc
  · exact (Act.fail_ne_ok h).elim
  · obtain ⟨_, _, _, h⟩ := Act.bind_eq_ok.mp h
    split_ifs at h with halt
    · exact (Act.fail_ne_ok h).elim
    · rw [buildEmptyAltInfo_length] at halt
      simp only [skeletonAltPtr, sectorSize] at halt
      omega

/-- A request that may be served gives the image of its four blocks. -/
theorem SkeletonRequest.run (volume : Str) (file : Bytes)
    (r : SkeletonRequest geometry start size slices bootCode addressing) :
    ∃ k : Skeleton, k.total = geometry.totalSectors.toNat ∧ k.start = start.toNat ∧
      buildMbr geometry start size bootCode addressing = .ok k.mbr ∧
      k.pdinfo = buildPdinfo geometry start.toNat skeletonVtocPtr skeletonVtocLen skeletonAltPtr
        (buildEmptyAltInfo.length % 2 ^ 16) ∧
      buildVtoc volume slices = .ok k.vtoc ∧ k.alternates = buildEmptyAltInfo ∧
      createRawImageSkeleton geometry start size volume slices bootCode addressing file =
        (.ok (), k.image) := by
  obtain ⟨mbr, hmbr⟩ := buildMbr_returns r.valid r.bootCode_le r.start_pos r.partition_le r.size_pos
  have hindex : ∀ p ∈ slices, p.index < 16 := fun p hp =>
    (((validateVtocLoop_iff slices []).mp r.slices_ok).1 p hp).1.index_lt
  obtain ⟨hvtoc, hvlen⟩ := @buildVtoc_eq volume slices hindex
  generalize slices.foldl _ _ = vtoc at hvtoc hvlen
  generalize hpd : buildPdinfo geometry start.toNat skeletonVtocPtr skeletonVtocLen skeletonAltPtr
    (buildEmptyAltInfo.length % 2 ^ 16) = pdinfo
  have hplen : pdinfo.length = sectorSize := by
    rw [← hpd]
    exact buildPdinfo_length
  let k : Skeleton := ⟨geometry.totalSectors.toNat, start.toNat, mbr, pdinfo, vtoc,
    buildEmptyAltInfo, (buildMbr_ok hmbr).1, hplen, hvlen, buildEmptyAltInfo_length, r.start_pos,
    r.fits⟩
  refine ⟨k, rfl, rfl, hmbr, rfl, hvtoc, rfl, ?_⟩
  have hw₁ := @Skeleton.writeAt_eq k [] _ _ _ rfl
  have hw₂ := @Skeleton.writeAt_eq k [_] _ _ _ rfl
  have hw₃ := @Skeleton.writeAt_eq k [_, _] _ _ _ rfl
  have hw₄ := @Skeleton.writeAt_eq k [_, _, _] _ _ _ rfl
  have hfits := r.fits
  have hpartition := validateUnixPartition_iff.mpr ⟨r.start_pos, r.size_pos, r.partition_le⟩
  have hzero : Act.update (fun _ => .ok (Bytes.zeros (geometry.totalSectors * 512).toNat)) file =
      ((.ok (), k.written []) : Outcome BuildError Unit × Bytes) := by
    rw [r.valid.totalBytes]
    rfl
  unfold createRawImageSkeleton
  refine Act.bind_eq_ok.mpr ⟨(), file, Act.lift_eq_ok.mpr ⟨validateGeometry_iff.mpr r.valid, rfl⟩, ?_⟩
  refine Act.bind_eq_ok.mpr ⟨(), file, Act.lift_eq_ok.mpr ⟨hpartition, rfl⟩, ?_⟩
  refine Act.bind_eq_ok.mpr ⟨(), file, Act.lift_eq_ok.mpr ⟨r.slices_ok, rfl⟩, ?_⟩
  refine Act.bind_eq_ok.mpr ⟨(), _, hzero, ?_⟩
  refine Act.bind_eq_ok.mpr ⟨mbr, _, Act.lift_eq_ok.mpr ⟨hmbr, rfl⟩, ?_⟩
  refine Act.bind_eq_ok.mpr ⟨(), _, hw₁, ?_⟩
  refine Act.bind_eq_ok.mpr ⟨(), _, (by rw [hpd]; exact hw₂), ?_⟩
  refine Act.bind_eq_ok.mpr ⟨vtoc, _, Act.lift_eq_ok.mpr ⟨hvtoc, rfl⟩, ?_⟩
  dsimp only
  rw [skeletonVtocPtr_split, skeletonAltPtr_split, r.valid.totalBytes, if_neg, if_neg]
  · exact Act.bind_eq_ok.mpr ⟨(), _, hw₃, hw₄⟩
  · rw [buildEmptyAltInfo_length, sectorSize]
    omega
  · rw [hvlen, hdpdloc, sectorSize]
    omega

/-- The readers find in the image what they find in the blocks. -/
theorem Skeleton.inspect (k : Skeleton) {entry : PartitionEntry}
    (hsignature : k.mbr.u16 510 = 0xAA55)
    (hentry : findActiveUnixPartition ⟨k.mbr.u16 510, (List.range 4).map (entryAt k.mbr)⟩ =
      some entry) (hstart : entry.startLba = k.start)
    (hpd : k.pdinfo.u32 4 = validPd ∧ k.pdinfo.u32 84 = skeletonVtocPtr ∧
      k.pdinfo.u16 88 = skeletonVtocLen) (hvt : k.vtoc.u32 0 = vtocSane) :
    inspectDiskImage k.image = .ok
      ⟨k.image.length, ⟨k.mbr.u16 510, (List.range 4).map (entryAt k.mbr)⟩, some entry,
        some (pdinfoAt k.pdinfo), some (vtocAt k.vtoc 0), listSlices (vtocAt k.vtoc 0), []⟩ := by
  obtain ⟨hsanity, hptr, hlen⟩ := hpd
  have hreadPd := k.readPdinfo_image
  have hreadVt := @readVtoc_image k (pdinfoAt k.pdinfo) hptr hlen
  have hvalidPd : isValidPdinfo (pdinfoAt k.pdinfo) = true := beq_iff_eq.mpr hsanity
  have hvalidVt : isValidVtoc (vtocAt k.vtoc 0) = true := beq_iff_eq.mpr hvt
  rw [inspectDiskImage, k.image_mbr, parseMbrSector_eq k.mbr_length, Outcome.ok_bind]
  rw [hsignature] at hentry ⊢
  simp only [hentry, hstart, hreadPd, hreadVt, Outcome.ok_bind, hvalidPd, hvalidVt]
  rfl

/-- On the image of a created skeleton the inspection and the alternates reader see exactly the
blocks that were built, the partition found is the created one, and nothing else was written. -/
theorem createRawImageSkeleton_reads_back
    (h : createRawImageSkeleton geometry start size volume slices bootCode addressing file =
      (.ok (), image)) :
    ∃ mbr vtocBlock mbrInfo entry pd vt alt,
      buildMbr geometry start size bootCode addressing = .ok mbr ∧
      buildVtoc volume slices = .ok vtocBlock ∧
      (parseMbrSector mbr : Outcome IoError MbrInfo) = .ok mbrInfo ∧
      (parsePdinfo (buildPdinfo geometry start.toNat skeletonVtocPtr skeletonVtocLen skeletonAltPtr
        buildEmptyAltInfo.length) : Outcome IoError PdInfo) = .ok pd ∧
      (parseVtoc vtocBlock 0 : Outcome IoError VtocInfo) = .ok vt ∧
      (parseAltInfo buildEmptyAltInfo 0 : Outcome IoError AltInfo) = .ok alt ∧
      inspectDiskImage image = .ok
        ⟨image.length, mbrInfo, some entry, some pd, some vt, listSlices vt, []⟩ ∧
      readAltInfo image entry.startLba pd = .ok (some alt) ∧
      entry.index = 1 ∧ entry.bootable = true ∧ entry.partitionType = unixwarePartitionType ∧
      entry.startLba = start.toNat ∧ entry.sectorCount = size.toNat ∧
      image.length = geometry.totalSectors.toNat * sectorSize ∧
      ∀ i, sectorSize ≤ i →
        i < (start.toNat + hdpdloc) * sectorSize ∨ (start.toNat + 34) * sectorSize ≤ i →
        image.byte i = 0 := by
  have r := SkeletonRequest.of_ok h
  obtain ⟨k, htotal, hstart, hmbr, hpdinfo, hvtoc, halt, hrun⟩ := r.run volume file
  have himage : image = k.image := congrArg Prod.snd (h.symm.trans hrun)
  obtain ⟨entry, hentry, hindex, hboot, htype, hlba, hcount⟩ := buildMbr_active hmbr
  obtain ⟨_, _, _, _, hsignature⟩ := buildMbr_ok hmbr
  obtain ⟨hsanity, hvp, hvl, hap, hal⟩ := buildPdinfo_pointers hpdinfo.symm
  have hslices : ∀ p ∈ slices, p.index < 16 := fun p hp =>
    (((validateVtocLoop_iff slices []).mp r.slices_ok).1 p hp).1.index_lt
  have hvtSane := buildVtoc_sanity hslices hvtoc
  rw [buildEmptyAltInfo_length] at hpdinfo hal
  rw [himage]
  refine ⟨k.mbr, k.vtoc, _, entry, pdinfoAt k.pdinfo, vtocAt k.vtoc 0, _, hmbr, hvtoc,
    parseMbrSector_eq k.mbr_length, ?_, ?_, parseAltInfo_empty,
    k.inspect hsignature hentry (hlba.trans hstart.symm) ⟨hsanity, hvp, hvl⟩ hvtSane, ?_, hindex,
    hboot, htype, hlba, hcount, ?_, ?_⟩
  · rw [buildEmptyAltInfo_length, show buildPdinfo _ _ _ _ _ 2048 = k.pdinfo from hpdinfo.symm]
    exact parsePdinfo_eq (by rw [k.pdinfo_length]; norm_num)
  · exact parseVtoc_eq (by rw [k.vtoc_length]; norm_num)
  · rw [hlba, ← hstart]
    exact k.readAltInfo_image hap hal (by rw [halt]; exact parseAltInfo_empty) rfl
  · rw [k.image_length, htotal]
  · intro i hi hout
    rw [← hstart] at hout
    exact k.image_zero hi hout

end Create

/-- A small disk with three slices. -/
theorem createRawImageSkeleton_reads_back_small :
    ∃ image mbrInfo entry pd vt,
      createRawImageSkeleton ⟨16, 4, 17⟩ 1 1087 [0x53, 0x56, 0x52, 0x34]
        [⟨0, 5, 0x201, 1, 1087⟩, ⟨1, 2, 0x200, 64, 128⟩, ⟨10, 9, 0x200, 32, 32⟩] none
        diskAddressingChs [] = (.ok (), image) ∧
      inspectDiskImage image =
        .ok ⟨image.length, mbrInfo, some entry, some pd, some vt, listSlices vt, []⟩ ∧
      entry.startLba = 1 ∧ entry.sectorCount = 1087 := by
  have r : SkeletonRequest ⟨16, 4, 17⟩ 1 1087
      [⟨0, 5, 0x201, 1, 1087⟩, ⟨1, 2, 0x200, 64, 128⟩, ⟨10, 9, 0x200, 32, 32⟩] none
      diskAddressingChs :=
    { valid := validateGeometry_iff.mp (by decide)
      start_pos := by decide
      size_pos := by decide
      partition_le := by decide
      slices_ok := by decide
      bootCode_le := fun _ h => by cases h
      fits := by decide }
  obtain ⟨k, _, _, _, _, _, _, hrun⟩ := r.run [0x53, 0x56, 0x52, 0x34] []
  obtain ⟨_, _, mbrInfo, entry, pd, vt, _, _, _, _, _, _, _, hinspect, _, _, _, _, hstart, hcount, _⟩ :=
    createRawImageSkeleton_reads_back hrun
  exact ⟨k.image, mbrInfo, entry, pd, vt, hrun, hinspect, hstart, hcount⟩

end UfsFuse
