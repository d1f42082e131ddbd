import UfsFuse.DiskTool
import UfsFuse.SliceLayout

/-!
# What the commands of the disk tool go by

The inspection reads the partition table, the first 98 bytes of the pdinfo sector and the 252 bytes of
the VTOC; probing aside, no other byte counts. A `DiskPlan` is what it finds, and the slices of it that
share nothing with the metadata or with each other. `SliceDisk` is the disk as the tool means it: a boot
area and independent slices.
-/
namespace UfsFuse

/-! ## What the inspection depends on -/
section Inspect
variable {a b : Bytes} {start : ℕ} {pd : PdInfo} {report : DiskImageReport}

theorem Bytes.slice_of_slice {off len o n : ℕ} (h : b.slice off len = a.slice off len)
    (hlow : off ≤ o) (hhigh : o + n ≤ off + len) : b.slice o n = a.slice o n := by
  have hin := fun c : Bytes => @Bytes.slice_slice c off len (o - off) n (by omega)
  rw [show off + (o - off) = o by omega] at hin
  rw [← hin, h, hin]

theorem entryAt_congr {i : ℕ} (hi : i < 4) (h : b.slice 446 66 = a.slice 446 66) :
    entryAt (readSector b 0 1) i = entryAt (readSector a 0 1) i := by
  have hraw : ∀ c : Bytes, (readSector c 0 1).slice (446 + i * 16) 16 = c.slice (446 + i * 16) 16 := by
    intro c
    rw [readSector, Bytes.slice_slice (by simp only [sectorSize]; omega), Nat.zero_mul, Nat.zero_add]
  simp only [entryAt, hraw]
  rw [Bytes.slice_of_slice h (by omega) (by omega)]

theorem parseMbrSector_congr (hlen : b.length = a.length) (h : b.slice 446 66 = a.slice 446 66) :
    (parseMbrSector (readSector b 0 1) : Outcome IoError MbrInfo) = parseMbrSector (readSector a 0 1) := by
  have hla := readSector_length a 0 1
  have hlb := readSector_length b 0 1
  rw [hlen] at hlb
  by_cases hs : (readSector a 0 1).length = sectorSize
  · have hword : ∀ c : Bytes, (readSector c 0 1).u16 510 = Bytes.leNat (c.slice 510 2) := by
      intro c
      rw [Bytes.u16, readSector, Bytes.slice_slice (by norm_num), Nat.zero_mul, Nat.zero_add]
    rw [parseMbrSector_eq hs, parseMbrSector_eq (hlb.trans (hla.symm.trans hs)), hword, hword,
      Bytes.slice_of_slice h (by norm_num) (by norm_num),
      List.map_congr_left fun i hi => entryAt_congr (List.mem_range.mp hi) h]
  · rw [parseMbrSector, parseMbrSector, Outcome.guard, Outcome.guard, if_neg hs,
      if_neg (hlb.trans hla.symm ▸ hs)]
    rfl

theorem readPdinfo_congr (hlen : b.length = a.length)
    (h : b.slice ((start + hdpdloc) * sectorSize) 98 = a.slice ((start + hdpdloc) * sectorSize) 98) :
    readPdinfo b start = readPdinfo a start := by
  by_cases hin : (start + hdpdloc) * sectorSize + 98 ≤ a.length
  · have hraw : ∀ c : Bytes, (readSector c (start + hdpdloc) 1).slice 0 98 =
        c.slice ((start + hdpdloc) * sectorSize) 98 := by
      intro c
      rw [readSector, Bytes.slice_slice (by norm_num), Nat.add_zero]
    rw [readPdinfo_eq hin, readPdinfo_eq (hlen ▸ hin), ← pdinfoAt_slice, hraw, h, ← hraw, pdinfoAt_slice]
  · rw [readPdinfo_short hin, readPdinfo_short (hlen ▸ hin)]

/-- The VTOC is read from the 252 bytes at its address. -/
theorem readVtoc_eq (h : start * sectorSize + pd.vtocPtr + 252 ≤ a.length) :
    readVtoc a start pd = .ok (vtocAt (a.slice (start * sectorSize + pd.vtocPtr) 252) 0) := by
  have hdm := Nat.div_add_mod' pd.vtocPtr sectorSize
  unfold readVtoc
  dsimp only
  generalize hcount : max 1 ((pd.vtocPtr % sectorSize + max pd.vtocLen sectorSize + sectorSize - 1) /
    sectorSize) = count
  have hspan : pd.vtocPtr % sectorSize + 512 ≤ count * sectorSize := by
    have hd := Nat.div_add_mod' (pd.vtocPtr % sectorSize + max pd.vtocLen sectorSize + sectorSize - 1)
      sectorSize
    simp only [sectorSize] at hd hcount ⊢
    omega
  have hl := readSector_length a (start + pd.vtocPtr / sectorSize) count
  have haddress : (start + pd.vtocPtr / sectorSize) * sectorSize + pd.vtocPtr % sectorSize =
      start * sectorSize + pd.vtocPtr := by
    rw [Nat.add_mul, Nat.add_assoc, hdm]
  rw [parseVtoc_eq, ← vtocAt_slice, readSector, Bytes.slice_slice, haddress]
  · omega
  · simp only [sectorSize] at hl hspan h haddress ⊢
    omega

theorem readVtoc_congr (hlen : b.length = a.length)
    (h : b.slice (start * sectorSize + pd.vtocPtr) 252 = a.slice (start * sectorSize + pd.vtocPtr) 252) :
    readVtoc b start pd = readVtoc a start pd := by
  by_cases hin : start * sectorSize + pd.vtocPtr + 252 ≤ a.length
  · rw [readVtoc_eq hin, readVtoc_eq (hlen ▸ hin), h]
  · have ha := readVtoc_iff a start pd
    have hb := readVtoc_iff b start pd
    rw [if_neg hin] at ha
    rw [if_neg (hlen ▸ hin)] at hb
    rw [ha, hb]

/-- The inspection of a disk that keeps the metadata of another finds the same. -/
theorem inspectDiskImage_congr (ha : inspectDiskImage a = .ok report) (hlen : b.length = a.length)
    (htable : b.slice 446 66 = a.slice 446 66)
    (hpdinfo : ∀ active ∈ report.activeUnixPartition,
      b.slice ((active.startLba + hdpdloc) * sectorSize) 98 =
        a.slice ((active.startLba + hdpdloc) * sectorSize) 98)
    (hvtoc : ∀ active ∈ report.activeUnixPartition, ∀ pd ∈ report.pdinfo,
      b.slice (active.startLba * sectorSize + pd.vtocPtr) 252 =
        a.slice (active.startLba * sectorSize + pd.vtocPtr) 252) :
    inspectDiskImage b = .ok report := by
  rw [← ha]
  unfold inspectDiskImage at ha ⊢
  rw [hlen, parseMbrSector_congr hlen htable]
  obtain ⟨mbr, hmbr, ha⟩ := Outcome.bind_eq_ok.mp ha
  rw [hmbr, Outcome.ok_bind, Outcome.ok_bind]
  dsimp only at ha ⊢
  generalize (if mbr.signature ≠ 0xAA55 then [InspectNote.unexpectedSignature mbr.signature]
    else []) = notes at ha ⊢
  cases hfound : findActiveUnixPartition mbr with
  | none => rfl
  | some partition =>
    rw [hfound] at ha
    dsimp only at ha ⊢
    obtain ⟨pd, hpd, ha⟩ := Outcome.bind_eq_ok.mp ha
    -- whatever comes after the pdinfo sector, the report names it and the partition
    have hnamed : report.activeUnixPartition = some partition ∧ report.pdinfo = some pd := by
      by_cases hvalid : isValidPdinfo pd = true
      · rw [if_neg (not_not.mpr hvalid)] at ha
        obtain ⟨vt, -, ha⟩ := Outcome.bind_eq_ok.mp ha
        by_cases hsane : isValidVtoc vt = true
        · rw [if_neg (not_not.mpr hsane)] at ha
          rw [← Outcome.ok.inj ha]
          exact ⟨rfl, rfl⟩
        · rw [if_pos hsane] at ha
          rw [← Outcome.ok.inj ha]
          exact ⟨rfl, rfl⟩
      · rw [if_pos hvalid] at ha
        rw [← Outcome.ok.inj ha]
        exact ⟨rfl, rfl⟩
    obtain ⟨hactive, hpdinfoAt⟩ := hnamed
    rw [readPdinfo_congr hlen (hpdinfo _ hactive), hpd, Outcome.ok_bind, Outcome.ok_bind,
      readVtoc_congr hlen (hvtoc _ hactive _ hpdinfoAt)]

end Inspect

/-! ## The plan of a disk -/

/-- The bytes of a slice. -/
def VtocPartition.bytes (partition : VtocPartition) : Set ℕ :=
  Set.Ico partition.offset (partition.offset + partition.size)

/-- What the inspection finds on a disk, and the slices that share nothing with the rest. -/
structure DiskPlan where
  report : DiskImageReport
  active : PartitionEntry
  pdinfo : PdInfo
  slices : List VtocPartition

namespace DiskPlan

/-- The first byte of the UNIX partition. -/
def start (plan : DiskPlan) : ℕ := plan.active.startLba * sectorSize

/-- The bootstrap in front of the pdinfo sector. -/
def bootBytes (plan : DiskPlan) : Set ℕ := Set.Ico plan.start (plan.start + bootstrapLimit)

/-- The formatter's options, with the geometry of the disk. -/
def options (plan : DiskPlan) (blockSize bytesPerInode timestamp : ℕ) : FormatOptions :=
  ⟨timestamp, blockSize, bytesPerInode, some plan.pdinfo.tracks, some plan.pdinfo.sectors⟩

/-- The disk is laid out after the plan: the metadata is in the head of the partition, the slices are
behind the first sector, clear of the head and of each other. -/
structure Lays (plan : DiskPlan) (disk : Bytes) : Prop where
  inspects : inspectDiskImage disk = .ok plan.report
  active : plan.report.activeUnixPartition = some plan.active
  pdinfo : plan.report.pdinfo = some plan.pdinfo
  behindMbr : 1 ≤ plan.active.startLba
  vtoc : bootstrapLimit ≤ plan.pdinfo.vtocPtr ∧ plan.pdinfo.vtocPtr + 252 ≤ 34 * sectorSize
  bootInside : plan.start + bootstrapLimit ≤ disk.length
  nonempty : ∀ p ∈ plan.slices, 1 ≤ p.startSector ∧ 0 < p.sectorCount ∧ p.sectorCount < 2 ^ 31
  inside : ∀ p ∈ plan.slices, p.offset + p.size ≤ disk.length
  clear : ∀ p ∈ plan.slices, Disjoint p.sectors (headSectors plan.active.startLba)
  apart : ∀ p ∈ plan.slices, ∀ q ∈ plan.slices, p ≠ q → Disjoint p.sectors q.sectors

end DiskPlan

/-! ## The disk as independent slices -/

/-- The loader in the first sector, the bootstrap, and the slices with bytes of their own. -/
structure SliceDisk where
  loader : Bytes
  bootstrap : Bytes
  slice : VtocPartition → Bytes

/-- A call on the bytes of one slice. -/
def SliceDisk.onSlice {ε α : Type} (p : VtocPartition) (x : Act ε Bytes α) : Act ε SliceDisk α :=
  fun disk => ((x (disk.slice p)).1,
    { disk with slice := Function.update disk.slice p (x (disk.slice p)).2 })

/-- What a command is for: it works on the slice that it names, as if that were the whole disk, or on
the boot area. -/
def ToolCommand.onSlices (plan : DiskPlan) : ToolCommand → Act ToolError SliceDisk Unit
  | .formatUfs selector blockSize bytesPerInode timestamp => do
      let p ← Act.lift (getVtocPartitionBySelector plan.report selector)
      if p.size = 0 then Act.fail (.zeroLength selector)
      else SliceDisk.onSlice p do
        let _ ← (format 0 p.size (plan.options blockSize bytesPerInode timestamp)).mapErr .ufs
        pure ()
  | .formatBfs selector files timestamp => do
      let p ← Act.lift (getVtocPartitionBySelector plan.report selector)
      if p.size = 0 then Act.fail (.zeroLength selector)
      else SliceDisk.onSlice p ((BootFs.format 0 p.size files none timestamp).mapErr .bfs)
  | .installBoot hdboot => do
      let bootstrap ← Act.lift ((flattenHdbootBootstrap hdboot).mapErr .bootstrap)
      Act.update fun disk => .ok
        { disk with loader := disk.loader.overlay 0 activePartitionChainloaderMbr, bootstrap }

/-- The disk shows the abstract one, and is as it was everywhere else. -/
structure DiskPlan.Shows (plan : DiskPlan) (base disk : Bytes) (state : SliceDisk) : Prop where
  length : disk.length = base.length
  loader : disk.slice 0 446 = state.loader
  bootstrap : disk.slice plan.start bootstrapLimit = state.bootstrap
  slice : ∀ p ∈ plan.slices, disk.slice p.offset p.size = state.slice p
  rest : ∀ i, 446 ≤ i → i ∉ plan.bootBytes → (∀ p ∈ plan.slices, i ∉ p.bytes) →
    disk.byte i = base.byte i

end UfsFuse
