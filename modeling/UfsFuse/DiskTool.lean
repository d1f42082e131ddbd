import UfsFuse.Bfs
import UfsFuse.Bootstrap
import UfsFuse.Format
import UfsFuse.Remap

/-!
# The disk tool

`svr4-disk-image`: the detectors, the inspection that probes every slice, and the commands that work on
the mapped image file; what was written before an error stays. A selector comes trimmed and in lower
case. The errors of the operating system and the reading of the host's files are left out.
-/
namespace UfsFuse

/-- The same call under another error type. -/
def Outcome.mapErr {ε ε' α : Type} (f : ε → ε') : Outcome ε α → Outcome ε' α
  | .ok a => .ok a
  | .err e => .err (f e)
  | .panic => .panic

/-- A call that has no errors, under any error type. -/
def Outcome.noErr {ε ε' α : Type} : Outcome ε α → Outcome ε' α
  | .ok a => .ok a
  | .err _ => .panic
  | .panic => .panic

/-- `map_err` on a call that works on a store. -/
def Act.mapErr {ε ε' σ α : Type} (f : ε → ε') (x : Act ε σ α) : Act ε' σ α := fun s =>
  ((x s).1.mapErr f, (x s).2)

/-- The messages of the tools, without their `error: `. -/
inductive ToolError where
  | inspect (e : IoError)
  | build (e : BuildError)
  | ufs (e : Fault)
  | bfs (e : BootFs.BfsError)
  | bootstrap (e : BootstrapError)
  /-- image does not contain a valid VTOC -/
  | noVtoc
  /-- no slice matching '{selector}' was found -/
  | noSlice (selector : Str)
  /-- image has no valid pdinfo; cannot determine disk geometry -/
  | noPdinfo
  /-- image has no active UNIX partition; create the layout first -/
  | noActivePartition
  /-- slice '{selector}' has zero length -/
  | zeroLength (selector : Str)
  /-- image is too small to hold the partition bootstrap -/
  | imageTooSmall
  /-- image does not contain a valid active UNIX partition -/
  | noUnixPartition
  /-- slice '{selector}' (sector {sector}) does not contain a UFS filesystem -/
  | sliceNotUfs (selector : Str) (sector : ℤ)
  deriving DecidableEq, Repr

/-! ## Detectors -/

/-- The names `ufs` and `bfs`. -/
inductive FsKind where
  | ufs
  | bfs
  deriving DecidableEq, Repr

structure RootEntry where
  name : Str
  inode : ℕ
  size : Option ℕ
  deriving DecidableEq, Repr

structure DetectedFs where
  filesystem : FsKind
  filesystemOffset : ℕ
  rootEntries : List RootEntry
  deriving DecidableEq, Repr

/-- `FsDetector::probe`: a function of the bytes of a slice. -/
abbrev FsDetector : Type := Bytes → Outcome ToolError (Option DetectedFs)

def nullDetector : FsDetector := fun _ => .ok none

def ufsDetector : FsDetector := fun sliceBytes =>
  match detectUfsAtStart sliceBytes 0 with
  | none => .ok none
  | some ufs => do
      let entries ← (listRoot sliceBytes ufs).noErr
      pure (some ⟨.ufs, ufs.startOffset, entries.map fun e => ⟨e.name, e.inode, e.size⟩⟩)

def bfsDetector : FsDetector := fun sliceBytes =>
  match BootFs.detectAtStart sliceBytes 0 with
  | none => .ok none
  | some bfs => .ok (some ⟨.bfs, bfs.startOffset,
      (BootFs.listRoot sliceBytes bfs).map fun e => ⟨e.name, e.inode, some e.size⟩⟩)

/-- UFS first, then BFS. -/
def anyDetector : FsDetector := fun sliceBytes => do
  match ← ufsDetector sliceBytes with
  | some detected => pure (some detected)
  | none => bfsDetector sliceBytes

/-! ## Inspecting with a detector -/

/-- A slice of the report with what was found in it. -/
structure ProbedSlice where
  slice : SliceFilesystem
  detected : Option DetectedFs
  deriving DecidableEq, Repr

/-- The report, its slices probed. -/
structure Inspection where
  report : DiskImageReport
  slices : List ProbedSlice
  deriving DecidableEq, Repr

/-- `as u64` -/
def asU64 (value : ℤ) : ℕ := (value % 2 ^ 64).toNat

/-- `saturating_mul` and `saturating_add` end at the largest `u64`. -/
def saturate (value : ℕ) : ℕ := min value (2 ^ 64 - 1)

/-- Probe the slice, cut to the file. -/
def probeSlice (detector : FsDetector) (whole : Bytes) (slice : SliceFilesystem) :
    Outcome ToolError ProbedSlice := do
  let start := saturate (asU64 slice.absoluteStartSector * sectorSize)
  let span := saturate (asU64 slice.sectorCount * sectorSize)
  let stop := min (saturate (start + span)) whole.length
  if start ≥ stop then pure ⟨slice, none⟩
  else do
    let detected ← detector (whole.slice start (stop - start))
    pure ⟨slice, detected⟩

/-- `inspect_disk_image` with a detector that reads the slices. -/
def inspectWith (detector : FsDetector) (file : Bytes) : Outcome ToolError Inspection := do
  let report ← (inspectDiskImage file).mapErr .inspect
  let slices ← Outcome.collect (probeSlice detector file) report.sliceFilesystems
  pure ⟨report, slices⟩

/-- Without a detector the report is the metadata, and nothing is found. -/
theorem inspectWith_nullDetector (file : Bytes) :
    inspectWith nullDetector file = (inspectDiskImage file).mapErr .inspect >>= fun report =>
      pure ⟨report, report.sliceFilesystems.map fun slice => ⟨slice, none⟩⟩ := by
  have hprobe : ∀ slice, probeSlice nullDetector file slice = .ok ⟨slice, none⟩ := by
    intro slice
    unfold probeSlice
    dsimp only
    split_ifs <;> rfl
  unfold inspectWith
  cases (inspectDiskImage file).mapErr ToolError.inspect with
  | ok report =>
    rw [Outcome.ok_bind, Outcome.ok_bind, Outcome.collect_eq fun slice _ => hprobe slice]
    rfl
  | err e => rfl
  | panic => rfl

/-! ## Selectors -/

/-- The digits of `value` in `base`, padded with zeros to `width`. -/
def digitString (base width value : ℕ) : Str :=
  let digits := (Nat.toDigits base value).map fun c => UInt8.ofNat c.toNat
  List.replicate (width - digits.length) 0x30 ++ digits

def partitionTagNames : List (ℕ × Str) :=
  [ (0x01, [0x62, 0x6F, 0x6F, 0x74]), -- boot
    (0x02, [0x72, 0x6F, 0x6F, 0x74]), -- root
    (0x03, [0x73, 0x77, 0x61, 0x70]), -- swap
    (0x04, [0x75, 0x73, 0x72]), -- usr
    (0x05, [0x62, 0x61, 0x63, 0x6B, 0x75, 0x70]), -- backup
    (0x06, [0x61, 0x6C, 0x74, 0x73]), -- alts
    (0x07, [0x6F, 0x74, 0x68, 0x65, 0x72]), -- other
    (0x08, [0x61, 0x6C, 0x74, 0x74, 0x72, 0x6B]), -- alttrk
    (0x09, [0x73, 0x74, 0x61, 0x6E, 0x64]), -- stand
    (0x0A, [0x76, 0x61, 0x72]), -- var
    (0x0B, [0x68, 0x6F, 0x6D, 0x65]), -- home
    (0x0C, [0x64, 0x75, 0x6D, 0x70]) ] -- dump

/-- The name of a tag, or `unknown(0x..)`. -/
def partitionTagName (tag : ℕ) : Str :=
  match partitionTagNames.find? fun entry => entry.1 = tag with
  | some (_, name) => name
  | none => [0x75, 0x6E, 0x6B, 0x6E, 0x6F, 0x77, 0x6E, 0x28, 0x30, 0x78] ++ digitString 16 2 tag ++ [0x29]

/-- The slice of that index, else the first of that tag. -/
def getVtocPartitionBySelector (report : DiskImageReport) (selector : Str) :
    Outcome ToolError VtocPartition :=
  match report.vtoc with
  | none => .err .noVtoc
  | some vtoc =>
    match vtoc.partitions.find? fun p => digitString 10 1 p.index = selector with
    | some p => .ok p
    | none =>
      match vtoc.partitions.find? fun p => partitionTagName p.tag = selector with
      | some p => .ok p
      | none => .err (.noSlice selector)

/-- The first byte of a slice; a negative start counts as 0. -/
def VtocPartition.offset (partition : VtocPartition) : ℕ := partition.startSector.toNat * sectorSize

/-- The bytes of a slice; a negative count counts as 0. -/
def VtocPartition.size (partition : VtocPartition) : ℕ := partition.sectorCount.toNat * sectorSize

/-! ## Commands -/

/-- `ACTIVE_PARTITION_CHAINLOADER_MBR` -/
def activePartitionChainloaderMbr : Bytes :=
  [ 0x31, 0xc0, 0xfa, 0x8e, 0xd0, 0xbc, 0x00, 0x7c, 0x8e, 0xc0, 0x8e, 0xd8, 0xfb, 0x89, 0xe6, 0xbf,
    0x00, 0x06, 0xb9, 0x00, 0x02, 0xfc, 0xf3, 0xa4, 0xea, 0x1d, 0x06, 0x00, 0x00, 0xb0, 0x04, 0xbe,
    0xbe, 0x07, 0x80, 0x3c, 0x80, 0x74, 0x0c, 0x83, 0xc6, 0x10, 0xfe, 0xc8, 0x75, 0xf4, 0xbe, 0xac,
    0x06, 0xeb, 0x32, 0x89, 0xf7, 0x8b, 0x14, 0x8b, 0x4c, 0x02, 0xbd, 0x05, 0x00, 0xbb, 0x00, 0x7c,
    0xb8, 0x01, 0x02, 0xcd, 0x13, 0x73, 0x0c, 0x31, 0xc0, 0xcd, 0x13, 0x4d, 0x75, 0xef, 0xbe, 0x94,
    0x06, 0xeb, 0x12, 0x81, 0x3e, 0xfe, 0x7d, 0x55, 0xaa, 0x75, 0x07, 0x89, 0xfe, 0xea, 0x00, 0x7c,
    0x00, 0x00, 0xbe, 0x73, 0x06, 0xac, 0x08, 0xc0, 0x74, 0x06, 0xb4, 0x0e, 0xcd, 0x10, 0xeb, 0xf5,
    0xfb, 0xeb, 0xfe, 0x49, 0x6e, 0x76, 0x61, 0x6c, 0x69, 0x64, 0x20, 0x70, 0x61, 0x72, 0x74, 0x69,
    0x74, 0x69, 0x6f, 0x6e, 0x20, 0x62, 0x6f, 0x6f, 0x74, 0x20, 0x73, 0x69, 0x67, 0x6e, 0x61, 0x74,
    0x75, 0x72, 0x65, 0x00, 0x45, 0x72, 0x72, 0x6f, 0x72, 0x20, 0x72, 0x65, 0x61, 0x64, 0x69, 0x6e,
    0x67, 0x20, 0x62, 0x6f, 0x6f, 0x74, 0x73, 0x74, 0x72, 0x61, 0x70, 0x00, 0x4e, 0x6f, 0x20, 0x61,
    0x63, 0x74, 0x69, 0x76, 0x65, 0x20, 0x70, 0x61, 0x72, 0x74, 0x69, 0x74, 0x69, 0x6f, 0x6e, 0x20,
    0x6f, 0x6e, 0x20, 0x68, 0x61, 0x72, 0x64, 0x20, 0x64, 0x69, 0x73, 0x6b, 0x00 ]

theorem activePartitionChainloaderMbr_length : activePartitionChainloaderMbr.length = 205 := by
  decide +kernel

/-- `buf[off..off + src.len()].copy_from_slice(src)` -/
def copyInto (off : ℕ) (src : Bytes) : Act ToolError Bytes Unit :=
  Act.update fun buf => do
    Outcome.guard (off + src.length ≤ buf.length)
    pure (buf.overlay off src)

/-- Either a size in mebibytes or a count of cylinders is given. -/
def resolveGeometry (size : Option UInt64) (cylinders heads sectors : UInt32) (diskAddressing : Str) :
    Outcome BuildError RawDiskGeometry :=
  match size with
  | some sizeMb => buildGeometry sizeMb heads sectors diskAddressing
  | none => .ok ⟨cylinders, heads, sectors⟩

/-- Create an image with the standard slices. -/
def createLayout (size : Option UInt64) (cylinders heads sectors : UInt32)
    (opts : SliceLayoutOptions) (volume diskAddressing : Str) : Act BuildError Bytes DiskLayout := do
  let geometry ← Act.lift (resolveGeometry size cylinders heads sectors diskAddressing)
  let layout ← Act.lift (buildSliceLayout geometry opts)
  createRawImageSkeleton geometry layout.unixPartitionStart layout.unixPartitionSize volume
    layout.slices none diskAddressing
  pure layout

def formatUfs (selector : Str) (blockSize bytesPerInode timestamp : ℕ) : Act ToolError Bytes Unit := do
  let inspection ← Act.read (inspectWith anyDetector)
  let partition ← Act.lift (getVtocPartitionBySelector inspection.report selector)
  match inspection.report.pdinfo with
  | none => Act.fail .noPdinfo
  | some pdinfo =>
    if partition.size = 0 then Act.fail (.zeroLength selector)
    else do
      let opts := ⟨timestamp, blockSize, bytesPerInode, some pdinfo.tracks, some pdinfo.sectors⟩
      let _ ← (format partition.offset partition.size opts).mapErr .ufs
      pure ()

/-- `files` are the flat files of the host directory, then those named one by one. -/
def formatBfs (selector : Str) (files : List (Str × Bytes)) (timestamp : ℤ) :
    Act ToolError Bytes Unit := do
  let inspection ← Act.read (inspectWith anyDetector)
  let partition ← Act.lift (getVtocPartitionBySelector inspection.report selector)
  if partition.size = 0 then Act.fail (.zeroLength selector)
  else (BootFs.format partition.offset partition.size files none timestamp).mapErr .bfs

def installBoot (hdboot : Bytes) : Act ToolError Bytes Unit := do
  let inspection ← Act.read (inspectWith anyDetector)
  match inspection.report.activeUnixPartition with
  | none => Act.fail .noActivePartition
  | some active => do
    let bootstrap ← Act.lift ((flattenHdbootBootstrap hdboot).mapErr .bootstrap)
    copyInto 0 activePartitionChainloaderMbr
    let offset := active.startLba * sectorSize
    let length ← Act.read fun buf => .ok buf.length
    if offset + bootstrap.length > length then Act.fail .imageTooSmall
    else copyInto offset bootstrap

/-- The commands that change an existing image. -/
inductive ToolCommand where
  | formatUfs (slice : Str) (blockSize bytesPerInode timestamp : ℕ)
  | formatBfs (slice : Str) (files : List (Str × Bytes)) (timestamp : ℤ)
  | installBoot (hdboot : Bytes)
  deriving DecidableEq, Repr

def ToolCommand.perform : ToolCommand → Act ToolError Bytes Unit
  | .formatUfs slice blockSize bytesPerInode timestamp =>
      UfsFuse.formatUfs slice blockSize bytesPerInode timestamp
  | .formatBfs slice files timestamp => UfsFuse.formatBfs slice files timestamp
  | .installBoot hdboot => UfsFuse.installBoot hdboot

/-! ## Reading through the alternates -/

/-- `read_sector` of one sector; the offset wraps around, and seeking ends at 2^63. -/
def seekSector (image : Bytes) (sectorNumber : ℕ) : Outcome ToolError Bytes :=
  let offset := sectorNumber * sectorSize % 2 ^ 64
  if 2 ^ 63 ≤ offset then .err (.inspect .os) else .ok (readSector image (offset / sectorSize) 1)

/-- The sector of the disk, the one the guest sees for it, and what is there. -/
def resolveGuestVisibleSector (detector : FsDetector) (image : Bytes) (selector : Str)
    (sliceRelativeSector : ℤ) : Outcome ToolError (ℤ × ℤ × Bytes) := do
  let inspection ← inspectWith detector image
  match inspection.report.activeUnixPartition, inspection.report.pdinfo with
  | some active, some pdinfo => do
    let partition ← getVtocPartitionBySelector inspection.report selector
    let absoluteSector := addI64 partition.startSector sliceRelativeSector
    let altInfo ← (readAltInfo image active.startLba pdinfo).mapErr .inspect
    let guestVisibleSector ← remapGuestVisibleSector pdinfo partition altInfo absoluteSector
    let data ← seekSector image (asU64 guestVisibleSector)
    pure (absoluteSector, guestVisibleSector, data)
  | _, _ => .err .noUnixPartition

/-! ## Finding a filesystem to mount -/

/-- The filesystem of the slice with that index or tag. -/
def resolveSliceUfs (image : Bytes) (selector : Str) : Outcome ToolError Ufs := do
  let inspection ← inspectWith ufsDetector image
  let partition ← getVtocPartitionBySelector inspection.report selector
  match detectUfsAtStart image partition.offset with
  | some ufs => .ok ufs
  | none => .err (.sliceNotUfs selector partition.startSector)

/-- A bare filesystem, else that of the first slice that shows one. -/
def autodetectUfs (image : Bytes) : Outcome ToolError (Option Ufs) :=
  match detectUfsAtStart image 0 with
  | some ufs => .ok (some ufs)
  | none =>
    match inspectWith ufsDetector image with
    | .panic => .panic
    | .err _ => .ok none
    | .ok inspection =>
      .ok do
        let slice ← inspection.slices.find? fun s => s.detected.map (·.filesystem) = some .ufs
        let detected ← slice.detected
        detectUfsAtStart image
          (slice.slice.absoluteStartSector.toNat * sectorSize + detected.filesystemOffset)

end UfsFuse
