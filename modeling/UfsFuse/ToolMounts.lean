import UfsFuse.ToolReports

/-!
# What is read from a disk of the tool

A slice that was formatted as UFS is, in its place on the disk, a volume as the formatter leaves it: the
mount finds it by the selector of the slice, or by itself, and finds no other. The files of a boot file
system are read back. No sector is replaced, so a sector that is traced through the alternates is the
slice's own.
-/
namespace UfsFuse

/-! ## A volume in its place -/
section Place
variable {disk old b : Bytes} {off size : ℕ} {opts : FormatOptions} {ufs : Ufs}

theorem Bytes.overlay_twice {x y : Bytes} (h : off + x.length ≤ disk.length) (hlen : y.length = x.length) :
    (disk.overlay off x).overlay off y = disk.overlay off y := by
  have hx : (disk.overlay off x).length = disk.length := Bytes.overlay_length h
  have hy : off + y.length ≤ disk.length := by omega
  have hxy : off + y.length ≤ (disk.overlay off x).length := by omega
  refine Bytes.ext_byte (by rw [Bytes.overlay_length hxy, hx, Bytes.overlay_length hy]) fun i _ => ?_
  rw [Bytes.byte_overlay hxy, Bytes.byte_overlay hy, Bytes.byte_overlay h, hlen]
  split_ifs <;> rfl

/-- What formatting made of a slice alone is a formatted volume where the slice lies. -/
theorem format_inPlace (hin : off + size ≤ disk.length) (hsize : size < 2 ^ 41)
    (htracks : opts.tracksPerCylinder.isSome = true) (hold : old.length = size)
    (h : format 0 size opts old = (.ok ufs, disk.slice off size)) (hlast : ufs.sb.LastGroupHolds) :
    ∃ placed : Ufs, placed.startOffset = off ∧ Formatted placed disk ∧
      detectUfsAtStart disk off = some placed := by
  obtain ⟨l, hl, -, hsb⟩ := format_sized hsize h
  rw [hold] at hl
  have hover : off + old.length ≤ disk.length := hold ▸ hin
  have hlen : (disk.overlay off old).length = disk.length := Bytes.overlay_length hover
  have hslice : (disk.overlay off old).slice off size = old := by
    rw [← hold, Bytes.slice_overlay_same hover]
  have hlast' : ∀ l', formatLayout size 0 size opts = .ok l' → (l'.superblock opts).LastGroupHolds := by
    intro l' hl'
    obtain rfl := Outcome.ok.inj (hl.symm.trans hl')
    exact hsb ▸ hlast
  obtain ⟨e, -, -, halone⟩ | ⟨l', part, hl', hpart, halone, hwhole⟩ :=
    format_slice (hlen.symm ▸ hin) hsize htracks hlast'
  · rw [hslice] at halone
    exact absurd (halone.symm.trans h) (by simp)
  · rw [hslice] at halone
    obtain ⟨-, rfl⟩ := Prod.mk.inj (halone.symm.trans h)
    rw [Bytes.overlay_twice hover (hpart.trans hold.symm), Bytes.overlay_slice_self hin] at hwhole
    exact ⟨_, rfl, Formatted.intro hwhole hsize (hlast' l' hl'), format_detected hwhole hsize⟩

/-- A slice with room for a superblock that shows none shows none on the disk. -/
theorem detectUfsAtStart_slice (hin : off + size ≤ disk.length) (hroom : ufsSbOffset + ufsSbSize ≤ size)
    (h : detectUfsAtStart (disk.slice off size) 0 = none) : detectUfsAtStart disk off = none := by
  unfold detectUfsAtStart at h ⊢
  dsimp only at h ⊢
  rw [Option.map_eq_none_iff] at h ⊢
  rw [← h]
  have hlen := Bytes.slice_length hin
  refine Superblock.parse_congr ?_ fun o ho => ?_
  · rw [hlen]
    simp only [ufsSbOffset, ufsSbSize] at hroom ⊢
    omega
  · simp only [ufsSbOffset, ufsSbSize, FsOff.cstotalNdir, FsOff.magic] at hroom ho
    rw [Bytes.u32_slice (by simp only [ufsSbOffset]; omega), Nat.zero_add, Nat.add_assoc]

end Place

/-! ## The slices that hold a volume -/

def ToolCommand.makesUfs : ToolCommand → Bool
  | .formatUfs _ _ _ _ => true
  | .formatBfs _ _ _ => false
  | .installBoot _ => false

/-- The last command that made something of the slice made a UFS. -/
def DiskPlan.holdsUfs (plan : DiskPlan) (cs : List (ToolCommand × Outcome ToolError Unit))
    (p : VtocPartition) : Bool :=
  (plan.lastMade p cs).any ToolCommand.makesUfs

namespace DiskPlan
variable {plan : DiskPlan} {geometry : RawDiskGeometry} {layout : DiskLayout}
variable {base disk : Bytes} {state : SliceDisk} {p : VtocPartition}
variable {cs : List (ToolCommand × Outcome ToolError Unit)}

theorem Shows.formatted (h : plan.Lays base) (hs : plan.Shows base disk state)
    (hr : plan.Recorded cs state) (hp : p ∈ plan.slices) (hufs : plan.holdsUfs cs p = true) :
    ∃ ufs : Ufs, ufs.startOffset = p.offset ∧ Formatted ufs disk ∧
      detectUfsAtStart disk p.offset = some ufs := by
  obtain ⟨-, -, hsmall, -⟩ := h.bounds hp
  have hleft := hr.left p hp
  unfold holdsUfs at hufs
  cases hlast : plan.lastMade p cs with
  | none =>
    rw [hlast] at hufs
    exact absurd hufs (by simp)
  | some c =>
    rw [hlast] at hufs hleft
    cases c with
    | formatUfs selector blockSize bytesPerInode timestamp =>
      obtain ⟨old, ufs, hold, hrun, hholds⟩ := hleft
      rw [← hs.slice p hp] at hrun
      exact format_inPlace (hs.length ▸ h.inside p hp) hsmall rfl hold hrun hholds
    | formatBfs selector files timestamp => exact absurd hufs (by simp [ToolCommand.makesUfs])
    | installBoot hdboot => exact hleft.elim

theorem Shows.unformatted (h : plan.Lays base) (hs : plan.Shows base disk state)
    (hr : plan.Recorded cs state) (hp : p ∈ plan.slices) (hroom : ufsSbOffset + ufsSbSize ≤ p.size)
    (hufs : plan.holdsUfs cs p = false) : detectUfsAtStart disk p.offset = none := by
  refine detectUfsAtStart_slice (hs.length ▸ h.inside p hp) hroom ?_
  rw [hs.slice p hp]
  have hleft := hr.left p hp
  unfold holdsUfs at hufs
  cases hlast : plan.lastMade p cs with
  | none =>
    rw [hlast] at hleft
    rw [show state.slice p = Bytes.zeros p.size from hleft]
    exact detectUfsAtStart_zeros _ _
  | some c =>
    rw [hlast] at hufs hleft
    cases c with
    | formatUfs selector blockSize bytesPerInode timestamp =>
      exact absurd hufs (by simp [ToolCommand.makesUfs])
    | formatBfs selector files timestamp => exact hleft.2.2.2.2
    | installBoot hdboot => exact hleft.elim

/-- A disk that the tool made is no bare file system. -/
theorem Created.bare (h : plan.Created geometry layout base) (hs : plan.Shows base disk state)
    (hr : plan.Recorded cs state) : detectUfsAtStart disk 0 = none := by
  refine detectUfsAtStart_none fun _ => ?_
  have hstart : plan.start = sectorSize := by rw [DiskPlan.start, h.startLba, Nat.one_mul]
  have hword : disk.u32 (0 + ufsSbOffset + FsOff.magic) =
      state.bootstrap.u32 (ufsSbOffset + FsOff.magic - sectorSize) := by
    rw [← hs.bootstrap, Bytes.u32_slice (by decide), hstart]
    rfl
  rw [hword]
  exact hr.unmarked.bare

/-- What the search sees in a slice. -/
def found (plan : DiskPlan) (cs : List (ToolCommand × Outcome ToolError Unit)) (p : VtocPartition) :
    Option DetectedFs :=
  if p.tag ≠ vBackup ∧ plan.holdsUfs cs p = true then (plan.lastMade p cs).bind ToolCommand.shows else none

theorem found_of_holds (htag : p.tag ≠ vBackup) (hufs : plan.holdsUfs cs p = true) :
    ∃ d, plan.found cs p = some d ∧ d.filesystem = .ufs ∧ d.filesystemOffset = 0 := by
  rw [found, if_pos ⟨htag, hufs⟩]
  unfold holdsUfs at hufs
  cases hlast : plan.lastMade p cs with
  | none =>
    rw [hlast] at hufs
    exact absurd hufs (by simp)
  | some c =>
    rw [hlast] at hufs
    cases c with
    | formatUfs selector blockSize bytesPerInode timestamp => exact ⟨_, rfl, rfl, rfl⟩
    | formatBfs selector files timestamp => exact absurd hufs (by simp [ToolCommand.makesUfs])
    | installBoot hdboot => exact absurd hufs (by simp [ToolCommand.makesUfs])

theorem found_ufs_iff : (plan.found cs p).map DetectedFs.filesystem = some .ufs ↔
    p.tag ≠ vBackup ∧ plan.holdsUfs cs p = true := by
  constructor
  · intro h
    by_contra hnot
    rw [found, if_neg hnot] at h
    exact absurd h (by simp)
  · rintro ⟨htag, hufs⟩
    obtain ⟨d, hd, hkind, -⟩ := found_of_holds htag hufs
    rw [hd, Option.map_some, hkind]

/-- The search that the mount starts from. -/
theorem Created.searches (h : plan.Created geometry layout base) (hs : plan.Shows base disk state)
    (hr : plan.Recorded cs state) : UfsFuse.inspectWith ufsDetector disk =
      .ok ⟨plan.report, layout.slices.map fun p => ⟨p.entry, plan.found cs p⟩⟩ := by
  refine h.inspectWith hs.length (hs.inspects h.toLays) fun p hp => ?_
  rw [(h.probes hs hr hp).2, found]
  by_cases htag : p.tag = vBackup
  · rw [if_pos htag, if_neg (fun hboth => hboth.1 htag)]
  rw [if_neg htag]
  unfold holdsUfs
  cases plan.lastMade p cs with
  | none => simp
  | some c => cases c <;> simp [htag, ToolCommand.shows, ToolCommand.makesUfs, Option.filter]

/-- A mount by the selector of a slice looks where the slice lies. -/
theorem Created.resolves (h : plan.Created geometry layout base) (hs : plan.Shows base disk state)
    (hr : plan.Recorded cs state) {selector : Str}
    (hsel : getVtocPartitionBySelector plan.report selector = .ok p) :
    (∀ ufs, detectUfsAtStart disk p.offset = some ufs → resolveSliceUfs disk selector = .ok ufs) ∧
      (detectUfsAtStart disk p.offset = none →
        resolveSliceUfs disk selector = .err (.sliceNotUfs selector p.startSector)) := by
  unfold resolveSliceUfs
  rw [h.searches hs hr, Outcome.ok_bind, hsel, Outcome.ok_bind]
  constructor
  · intro ufs hfound
    rw [hfound]
  · intro hnone
    rw [hnone]

/-- A mount without a selector takes the first slice that holds a volume. -/
theorem Created.autodetects (h : plan.Created geometry layout base) (hs : plan.Shows base disk state)
    (hr : plan.Recorded cs state) :
    autodetectUfs disk = .ok ((plan.slices.find? (plan.holdsUfs cs)).bind fun p =>
      detectUfsAtStart disk p.offset) := by
  have hfirst : layout.slices.find? (fun p =>
      decide ((plan.found cs p).map DetectedFs.filesystem = some .ufs)) =
        plan.slices.find? (plan.holdsUfs cs) := by
    rw [h.own, DiskLayout.own, List.find?_filter]
    refine congrArg (fun f => List.find? f layout.slices) (funext fun p => ?_)
    rw [Bool.eq_iff_iff, decide_eq_true_iff, found_ufs_iff]
    simp
  unfold autodetectUfs
  rw [h.bare hs hr]
  dsimp only
  rw [h.searches hs hr]
  dsimp only
  rw [List.find?_map]
  change Outcome.ok (((layout.slices.find? (fun p =>
    decide ((plan.found cs p).map DetectedFs.filesystem = some .ufs))).map _).bind _) = _
  rw [hfirst]
  cases hfind : plan.slices.find? (plan.holdsUfs cs) with
  | none => rfl
  | some p =>
    have hmem := List.mem_of_find?_eq_some hfind
    rw [h.own, DiskLayout.own, List.mem_filter] at hmem
    obtain ⟨d, hd, -, hoffset⟩ := found_of_holds (by simpa using hmem.2) (List.find?_some hfind)
    rw [Option.map_some, Option.bind_some, Option.bind_some]
    change Outcome.ok ((plan.found cs p).bind _) = _
    rw [hd, Option.bind_some, hoffset, Nat.add_zero]
    dsimp only [VtocPartition.entry, VtocPartition.offset]

end DiskPlan

/-! ## The mount after a run -/
section Mounts
variable {size : Option UInt64} {cylinders heads sectors : UInt32} {volume addressing : Str}
  {opts : SliceLayoutOptions} {geometry : RawDiskGeometry} {layout : DiskLayout} {file disk : Bytes}

end Mounts

/-! ## Boot files -/

theorem DiskPlan.Shows.bootFiles {plan : DiskPlan} {base disk : Bytes} {state : SliceDisk}
    {p : VtocPartition} {cs : List (ToolCommand × Outcome ToolError Unit)} {selector : Str}
    {files : List (Str × Bytes)} {timestamp : ℤ} (h : plan.Lays base) (hs : plan.Shows base disk state)
    (hr : plan.Recorded cs state) (hp : p ∈ plan.slices)
    (hlast : plan.lastMade p cs = some (.formatBfs selector files timestamp)) :
    ∃ bfs, BootFs.detectAtStart disk p.offset = some bfs ∧ BootFs.Holds disk bfs files := by
  have hleft := hr.left p hp
  rw [hlast] at hleft
  obtain ⟨hcount, hnul, hsmall, hcontents, -⟩ := hleft
  obtain ⟨e, he⟩ | ⟨img, dataStart, himg, hshown⟩ :=
    @BootFs.contents_shown p.size files none timestamp hsmall hcount hnul
  · exact absurd (he.symm.trans hcontents) (by simp)
  · have hslice : disk.slice p.offset p.size = img :=
      (hs.slice p hp).trans (Outcome.ok.inj (hcontents.symm.trans himg))
    have hlen := BootFs.contents_length himg
    have hinside : p.offset + p.size ≤ disk.length := hs.length ▸ h.inside p hp
    obtain ⟨hdetect, hholds⟩ := hshown disk p.offset ⟨hlen ▸ hinside, fun o n hon => by
      rw [← hslice, Bytes.slice_slice (hlen ▸ hon)]⟩
    exact ⟨_, hdetect, hholds⟩

section Boots
variable {size : Option UInt64} {cylinders heads sectors : UInt32} {volume addressing : Str}
  {opts : SliceLayoutOptions} {geometry : RawDiskGeometry} {layout : DiskLayout} {file disk : Bytes}

namespace BootFs
variable {buf buf' src : Bytes} {off i : ℕ}

theorem put_behind (h : put buf off src = .ok buf') (hi : off + src.length ≤ i) :
    buf'.byte i = buf.byte i := by
  obtain ⟨_, hguard, hput⟩ := Outcome.bind_eq_ok.mp h
  rw [← Outcome.ok.inj hput, Bytes.byte_overlay (Outcome.guard_eq_ok.mp hguard), if_neg (by omega)]

theorem putAll_behind (fields : List (ℕ × Bytes)) : ∀ {buf : Bytes}, putAll fields buf = .ok buf' →
    (∀ f ∈ fields, f.1 + f.2.length ≤ i) → buf'.byte i = buf.byte i := by
  induction fields with
  | nil =>
    intro buf h _
    rw [Outcome.ok.inj h]
  | cons f rest ih =>
    intro buf h hfields
    obtain ⟨b, hput, hrest⟩ := Outcome.bind_eq_ok.mp h
    rw [List.forall_mem_cons] at hfields
    exact (ih hrest hfields.2).trans (put_behind hput hfields.1)

/-- Behind the superblock and the slot of the root there is nothing yet. -/
theorem writeSuper_behind {sizeBytes dataStart rootDirBytes rootDirAlloc : ℕ} {timestamp : ℤ}
    (h : writeSuper sizeBytes dataStart rootDirBytes rootDirAlloc timestamp = .ok buf')
    (hi : bfsSuperSize + bfsDirentSize ≤ i) : buf'.byte i = 0 := by
  simp only [bfsSuperSize, bfsDirentSize] at hi
  obtain ⟨b, hsuper, hroot⟩ := Outcome.bind_eq_ok.mp h
  rw [putAll_behind _ hroot, putAll_behind _ hsuper, Bytes.byte_zeros]
  · simp only [List.forall_mem_cons, Bytes.le_length, bfsSanitywOffset, List.not_mem_nil,
      IsEmpty.forall_iff, implies_true, and_true]
    omega
  · simp only [vattrFields, List.cons_append, List.nil_append, List.forall_mem_cons, Bytes.le_length,
      bfsSuperSize, Dirent.ino, Dirent.sblock, Dirent.eblock, Dirent.eoffset, Dirent.vattr,
      List.not_mem_nil, IsEmpty.forall_iff, implies_true, and_true]
    omega

/-- A slice without files. -/
theorem contents_nil {sizeBytes : ℕ} {timestamp : ℤ} (hroom : 2048 ≤ sizeBytes)
    (hsize : sizeBytes ≤ 2 ^ 32) :
    ∃ img, contents sizeBytes [] none timestamp = .ok img ∧ detectUfsAtStart img 0 = none := by
  obtain ⟨base, -, hsuper, hbase, -⟩ := @writeSuper_eq 1536 sizeBytes timestamp 0 512 hsize (by decide)
    (by decide) (by omega) (by decide) (by decide)
  refine ⟨base, ?_, detectUfsAtStart_none fun hin => ?_⟩
  · have hstart : dataStartOf [] none = 1536 := rfl
    have halloc : rootAllocOf [] = 512 := rfl
    unfold contents
    rw [if_neg (by simp only [bfsSuperSize, sectorSize]; omega), checkNames, Outcome.ok_bind]
    dsimp only
    rw [hstart, halloc, if_neg (by omega), layoutFiles, Outcome.ok_bind]
    dsimp only [List.length_nil]
    rw [Nat.zero_mul, hsuper, Outcome.ok_bind]
    rfl
  · have hzero : base.slice (0 + ufsSbOffset + FsOff.magic) 4 = Bytes.zeros 4 := by
      have hlen : (base.slice (0 + ufsSbOffset + FsOff.magic) 4).length = 4 := Bytes.slice_length (by
        simp only [ufsSbOffset, ufsSbSize, FsOff.magic] at hin ⊢
        omega)
      refine Bytes.ext_byte (hlen.trans (Bytes.zeros_length 4).symm) fun j hj => ?_
      rw [hlen] at hj
      rw [Bytes.byte_slice hj, writeSuper_behind hsuper (by
        simp only [bfsSuperSize, bfsDirentSize, ufsSbOffset, FsOff.magic]
        omega), Bytes.byte_zeros]
    rw [Bytes.u32, hzero, Bytes.leNat_zeros]
    decide

end BootFs

end Boots

/-! ## Tracing a sector -/
section Trace
variable {a b : Bytes} {n start : ℕ} {pd : PdInfo} {p : VtocPartition}

/-- The alternates of the tool's disks fill four sectors. -/
theorem readAltInfo_congr (hptr : pd.altPtr = skeletonAltPtr) (hlen : pd.altLen = 2048)
    (h : b.slice ((start + 30) * sectorSize) (4 * sectorSize) =
      a.slice ((start + 30) * sectorSize) (4 * sectorSize)) :
    readAltInfo b start pd = readAltInfo a start pd := by
  have hread : ∀ c : Bytes, readAltInfo c start pd = (do
      let altInfo ← parseAltInfo (readSector c (start + 30) 4) 0
      if ¬isValidAltInfo altInfo then pure none else pure (some altInfo)) := by
    intro c
    rw [readAltInfo, hptr, hlen]
    rfl
  rw [hread, hread, readSector, readSector, h]

/-- Empty tables replace nothing. -/
theorem remapGuestVisibleSector_empty {sector : ℤ} (hsectors : 0 < pd.sectors) (hsector : 0 ≤ sector) :
    (remapGuestVisibleSector pd p (some ⟨altSanity, altVersion, ⟨0, 0, 0, []⟩, ⟨0, 0, 0, []⟩⟩) sector :
      Outcome ToolError ℤ) = .ok sector := by
  by_cases h : p.Exempt
  · exact remapGuestVisibleSector_exempt h
  · rw [remapGuestVisibleSector_eq h hsectors hsector le_rfl le_rfl]
    rfl

theorem seekSector_ok (h : n * sectorSize < 2 ^ 63) : seekSector a n = .ok (readSector a n 1) := by
  unfold seekSector
  dsimp only
  rw [Nat.mod_eq_of_lt (h.trans (by norm_num)), if_neg (not_le.mpr h), Nat.mul_div_cancel _ (by norm_num)]

end Trace

theorem DiskPlan.Created.traces {plan : DiskPlan} {geometry : RawDiskGeometry} {layout : DiskLayout}
    {base disk : Bytes} {state : SliceDisk} {p : VtocPartition} {selector : Str} {r : ℤ}
    {cs : List (ToolCommand × Outcome ToolError Unit)} (h : plan.Created geometry layout base)
    (hs : plan.Shows base disk state) (hr : plan.Recorded cs state) (hp : p ∈ layout.slices)
    (hsel : getVtocPartitionBySelector plan.report selector = .ok p) (hlow : 0 ≤ r)
    (hhigh : r < p.sectorCount) :
    resolveGuestVisibleSector anyDetector disk selector r = .ok (p.startSector + r, p.startSector + r,
      (disk.slice p.offset p.size).slice (r.toNat * sectorSize) sectorSize) := by
  obtain ⟨hstart, hcount, hinside⟩ := h.bounds hp
  have hends : p.startSector.toNat * sectorSize + p.sectorCount.toNat * sectorSize ≤ 2 ^ 40 :=
    hinside.trans h.small
  simp only [sectorSize] at hends
  have halternates := h.alternates
  rw [← readAltInfo_congr (b := disk) h.alternatesAt.1 h.alternatesAt.2
    (Bytes.slice_congr hs.length fun i hfrom hto => hs.metadata h.toLays (.inr (by
      simp only [DiskPlan.start, bootstrapLimit, hdpdloc, sectorSize] at hfrom hto ⊢
      omega)))] at halternates
  have habsolute : addI64 p.startSector r = p.startSector + r :=
    Int.bmod_eq_of_le (by omega) (by omega)
  have hsector : asU64 (p.startSector + r) = p.startSector.toNat + r.toNat := by
    rw [asU64_eq (by omega) (by omega)]
    omega
  have hfit : r.toNat * sectorSize + sectorSize ≤ p.size := by
    rw [VtocPartition.size, ← Nat.succ_mul]
    exact Nat.mul_le_mul_right _ (by omega)
  unfold resolveGuestVisibleSector
  rw [h.inspectWith hs.length (hs.inspects h.toLays) fun p hp => (h.probes hs hr hp).1, Outcome.ok_bind]
  dsimp only
  rw [h.active, h.pdinfo]
  dsimp only
  rw [hsel, Outcome.ok_bind, habsolute, halternates, Outcome.mapErr, Outcome.ok_bind,
    remapGuestVisibleSector_empty h.sectors_pos (by omega), Outcome.ok_bind, hsector,
    seekSector_ok (by simp only [sectorSize]; omega), Outcome.ok_bind, readSector, Nat.one_mul,
    Bytes.slice_slice hfit, Nat.add_mul]
  rfl

section Traces
variable {size : Option UInt64} {cylinders heads sectors : UInt32} {volume addressing : Str}
  {opts : SliceLayoutOptions} {geometry : RawDiskGeometry} {layout : DiskLayout} {file disk : Bytes}

end Traces
end UfsFuse
