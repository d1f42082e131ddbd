import UfsFuse.SliceDisk
import UfsFuse.SlicePlan
import UfsFuse.VtocRoundTrip

/-!
# A disk as `create-layout` leaves it

On a disk of up to 2^31 sectors the readers find the slices of the layout, all of them blank. When no
slice meets the head of the partition, the commands have a plan to go by.
-/
namespace UfsFuse

/-- The slices of a layout that a filesystem or swap may fill. -/
def DiskLayout.own (layout : DiskLayout) : List VtocPartition :=
  layout.slices.filter fun p => p.tag ≠ vBackup

/-- The line of the report for a slice. -/
def VtocPartition.entry (partition : VtocPartition) : SliceFilesystem :=
  ⟨partition.index, partition.tag, partition.startSector, partition.startSector, partition.sectorCount⟩

/-! ## The slices of the layout -/
section Layout
variable {geometry : RawDiskGeometry} {opts : SliceLayoutOptions} {layout : DiskLayout}
  {p : VtocPartition} {a b : ℤ}

theorem VtocPartition.bounds_of_subset (h : p.sectors ⊆ Set.Ico a b) (hcount : 0 < p.sectorCount) :
    a ≤ p.startSector ∧ p.startSector + p.sectorCount ≤ b := by
  rw [sectors, Set.Ico_subset_Ico_iff (by omega)] at h
  exact h

/-- The slices are inside the partition, and all but backup are apart. -/
theorem buildSliceLayout_slices (h : NoOverflow geometry opts) (hpos : Positive geometry)
    (hmax : (planOf geometry opts).total ≤ 2 ^ 31) (hsize : 0 < layout.unixPartitionSize.toNat)
    (hl : buildSliceLayout geometry opts = .ok layout) :
    layout.unixPartitionStart.toNat = 1 ∧ (∀ p ∈ layout.slices, p.Typed) ∧
      (∀ p ∈ layout.slices, 0 < p.sectorCount ∧ p.sectors ⊆ layout.partition) ∧
      (∀ p ∈ layout.slices, p.tag = vBackup → p.startSector = 1) ∧
      (∀ p ∈ layout.own, ∀ q ∈ layout.own, p ≠ q → Disjoint p.sectors q.sectors) ∧
      ((List.range vtocPartitionCount).map (vtocSlotOf layout.slices)).filter
        (fun p => ¬(p.tag = 0 ∨ p.sectorCount ≤ 0)) = layout.slices := by
  obtain ⟨backup, root, swap, stand, hslices, ho⟩ := buildSliceLayout_sound h hpos (by omega) hl
  obtain ⟨_, _, _, _, _, _, -, -, -, -, -, -, -, -, -, -, -, hlayout⟩ := buildSliceLayout_ok hl
  obtain ⟨hbackup, hroot, hswap, hstand⟩ := ho.tags
  obtain ⟨hstandPos, hswapPos, hrootPos⟩ := ho.nonempty
  have hown : layout.own = [root, swap, stand] := by
    rw [DiskLayout.own, hslices]
    simp [hbackup, hroot, hswap, hstand, layoutTagRoot, layoutTagSwap, layoutTagStand, vBackup]
  have hbackupPos : 0 < backup.sectorCount := by
    have hmem : (layout.unixPartitionStart.toNat : ℤ) ∈ backup.sectors := by
      rw [ho.covered, DiskLayout.partition, Set.mem_Ico]
      omega
    rw [VtocPartition.sectors, Set.mem_Ico] at hmem
    omega
  refine ⟨by rw [hlayout]; rfl, ?_, ?_, ?_, ?_, ?_⟩
  · rw [hlayout]
    simp only [List.forall_mem_cons, List.not_mem_nil, IsEmpty.forall_iff, implies_true, and_true]
    refine ⟨⟨?_, ?_⟩, ⟨?_, ?_⟩, ⟨?_, ?_⟩, ?_, ?_⟩ <;> dsimp only <;> decide
  · rw [hslices]
    have hinside := ho.inside
    simp only [List.forall_mem_cons, List.not_mem_nil, IsEmpty.forall_iff, implies_true, and_true]
      at hinside ⊢
    obtain ⟨hstandIn, hswapIn, hrootIn⟩ := hinside
    exact ⟨⟨hbackupPos, ho.covered.subset⟩, ⟨hrootPos, hrootIn⟩, ⟨hswapPos, hswapIn⟩, hstandPos,
      hstandIn⟩
  · rw [hlayout]
    intro p hp htag
    simp only [List.mem_cons, List.not_mem_nil, or_false] at hp
    rcases hp with rfl | rfl | rfl | rfl
    · exact (by decide : asI64 1 = 1)
    all_goals
      dsimp only at htag
      exact absurd htag (by decide)
  · have hapart := ho.apart
    simp only [List.pairwise_cons, List.forall_mem_cons, List.not_mem_nil, IsEmpty.forall_iff,
      implies_true, and_true, List.Pairwise.nil] at hapart
    obtain ⟨⟨hstandSwap, hstandRoot⟩, hswapRoot⟩ := hapart
    rw [hown]
    intro p hp q hq hne
    simp only [List.mem_cons, List.not_mem_nil, or_false] at hp hq
    rcases hp with rfl | rfl | rfl <;> rcases hq with rfl | rfl | rfl
    · exact absurd rfl hne
    · exact hswapRoot.symm
    · exact hstandRoot.symm
    · exact hswapRoot
    · exact absurd rfl hne
    · exact hstandSwap.symm
    · exact hstandRoot
    · exact hstandSwap
    · exact absurd rfl hne
  · -- the indices are in order and the other slots are empty
    obtain ⟨rfl, rfl, rfl, rfl⟩ : backup = _ ∧ root = _ ∧ swap = _ ∧ stand = _ := by
      rw [hlayout] at hslices
      simpa [eq_comm] using hslices
    rw [hslices]
    dsimp only at hstandPos hswapPos hrootPos hbackupPos
    simp [List.range, List.range.loop, vtocSlotOf, List.find?, hstandPos, hswapPos, hrootPos, hbackupPos]

end Layout

/-! ## The plan of a created disk -/

/-- The plan is what the readers find on a disk created with that layout: the slices of the layout, the
geometry, no replaced sector, and nothing where the slices and the bootstrap are. -/
structure DiskPlan.Created (plan : DiskPlan) (geometry : RawDiskGeometry) (layout : DiskLayout)
    (disk : Bytes) : Prop extends plan.Lays disk where
  startLba : plan.active.startLba = 1
  own : plan.slices = layout.own
  listed : ∃ vtoc, plan.report.vtoc = some vtoc ∧
    vtoc.partitions = (List.range vtocPartitionCount).map (vtocSlotOf layout.slices)
  entries : plan.report.sliceFilesystems = layout.slices.map VtocPartition.entry
  small : disk.length ≤ 2 ^ 40
  starts : layout.unixPartitionStart.toNat = 1
  positive : ∀ p ∈ layout.slices, 0 < p.sectorCount
  subset : ∀ p ∈ layout.slices, p.sectors ⊆ layout.partition
  backup : ∀ p ∈ layout.slices, p.tag = vBackup → p.startSector = 1
  partition : (layout.unixPartitionStart.toNat + layout.unixPartitionSize.toNat) * sectorSize ≤
    disk.length
  geometry : plan.pdinfo.tracks = geometry.heads.toNat ∧
    plan.pdinfo.sectors = geometry.sectorsPerTrack.toNat
  sectors_pos : 0 < plan.pdinfo.sectors
  alternatesAt : plan.pdinfo.altPtr = skeletonAltPtr ∧ plan.pdinfo.altLen = 2048
  alternates : readAltInfo disk plan.active.startLba plan.pdinfo =
    .ok (some ⟨altSanity, altVersion, ⟨0, 0, 0, []⟩, ⟨0, 0, 0, []⟩⟩)
  blank : ∀ i, sectorSize ≤ i → i < plan.start + bootstrapLimit ∨ plan.start + 34 * sectorSize ≤ i →
    disk.byte i = 0

section Created
variable {size : Option UInt64} {cylinders heads sectors : UInt32} {volume addressing : Str}
  {opts : SliceLayoutOptions} {geometry : RawDiskGeometry} {layout : DiskLayout} {file disk : Bytes}

theorem buildPdinfo_geometry {logicalSector0 vtocPtr vtocLen altPtr altLen : ℕ} :
    (buildPdinfo geometry logicalSector0 vtocPtr vtocLen altPtr altLen).u32 28 =
        geometry.heads.toNat ∧
      (buildPdinfo geometry logicalSector0 vtocPtr vtocLen altPtr altLen).u32 32 =
        geometry.sectorsPerTrack.toNat := by
  have hfield : ∀ o v, (o, Bytes.le 4 v) ∈
      pdinfoFields geometry logicalSector0 vtocPtr vtocLen altPtr altLen → _ :=
    fun o v hm => Bytes.overlays_u32 pdinfoFields_inside pdinfoFields_apart hm
  rw [buildPdinfo_eq, hfield 28 geometry.heads.toNat (by simp [pdinfoFields]),
    hfield 32 geometry.sectorsPerTrack.toNat (by simp [pdinfoFields])]
  exact ⟨Nat.mod_eq_of_lt geometry.heads.toNat_lt, Nat.mod_eq_of_lt geometry.sectorsPerTrack.toNat_lt⟩

/-- The two steps that may fail before the image is written, and the writing. -/
theorem createLayout_ok
    (h : createLayout size cylinders heads sectors opts volume addressing file = (.ok layout, disk))
    (hg : resolveGeometry size cylinders heads sectors addressing = .ok geometry) :
    buildSliceLayout geometry opts = .ok layout ∧
      createRawImageSkeleton geometry layout.unixPartitionStart layout.unixPartitionSize volume
        layout.slices none addressing file = (.ok (), disk) := by
  unfold createLayout at h
  rw [hg, Act.lift_ok_bind] at h
  obtain ⟨layout', _, hlayout, h⟩ := Act.bind_eq_ok.mp h
  obtain ⟨hbuild, rfl⟩ := Act.lift_eq_ok.mp hlayout
  obtain ⟨_, _, hskeleton, h⟩ := Act.bind_eq_ok.mp h
  cases h
  exact ⟨hbuild, hskeleton⟩

/-- The table of a layout reads back slot by slot. -/
theorem buildVtoc_slots {slices : List VtocPartition} {block : Bytes}
    (hi : ∀ p ∈ slices, p.index < 16) (hnodup : (slices.map (·.index)).Nodup)
    (hstored : ∀ p ∈ slices, p.stored = p) (h : buildVtoc volume slices = .ok block) :
    (vtocAt block 0).partitions = (List.range vtocPartitionCount).map (vtocSlotOf slices) := by
  obtain ⟨block', info, hbuild, hparse, hslots, -⟩ := @buildVtoc_parses slices volume hi hnodup
  obtain rfl := Outcome.ok.inj (h.symm.trans hbuild)
  have hlen : block.length = sectorSize := by
    obtain ⟨hblock, hlength⟩ := @buildVtoc_eq volume slices hi
    rwa [← Outcome.ok.inj (h.symm.trans hblock)] at hlength
  rw [parseVtoc_eq (by rw [hlen]; norm_num)] at hparse
  rw [Outcome.ok.inj hparse, hslots]
  refine List.map_congr_left fun i _ => ?_
  unfold vtocSlotOf
  cases hfind : slices.find? (·.index = i) with
  | none => rfl
  | some p => exact hstored p (List.mem_of_find?_eq_some hfind)

/-- A created disk whose slices are clear of the head has a plan. -/
theorem createLayout_created
    (h : createLayout size cylinders heads sectors opts volume addressing file = (.ok layout, disk))
    (hg : resolveGeometry size cylinders heads sectors addressing = .ok geometry)
    (hexact : NoOverflow geometry opts) (hmax : (planOf geometry opts).total ≤ 2 ^ 31)
    (hkept : layout.HeadKept) : ∃ plan : DiskPlan, plan.Created geometry layout disk := by
  obtain ⟨hbuild, hskeleton⟩ := createLayout_ok h hg
  have r := SkeletonRequest.of_ok hskeleton
  obtain ⟨k, htotal, hstart, hmbr, hpdinfo, hvtoc, halt, hrun⟩ := r.run volume file
  obtain rfl : disk = k.image := congrArg Prod.snd (hskeleton.symm.trans hrun)
  obtain ⟨entry, hentry, -, -, -, hlba, -⟩ := buildMbr_active hmbr
  obtain ⟨-, -, -, -, hsignature⟩ := buildMbr_ok hmbr
  obtain ⟨hsanity, hvp, hvl, hap, hal⟩ := buildPdinfo_pointers hpdinfo.symm
  rw [buildEmptyAltInfo_length] at hal
  have hpos : Positive geometry := ⟨r.valid.cylinders_pos, r.valid.heads_pos, r.valid.sectors_pos⟩
  obtain ⟨hone, htyped, hslices, hbackup, hdisjoint, hfilter⟩ :=
    buildSliceLayout_slices hexact hpos hmax r.size_pos hbuild
  obtain ⟨hfits, hnodup⟩ := (validateVtocLoop_iff layout.slices []).mp r.slices_ok
  have hindex : ∀ p ∈ layout.slices, p.index < 16 := fun p hp => (hfits p hp).1.index_lt
  have htotalSectors := totalSectors_exact hexact.total
  have hpartition := r.partition_le
  have hlength : k.image.length = geometry.totalSectors.toNat * sectorSize := by
    rw [k.image_length, htotal]
  have hbounds : ∀ p ∈ layout.slices, 0 < p.sectorCount ∧ 1 ≤ p.startSector ∧
      p.startSector + p.sectorCount ≤ geometry.totalSectors.toNat := by
    intro p hp
    obtain ⟨hcount, hsubset⟩ := hslices p hp
    obtain ⟨hlow, hhigh⟩ := VtocPartition.bounds_of_subset hsubset hcount
    omega
  have hstored : ∀ p ∈ layout.slices, p.stored = p := by
    intro p hp
    obtain ⟨hcount, hlow, hhigh⟩ := hbounds p hp
    exact (stored_eq_iff (htyped p hp) (hfits p hp).1).mpr (by omega)
  have hsane := buildVtoc_sanity hindex hvtoc
  have hgeometry := @buildPdinfo_geometry geometry layout.unixPartitionStart.toNat skeletonVtocPtr
    skeletonVtocLen skeletonAltPtr (buildEmptyAltInfo.length % 2 ^ 16)
  rw [← hpdinfo] at hgeometry
  have hinspect := k.inspect hsignature hentry (hlba.trans hstart.symm) ⟨hsanity, hvp, hvl⟩ hsane
  have hown : ∀ p ∈ layout.own, p ∈ layout.slices ∧ p.tag ≠ vBackup := by
    intro p hp
    simpa [DiskLayout.own] using hp
  refine ⟨⟨_, entry, pdinfoAt k.pdinfo, layout.own⟩, {
    inspects := hinspect
    active := rfl
    pdinfo := rfl
    behindMbr := by dsimp only; omega
    vtoc := ?_
    bootInside := ?_
    nonempty := ?_
    inside := ?_
    clear := ?_
    apart := hdisjoint
    startLba := hlba.trans hone
    own := rfl
    listed := ⟨_, rfl, buildVtoc_slots hindex hnodup hstored hvtoc⟩
    entries := ?_
    small := ?_
    starts := hone
    positive := fun p hp => (hslices p hp).1
    subset := fun p hp => (hslices p hp).2
    backup := hbackup
    partition := ?_
    geometry := hgeometry
    sectors_pos := hgeometry.2.trans_gt hpos.sectors
    alternatesAt := ⟨hap, hal⟩
    alternates := ?_
    blank := ?_ }⟩
  · change bootstrapLimit ≤ k.pdinfo.u32 84 ∧ k.pdinfo.u32 84 + 252 ≤ 34 * sectorSize
    rw [hvp]
    decide
  · have hfit := k.fits
    rw [hlength]
    simp only [DiskPlan.start, hlba, bootstrapLimit, hdpdloc, sectorSize]
    omega
  · intro p hp
    obtain ⟨hcount, hlow, hhigh⟩ := hbounds p (hown p hp).1
    omega
  · intro p hp
    obtain ⟨hcount, hlow, hhigh⟩ := hbounds p (hown p hp).1
    rw [hlength]
    simp only [VtocPartition.offset, VtocPartition.size, sectorSize]
    omega
  · intro p hp
    obtain ⟨hmem, htag⟩ := hown p hp
    dsimp only
    rw [hlba]
    exact hkept p hmem htag
  · dsimp only
    rw [listSlices, buildVtoc_slots hindex hnodup hstored hvtoc, hfilter]
    rfl
  · rw [hlength]
    simp only [sectorSize]
    omega
  · rw [hlength]
    exact Nat.mul_le_mul_right _ hpartition
  · dsimp only
    rw [hlba, ← hstart]
    exact k.readAltInfo_image hap hal (by rw [halt]; exact parseAltInfo_empty) rfl
  · intro i hi hout
    refine k.image_zero hi ?_
    simp only [DiskPlan.start, hlba, bootstrapLimit, hdpdloc, sectorSize] at hout ⊢
    omega

end Created

/-! ## Selecting a slice -/
namespace DiskPlan.Created
variable {plan : DiskPlan} {geometry : RawDiskGeometry} {layout : DiskLayout} {disk : Bytes}
  {selector : Str} {p : VtocPartition}

/-- A selected slice that is not empty is one of the layout. -/
theorem selects (h : plan.Created geometry layout disk)
    (hsel : getVtocPartitionBySelector plan.report selector = .ok p) (hsize : p.size ≠ 0) :
    p ∈ layout.slices := by
  obtain ⟨vtoc, hvtoc, hslots⟩ := h.listed
  have hmem : p ∈ vtoc.partitions := by
    unfold getVtocPartitionBySelector at hsel
    rw [hvtoc] at hsel
    dsimp only at hsel
    cases hindex : vtoc.partitions.find? fun p => digitString 10 1 p.index = selector with
    | some q =>
      rw [hindex] at hsel
      cases hsel
      exact List.mem_of_find?_eq_some hindex
    | none =>
      rw [hindex] at hsel
      dsimp only at hsel
      cases htag : vtoc.partitions.find? fun p => partitionTagName p.tag = selector with
      | some q =>
        rw [htag] at hsel
        cases hsel
        exact List.mem_of_find?_eq_some htag
      | none =>
        rw [htag] at hsel
        cases hsel
  rw [hslots] at hmem
  obtain ⟨i, -, rfl⟩ := List.mem_map.mp hmem
  unfold vtocSlotOf at hsize ⊢
  cases hfind : layout.slices.find? (·.index = i) with
  | some q => exact List.mem_of_find?_eq_some hfind
  | none =>
    rw [hfind] at hsize
    exact absurd (Nat.zero_mul _) hsize

theorem selects_own (h : plan.Created geometry layout disk)
    (hsel : getVtocPartitionBySelector plan.report selector = .ok p) (hsize : p.size ≠ 0)
    (htag : p.tag ≠ vBackup) : p ∈ plan.slices := by
  rw [h.own, DiskLayout.own, List.mem_filter]
  exact ⟨h.selects hsel hsize, by simpa using htag⟩

end DiskPlan.Created

/-! ## The default layout -/

/-- The default slices on a disk of 324 MiB. -/
def defaultLayout : DiskLayout :=
  ⟨1, 664271, [⟨0, 5, 0x201, 1, 664271⟩, ⟨1, 2, 0x200, 168336, 495936⟩, ⟨2, 3, 0x201, 35280, 132048⟩,
    ⟨10, 9, 0x200, 1008, 33264⟩]⟩

theorem defaultLayout_noOverflow : NoOverflow ⟨659, 16, 63⟩ ⟨64, 16, 64, 2048⟩ :=
  ⟨by decide +kernel, by decide +kernel, by decide +kernel, by decide +kernel, by decide +kernel,
    by decide +kernel, fun _ _ => by decide +kernel⟩

theorem defaultLayout_total : (planOf ⟨659, 16, 63⟩ ⟨64, 16, 64, 2048⟩).total ≤ 2 ^ 31 := by
  decide +kernel

theorem defaultLayout_headKept : defaultLayout.HeadKept := by
  intro p hp htag
  rw [headSectors_eq, VtocPartition.sectors, Set.Ico_disjoint_Ico]
  revert p
  decide +kernel

theorem defaultLayout_created : ∃ disk plan,
    createLayout none 659 16 63 ⟨64, 16, 64, 2048⟩ [] diskAddressingChs [] = (.ok defaultLayout, disk) ∧
      DiskPlan.Created plan ⟨659, 16, 63⟩ defaultLayout disk := by
  have hl : buildSliceLayout ⟨659, 16, 63⟩ ⟨64, 16, 64, 2048⟩ = .ok defaultLayout := by decide +kernel
  have r : SkeletonRequest ⟨659, 16, 63⟩ defaultLayout.unixPartitionStart
      defaultLayout.unixPartitionSize defaultLayout.slices none diskAddressingChs :=
    { valid := validateGeometry_iff.mp (by decide +kernel)
      start_pos := by decide +kernel
      size_pos := by decide +kernel
      partition_le := by decide +kernel
      slices_ok := by decide +kernel
      bootCode_le := fun _ h => by cases h
      fits := by decide +kernel }
  obtain ⟨k, _, _, _, _, _, _, hrun⟩ := r.run [] []
  have hcreate : createLayout none 659 16 63 ⟨64, 16, 64, 2048⟩ [] diskAddressingChs [] =
      (.ok defaultLayout, k.image) := by
    refine Act.bind_eq_ok.mpr ⟨_, [], Act.lift_eq_ok.mpr ⟨rfl, rfl⟩, ?_⟩
    refine Act.bind_eq_ok.mpr ⟨_, [], Act.lift_eq_ok.mpr ⟨hl, rfl⟩, ?_⟩
    exact Act.bind_eq_ok.mpr ⟨(), _, hrun, rfl⟩
  obtain ⟨plan, hplan⟩ := createLayout_created hcreate rfl defaultLayout_noOverflow defaultLayout_total
    defaultLayout_headKept
  exact ⟨k.image, plan, hcreate, hplan⟩

/-- The selectors `root` and `stand` on the default disk. -/
theorem defaultLayout_selects {plan : DiskPlan} {disk : Bytes}
    (h : plan.Created ⟨659, 16, 63⟩ defaultLayout disk) :
    getVtocPartitionBySelector plan.report [0x72, 0x6F, 0x6F, 0x74] =
        .ok ⟨1, 2, 0x200, 168336, 495936⟩ ∧
      getVtocPartitionBySelector plan.report [0x73, 0x74, 0x61, 0x6E, 0x64] =
        .ok ⟨10, 9, 0x200, 1008, 33264⟩ := by
  obtain ⟨vtoc, hvtoc, hslots⟩ := h.listed
  unfold getVtocPartitionBySelector
  rw [hvtoc]
  dsimp only
  rw [hslots]
  decide +kernel

end UfsFuse
