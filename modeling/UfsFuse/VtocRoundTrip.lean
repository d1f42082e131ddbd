import UfsFuse.DirBlock
import UfsFuse.SkeletonImage

/-!
# The VTOC block reads back as the slices it was built from

Each slice has twelve bytes of its own, so its slot is read back as its fields hold it. The sector
numbers are stored in 32 bits with a sign: the validator admits slices that do not fit.
-/
namespace UfsFuse

/-- The listed slice with this index, or an empty slot. -/
def vtocSlotOf (partitions : List VtocPartition) (i : ℕ) : VtocPartition :=
  (partitions.find? (·.index = i)).getD ⟨i, 0, 0, 0, 0⟩

/-- The tag and the flag are 16-bit fields. -/
structure VtocPartition.Typed (partition : VtocPartition) : Prop where
  tag_lt : partition.tag < 2 ^ 16
  flag_lt : partition.flag < 2 ^ 16

/-- `info` shows the listed slices and nothing else. -/
structure VtocInfo.Lists (info : VtocInfo) (volume : Str) (partitions : List VtocPartition) :
    Prop where
  slots : info.partitions = (List.range vtocPartitionCount).map (vtocSlotOf partitions)
  count_empty : partitions = [] → info.partitionCount = 0
  count_greatest : partitions ≠ [] →
    IsGreatest {n | ∃ p ∈ partitions, p.index + 1 = n} info.partitionCount
  volume_eq : Ascii volume → 0 ∉ volume → info.volume = volume.take 8

/-- The block of a list of slices parses back to the list. -/
def VtocRoundTrips (volume : Str) (partitions : List VtocPartition) : Prop :=
  ∃ block info, buildVtoc volume partitions = .ok block ∧
    (parseVtoc block 0 : Outcome BuildError VtocInfo) = .ok info ∧ info.Lists volume partitions

/-! ## One slot -/

/-- A slice as the fields of its slot hold it. -/
def VtocPartition.stored (partition : VtocPartition) : VtocPartition :=
  ⟨partition.index, partition.tag % 2 ^ 16, partition.flag % 2 ^ 16,
    partition.startSector.bmod (2 ^ 32), partition.sectorCount.bmod (2 ^ 32)⟩

section Slot
variable {block other : Bytes} {partition : VtocPartition} {i : ℕ}

/-- A slot is its twelve bytes. -/
theorem vtocPartitionAt_congr
    (h : block.slice (partitionStructOffset + i * partitionStructSize) partitionStructSize =
      other.slice (partitionStructOffset + i * partitionStructSize) partitionStructSize) :
    vtocPartitionAt block 0 i = vtocPartitionAt other 0 i := by
  have hslice : ∀ b : Bytes, vtocPartitionAt b 0 i =
      let raw := b.slice (partitionStructOffset + i * partitionStructSize) partitionStructSize
      ⟨i, raw.u16 0, raw.u16 2, raw.i32 4, raw.i32 8⟩ := by
    intro b
    simp only [vtocPartitionAt, partitionStructSize]
    simp (disch := omega) only [Bytes.u16_slice, Bytes.i32_slice, Nat.zero_add, Nat.add_zero]
  rw [hslice block, hslice other, h]

/-- Another slice leaves the slot alone. -/
theorem vtocPartitionAt_other (hb : block.length = sectorSize) (hi : partition.index < 16)
    (hne : partition.index ≠ i) :
    vtocPartitionAt (block.overlays (vtocPartitionFields partition)) 0 i =
      vtocPartitionAt block 0 i := by
  refine vtocPartitionAt_congr
    (Bytes.overlays_slice_apart (vtocPartitionFields_inside hb hi) ?_)
  simp only [vtocPartitionFields, partitionStructOffset, partitionStructSize, List.forall_mem_cons,
    Bytes.le_length, List.not_mem_nil, IsEmpty.forall_iff, implies_true, and_true]
  omega

theorem vtocPartitionFields_apart (partition : VtocPartition) :
    (vtocPartitionFields partition).Pairwise Bytes.FieldsApart := by
  simp only [vtocPartitionFields, List.pairwise_cons, List.forall_mem_cons, Bytes.FieldsApart,
    Bytes.le_length, List.not_mem_nil, IsEmpty.forall_iff, implies_true, and_true,
    List.Pairwise.nil]
  omega

/-- The slot of a slice that was just written. -/
theorem vtocPartitionAt_self (hb : block.length = sectorSize) (hi : partition.index < 16) :
    vtocPartitionAt (block.overlays (vtocPartitionFields partition)) 0 partition.index =
      partition.stored := by
  have hin := vtocPartitionFields_inside hb hi
  have hapart := vtocPartitionFields_apart partition
  unfold vtocPartitionAt VtocPartition.stored
  dsimp only
  rw [Nat.zero_add,
    Bytes.overlays_u16 (v := partition.tag) hin hapart (by simp [vtocPartitionFields]),
    Bytes.overlays_u16 (v := partition.flag) hin hapart (by simp [vtocPartitionFields]),
    Bytes.overlays_i32 (v := partition.startSector) hin hapart (by simp [vtocPartitionFields]),
    Bytes.overlays_i32 (v := partition.sectorCount) hin hapart (by simp [vtocPartitionFields])]

end Slot

/-! ## All slots -/
section Slots
variable {partitions : List VtocPartition}

/-- The slots after the slices are stored, those of the last to the first. -/
theorem vtocSlices_slot (i : ℕ) : ∀ {block : Bytes}, block.length = sectorSize →
    (∀ p ∈ partitions, p.index < 16) → (partitions.map (·.index)).Nodup →
    vtocPartitionAt (partitions.foldl (fun block p => block.overlays (vtocPartitionFields p)) block)
      0 i =
      ((partitions.find? (·.index = i)).map VtocPartition.stored).getD
        (vtocPartitionAt block 0 i) := by
  induction partitions with
  | nil =>
    intro block _ _ _
    rfl
  | cons p rest ih =>
    intro block hb hi hnodup
    obtain ⟨hnew, hrest⟩ := List.nodup_cons.mp hnodup
    have hp := hi p (by simp)
    have hlength := (Bytes.overlays_length (vtocPartitionFields_inside hb hp)).trans hb
    have hstep := ih hlength (fun q hq => hi q (by simp [hq])) hrest
    rw [List.foldl_cons, hstep]
    by_cases heq : p.index = i
    · have hnone : rest.find? (·.index = i) = none := by
        rw [List.find?_eq_none]
        intro q hq hqi
        have hindex : q.index = i := by simpa using hqi
        exact hnew (List.mem_map.mpr ⟨q, hq, hindex.trans heq.symm⟩)
      rw [hnone, List.find?_cons_of_pos (by simpa using heq), ← heq]
      exact vtocPartitionAt_self hb hp
    · rw [List.find?_cons_of_neg (by simpa using heq), vtocPartitionAt_other hb hp heq]

/-- The header leaves every slot empty. -/
theorem vtocHeader_slot (volume : Str) {i : ℕ} (hi : i < 16) :
    vtocPartitionAt (vtocHeader volume partitions) 0 i = ⟨i, 0, 0, 0, 0⟩ := by
  have hzeros : vtocPartitionAt (vtocHeader volume partitions) 0 i =
      vtocPartitionAt (Bytes.zeros sectorSize) 0 i := by
    refine vtocPartitionAt_congr
      (Bytes.overlays_slice_apart (vtocHeaderFields_inside volume partitions) ?_)
    simp only [vtocHeaderFields, partitionStructOffset, partitionStructSize, List.forall_mem_cons,
      Bytes.le_length, List.length_take, List.not_mem_nil, IsEmpty.forall_iff, implies_true,
      and_true]
    omega
  rw [hzeros]
  simp only [vtocPartitionAt, partitionStructOffset, partitionStructSize, sectorSize, Bytes.u16,
    Bytes.i32, Bytes.u32]
  simp (disch := omega) only [Bytes.slice_zeros, Bytes.leNat_zeros]
  rfl

/-! ## The header -/

/-- The number of slots in use. -/
theorem vtocHeader_count (volume : Str) (hi : ∀ p ∈ partitions, p.index < 16) :
    (partitions = [] → (vtocHeader volume partitions).u16 16 = 0) ∧
      (partitions ≠ [] → IsGreatest {n | ∃ p ∈ partitions, p.index + 1 = n}
        ((vtocHeader volume partitions).u16 16)) := by
  have hstored := Bytes.overlays_u16 (v := ((partitions.map (·.index)).max?.map (· + 1)).getD 0)
    (o := 16) (vtocHeaderFields_inside volume partitions) (vtocHeaderFields_apart volume partitions)
    (by simp [vtocHeaderFields])
  rw [vtocHeader, hstored]
  constructor
  · intro hnil
    rw [hnil]
    rfl
  · intro hne
    have hmap : partitions.map (·.index) ≠ [] := by simpa using hne
    obtain ⟨top, htop⟩ := Option.isSome_iff_exists.mp (List.isSome_max?_of_ne_nil hmap)
    obtain ⟨hmem, hmax⟩ := List.max?_eq_some_iff.mp htop
    obtain ⟨p, hp, rfl⟩ := List.mem_map.mp hmem
    have hlt := hi p hp
    have hcount : (((partitions.map (·.index)).max?.map (· + 1)).getD 0) % 2 ^ 16 = p.index + 1 := by
      rw [htop]
      exact Nat.mod_eq_of_lt (by dsimp only [Option.map_some, Option.getD_some]; omega)
    rw [hcount]
    refine ⟨⟨p, hp, rfl⟩, ?_⟩
    rintro n ⟨q, hq, rfl⟩
    have hle := hmax q.index (List.mem_map.mpr ⟨q, hq, rfl⟩)
    omega

/-- The volume name up to its eighth character. -/
theorem vtocHeader_volume {volume : Str} (hascii : Ascii volume) (hnul : 0 ∉ volume) :
    decodeAsciiField ((vtocHeader volume partitions).slice 8 8) = volume.take 8 := by
  have hin := vtocHeaderFields_inside volume partitions
  have hname := Bytes.overlays_slice hin (vtocHeaderFields_apart volume partitions)
    (8, volume.take 8) (by simp [vtocHeaderFields])
  have hle : (volume.take 8).length ≤ 8 := List.length_take_le _ _
  have hrest : (vtocHeader volume partitions).slice (8 + (volume.take 8).length)
      (8 - (volume.take 8).length) = Bytes.zeros (8 - (volume.take 8).length) := by
    rw [vtocHeader, Bytes.overlays_slice_apart hin, Bytes.slice_zeros (by simp)]
    simp only [vtocHeaderFields, List.forall_mem_cons, Bytes.le_length, List.not_mem_nil,
      IsEmpty.forall_iff, implies_true, and_true]
    omega
  have hsplit : (vtocHeader volume partitions).slice 8 8 =
      volume.take 8 ++ Bytes.zeros (8 - (volume.take 8).length) := by
    have hsum : 8 = (volume.take 8).length + (8 - (volume.take 8).length) := by omega
    calc (vtocHeader volume partitions).slice 8 8
        = (vtocHeader volume partitions).slice 8
            ((volume.take 8).length + (8 - (volume.take 8).length)) := by rw [← hsum]
      _ = volume.take 8 ++ Bytes.zeros (8 - (volume.take 8).length) := by
          rw [Bytes.slice_add, hrest]
          exact congrArg (· ++ _) hname
  have hnul' : 0 ∉ volume.take 8 := fun h => hnul (List.mem_of_mem_take h)
  rw [hsplit, decodeAsciiField, takeWhile_name hnul']
  exact decodeAsciiReplace_of_ascii fun b hb => hascii b (List.mem_of_mem_take hb)

/-! ## The round trip -/

/-- What the block of a list of slices parses to. -/
theorem buildVtoc_parses {volume : Str} (hi : ∀ p ∈ partitions, p.index < 16)
    (hnodup : (partitions.map (·.index)).Nodup) :
    ∃ block info, buildVtoc volume partitions = .ok block ∧
      (parseVtoc block 0 : Outcome BuildError VtocInfo) = .ok info ∧
      info.partitions = (List.range vtocPartitionCount).map (fun i =>
        ((partitions.find? (·.index = i)).map VtocPartition.stored).getD ⟨i, 0, 0, 0, 0⟩) ∧
      info.partitionCount = (vtocHeader volume partitions).u16 16 ∧
      info.volume = decodeAsciiField ((vtocHeader volume partitions).slice 8 8) := by
  obtain ⟨hbuild, hlength⟩ := @buildVtoc_eq volume partitions hi
  have hheader := vtocSlices_header (vtocHeader_length volume partitions) hi
  refine ⟨_, _, hbuild, parseVtoc_eq (by rw [hlength]; norm_num), ?_, ?_, ?_⟩
  · refine List.map_congr_left fun i hmem => ?_
    have hlt : i < 16 := List.mem_range.mp hmem
    rw [vtocSlices_slot i (vtocHeader_length volume partitions) hi hnodup, vtocHeader_slot volume hlt]
  · have hcount := congrArg (Bytes.u16 · 16) hheader
    simp (disch := norm_num) only [Bytes.u16_slice, Nat.zero_add] at hcount
    exact hcount
  · have hvolume := congrArg (fun raw => decodeAsciiField (Bytes.slice raw 8 8)) hheader
    simp (disch := norm_num) only [Bytes.slice_slice, Nat.zero_add] at hvolume
    exact hvolume

/-- The fields hold a slice that the validator let through exactly when its sectors have 31 bits. -/
theorem stored_eq_iff {partition : VtocPartition} {unixStart unixEnd : ℤ}
    (ht : partition.Typed) (hf : partition.Fits unixStart unixEnd) :
    partition.stored = partition ↔
      partition.startSector < 2 ^ 31 ∧ partition.sectorCount < 2 ^ 31 := by
  have htag := Nat.mod_eq_of_lt ht.tag_lt
  have hflag := Nat.mod_eq_of_lt ht.flag_lt
  have hword : ∀ v : ℤ, 0 ≤ v → (v.bmod (2 ^ 32) = v ↔ v < 2 ^ 31) := by
    intro v hv
    constructor
    · intro heq
      have hlt := @Int.bmod_lt v (2 ^ 32) (by norm_num)
      rw [heq] at hlt
      norm_num at hlt
      omega
    · intro hlt
      exact Int.bmod_eq_of_le (by norm_num; omega) (by norm_num; omega)
  have hstart := hword _ hf.start_nonneg
  have hcount := hword _ hf.count_nonneg
  rw [← hstart, ← hcount, VtocPartition.stored, htag, hflag]
  cases partition
  simp only [VtocPartition.mk.injEq, true_and]

/-- The block of a list that the validator admits reads back as the list exactly when every start
and every count fits in 31 bits. -/
theorem vtoc_roundTrips_iff {volume : Str} {unixStart unixSize : ℤ}
    (ht : ∀ p ∈ partitions, p.Typed)
    (hv : validateVtocPartitions unixStart unixSize partitions = .ok ()) :
    VtocRoundTrips volume partitions ↔
      ∀ p ∈ partitions, p.startSector < 2 ^ 31 ∧ p.sectorCount < 2 ^ 31 := by
  obtain ⟨hfits, hnodup⟩ := (validateVtocLoop_iff partitions []).mp hv
  have hi : ∀ p ∈ partitions, p.index < 16 := fun p hp => (hfits p hp).1.index_lt
  obtain ⟨block, info, hbuild, hparse, hslots, hcount, hvolume⟩ :=
    @buildVtoc_parses partitions volume hi hnodup
  have hfind : ∀ p ∈ partitions, partitions.find? (·.index = p.index) = some p := by
    intro p hp
    cases hs : partitions.find? (·.index = p.index) with
    | none =>
      have hno := List.find?_eq_none.mp hs p hp
      simp at hno
    | some q =>
      have hindex : q.index = p.index := by simpa using List.find?_some hs
      have hq := List.mem_of_find?_eq_some hs
      rw [List.inj_on_of_nodup_map hnodup hq hp hindex]
  have hiff : ∀ p ∈ partitions,
      (p.stored = p ↔ p.startSector < 2 ^ 31 ∧ p.sectorCount < 2 ^ 31) :=
    fun p hp => stored_eq_iff (ht p hp) (hfits p hp).1
  constructor
  · rintro ⟨block', info', hbuild', hparse', hlists⟩
    intro p hp
    cases hbuild.symm.trans hbuild'
    cases hparse.symm.trans hparse'
    have hmaps := hslots.symm.trans hlists.slots
    have hslot := List.map_inj_left.mp hmaps p.index (List.mem_range.mpr (hi p hp))
    rw [vtocSlotOf, hfind p hp] at hslot
    exact (hiff p hp).mp hslot
  · intro hall
    refine ⟨block, info, hbuild, hparse, ?_, ?_, ?_, ?_⟩
    · rw [hslots]
      refine List.map_congr_left fun i _ => ?_
      unfold vtocSlotOf
      cases hs : partitions.find? (·.index = i) with
      | none => rfl
      | some p =>
        have hp := List.mem_of_find?_eq_some hs
        exact (hiff p hp).mpr (hall p hp)
    · intro hnil
      rw [hcount]
      exact (vtocHeader_count volume hi).1 hnil
    · intro hne
      rw [hcount]
      exact (vtocHeader_count volume hi).2 hne
    · intro hascii hnul
      rw [hvolume]
      exact vtocHeader_volume hascii hnul

end Slots

/-- A table with a slice in slot 3. -/
theorem vtoc_roundTrips_small :
    VtocRoundTrips [0x75, 0x66, 0x73] [⟨3, 2, 0x200, 63, 1000⟩] := by
  have hv : validateVtocPartitions 1 2000 [⟨3, 2, 0x200, 63, 1000⟩] = .ok () := by decide
  refine (vtoc_roundTrips_iff ?_ hv).mpr (by decide)
  intro p hp
  cases List.mem_singleton.mp hp
  exact ⟨by decide, by decide⟩

/-- A slice behind sector 2³¹ of a partition of 2³² - 1 sectors comes back with a negative start. -/
theorem vtoc_roundTrips_wraps :
    ¬∀ (volume : Str) (unixStart unixSize : UInt32) (partitions : List VtocPartition),
      (∀ p ∈ partitions, p.Typed) →
      validateVtocPartitions unixStart.toNat unixSize.toNat partitions = .ok () →
      VtocRoundTrips volume partitions := by
  intro hall
  have hv : validateVtocPartitions 1 4294967295 [⟨1, 2, 0x200, 2147483648, 1⟩] = .ok () := by decide
  have ht : ∀ p ∈ [(⟨1, 2, 0x200, 2147483648, 1⟩ : VtocPartition)], p.Typed := by
    intro p hp
    cases List.mem_singleton.mp hp
    exact ⟨by decide, by decide⟩
  obtain ⟨block, info, hbuild, hparse, hlists⟩ := hall [] 1 4294967295 _ ht hv
  obtain ⟨block', info', hbuild', hparse', hslots, _⟩ :=
    @buildVtoc_parses [⟨1, 2, 0x200, 2147483648, 1⟩] [] (by decide) (by decide)
  cases hbuild.symm.trans hbuild'
  cases hparse.symm.trans hparse'
  have hmaps := hlists.slots.symm.trans hslots
  revert hmaps
  decide

end UfsFuse
