import UfsFuse.BuildTree

/-!
# Replacing contents

`set_inode_contents` gives back everything the inode owns and lays the new contents out afresh.
With enough free blocks the inode then holds exactly the new contents; otherwise the call fails
with every free block taken and the old contents already given back.
-/
namespace UfsFuse

/-! ## Giving back -/
section Free
variable {ufs : Ufs} {E : Fault → Bytes → Prop}

theorem freeEach_hoare {α : Type} (g : ufs.sb.Geometry) (run : α → ℕ × ℕ) {others : List Run}
    {l : List α} : ∀ {D : Disk},
    Space ufs.sb D (l.map (fun a => ((run a).1, (run a).2 / 512)) ++ others) →
    (Act.each (fun a => freeAllocation ufs (run a).1 (run a).2) l).hoare ufs.Holds D
      (fun _ D' => Space ufs.sb D' others ∧ SpaceOnly D D' []) E := by
  induction l with
  | nil => exact fun hs => Act.hoare_pure ⟨hs, SpaceOnly.refl _ _⟩
  | cons a l ih =>
    intro D hs
    rw [Act.each]
    refine (freeAllocation_hoare g hs).bind ?_
    rintro - D₁ ⟨hs₁, ho₁⟩
    refine (ih hs₁).post ?_
    rintro - D₂ ⟨hs₂, ho₂⟩
    exact ⟨hs₂, ho₁.trans ho₂⟩

theorem dataRuns_eq_map : ∀ data sizes : List ℕ,
    dataRuns data sizes = (data.zip sizes).map fun r => (r.1, r.2 / 512) := by
  intro data
  induction data with
  | nil => exact fun _ => rfl
  | cons b data ih =>
    intro sizes
    cases sizes with
    | nil => rfl
    | cons s sizes => rw [dataRuns_cons, ih, List.zip_cons_cons, List.map_cons]

theorem zipRev_perm {data sizes : List ℕ} (h : data.length = sizes.length) :
    ((zipRev data sizes).map fun r => (r.1, r.2 / 512)).Perm (dataRuns data sizes) := by
  have hrev : zipRev data sizes = (data.zip sizes).reverse := by
    rw [zipRev, List.zip_eq_zipWith, List.zip_eq_zipWith, List.reverse_zipWith h]
  rw [hrev, dataRuns_eq_map]
  exact (List.reverse_perm _).map _

/-- Freeing data allocations and pointer blocks. -/
theorem freeOwned_hoare (g : ufs.sb.Geometry) {D : Disk} {data sizes ptrs : List ℕ}
    {others : List Run} (hl : data.length = sizes.length)
    (hs : Space ufs.sb D (dataRuns data sizes ++ blockRuns ufs.sb ptrs ++ others)) :
    (freeOwned ufs ptrs (zipRev data sizes)).hoare ufs.Holds D
      (fun _ D' => Space ufs.sb D' others ∧ SpaceOnly D D' []) E := by
  have hb := g.bsize_eq
  have hfrag : ufs.sb.bsize / 512 = ufs.sb.frag := by omega
  have hp : (dataRuns data sizes ++ blockRuns ufs.sb ptrs ++ others).Perm
      (ptrs.reverse.map (fun p => (p, ufs.sb.bsize / 512)) ++
        ((zipRev data sizes).map (fun r => (r.1, r.2 / 512)) ++ others)) := by
    rw [hfrag, ← List.append_assoc]
    refine List.Perm.append_right _ ?_
    refine List.perm_append_comm.trans (List.Perm.append ?_ (zipRev_perm hl).symm)
    exact ((List.reverse_perm ptrs).map _).symm
  rw [freeOwned]
  refine (freeEach_hoare g (fun p => (p, ufs.sb.bsize)) (hs.perm hp)).bind ?_
  rintro - D₁ ⟨hs₁, ho₁⟩
  refine (freeEach_hoare g id hs₁).post ?_
  rintro - D₂ ⟨hs₂, ho₂⟩
  exact ⟨hs₂, ho₁.trans ho₂⟩

end Free

/-! ## Taking anew -/

/-- Data blocks and pointer blocks of a file of `size` bytes. -/
def Superblock.blocksNeeded (sb : Superblock) (size : ℕ) : ℕ :=
  sb.blocksFor size + sb.pointerBlocks (sb.blocksFor size)

theorem Superblock.blocksNeeded_zero (sb : Superblock) : sb.blocksNeeded 0 = 0 := by
  simp [blocksNeeded, blocksFor, pointerBlocks_zero]

section Alloc
variable {ufs : Ufs}

theorem dataRuns_append {xs ys ss ts : List ℕ} (h : xs.length = ss.length) :
    dataRuns (xs ++ ys) (ss ++ ts) = dataRuns xs ss ++ dataRuns ys ts := by
  rw [dataRuns, List.map_append, List.zip_append (by rw [List.length_map, h])]
  rfl

theorem dataRuns_length {data sizes : List ℕ} (h : data.length = sizes.length) :
    (dataRuns data sizes).length = data.length := by
  rw [dataRuns, List.length_zip, List.length_map, ← h, Nat.min_self]

theorem allocateData_hoare (g : ufs.sb.Geometry) {n : ℕ} {sizes : List ℕ} {D : Disk}
    {runs : List Run} (hs : Space ufs.sb D runs) (hsizes : ∀ s ∈ sizes, ufs.sb.AllocSize s) :
    (Act.collect (allocateAllocation ufs n) sizes).hoare ufs.Holds D
      (fun blocks D' => blocks.length = sizes.length ∧
        Took ufs.sb D D' runs (dataRuns blocks sizes))
      (OutOfSpace ufs D runs sizes.length) := by
  refine (Act.hoare_collect (fun blocks rest d => ∃ done, done ++ rest = sizes ∧
    blocks.length = done.length ∧ Took ufs.sb D d runs (dataRuns blocks done)) ?_ ?_).post ?_
  · rintro blocks s rest d ⟨done, hsplit, hl, ht⟩
    have hmem : s ∈ sizes := by
      rw [← hsplit]
      simp
    refine (allocateAllocation_hoare g ht.space (hsizes s hmem)).mono ?_ fun e image he => ?_
    · intro b d' ht'
      refine ⟨done ++ [s], by rw [List.append_assoc]; exact hsplit, by simp [hl], ?_⟩
      rw [dataRuns_append hl]
      exact (ht.trans ht').perm List.perm_append_comm
    · refine (OutOfSpace.of_unchanged ht.space he Nat.one_pos).after ht ?_
      rw [dataRuns_length hl, hl, ← hsplit, List.length_append, List.length_cons]
      omega
  · exact ⟨[], rfl, rfl, Took.refl hs⟩
  · rintro blocks d ⟨done, hsplit, hl, ht⟩
    rw [List.append_nil] at hsplit
    subst hsplit
    exact ⟨hl, ht⟩

theorem Superblock.Covers.size_le_sum {sb : Superblock} {sizes : List ℕ} : ∀ {size : ℕ},
    sb.Covers sizes size → size ≤ sizes.sum := by
  induction sizes with
  | nil =>
    intro size h
    have h0 : size = 0 := h
    exact h0.le
  | cons s sizes ih =>
    rintro size ⟨-, -, hle, hr⟩
    have := ih hr
    rw [List.sum_cons]
    omega

/-- A file that fits on the disk is within reach of the pointers of its inode. -/
theorem Space.within_reach {sb : Superblock} (g : sb.Geometry) (hfill : sb.PointersFill) {D : Disk} {data sizes : List ℕ}
    {rest : List Run} {size : ℕ} (hs : Space sb D (dataRuns data sizes ++ rest))
    (hc : sb.Covers sizes size) (hl : data.length = sizes.length) :
    data.length ≤ ufsNdaddr + reach sb.nindir [1, 2, 3] := by
  have hsum := hs.sum_counts_le g
  have hsnd : (dataRuns data sizes).map Prod.snd = sizes.map (· / 512) := by
    rw [dataRuns, List.map_snd_zip (by rw [List.length_map, hl])]
  have hmul : (sizes.map (· / 512)).sum * 512 = sizes.sum := by
    rw [← List.sum_map_mul_right]
    congr 1
    conv_rhs => rw [← List.map_id sizes]
    exact List.map_congr_left fun s hs => Nat.div_mul_cancel (hc.allocSize s hs).2.2
  rw [List.map_append, List.sum_append, hsnd] at hsum
  have hsize := hc.size_le_sum
  have hdl := g.dsize_lt
  have hlen := hl.trans (hc.length g.bsize_pos)
  have hb := g.bsize_eq
  have hfrag := g.frag_pos
  have hblocks : sb.blocksFor size * sb.bsize < size + sb.bsize := by
    unfold Superblock.blocksFor
    split_ifs
    · omega
    · have := Nat.div_mul_le_self (size + sb.bsize - 1) sb.bsize
      omega
  have hle : sb.blocksFor size * 4096 ≤ sb.blocksFor size * sb.bsize :=
    Nat.mul_le_mul_left _ (by omega)
  have hup := g.frag_le
  have hn : 1024 ≤ sb.nindir := by
    unfold Superblock.PointersFill at hfill
    omega
  have hcube := Nat.pow_le_pow_left hn 3
  simp only [reach, List.map_cons, List.map_nil, List.sum_cons, List.sum_nil]
  omega

end Alloc

/-! ## Replacing -/

/-- The fields that content replacement leaves alone. -/
def Dinode.core (i : Dinode) : Dinode :=
  { i with size := 0, blocks := 0, directBlocks := [], indirectBlocks := [] }

/-- Sectors that an inode's runs take up. -/
def Owned.sectors (sb : Superblock) (i : Inode) (o : Owned) : ℕ := ((o.runs sb i).map Prod.snd).sum

/-- Inode `n` now owns `o`; the runs `others` and the other inodes are as before. -/
structure Replaced (sb : Superblock) (D D' : Disk) (n : ℕ) (o : Owned) (others : List Run) :
    Prop where
  space : Space sb D' (o.runs sb (D'.ino n) ++ others)
  laid : Laid sb D' (D'.ino n) o.data o.ptrs
  blocks : (D'.ino n).blocks = o.sectors sb (D'.ino n)
  inodes : ∀ m, m ≠ n → D'.ino m = D.ino m
  core : ∀ c, (D'.cg c).core = (D.cg c).core
  total : D'.total.core = D.total.core
  keeps : ∀ a, Covered others (a / 512) → D'.data a = D.data a

section Set
variable {ufs : Ufs}

theorem Owned.runs_eq (sb : Superblock) (i : Inode) (o : Owned) :
    o.runs sb i = dataRuns o.data (sb.allocationByteSizes i.size) ++ blockRuns sb o.ptrs := rfl

theorem sectors_eq {sb : Superblock} (g : sb.Geometry) {i : Inode} {o : Owned}
    (hl : o.data.length = (sb.allocationByteSizes i.size).length) :
    o.sectors sb i = ((sb.allocationByteSizes i.size).map (· / sectorSize)).sum +
      o.ptrs.length * (sb.bsize / sectorSize) := by
  have hb := g.bsize_eq
  have hfrag : sb.bsize / sectorSize = sb.frag := by
    simp only [sectorSize]
    omega
  have hptr : (blockRuns sb o.ptrs).map Prod.snd = List.replicate o.ptrs.length sb.frag := by
    rw [blockRuns, List.map_map, List.eq_replicate_iff]
    refine ⟨List.length_map _, fun x hx => ?_⟩
    obtain ⟨p, -, rfl⟩ := List.mem_map.mp hx
    rfl
  rw [Owned.sectors, Owned.runs_eq, List.map_append, List.sum_append, hptr, hfrag, dataRuns,
    List.map_snd_zip (by rw [List.length_map, hl]), List.sum_replicate, smul_eq_mul]

theorem Owned.runs_length {sb : Superblock} {i : Inode} {o : Owned}
    (hl : o.data.length = (sb.allocationByteSizes i.size).length) :
    (o.runs sb i).length = o.data.length + o.ptrs.length := by
  rw [Owned.runs_eq, List.length_append, dataRuns_length hl, blockRuns_length]

/-- Recording size and block count is the last step of every replacement. -/
theorem writeSizeAndBlocks_hoare (g : ufs.sb.Geometry) {n : ℕ} (hn : n < ufs.sb.inodes)
    {D : Disk} {size : ℕ} {o : Owned} {others : List Run} {E : Fault → Bytes → Prop}
    {Q : Unit → Disk → Prop} (hsize : size < 2 ^ 63)
    (hs : Space ufs.sb D (o.runs ufs.sb { D.ino n with size := size } ++ others))
    (hl : Laid ufs.sb D { D.ino n with size := size } o.data o.ptrs)
    (h : Q () (D.setIno n { D.ino n with
      size := size
      blocks := o.sectors ufs.sb { D.ino n with size := size } })) :
    (writeSizeAndBlocks ufs n size (ufs.sb.allocationByteSizes size) o.ptrs.length).hoare ufs.Holds D
      Q E := by
  have hsum := hs.sum_counts_le g
  rw [List.map_append, List.sum_append] at hsum
  have hdl := g.dsize_lt
  have hsec : o.sectors ufs.sb { D.ino n with size := size } < 2 ^ 32 := by
    rw [Owned.sectors]
    omega
  rw [sectors_eq g (hl.sizes_length g)] at h hsec
  refine (writeInodeSize_hoare hn rfl).seq (writeInodeBlocks_hoare hn ?_)
  rw [Disk.setIno_at, Disk.setIno_setIno, Nat.mod_eq_of_lt (by omega : size < 2 ^ 64)]
  simp only [Nat.mod_eq_of_lt hsec]
  exact h

/-- The pointers to `o` are in place; the size is still to be recorded. -/
structure Linked (sb : Superblock) (D D' : Disk) (n size : ℕ) (o : Owned) (others : List Run) :
    Prop where
  space : Space sb D' (o.runs sb { D'.ino n with size := size } ++ others)
  laid : Laid sb D' { D'.ino n with size := size } o.data o.ptrs
  inode : (D'.ino n).core = (D.ino n).core
  inodes : ∀ m, m ≠ n → D'.ino m = D.ino m
  core : ∀ c, (D'.cg c).core = (D.cg c).core
  total : D'.total.core = D.total.core
  keeps : ∀ a, Covered others (a / 512) → D'.data a = D.data a
  body : D'.body sb o.data size = D.body sb o.data size
  count : o.ptrs.length = sb.pointerBlocks o.data.length
  heads : Heads sb (blockRuns sb o.ptrs)

theorem linkBlocks_hoare (g : ufs.sb.Geometry) (hfill : ufs.sb.PointersFill) {n : ℕ}
    (hn : n < ufs.sb.inodes) {D : Disk}
    {blocks : List ℕ} {size : ℕ} {others : List Run} (hsize : size < 2 ^ 63)
    (hl : blocks.length = (ufs.sb.allocationByteSizes size).length)
    (hs : Space ufs.sb D (dataRuns blocks (ufs.sb.allocationByteSizes size) ++ others)) :
    (buildInodePointerStructure ufs n blocks).hoare ufs.Holds D
      (fun count D' => ∃ ptrs, count = ptrs.length ∧
        Linked ufs.sb D D' n size ⟨blocks, ptrs⟩ others)
      (OutOfSpace ufs D (dataRuns blocks (ufs.sb.allocationByteSizes size) ++ others)
        (ufs.sb.pointerBlocks blocks.length)) := by
  have hcov := Superblock.allocationByteSizes_covers g hsize
  have hcount := hl.trans (Superblock.allocationByteSizes_length g hsize)
  have hpoint : Pointable blocks := by
    intro b hb
    obtain ⟨k, hk, rfl⟩ := List.mem_iff_getElem.mp hb
    have hmem : (blocks[k], (ufs.sb.allocationByteSizes size)[k] / 512) ∈
        dataRuns blocks (ufs.sb.allocationByteSizes size) := by
      refine List.mem_iff_getElem?.mpr ⟨k, ?_⟩
      simp [dataRuns, hk, hl ▸ hk]
    exact IsRun.pointable g (hs.isRun _ (List.mem_append_left _ hmem))
  refine (buildInodePointerStructure_hoare g hn hs (hs.within_reach g hfill hcov hl) hpoint).post ?_
  rintro count D₂ ⟨D₁, ptrs, direct, indirect, ht, rfl, rfl, hptrs, hlaid⟩
  refine ⟨ptrs, rfl, ?_, ?_, ?_, ?_, ht.only.core, ht.only.total, ?_, ?_, hptrs, ht.heads⟩
  · refine (ht.space.perm ?_).congr rfl rfl
    rw [Owned.runs_eq, ← List.append_assoc]
    exact List.Perm.append_right _ List.perm_append_comm
  · rw [Disk.setIno_at]
    exact (hlaid _ rfl rfl hsize hcount).congr fun _ _ => rfl
  · rw [Disk.setIno_at, ← ht.only.ino]
    rfl
  · intro m hm
    rw [Disk.setIno_ino, Function.update_of_ne hm, ht.only.ino]
  · exact fun a ha => ht.keeps (covered_append.mpr (.inr ha))
  · refine (Disk.body_of_data (Disk.setIno_data _ _ _) _ _).trans ?_
    exact Disk.body_congr hcov hl fun a ha => ht.keeps (covered_append.mpr (.inl ha))

theorem recordSize_hoare (g : ufs.sb.Geometry) {n : ℕ} (hn : n < ufs.sb.inodes) {D D' : Disk}
    {size : ℕ} {o : Owned} {others : List Run} {E : Fault → Bytes → Prop}
    (h : Linked ufs.sb D D' n size o others) (hsize : size < 2 ^ 63) :
    (writeSizeAndBlocks ufs n size (ufs.sb.allocationByteSizes size) o.ptrs.length).hoare ufs.Holds
      D' (fun _ D'' => Replaced ufs.sb D D'' n o others ∧ (D''.ino n).size = size ∧
        (D''.ino n).core = (D.ino n).core ∧
        D''.contents ufs.sb (D''.ino n) o = D.body ufs.sb o.data size) E := by
  refine writeSizeAndBlocks_hoare g hn hsize h.space h.laid
    ⟨⟨?_, ?_, ?_, ?_, ?_, ?_, ?_⟩, ?_, ?_, ?_⟩
  · rw [Disk.setIno_at]
    exact h.space.congr rfl rfl
  · rw [Disk.setIno_at]
    exact { (h.laid.congr fun _ _ => rfl : Laid ufs.sb _ _ o.data o.ptrs) with }
  · rw [Disk.setIno_at]
    rfl
  · intro m hm
    rw [Disk.setIno_ino, Function.update_of_ne hm]
    exact h.inodes m hm
  · exact h.core
  · exact h.total
  · exact h.keeps
  · rw [Disk.setIno_at]
  · rw [Disk.setIno_at]
    exact h.inode
  · rw [Disk.setIno_at]
    exact (Disk.body_of_data (Disk.setIno_data _ _ _) _ _).trans h.body

/-- Allocations and data writes before a replacement, outside the others' runs. -/
theorem Replaced.of_spaceOnly {sb : Superblock} {D D₁ D' : Disk} {n : ℕ} {o : Owned}
    {others touched : List Run} (h : Replaced sb D₁ D' n o others) (ho : SpaceOnly D D₁ touched)
    (hap : ∀ f, Covered others f → ¬Covered touched f) : Replaced sb D D' n o others where
  space := h.space
  laid := h.laid
  blocks := h.blocks
  inodes m hm := by rw [h.inodes m hm, ho.ino]
  core c := (h.core c).trans (ho.core c)
  total := h.total.trans ho.total
  keeps a ha := (h.keeps a ha).trans (ho.data a (hap _ ha))

/-- What was just taken is apart from the others' runs. -/
theorem Took.apart_others {sb : Superblock} {D D' : Disk} {runs new : List Run}
    (h : Took sb D D' runs new) : ∀ f, Covered runs f → ¬Covered new f := by
  rintro f ⟨r, hr, hm⟩ ⟨r', hr', hm'⟩
  exact (List.pairwise_append.mp h.space.apart).2.2 r' hr' r hr f hm' hm

theorem setInodeContents_hoare (g : ufs.sb.Geometry) (hfill : ufs.sb.PointersFill) {n : ℕ}
    (hn : n < ufs.sb.inodes) {D : Disk}
    {o : Owned} {others : List Run} (hs : Space ufs.sb D (o.runs ufs.sb (D.ino n) ++ others))
    (hl : Laid ufs.sb D (D.ino n) o.data o.ptrs) {new : Bytes} (hnew : new.length < 2 ^ 63) :
    (setInodeContents ufs n new).hoare ufs.Holds D
      (fun _ D' => ∃ o', Replaced ufs.sb D D' n o' others ∧ (D'.ino n).size = new.length ∧
        (D'.ino n).core = (D.ino n).core ∧ D'.contents ufs.sb (D'.ino n) o' = new ∧
        (o'.runs ufs.sb (D'.ino n)).length = ufs.sb.blocksNeeded new.length ∧
        Heads ufs.sb (o'.runs ufs.sb (D'.ino n)))
      (fun e image => ∃ D₁, Space ufs.sb D₁ others ∧ SpaceOnly D D₁ [] ∧
        OutOfSpace ufs D₁ others (ufs.sb.blocksNeeded new.length) e image) := by
  have hrun : ∀ r ∈ o.runs ufs.sb (D.ino n), ufs.sb.IsRun r.1 r.2 := fun r hr =>
    hs.isRun r (List.mem_append_left _ hr)
  have hcov := Superblock.allocationByteSizes_covers g hnew
  have hsl := Superblock.allocationByteSizes_length g hnew
  rw [setInodeContents]
  refine Act.hoare_read_bind (a := some (D.ino n).toInode) (fun s h => by rw [h.readInode hn]) ?_
  dsimp only
  refine Act.hoare_read_bind (fun s h => hl.inodeDataBlocks h (Owned.ptrs_isRun hrun)) ?_
  refine Act.hoare_read_bind (fun s h => hl.inodePointerBlocks h (Owned.ptrs_isRun hrun)) ?_
  refine (freeOwned_hoare g (hl.sizes_length g) hs).bind ?_
  rintro - D₁ ⟨hs₁, ho₁⟩
  -- from here on a failure leaves the freed state plus what was taken so far
  have hfail : ∀ {need : ℕ} {e : Fault} {image : Bytes}, OutOfSpace ufs D₁ others need e image →
      need ≤ ufs.sb.blocksNeeded new.length → ∃ D₁, Space ufs.sb D₁ others ∧ SpaceOnly D D₁ [] ∧
        OutOfSpace ufs D₁ others (ufs.sb.blocksNeeded new.length) e image := fun h hle =>
    ⟨D₁, hs₁, ho₁, h.after (Took.refl hs₁) (by simpa using hle)⟩
  refine ((allocateData_hoare g hs₁ hcov.allocSize).mono (fun _ _ h => h) fun e image he =>
    hfail he ?_).bind ?_
  · rw [hsl, Superblock.blocksNeeded]
    omega
  rintro blocks D₂ ⟨hbl, ht₂⟩
  refine (writeChunks_hoare g hcov hbl (fun r hr => ht₂.isRun hr)
    (List.pairwise_append.mp ht₂.space.apart).1).bind ?_
  rintro - D₃ ⟨hd₃, hbody⟩
  have ht₃ := ht₂.fill hd₃
  refine ((linkBlocks_hoare g hfill hn hnew hbl ht₃.space).mono (fun _ _ h => h)
    fun e image he => hfail (OutOfSpace.after ht₃ he le_rfl) ?_).bind ?_
  · rw [dataRuns_length hbl, hbl.trans hsl, Superblock.blocksNeeded]
  rintro count D₄ ⟨ptrs, rfl, hlink⟩
  refine (recordSize_hoare g hn hlink hnew).post ?_
  rintro - D₅ ⟨hrep, hsize, hcore, hcont⟩
  have hino : D₃.ino = D.ino := ht₃.only.ino.trans ho₁.ino
  refine ⟨⟨blocks, ptrs⟩, ?_, hsize, by rw [hcore, hino], hcont.trans hbody, ?_, ?_⟩
  · exact (hrep.of_spaceOnly ht₃.only ht₃.apart_others).of_spaceOnly ho₁ fun _ _ => not_covered_nil
  · rw [Owned.runs_length (by rw [hsize]; exact hbl), hlink.count]
    dsimp only
    rw [hbl, hsl, Superblock.blocksNeeded]
  · rw [Owned.runs_eq, hsize]
    exact ht₂.heads.append hlink.heads

end Set
end UfsFuse
