import UfsFuse.Formatted

/-!
# Files with holes

The pointers of an inode in logical order, a zero for a hole: the direct pointers, then the leaves of
the three pointer trees, where a zero in a pointer block stands for a whole tree of holes. The block
list of `inode_data_blocks` is that sequence without its zeros, so a block behind a hole is taken for
an earlier one.
-/
namespace UfsFuse

/-! ## Pointers in logical order -/

/-- The pointers that a pointer block holds. -/
def blockPointers (image : Bytes) (ufs : Ufs) (fsBlock : ℕ) : List ℕ :=
  (List.range ufs.sb.nindir).map fun i =>
    image.u32 (ufs.sb.dataBlockOffset ufs.startOffset fsBlock + i * 4)

/-- The pointers to data below `root`, holes included. -/
def leafPointers (image : Bytes) (ufs : Ufs) : ℕ → ℕ → List ℕ
  | 0, p => [p]
  | levels + 1, root =>
      if root = 0 then List.replicate (ufs.sb.nindir ^ (levels + 1)) 0
      else (blockPointers image ufs root).flatMap (leafPointers image ufs levels)

/-- The pointer blocks of a tree. -/
def treePointerBlocks (image : Bytes) (ufs : Ufs) : ℕ → ℕ → List ℕ
  | 0, _ => []
  | levels + 1, root =>
      if root = 0 then []
      else root :: (blockPointers image ufs root).flatMap (treePointerBlocks image ufs levels)

/-- The pointers of an inode in logical order, holes included. -/
def logicalPointers (image : Bytes) (ufs : Ufs) (inode : Inode) : List ℕ :=
  inode.directBlocks ++
    inode.indirectBlocks.zipIdx.flatMap fun root => leafPointers image ufs (root.2 + 1) root.1

/-- The pointers below the size. -/
def filePointers (image : Bytes) (ufs : Ufs) (inode : Inode) : List ℕ :=
  (logicalPointers image ufs inode).take (ufs.sb.blocksFor inode.size)

/-- The pointer blocks of an inode. -/
def pointerBlocks (image : Bytes) (ufs : Ufs) (inode : Inode) : List ℕ :=
  inode.indirectBlocks.zipIdx.flatMap fun root => treePointerBlocks image ufs (root.2 + 1) root.1

/-- The pointers that are not holes. -/
def stored (pointers : List ℕ) : List ℕ := pointers.filter (· ≠ 0)

theorem stored_append (l l' : List ℕ) : stored (l ++ l') = stored l ++ stored l' :=
  List.filter_append ..

theorem stored_flatMap {α : Type} (f : α → List ℕ) (l : List α) :
    stored (l.flatMap f) = l.flatMap fun a => stored (f a) := by
  induction l with
  | nil => rfl
  | cons a l ih => rw [List.flatMap_cons, List.flatMap_cons, stored_append, ih]

theorem stored_zeros (n : ℕ) : stored (List.replicate n 0) = [] := by
  simp [stored]

/-- The stored pointers below a hole. -/
theorem stored_leafPointers_zero (image : Bytes) (ufs : Ufs) (levels : ℕ) :
    stored (leafPointers image ufs levels 0) = [] := by
  cases levels with
  | zero => rfl
  | succ levels =>
    rw [leafPointers, if_pos rfl]
    exact stored_zeros _

/-! ## What the collectors return -/
section Collect
variable {image : Bytes} {ufs : Ufs}

/-- A pointer block can be read. -/
def BlockReadable (image : Bytes) (ufs : Ufs) (p : ℕ) : Prop :=
  ufs.sb.dataBlockOffset ufs.startOffset p + ufs.sb.bsize ≤ image.length ∧
    ufs.sb.nindir * 4 ≤ ufs.sb.bsize

theorem BlockReadable.read {p : ℕ} (h : BlockReadable image ufs p) :
    readPointerBlock image ufs p = .ok (blockPointers image ufs p) := by
  obtain ⟨hin, hn⟩ := h
  unfold readPointerBlock getSlice
  dsimp only
  rw [Outcome.guard_true hin, Outcome.ok_bind]
  simp only [Outcome.pure_def, Outcome.ok_bind, Bytes.slice_length hin]
  rw [Outcome.guard_true hn, Outcome.ok_bind]
  refine congrArg Outcome.ok (List.map_congr_left fun i hi => ?_)
  have hi := List.mem_range.mp hi
  exact Bytes.u32_slice (by omega)

/-- The pointer loop gathers what its children return, up to the limit. -/
theorem collectDataLoop_stored {child : ℕ → Option ℕ → Outcome Fault (List ℕ)} {f : ℕ → List ℕ}
    {max : ℕ} (hzero : f 0 = []) {pointers : List ℕ}
    (hchild : ∀ p ∈ pointers, p ≠ 0 → ∀ m, 0 < m → child p (some m) = .ok ((f p).take m)) :
    ∀ {blocks : List ℕ}, blocks.length < max →
      collectDataLoop child (some max) pointers blocks =
        .ok ((blocks ++ pointers.flatMap f).take max) := by
  induction pointers with
  | nil =>
    intro blocks hlt
    rw [collectDataLoop, List.flatMap_nil, List.append_nil, List.take_of_length_le hlt.le]
  | cons p pointers ih =>
    intro blocks hlt
    have ih' := @ih fun q hq => hchild q (by simp [hq])
    rw [collectDataLoop, List.flatMap_cons]
    by_cases hp : p = 0
    · rw [if_pos hp, ih' hlt, hp, hzero, List.nil_append]
    · rw [if_neg hp, Option.map_some, hchild p (by simp) hp _ (by omega), Outcome.ok_bind]
      have htake : blocks ++ (f p).take (max - blocks.length) = (blocks ++ f p).take max := by
        rw [List.take_append, List.take_of_length_le hlt.le]
      dsimp only
      rw [htake, ← List.append_assoc]
      by_cases hfull : max ≤ (blocks ++ f p).length
      · rw [if_pos (by rw [List.length_take]; omega), List.take_take, min_self,
          List.take_append_of_le_length hfull]
        rfl
      · rw [List.take_of_length_le (by omega), if_neg hfull, ih' (by omega)]

/-- One level of a readable tree. -/
theorem collectTree_stored {levels root max : ℕ}
    (hread : ∀ p ∈ treePointerBlocks image ufs (levels + 1) root, BlockReadable image ufs p)
    (hchild : ∀ p, 0 < root ∧ p ∈ blockPointers image ufs root → p ≠ 0 → ∀ m, 0 < m →
      (if levels = 0 then .ok [p] else collectIndirectDataBlocks image ufs levels p (some m)) =
        .ok ((stored (leafPointers image ufs levels p)).take m)) :
    collectIndirectDataBlocks image ufs (levels + 1) root (some max) =
      .ok ((stored (leafPointers image ufs (levels + 1) root)).take max) := by
  rw [collectIndirectDataBlocks]
  by_cases hroot : root = 0
  · rw [if_pos (.inl hroot), hroot, stored_leafPointers_zero, List.take_nil]
  · by_cases hmax : max = 0
    · rw [if_pos (.inr (by rw [hmax])), hmax, List.take_zero]
    · have hpos := Nat.pos_of_ne_zero hroot
      rw [treePointerBlocks, if_neg hroot] at hread
      rw [if_neg (by simp [hroot, hmax]), (hread root (by simp)).read, Outcome.ok_bind,
        leafPointers, if_neg hroot, stored_flatMap]
      exact collectDataLoop_stored (stored_leafPointers_zero image ufs _)
        (fun p hp => hchild p ⟨hpos, hp⟩) (by simpa using Nat.pos_of_ne_zero hmax)

/-- Below a readable tree the collector finds the stored pointers, up to its limit. -/
theorem collectIndirectDataBlocks_stored : ∀ {levels root max : ℕ},
    (∀ p ∈ treePointerBlocks image ufs (levels + 1) root, BlockReadable image ufs p) →
    collectIndirectDataBlocks image ufs (levels + 1) root (some max) =
      .ok ((stored (leafPointers image ufs (levels + 1) root)).take max) := by
  intro levels
  induction levels with
  | zero =>
    intro root max hread
    refine collectTree_stored hread ?_
    intro p _ hp m hm
    rw [if_pos rfl, leafPointers, stored, List.filter_cons_of_pos (by simpa using hp),
      List.filter_nil, List.take_of_length_le (by rw [List.length_singleton]; exact hm)]
  | succ levels ih =>
    intro root max hread
    refine collectTree_stored hread ?_
    intro p hp _ m _
    rw [if_neg (Nat.succ_ne_zero levels)]
    refine ih fun q hq => hread q ?_
    have hroot : root ≠ 0 := by
      rintro rfl
      exact absurd hp.1 (lt_irrefl 0)
    rw [treePointerBlocks, if_neg hroot]
    exact List.mem_cons_of_mem _ (List.mem_flatMap.mpr ⟨p, hp.2, hq⟩)

/-- The direct loop stops at the pointer that completes the file. -/
theorem directDataLoop_stored {needed : ℕ} : ∀ {pointers blocks : List ℕ}, blocks.length < needed →
    directDataLoop needed pointers blocks =
      ((blocks ++ stored pointers).take needed,
        decide (needed ≤ (blocks ++ stored pointers).length)) := by
  intro pointers
  induction pointers with
  | nil =>
    intro blocks hlt
    have hnil : stored [] = [] := rfl
    rw [directDataLoop, hnil, List.append_nil, List.take_of_length_le hlt.le,
      decide_eq_false (by omega)]
  | cons p pointers ih =>
    intro blocks hlt
    rw [directDataLoop]
    by_cases hp : p = 0
    · have hskip : stored (p :: pointers) = stored pointers :=
        List.filter_cons_of_neg (by simpa using hp)
      rw [if_pos hp, ih hlt, hskip]
    · have hkeep : blocks ++ stored (p :: pointers) = blocks ++ [p] ++ stored pointers := by
        rw [stored, List.filter_cons_of_pos (by simpa using hp), List.append_assoc]
        rfl
      rw [if_neg hp, hkeep]
      dsimp only
      by_cases hfull : needed ≤ (blocks ++ [p]).length
      · rw [if_pos hfull, List.take_append_of_le_length hfull, decide_eq_true]
        rw [List.length_append]
        omega
      · rw [if_neg hfull, ih (by omega)]

/-- The indirect loop goes on with the leaves of the trees. -/
theorem indirectDataLoop_stored {needed : ℕ} : ∀ {roots : List (ℕ × ℕ)} {blocks : List ℕ},
    (∀ root ∈ roots, ∀ p ∈ treePointerBlocks image ufs (root.2 + 1) root.1,
      BlockReadable image ufs p) → blocks.length ≤ needed →
    indirectDataLoop image ufs needed roots blocks =
      .ok ((blocks ++ stored (roots.flatMap fun root =>
        leafPointers image ufs (root.2 + 1) root.1)).take needed) := by
  intro roots
  induction roots with
  | nil =>
    intro blocks _ _
    have hnil : stored [] = [] := rfl
    rw [indirectDataLoop, List.flatMap_nil, hnil, List.append_nil]
  | cons root roots ih =>
    intro blocks hread hle
    obtain ⟨rootBlock, levelIndex⟩ := root
    rw [indirectDataLoop, collectIndirectDataBlocks_stored (hread (rootBlock, levelIndex) (by simp)),
      Outcome.ok_bind, List.flatMap_cons, stored_append]
    generalize stored (leafPointers image ufs (levelIndex + 1) rootBlock) = found
    have htake : blocks ++ found.take (needed - blocks.length) = (blocks ++ found).take needed := by
      rw [List.take_append, List.take_of_length_le hle]
    dsimp only
    rw [htake, ← List.append_assoc]
    by_cases hfull : needed ≤ (blocks ++ found).length
    · rw [if_pos (by rw [List.length_take]; omega), List.take_take, min_self,
        List.take_append_of_le_length hfull]
      rfl
    · rw [List.take_of_length_le (by omega), if_neg hfull,
        ih (fun root hroot => hread root (by simp [hroot])) (by omega)]

/-- The block list of an inode is the sequence of its pointers without the holes. -/
theorem inodeDataBlocks_stored {inode : Inode}
    (hread : ∀ p ∈ pointerBlocks image ufs inode, BlockReadable image ufs p) :
    inodeDataBlocks image ufs inode =
      .ok ((stored (logicalPointers image ufs inode)).take (ufs.sb.blocksFor inode.size)) := by
  have htrees : ∀ root ∈ inode.indirectBlocks.zipIdx,
      ∀ p ∈ treePointerBlocks image ufs (root.2 + 1) root.1, BlockReadable image ufs p :=
    fun root hroot p hp => hread p (List.mem_flatMap.mpr ⟨root, hroot, hp⟩)
  unfold inodeDataBlocks
  dsimp only
  have hneeded : (if inode.size = 0 then 0 else (inode.size + ufs.sb.bsize - 1) / ufs.sb.bsize) =
      ufs.sb.blocksFor inode.size := rfl
  rw [hneeded, logicalPointers, stored_append]
  generalize ufs.sb.blocksFor inode.size = needed
  rcases Nat.eq_zero_or_pos needed with rfl | hpos
  · -- nothing is needed
    have hnone := directDataLoop_zero inode.directBlocks
    rcases hloop : directDataLoop 0 inode.directBlocks [] with ⟨blocks, done⟩
    rw [hloop] at hnone
    obtain rfl : blocks = [] := hnone
    cases done with
    | true => rfl
    | false =>
      rw [List.take_zero]
      simp only [Bool.false_eq_true, if_false]
      rw [@indirectDataLoop_stored image ufs 0 _ [] htrees le_rfl, List.take_zero]
  · rw [directDataLoop_stored (by simpa using hpos), List.nil_append]
    dsimp only
    by_cases hfull : needed ≤ (stored inode.directBlocks).length
    · rw [if_pos (by simpa using hfull), List.take_append_of_le_length hfull]
    · rw [if_neg (by simpa using hfull), List.take_of_length_le (by omega),
        indirectDataLoop_stored htrees (by omega)]

/-- Following all children of a pointer block. -/
theorem collectPointerLoop_flatMap {child : ℕ → Outcome Fault (List ℕ)} {f : ℕ → List ℕ}
    (hzero : f 0 = []) {pointers : List ℕ} (hchild : ∀ p ∈ pointers, p ≠ 0 → child p = .ok (f p)) :
    ∀ {blocks : List ℕ}, Outcome.foldM
      (fun blocks p =>
        if p = 0 then .ok blocks
        else do
          let found ← child p
          pure (blocks ++ found)) blocks pointers = .ok (blocks ++ pointers.flatMap f) := by
  induction pointers with
  | nil =>
    intro blocks
    rw [List.flatMap_nil, List.append_nil]
    rfl
  | cons p pointers ih =>
    intro blocks
    have ih' := @ih fun q hq => hchild q (by simp [hq])
    rw [Outcome.foldM, List.flatMap_cons]
    by_cases hp : p = 0
    · rw [if_pos hp, Outcome.ok_bind, ih', hp, hzero, List.nil_append]
    · rw [if_neg hp, hchild p (by simp) hp, Outcome.ok_bind, ← List.append_assoc]
      exact ih'

theorem collectIndirectPointerBlocks_eq : ∀ {levels root : ℕ},
    (∀ p ∈ treePointerBlocks image ufs levels root, BlockReadable image ufs p) →
    collectIndirectPointerBlocks image ufs levels root =
      .ok (treePointerBlocks image ufs levels root) := by
  intro levels
  induction levels with
  | zero => exact fun _ => rfl
  | succ levels ih =>
    intro root hread
    rw [collectIndirectPointerBlocks, treePointerBlocks]
    by_cases hroot : root = 0
    · rw [if_pos hroot, if_pos hroot]
    · rw [treePointerBlocks, if_neg hroot] at hread
      rw [if_neg hroot, if_neg hroot]
      by_cases hlast : levels = 0
      · rw [if_pos hlast, hlast]
        have hnone : (blockPointers image ufs root).flatMap (treePointerBlocks image ufs 0) = [] :=
          List.flatMap_eq_nil_iff.mpr fun _ _ => rfl
        rw [hnone]
      · rw [if_neg hlast, (hread root (by simp)).read, Outcome.ok_bind]
        refine collectPointerLoop_flatMap ?_ fun p hp _ => ih fun q hq => hread q ?_
        · cases levels with
          | zero => rfl
          | succ levels => rw [treePointerBlocks, if_pos rfl]
        · exact List.mem_cons_of_mem _ (List.mem_flatMap.mpr ⟨p, hp, hq⟩)

theorem inodePointerBlocks_eq {inode : Inode}
    (hread : ∀ p ∈ pointerBlocks image ufs inode, BlockReadable image ufs p) :
    inodePointerBlocks image ufs inode = .ok (pointerBlocks image ufs inode) := by
  have htrees : ∀ root ∈ inode.indirectBlocks.zipIdx,
      ∀ p ∈ treePointerBlocks image ufs (root.2 + 1) root.1, BlockReadable image ufs p :=
    fun root hroot p hp => hread p (List.mem_flatMap.mpr ⟨root, hroot, hp⟩)
  unfold inodePointerBlocks pointerBlocks
  generalize inode.indirectBlocks.zipIdx = roots at htrees
  suffices h : ∀ blocks : List ℕ, Outcome.foldM
      (fun blocks root => do
        let found ← collectIndirectPointerBlocks image ufs (root.2 + 1) root.1
        pure (blocks ++ found)) blocks roots =
      .ok (blocks ++ roots.flatMap fun root => treePointerBlocks image ufs (root.2 + 1) root.1)
    from h []
  induction roots with
  | nil =>
    intro blocks
    rw [List.flatMap_nil, List.append_nil]
    rfl
  | cons root roots ih =>
    intro blocks
    rw [Outcome.foldM, collectIndirectPointerBlocks_eq (htrees root (by simp)), Outcome.ok_bind,
      List.flatMap_cons, ← List.append_assoc]
    exact ih (fun root' hroot => htrees root' (by simp [hroot])) _

end Collect

/-! ## The layout of a file -/

/-- The bytes of a file in logical order: the stored blocks, and zeros at the holes. -/
def logicalBytes (image : Bytes) (ufs : Ufs) : List ℕ → ℕ → Bytes
  | [], _ => []
  | p :: ps, size =>
      (if p = 0 then Bytes.zeros (min ufs.sb.bsize size)
        else image.slice (ufs.sb.dataBlockOffset ufs.startOffset p) (min ufs.sb.bsize size)) ++
        logicalBytes image ufs ps (size - ufs.sb.bsize)

/-- The allocations of an inode with their bytes: the blocks below its size that are not holes, and
the pointer blocks. -/
def ownedAllocations (image : Bytes) (ufs : Ufs) (inode : Inode) : List (ℕ × ℕ) :=
  ((logicalPointers image ufs inode).zip (ufs.sb.allocationByteSizes inode.size)).filter
      (·.1 ≠ 0) ++
    (pointerBlocks image ufs inode).map (·, ufs.sb.bsize)

/-- What `set_inode_contents` does once the old allocations are free. -/
def refillContents (ufs : Ufs) (n : ℕ) (newData : Bytes) : Write Unit := do
  let sizes := ufs.sb.allocationByteSizes newData.length
  let newBlocks ← Act.collect (allocateAllocation ufs n) sizes
  writeChunks ufs (newBlocks.zip sizes) newData
  let newPointerBlockCount ← buildInodePointerStructure ufs n newBlocks
  writeSizeAndBlocks ufs n newData.length sizes newPointerBlockCount

/-- Inode `n` keeps its layout: it reads as `size` bytes with every block and every hole in its place,
and a replacement frees its allocations, each once, before it allocates. -/
structure LayoutKept (image : Bytes) (ufs : Ufs) (n : ℕ) (inode : Inode) : Prop where
  read : ∃ bytes, readInodeBytes image ufs inode = .ok bytes ∧ bytes.length = inode.size ∧
    bytes = logicalBytes image ufs (filePointers image ufs inode) inode.size
  frees : ∃ freed, freed.Perm (ownedAllocations image ufs inode) ∧
    ∀ newData, setInodeContents ufs n newData image = (do
      Act.each (fun (run : ℕ × ℕ) => freeAllocation ufs run.1 run.2) freed
      refillContents ufs n newData) image

/-- The pointers that are not holes are valid: pointer blocks and data allocations are runs of data
areas, and no data lies behind the end of the file. -/
structure ValidPointers (image : Bytes) (ufs : Ufs) (inode : Inode) : Prop where
  blocks : ∀ p ∈ pointerBlocks image ufs inode, ufs.sb.IsRun p ufs.sb.frag
  data : ∀ k p : ℕ, (logicalPointers image ufs inode)[k]? = some p → p ≠ 0 →
    ∃ bytes : ℕ, (ufs.sb.allocationByteSizes inode.size)[k]? = some bytes ∧ ufs.sb.IsRun p (bytes / 512)

/-- No pointer below the size is zero. -/
def NoHole (image : Bytes) (ufs : Ufs) (inode : Inode) : Prop :=
  ∀ k < ufs.sb.blocksFor inode.size, (logicalPointers image ufs inode).getD k 0 ≠ 0

section Layout
variable {ufs : Ufs} {image : Bytes} {inode : Inode} {n : ℕ}

theorem blocksFor_pred_lt {sb : Superblock} {size : ℕ} (hpos : 0 < sb.blocksFor size) :
    (sb.blocksFor size - 1) * sb.bsize < size := by
  unfold Superblock.blocksFor at hpos ⊢
  split_ifs at hpos ⊢ with hz
  · omega
  · have hdm := Nat.div_mul_le_self (size + sb.bsize - 1) sb.bsize
    rw [Nat.sub_mul, Nat.one_mul]
    rcases Nat.eq_zero_or_pos sb.bsize with hb | hb
    · rw [hb, Nat.mul_zero, Nat.zero_sub]
      omega
    · omega

/-- Each block adds at most one block of bytes. -/
theorem readDataRange_length_le {blocks : List ℕ} {size : ℕ} {bytes : Bytes}
    (h : readDataRange image ufs blocks 0 size = .ok bytes) :
    bytes.length ≤ blocks.length * ufs.sb.bsize := by
  have hfold : ∀ {entries : List (ℕ × ℕ)} {acc bytes : Bytes},
      Outcome.foldM (readRangeStep image ufs 0 (0 + size)) acc entries = .ok bytes →
      bytes.length ≤ acc.length + entries.length * ufs.sb.bsize := by
    intro entries
    induction entries with
    | nil =>
      intro acc bytes h
      rw [← Outcome.ok.inj h]
      omega
    | cons entry entries ih =>
      intro acc bytes h
      obtain ⟨acc', hstep, h⟩ := Outcome.bind_eq_ok.mp h
      have hrest := ih h
      have hgrow : acc'.length ≤ acc.length + ufs.sb.bsize := by
        unfold readRangeStep at hstep
        dsimp only at hstep
        split_ifs at hstep with hempty
        · rw [← Outcome.ok.inj hstep]
          omega
        · obtain ⟨part, hslice, hpure⟩ := Outcome.bind_eq_ok.mp hstep
          obtain ⟨_, -, hpart⟩ := Outcome.bind_eq_ok.mp hslice
          rw [← Outcome.ok.inj hpure, ← Outcome.ok.inj hpart, List.length_append]
          have hle := Bytes.slice_length_le image (ufs.sb.dataBlockOffset ufs.startOffset entry.1 +
            (0 - entry.2 * ufs.sb.bsize)) (min ufs.sb.bsize (0 + size - entry.2 * ufs.sb.bsize) -
              (0 - entry.2 * ufs.sb.bsize))
          omega
      rw [List.length_cons, Nat.add_mul, Nat.one_mul]
      omega
  unfold readDataRange at h
  split_ifs at h with hz
  · rw [← Outcome.ok.inj h]
    exact Nat.zero_le _
  · have hle := hfold h
    have hcount : ((blocks.zipIdx.take (min blocks.length
        ((0 + size + ufs.sb.bsize - 1) / ufs.sb.bsize))).drop (0 / ufs.sb.bsize)).length ≤
        blocks.length := by
      rw [List.length_drop, List.length_take, List.length_zipIdx]
      exact (Nat.sub_le _ _).trans ((min_le_right _ _))
    have hmul := Nat.mul_le_mul_right ufs.sb.bsize hcount
    simp only [List.length_nil, Nat.zero_add] at hle hmul
    exact hle.trans hmul

/-- A hole leaves fewer blocks than the size needs. -/
theorem stored_length_lt (g : ufs.sb.Geometry) (hv : ValidPointers image ufs inode) {k : ℕ}
    (hk : k < ufs.sb.blocksFor inode.size)
    (hhole : (logicalPointers image ufs inode).getD k 0 = 0) :
    (stored (logicalPointers image ufs inode)).length < ufs.sb.blocksFor inode.size := by
  have hdata := hv.data
  generalize logicalPointers image ufs inode = pointers at hhole hdata
  generalize hneeded : ufs.sb.blocksFor inode.size = needed at hk
  have hsizes : (ufs.sb.allocationByteSizes inode.size).length ≤ needed := by
    rcases Nat.lt_or_ge inode.size (2 ^ 63) with hlt | hge
    · rw [Superblock.allocationByteSizes_length g hlt, hneeded]
    · rw [Superblock.allocationByteSizes, if_pos (.inr hge)]
      exact Nat.zero_le _
  -- nothing is stored behind the size
  have hbehind : stored (pointers.drop needed) = [] := by
    refine List.filter_eq_nil_iff.mpr fun p hp => ?_
    obtain ⟨i, hi, rfl⟩ := List.mem_iff_getElem.mp hp
    rw [List.getElem_drop]
    intro hne
    obtain ⟨bytes, hbytes, -⟩ := hdata (needed + i) _ (List.getElem?_eq_getElem _)
      (by simpa using hne)
    have hlt := (List.getElem?_eq_some_iff.mp hbytes).1
    omega
  rw [← List.take_append_drop needed pointers, stored_append, hbehind, List.append_nil]
  have hle : (pointers.take needed).length ≤ needed := by
    rw [List.length_take]
    exact min_le_left _ _
  rcases Nat.lt_or_ge k pointers.length with hin | hout
  · rw [List.getD_eq_getElem _ _ hin] at hhole
    refine lt_of_lt_of_le ?_ hle
    refine List.length_filter_lt_length_iff_exists.mpr ⟨pointers[k], ?_, by simpa using hhole⟩
    exact List.mem_take_iff_getElem.mpr ⟨k, by omega, rfl⟩
  · refine lt_of_le_of_lt (List.length_filter_le ..) ?_
    rw [List.length_take]
    omega

/-- A file with a hole reads shorter than its size, if it can be read at all. -/
theorem hole_shortens (g : ufs.sb.Geometry) (hread : ∀ p ∈ pointerBlocks image ufs inode,
      BlockReadable image ufs p) (hv : ValidPointers image ufs inode) {k : ℕ}
    (hk : k < ufs.sb.blocksFor inode.size)
    (hhole : (logicalPointers image ufs inode).getD k 0 = 0) {bytes : Bytes}
    (h : readInodeBytes image ufs inode = .ok bytes) : bytes.length < inode.size := by
  have hpos : inode.size ≠ 0 := by
    intro hz
    rw [Superblock.blocksFor, if_pos hz] at hk
    omega
  unfold readInodeBytes at h
  rw [if_neg hpos, inodeDataBlocks_stored hread, Outcome.ok_bind] at h
  have hshort := stored_length_lt g hv hk hhole
  have hlt := @blocksFor_pred_lt ufs.sb inode.size (by omega)
  have hle := readDataRange_length_le h
  rw [List.take_of_length_le hshort.le] at hle
  have hmul := Nat.mul_le_mul_right ufs.sb.bsize (Nat.le_sub_one_of_lt hshort)
  omega

/-! ### Files without holes -/

theorem leafPointers_length (image : Bytes) (ufs : Ufs) : ∀ levels root : ℕ,
    (leafPointers image ufs levels root).length = ufs.sb.nindir ^ levels := by
  intro levels
  induction levels with
  | zero => exact fun _ => rfl
  | succ levels ih =>
    intro root
    rw [leafPointers]
    split_ifs
    · exact List.length_replicate
    · have hsum : ((blockPointers image ufs root).map fun p =>
          (leafPointers image ufs levels p).length).sum =
            (blockPointers image ufs root).length * ufs.sb.nindir ^ levels := by
        simp only [ih, List.map_const', List.sum_replicate, smul_eq_mul]
      rw [List.length_flatMap, hsum, blockPointers, List.length_map, List.length_range, pow_succ,
        Nat.mul_comm]

/-- The pointers of an inode reach less than `2 ^ 34` blocks. -/
theorem logicalPointers_length_lt (g : ufs.sb.Geometry)
    (hin : readInode image ufs n = some inode) :
    (logicalPointers image ufs inode).length < 2 ^ 34 := by
  have hn : ufs.sb.nindir ≤ 2048 := by
    have := g.nindir_le
    have := g.bsize_eq
    have := g.frag_le
    omega
  have hdecode : ∃ raw, inode = Inode.decode raw := by
    unfold readInode at hin
    dsimp only at hin
    split_ifs at hin
    exact ⟨_, (Option.some.inj hin).symm⟩
  obtain ⟨raw, rfl⟩ := hdecode
  have hsq : ufs.sb.nindir ^ 2 ≤ 2048 ^ 2 := Nat.pow_le_pow_left hn 2
  have hcube : ufs.sb.nindir ^ 3 ≤ 2048 ^ 3 := Nat.pow_le_pow_left hn 3
  have hlen : (logicalPointers image ufs (Inode.decode raw)).length =
      12 + (ufs.sb.nindir ^ 1 + (ufs.sb.nindir ^ 2 + ufs.sb.nindir ^ 3)) := by
    simp [logicalPointers, Inode.decode, List.range_succ, List.zipIdx, leafPointers_length]
    omega
  rw [hlen, pow_one]
  norm_num at hsq hcube ⊢
  omega

/-- Valid stored blocks are what the view has there. -/
theorem logicalBytes_eq_body {D : Disk} (h : ufs.Holds image D) {sizes : List ℕ} :
    ∀ {data : List ℕ} {size : ℕ}, ufs.sb.Covers sizes size → data.length = sizes.length →
    (∀ r ∈ dataRuns data sizes, ufs.sb.IsRun r.1 r.2) →
    logicalBytes image ufs data size = D.body ufs.sb data size := by
  have g := h.geom
  induction sizes with
  | nil =>
    intro data size _ hl _
    rw [List.eq_nil_of_length_eq_zero hl]
    rfl
  | cons s sizes ih =>
    intro data size hc hl hrun
    cases data with
    | nil => simp at hl
    | cons b data =>
      obtain ⟨hpos, hs, hle, hrest⟩ := hc
      have hrunb : ufs.sb.IsRun b (s / 512) := hrun _ (List.mem_cons_self ..)
      have hne : b ≠ 0 := (hrunb.pos g).ne'
      have hin : ufs.sb.InData (b * 512) s := hrunb.inData g (Nat.div_mul_cancel hs.2.2).ge
      have hbpos := g.bsize_pos
      have hslice := h.getSlice (hin.mono le_rfl (Nat.add_le_add_left hle _)) (by omega)
      obtain ⟨_, -, hbytes⟩ := Outcome.bind_eq_ok.mp hslice
      rw [logicalBytes, if_neg hne, Disk.body, g.dataBlockOffset_eq,
        ih hrest (by simpa using hl) fun r hr => hrun r (List.mem_cons_of_mem _ hr)]
      exact congrArg (· ++ _) (Outcome.ok.inj hbytes)

/-- Without holes the blocks of a file are its first pointers, and they hold its size. -/
theorem noHole_blocks (g : ufs.sb.Geometry) (hin : readInode image ufs n = some inode)
    (hv : ValidPointers image ufs inode) (hno : NoHole image ufs inode) :
    (stored (logicalPointers image ufs inode)).take (ufs.sb.blocksFor inode.size) =
        filePointers image ufs inode ∧
      inode.size < 2 ^ 63 ∧
      (filePointers image ufs inode).length = (ufs.sb.allocationByteSizes inode.size).length ∧
      ((logicalPointers image ufs inode).zip (ufs.sb.allocationByteSizes inode.size)).filter
        (·.1 ≠ 0) = (filePointers image ufs inode).zip (ufs.sb.allocationByteSizes inode.size) ∧
      ∀ r ∈ dataRuns (filePointers image ufs inode) (ufs.sb.allocationByteSizes inode.size),
        ufs.sb.IsRun r.1 r.2 := by
  have hlt := logicalPointers_length_lt g hin
  have hdata := hv.data
  unfold NoHole at hno
  unfold filePointers
  generalize logicalPointers image ufs inode = pointers at *
  generalize hneeded : ufs.sb.blocksFor inode.size = needed at *
  have hreach : needed ≤ pointers.length := by
    by_contra hshort
    exact hno pointers.length (by omega) (List.getD_eq_default _ _ le_rfl)
  have hlength : (pointers.take needed).length = needed := by
    rw [List.length_take]
    exact min_eq_left hreach
  have hsize : inode.size < 2 ^ 63 := by
    have hb : ufs.sb.bsize ≤ 8192 := by
      have := g.bsize_eq
      have := g.frag_le
      omega
    have hcover : inode.size ≤ needed * ufs.sb.bsize := by
      rw [← hneeded, Superblock.blocksFor]
      split_ifs with hz
      · omega
      · have hdm := Nat.div_add_mod' (inode.size + ufs.sb.bsize - 1) ufs.sb.bsize
        have hmod := Nat.mod_lt (inode.size + ufs.sb.bsize - 1) g.bsize_pos
        omega
    have hmul : needed * ufs.sb.bsize ≤ 2 ^ 34 * 8192 := Nat.mul_le_mul (by omega) hb
    norm_num at hmul ⊢
    omega
  have hsizes : (ufs.sb.allocationByteSizes inode.size).length = needed := by
    rw [Superblock.allocationByteSizes_length g hsize, hneeded]
  have hnz : ∀ p ∈ pointers.take needed, p ≠ 0 := by
    intro p hp
    obtain ⟨k, hk, rfl⟩ := List.mem_take_iff_getElem.mp hp
    have hne := hno k (by omega)
    rwa [List.getD_eq_getElem _ _ (by omega)] at hne
  have hzip : pointers.zip (ufs.sb.allocationByteSizes inode.size) =
      (pointers.take needed).zip (ufs.sb.allocationByteSizes inode.size) := by
    rw [List.zip_eq_zip_take_min, hsizes, min_eq_right hreach, ← hsizes, List.take_length]
  refine ⟨?_, hsize, hlength.trans hsizes.symm, ?_, ?_⟩
  · have hstored : stored (pointers.take needed) = pointers.take needed :=
      List.filter_eq_self.mpr fun p hp => by simpa using hnz p hp
    conv_lhs => rw [← List.take_append_drop needed pointers, stored_append, hstored]
    exact List.take_left' hlength
  · rw [hzip, List.filter_eq_self]
    intro r hr
    simpa using hnz r.1 (List.of_mem_zip hr).1
  · intro r hr
    obtain ⟨k, hk, rfl⟩ := List.mem_iff_getElem.mp hr
    have hkp : k < (pointers.take needed).length := List.lt_length_left_of_zip hk
    have hkn : k < needed := by omega
    simp only [dataRuns, List.getElem_zip, List.getElem_map, List.getElem_take]
    obtain ⟨bytes, hbytes, hrun⟩ := hdata k _ (List.getElem?_eq_getElem (by omega))
      (hnz _ (List.mem_take_iff_getElem.mpr ⟨k, by omega, rfl⟩))
    rw [List.getElem?_eq_getElem (by omega), Option.some.injEq] at hbytes
    rw [hbytes]
    exact hrun

/-! ### What a replacement frees -/

theorem each_append {α : Type} (f : α → Write Unit) (l l' : List α) :
    Act.each f (l ++ l') = (do Act.each f l; Act.each f l') := by
  induction l with
  | nil => rfl
  | cons a l ih =>
    funext s
    rw [List.cons_append, Act.each, ih, Act.each]
    change Act.bind _ _ s = Act.bind (Act.bind _ _) _ s
    unfold Act.bind
    rcases f a s with ⟨_ | _ | _, t⟩ <;> rfl

theorem each_map {α β : Type} (f : β → Write Unit) (g : α → β) (l : List α) :
    Act.each f (l.map g) = Act.each (fun a => f (g a)) l := by
  induction l with
  | nil => rfl
  | cons a l ih => rw [List.map_cons, Act.each, ih, Act.each]

theorem freeOwned_eq (ptrs : List ℕ) (data : List (ℕ × ℕ)) :
    freeOwned ufs ptrs data = Act.each (fun (run : ℕ × ℕ) => freeAllocation ufs run.1 run.2)
      (ptrs.reverse.map (·, ufs.sb.bsize) ++ data) := by
  rw [each_append, each_map]
  rfl

/-- The frees of a replacement, before anything is allocated. -/
theorem setInodeContents_frees (hin : readInode image ufs n = some inode)
    (hread : ∀ p ∈ pointerBlocks image ufs inode, BlockReadable image ufs p) (newData : Bytes) :
    setInodeContents ufs n newData image = (do
      Act.each (fun (run : ℕ × ℕ) => freeAllocation ufs run.1 run.2)
        ((pointerBlocks image ufs inode).reverse.map (·, ufs.sb.bsize) ++
          zipRev ((stored (logicalPointers image ufs inode)).take (ufs.sb.blocksFor inode.size))
            (ufs.sb.allocationByteSizes inode.size))
      refillContents ufs n newData) image := by
  unfold setInodeContents
  dsimp only
  refine (@Act.read_ok_bind _ _ _ _ image (fun image => .ok (readInode image ufs n)) _ _
    (congrArg Outcome.ok hin)).trans ?_
  refine (@Act.read_ok_bind _ _ _ _ image (fun image => inodeDataBlocks image ufs inode) _ _
    (inodeDataBlocks_stored hread)).trans ?_
  refine (@Act.read_ok_bind _ _ _ _ image (fun image => inodePointerBlocks image ufs inode) _ _
    (inodePointerBlocks_eq hread)).trans ?_
  rw [freeOwned_eq]
  rfl

/-- Without holes the layout is kept. -/
theorem LayoutKept.of_noHole {D : Disk} (h : ufs.Holds image D)
    (hin : readInode image ufs n = some inode) (hv : ValidPointers image ufs inode)
    (hread : ∀ p ∈ pointerBlocks image ufs inode, BlockReadable image ufs p)
    (hno : NoHole image ufs inode) : LayoutKept image ufs n inode := by
  have g := h.geom
  obtain ⟨hblocks, hsize, hlength, hzip, hrun⟩ := noHole_blocks g hin hv hno
  have hcovers := Superblock.allocationByteSizes_covers g hsize
  constructor
  · have hbody := logicalBytes_eq_body h hcovers hlength hrun
    have hbodyLength := Disk.body_length (D := D) hcovers hlength
    refine ⟨_, ?_, ?_, rfl⟩
    · unfold readInodeBytes
      split_ifs with hz
      · rw [hbody, List.eq_nil_of_length_eq_zero (hbodyLength.trans hz)]
      · rw [inodeDataBlocks_stored hread, Outcome.ok_bind, hblocks,
          h.readDataRange hcovers hlength hrun (Nat.zero_add _).le, hbody,
          Bytes.slice_zero_take, List.take_of_length_le hbodyLength.le]
    · rw [hbody]
      exact hbodyLength
  · refine ⟨_, ?_, fun newData => setInodeContents_frees hin hread newData⟩
    rw [ownedAllocations, hzip, hblocks, zipRev, List.zip_eq_zipWith, List.zip_eq_zipWith,
      ← List.reverse_zipWith hlength, List.map_reverse]
    exact List.perm_append_comm.trans ((List.reverse_perm _).append (List.reverse_perm _))

/-- A valid pointer block can be read. -/
theorem BlockReadable.of_isRun {p : ℕ} (hf : ufs.Fits image) (hp : ufs.sb.IsRun p ufs.sb.frag) :
    BlockReadable image ufs p := by
  have g := hf.geom
  have hinside := (hp.inData g le_rfl).inside g (by have := g.frag_pos; omega)
  have hbsize := g.bsize_eq
  have hend := hf.inside
  refine ⟨?_, g.nindir_le⟩
  rw [g.dataBlockOffset_eq]
  omega

end Layout

/-- Inode 3, a regular file of two blocks: a hole and the block at fragment 64. -/
def holedInode : Inode := ⟨ufsIfreg ||| 0o644, 1, 0, 0, 0, 0, 0, 8192, [0, 64, 0, 0, 0, 0, 0, 0, 0, 0, 0, 0],
  [0, 0, 0], 8⟩

def holedRaw : Bytes :=
  (((((Bytes.zeros 128).putU32 DiOff.mode (ufsIfreg ||| 0o644)).putU16 DiOff.nlink 1).putU64
    DiOff.size 8192).putU32 (DiOff.db + 4) 64).putU32 DiOff.blocks 8

/-- The slice of 64 KiB with that inode. -/
def withHole (image : Bytes) : Bytes := image.overlay 24960 holedRaw

theorem holedRaw_decode : holedRaw.length = 128 ∧ Inode.decode holedRaw = holedInode := by
  decide +kernel

theorem withHole_read {image : Bytes} (h : blankUfs.Fits image) :
    blankUfs.Fits (withHole image) ∧ readInode (withHole image) blankUfs 3 = some holedInode := by
  obtain ⟨hraw, hdecode⟩ := holedRaw_decode
  have hlength : 65536 ≤ image.length := h.inside
  have hin : 24960 + holedRaw.length ≤ image.length := by omega
  have hlen : (withHole image).length = image.length := Bytes.overlay_length hin
  have hoff : blankUfs.sb.inodeByteOffset blankUfs.startOffset 3 = 24960 := by decide +kernel
  refine ⟨h.of_length hlen, ?_⟩
  have hslice : (withHole image).slice 24960 ufsDinodeSize = holedRaw := by
    have hsame := Bytes.slice_overlay_same hin
    rw [hraw] at hsame
    exact hsame
  unfold readInode
  dsimp only
  rw [hoff, if_neg, hslice, hdecode]
  rw [hlen]
  simp only [ufsDinodeSize]
  exact not_or.mpr ⟨Nat.not_lt_zero _, by omega⟩

theorem holed_pointers (image : Bytes) (ufs : Ufs) :
    pointerBlocks image ufs holedInode = [] ∧
      ∀ k p : ℕ, (logicalPointers image ufs holedInode)[k]? = some p → p ≠ 0 → k = 1 ∧ p = 64 := by
  constructor
  · simp [pointerBlocks, holedInode, List.zipIdx, treePointerBlocks]
  · intro k p hk hp
    rw [logicalPointers, List.getElem?_append] at hk
    split_ifs at hk with hdirect
    · have hlt : k < 12 := hdirect
      interval_cases k <;> simp [holedInode] at hk <;> omega
    · obtain ⟨root, hroot, hmem⟩ := List.mem_flatMap.mp (List.mem_of_getElem? hk)
      have hzero : root.1 = 0 := by
        simp only [holedInode, List.zipIdx, List.mem_cons, List.not_mem_nil, or_false] at hroot
        rcases hroot with rfl | rfl | rfl <;> rfl
      rw [hzero, leafPointers, if_pos rfl] at hmem
      exact absurd (List.eq_of_mem_replicate hmem) hp

theorem holed_valid (image : Bytes) : ValidPointers image blankUfs holedInode := by
  obtain ⟨hblocks, hdata⟩ := holed_pointers image blankUfs
  constructor
  · rw [hblocks]
    simp
  · intro k p hk hp
    obtain ⟨rfl, rfl⟩ := hdata k p hk hp
    exact ⟨4096, by decide +kernel, by unfold Superblock.IsRun; decide +kernel⟩

theorem blankImage_fits : blankUfs.Fits blankImage := by
  obtain ⟨T, ⟨D, own, hi, -⟩, -⟩ := blankImage_formatted.fresh
  exact hi.1

end UfsFuse
