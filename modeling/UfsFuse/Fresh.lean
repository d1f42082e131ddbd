import UfsFuse.Names
import UfsFuse.Operations
import UfsFuse.Pristine

/-!
# The root directory of a fresh file system

Over pristine groups the formatter sets up the root, gives it one fragment and recounts. The counts
of the superblock are whatever the image held until then, so the ledger starts with the recount.
-/
namespace UfsFuse

variable {ufs : Ufs} {D : Disk} {E : Fault → Bytes → Prop}

/-- The first fragment of the first group is free for the root. -/
def Superblock.RootFits (sb : Superblock) : Prop := sb.dblkno + sb.frag ≤ sb.dsize

instance (sb : Superblock) : Decidable sb.RootFits := inferInstanceAs (Decidable (_ ≤ _))

theorem pristine_freeBlock {sb : Superblock} (g : sb.Geometry) (hroom : sb.RootFits)
    (hp : (D.cg 0).Pristine sb 0) : FreeBlock sb D 0 sb.dblkno := by
  have hin : sb.dblkno + sb.frag ≤ sb.groupFrags 0 := by
    have h1 := g.room
    unfold Superblock.RootFits at hroom
    unfold Superblock.groupFrags
    omega
  exact ⟨g.ncg_pos, le_rfl, g.dblkno_dvd, hin, fun o ho => (hp.free _).mpr (by omega)⟩

theorem Superblock.Geometry.root_group {sb : Superblock} (g : sb.Geometry) :
    ufsRootInode / sb.ipg = 0 := by
  have h1 := Nat.le_of_dvd g.ipg_pos g.inopb_dvd
  have h2 := g.inopb_eq
  have h3 := g.frag_pos
  exact Nat.div_eq_of_lt (by simp only [ufsRootInode]; omega)

theorem Superblock.Geometry.root_lt {sb : Superblock} (g : sb.Geometry) :
    ufsRootInode < sb.inodes := by
  have h1 := Nat.le_of_dvd g.ipg_pos g.inopb_dvd
  have h2 := g.inopb_eq
  have h3 := g.frag_pos
  have h4 : sb.ipg ≤ sb.inodes := Nat.le_mul_of_pos_left _ g.ncg_pos
  simp only [ufsRootInode]
  omega

theorem allocationByteSizes_fragment {sb : Superblock} (g : sb.Geometry) :
    sb.allocationByteSizes ufsDirblksiz = [512] := by
  have hb := g.bsize_eq
  have hf := g.frag_pos
  have hneed : (512 + sb.bsize - 1) / sb.bsize = 1 := by
    rw [Nat.div_eq_iff (by omega)]
    omega
  rw [Superblock.allocationByteSizes, if_neg (by decide)]
  simp only [ufsDirblksiz, hneed, Superblock.allocationByteSizesLoop]
  rw [if_neg (by decide), Nat.min_eq_right (by omega), if_neg (by simp only [ufsNdaddr]; omega),
    Superblock.fragroundup, g.fsize_eq]

/-- The fragment that the root gets, whatever the superblock counts. -/
theorem rootRun_hoare (g : ufs.sb.Geometry) (hroom : ufs.sb.RootFits)
    (hp : (D.cg 0).Pristine ufs.sb 0) :
    (allocateAllocation ufs ufsRootInode 512).hoare ufs.Holds D
      (fun f D' => FreeBlock ufs.sb D 0 f ∧ D' = D.takeRun ufs.sb 0 f 1 512) E := by
  have hb := g.bsize_eq
  have hf := g.frag_pos
  have hsome := pristine_freeBlock g hroom hp
  have hloop : (Act.firstSome (fun attempt => allocateRunIn ufs 1 512
      ((ufs.sb.itog ufsRootInode + attempt) % ufs.sb.ncg)) (List.range ufs.sb.ncg)).hoare ufs.Holds D
      (fun r D' => ∃ f, r = some f ∧ FreeBlock ufs.sb D 0 f ∧ D' = D.takeRun ufs.sb 0 f 1 512) E := by
    obtain ⟨m, hm⟩ : ∃ m, ufs.sb.ncg = m + 1 := ⟨ufs.sb.ncg - 1, by have := g.ncg_pos; omega⟩
    have hstart : (ufs.sb.itog ufsRootInode + 0) % ufs.sb.ncg = 0 := by
      rw [Superblock.itog, g.root_group, Nat.zero_add, Nat.zero_mod]
    rw [show List.range ufs.sb.ncg = 0 :: (List.range m).map Nat.succ by
      rw [hm, List.range_succ_eq_map], Act.firstSome, hstart]
    refine (takeRunIn_hoare g g.ncg_pos hp.magic hp.ndblk (by omega) (by omega)).bind ?_
    intro r D' hr
    cases r with
    | none => exact absurd hsome (hr.2 _)
    | some f =>
      obtain ⟨i, hi, rfl, rfl⟩ := hr
      rw [Nat.zero_mul, Nat.zero_add]
      exact Act.hoare_pure ⟨i, rfl, hi, rfl⟩
  rw [allocateAllocation, if_neg (by decide), if_neg (by omega), allocateFragments, g.fsize_eq,
    if_neg (by omega), allocateRun]
  refine hloop.bind ?_
  rintro r D' ⟨f, rfl, hfree, rfl⟩
  exact Act.hoare_pure ⟨hfree, rfl⟩

/-- Pointers to one direct block. -/
theorem rootPointers_hoare {n f : ℕ} (hn : n < ufs.sb.inodes)
    (hf : f < 2 ^ 32) :
    (buildInodePointerStructure ufs n [f]).hoare ufs.Holds D (fun count D' => count = 0 ∧
      D' = D.setIno n { D.ino n with
        directBlocks := f :: List.replicate 11 0
        indirectBlocks := [0, 0, 0] }) E := by
  have hroots : buildIndirectRoots ufs n [1, 2, 3] ([f].drop ufsNdaddr) = pure ([0, 0, 0], 0) := by
    have hnil : [f].drop ufsNdaddr = [] := rfl
    have htree : ∀ l, buildPointerTree ufs n (l + 1) [] = pure (0, 0) := fun l => by
      rw [buildPointerTree, if_pos rfl]
    simp only [hnil, buildIndirectRoots, List.take_nil, List.drop_nil, htree]
    rfl
  rw [buildInodePointerStructure, hroots]
  refine Act.hoare.bind (P := fun r d => r = ([0, 0, 0], 0) ∧ d = D)
    (Act.hoare_pure ⟨rfl, rfl⟩) ?_
  rintro r d ⟨rfl, rfl⟩
  refine (writeBlockLists_hoare hn ?_ rfl ?_ ?_ rfl).seq (Act.hoare_pure ⟨rfl, rfl⟩)
  · simp
  · intro v hv
    rw [List.mem_singleton.mp hv]
    exact hf
  · intro v hv
    have : v = 0 := by simpa using hv
    rw [this]
    norm_num

/-- The root inode after formatting. -/
def Dinode.freshRoot (timestamp f : ℕ) : Dinode :=
  { Dinode.fresh (ufsIfdir ||| 0o755) 0 0 2 timestamp with
    size := ufsDirblksiz
    blocks := 1
    directBlocks := f :: List.replicate 11 0
    indirectBlocks := [0, 0, 0] }

theorem Dinode.freshRoot_isDirectory (timestamp f : ℕ) :
    (Dinode.freshRoot timestamp f).isDirectory = true := by
  have hm : (Dinode.freshRoot timestamp f).mode = (ufsIfdir ||| 0o755) % 2 ^ 32 := rfl
  rw [Inode.isDirectory, Inode.fileType, hm]
  decide

/-- The view before the recount: the root has the first fragment of a free block, and the groups
are otherwise pristine. -/
structure RootAlone (sb : Superblock) (D : Disk) (timestamp f : ℕ) (body : Bytes) : Prop where
  freeBlock : ∃ D₀ : Disk, FreeBlock sb D₀ 0 f
  group : ∀ c < sb.ncg, ∃ v : CgView, v.Pristine sb c ∧ (D.cg c).magic = v.magic ∧
    (D.cg c).ndblk = v.ndblk ∧ (D.cg c).used = v.used ∧
    ∀ j, (D.cg c).free j = true ↔ v.free j = true ∧ ¬(c = 0 ∧ j = f)
  ino : D.ino ufsRootInode = Dinode.freshRoot timestamp f
  body : D.body sb [f] ufsDirblksiz = body

theorem RootAlone.of_taken {sb : Superblock} {D D' : Disk} {timestamp f : ℕ} {body : Bytes}
    (hp : ∀ c < sb.ncg, (D.cg c).Pristine sb c) (hf : FreeBlock sb D 0 f)
    (hcg : D'.cg = (D.takeRun sb 0 f 1 512).cg)
    (hino : D'.ino ufsRootInode = Dinode.freshRoot timestamp f)
    (hbody : D'.body sb [f] ufsDirblksiz = body) : RootAlone sb D' timestamp f body := by
  refine ⟨⟨D, hf⟩, fun c hc => ⟨D.cg c, hp c hc, ?_⟩, hino, hbody⟩
  rw [hcg, Disk.takeRun, Disk.write_cg, Disk.account_cg]
  by_cases hc0 : c = 0
  · subst hc0
    rw [Function.update_self]
    refine ⟨rfl, rfl, rfl, fun j => ?_⟩
    simp only [CgView.free_withBlocks, CgView.mark]
    split_ifs with h
    · simp only [true_and, false_iff, not_and, not_not]
      intro
      omega
    · rw [iff_self_and]
      intro _
      omega
  · rw [Function.update_of_ne hc0]
    refine ⟨rfl, rfl, rfl, fun j => ?_⟩
    simp [hc0]

/-- The root directory is written. -/
theorem formatRoot_hoare (g : ufs.sb.Geometry) (hroom : ufs.sb.RootFits) {timestamp : ℕ}
    (hp : ∀ c < ufs.sb.ncg, (D.cg c).Pristine ufs.sb c) :
    (formatRoot ufs timestamp).hoare ufs.Holds D (fun _ D' => ∃ f body,
      RootAlone ufs.sb D' timestamp f body ∧
        Directory body [⟨dotName, ufsRootInode⟩, ⟨dotdotName, ufsRootInode⟩] ∧
        body.length = ufsDirblksiz) E := by
  have hn := g.root_lt
  have hbpos := g.bsize_eq
  have hfpos := g.frag_pos
  obtain ⟨block, hblock, hlen, hdir⟩ := buildDirectoryBlock_eq (show ufsRootInode ≠ 0 by decide)
    (by norm_num) (show ufsRootInode ≠ 0 by decide) (by norm_num)
  rw [formatRoot]
  refine (initializeInode_hoare hn rfl).seq ?_
  set D₁ := D.setIno ufsRootInode (Dinode.fresh (ufsIfdir ||| 0o755) 0 0 2 timestamp) with hD₁
  have hi₁ : D₁.ino ufsRootInode = Dinode.fresh (ufsIfdir ||| 0o755) 0 0 2 timestamp :=
    Disk.setIno_at ..
  refine Act.hoare_read_bind (a := some (D₁.ino ufsRootInode).toInode)
    (fun s h => by rw [h.readInode hn]) ?_
  dsimp only
  refine Act.hoare_lift_bind hblock ?_
  have hlaid : Laid ufs.sb D₁ (D₁.ino ufsRootInode) [] [] := Laid.of_blank (by rw [hi₁]; rfl)
  rw [setInodeContents]
  refine Act.hoare_read_bind (a := some (D₁.ino ufsRootInode).toInode)
    (fun s h => by rw [h.readInode hn]) ?_
  dsimp only
  refine Act.hoare_read_bind (fun s h => hlaid.inodeDataBlocks h
    fun p hp => absurd hp List.not_mem_nil) ?_
  refine Act.hoare_read_bind (fun s h => hlaid.inodePointerBlocks h
    fun p hp => absurd hp List.not_mem_nil) ?_
  -- nothing to free, one fragment to take
  rw [hlen, allocationByteSizes_fragment g]
  refine Act.hoare.bind (P := fun _ d => d = D₁) (Act.hoare_pure rfl) fun _ d hd => ?_
  subst hd
  have hone : (Act.collect (allocateAllocation ufs ufsRootInode) [512]).hoare ufs.Holds D₁
      (fun bs D' => ∃ f, bs = [f] ∧ FreeBlock ufs.sb D₁ 0 f ∧
        D' = D₁.takeRun ufs.sb 0 f 1 512) E := by
    rw [Act.collect]
    refine (rootRun_hoare (D := D₁) g hroom (hp 0 g.ncg_pos)).bind ?_
    rintro f D₂ ⟨hf, rfl⟩
    exact Act.hoare_pure ⟨f, rfl, hf, rfl⟩
  refine hone.bind ?_
  rintro bs D₂ ⟨f, rfl, hf, hD₂⟩
  have hrun : ufs.sb.IsRun f 1 := by
    have h := hf.isRun g Nat.zero_lt_one (show 1 ≤ ufs.sb.frag by omega)
    rwa [Nat.zero_mul, Nat.zero_add] at h
  refine (@writeChunks_hoare _ _ g [512] [f] block _ ?_ rfl ?_ ?_).bind ?_
  · rw [hlen, ← allocationByteSizes_fragment g]
    exact Superblock.allocationByteSizes_covers g (by norm_num)
  · intro r hr
    rw [List.mem_singleton.mp hr]
    exact hrun
  · exact List.pairwise_singleton _ _
  rintro - D₃ ⟨hd₃, hbody⟩
  refine (rootPointers_hoare hn (IsRun.pointable g hrun).2).bind ?_
  rintro count D₄ ⟨rfl, rfl⟩
  have hi₃ : D₃.ino ufsRootInode = Dinode.fresh (ufsIfdir ||| 0o755) 0 0 2 timestamp := by
    rw [hd₃.ino, hD₂]
    exact hi₁
  have hcg₃ : D₃.cg = (D.takeRun ufs.sb 0 f 1 512).cg := by
    rw [hd₃.cg, hD₂]
    rfl
  rw [hlen] at hbody
  rw [writeSizeAndBlocks]
  refine (writeInodeSize_hoare hn rfl).seq (writeInodeBlocks_hoare hn ?_)
  rw [Disk.setIno_at, Disk.setIno_setIno, Disk.setIno_at, Disk.setIno_setIno]
  refine ⟨f, block, RootAlone.of_taken hp
    ⟨hf.group, hf.data, hf.aligned, hf.inside, hf.free⟩ hcg₃ ?_ ?_, hdir, hlen⟩
  · rw [Disk.setIno_at, hi₃, Nat.zero_mul]
    rfl
  · exact (Disk.body_of_data (Disk.setIno_data _ _ _) _ _).trans hbody

/-! ## The table and the tree -/

/-- Free fragments outside free blocks after formatting: the rest of the root's block, and the cut
block at the end of each group. -/
def Superblock.freshSlack (sb : Superblock) : ℕ :=
  sb.frag - 1 + ∑ c ∈ Finset.range sb.ncg, sb.groupFrags c % sb.frag

/-- The only file is the root directory. -/
def Table.fresh (sb : Superblock) (timestamp f : ℕ) (body : Bytes) : Table where
  live := {ufsRootInode}
  reserved := {0, 1}
  dirs := {ufsRootInode}
  file _ := ⟨Dinode.freshRoot timestamp f, body⟩
  room m := if m = ufsRootInode then spare sb [] else spare sb [(f, 1)]
  packed := true
  slack := sb.freshSlack

/-- The tree is its root. -/
def NameTree.fresh : NameTree where
  live := {ufsRootInode}
  dirs := {ufsRootInode}
  kids _ := 0
  up _ := ufsRootInode

theorem NameTree.fresh_sound : NameTree.fresh.Sound where
  root := Finset.mem_singleton_self _
  root_up := rfl
  dirs_live := subset_rfl
  names d hd := by
    rw [Finset.mem_singleton.mp hd]
    decide
  named d hd e he := absurd he (Multiset.notMem_zero e)
  target d hd e he := absurd he (Multiset.notMem_zero e)
  up_eq d hd e he := absurd he (Multiset.notMem_zero e)
  once s hs := by
    rw [Finset.mem_singleton.mp hs]
    decide
  found n hn hnd := absurd hn hnd
  reached d hd := ⟨0, Finset.mem_singleton.mp hd⟩

namespace RootAlone
variable {sb : Superblock} {timestamp f : ℕ} {body : Bytes}

theorem isRun (g : sb.Geometry) (h : RootAlone sb D timestamp f body) :
    sb.IsRun f 1 ∧ sb.AtHead f := by
  obtain ⟨D₀, hf⟩ := h.freeBlock
  have h1 := hf.isRun g Nat.zero_lt_one (show 1 ≤ sb.frag by have := g.frag_pos; omega)
  have h2 := hf.atHead g
  rw [Nat.zero_mul, Nat.zero_add] at h1 h2
  exact ⟨h1, h2⟩

theorem lt_fpg (h : RootAlone sb D timestamp f body) (g : sb.Geometry) : f < sb.fpg := by
  obtain ⟨D₀, hf⟩ := h.freeBlock
  have h1 := hf.inside
  have h2 := Superblock.groupFrags_le sb 0
  have h3 := g.frag_pos
  omega

/-- The free fragments of a group. -/
theorem free_iff (h : RootAlone sb D timestamp f body) {c : ℕ} (hc : c < sb.ncg) (j : ℕ) :
    (D.cg c).free j = true ↔ (sb.dblkno ≤ j ∧ j < sb.groupFrags c) ∧ ¬(c = 0 ∧ j = f) := by
  obtain ⟨v, hv, -, -, -, hfree⟩ := h.group c hc
  rw [hfree, hv.free]

theorem ndblk (h : RootAlone sb D timestamp f body) {c : ℕ} (hc : c < sb.ncg) :
    (D.cg c).ndblk = sb.groupFrags c := by
  obtain ⟨v, hv, -, hn, -⟩ := h.group c hc
  rw [hn, hv.ndblk]

/-- All fragments of the data area are free but the root's. -/
theorem freeCount (g : sb.Geometry) (h : RootAlone sb D timestamp f body) {c : ℕ} (hc : c < sb.ncg) :
    (D.cg c).freeCount + (if c = 0 then 1 else 0) = sb.groupFrags c - sb.dblkno := by
  obtain ⟨D₀, hf⟩ := h.freeBlock
  have hset : (Finset.range (sb.groupFrags c)).filter (fun j => (D.cg c).free j = true) =
      if c = 0 then (Finset.Ico sb.dblkno (sb.groupFrags c)).erase f
      else Finset.Ico sb.dblkno (sb.groupFrags c) := by
    ext j
    rw [Finset.mem_filter, Finset.mem_range, h.free_iff hc]
    split_ifs with h0
    · rw [Finset.mem_erase, Finset.mem_Ico]
      constructor
      · rintro ⟨-, hj, hne⟩
        exact ⟨fun he => hne ⟨h0, he⟩, hj⟩
      · rintro ⟨hne, hj⟩
        exact ⟨hj.2, hj, fun he => hne he.2⟩
    · rw [Finset.mem_Ico]
      constructor
      · exact fun hj => hj.2.1
      · exact fun hj => ⟨hj.2, hj, fun he => h0 he.1⟩
  rw [CgView.freeCount, h.ndblk hc, Nat.count_eq_card_filter_range, hset]
  split_ifs with h0
  · subst h0
    have hin := hf.inside
    have hmem : f ∈ Finset.Ico sb.dblkno (sb.groupFrags 0) :=
      Finset.mem_Ico.mpr ⟨hf.data, by have := g.frag_pos; omega⟩
    rw [Finset.card_erase_of_mem hmem, Nat.card_Ico, Nat.sub_add_cancel]
    exact Nat.sub_pos_of_lt ((Finset.mem_Ico.mp hmem).1.trans_lt (Finset.mem_Ico.mp hmem).2)
  · rw [Nat.card_Ico, Nat.add_zero]

/-- All blocks of the data area are free but the root's. -/
theorem blockCount (g : sb.Geometry) (h : RootAlone sb D timestamp f body) {c : ℕ}
    (hc : c < sb.ncg) : (D.cg c).blockCount sb.frag + (if c = 0 then 1 else 0) =
      sb.groupFrags c / sb.frag - sb.dblkno / sb.frag := by
  obtain ⟨D₀, hf⟩ := h.freeBlock
  have hpos : 0 < sb.frag := by
    have := g.frag_pos
    omega
  obtain ⟨d, hd⟩ := g.dblkno_dvd
  obtain ⟨b, hb⟩ := hf.aligned
  have hin := hf.inside
  have hlo := hf.data
  have hdiv : sb.dblkno / sb.frag = d := by rw [hd, Nat.mul_div_cancel_left _ hpos]
  have hwhole : ∀ k, k < sb.groupFrags c / sb.frag →
      ((D.cg c).Whole sb.frag k ↔ d ≤ k ∧ ¬(c = 0 ∧ k = b)) := by
    intro k hk
    have hend : (k + 1) * sb.frag ≤ sb.groupFrags c :=
      (Nat.le_div_iff_mul_le hpos).mp hk
    rw [Nat.succ_mul] at hend
    constructor
    · intro hall
      have h0 := (h.free_iff hc _).mp (hall 0 hpos)
      rw [Nat.add_zero, hd, Nat.mul_comm sb.frag d] at h0
      refine ⟨Nat.le_of_mul_le_mul_right h0.1.1 hpos, ?_⟩
      rintro ⟨hc0, rfl⟩
      exact h0.2 ⟨hc0, by rw [hb, Nat.mul_comm]⟩
    · rintro ⟨hdk, hne⟩ o ho
      have hm := Nat.mul_le_mul_right sb.frag hdk
      rw [Nat.mul_comm d, ← hd] at hm
      refine (h.free_iff hc _).mpr ⟨⟨by omega, by omega⟩, ?_⟩
      rintro ⟨hc0, he⟩
      refine hne ⟨hc0, ?_⟩
      have hk' : (k * sb.frag + o) / sb.frag = k := by
        rw [Nat.mul_comm, Nat.mul_add_div hpos, Nat.div_eq_of_lt ho, Nat.add_zero]
      rw [he, hb, Nat.mul_div_cancel_left _ hpos] at hk'
      exact hk'.symm
  have hset : (Finset.range (sb.groupFrags c / sb.frag)).filter ((D.cg c).Whole sb.frag) =
      if c = 0 then (Finset.Ico d (sb.groupFrags c / sb.frag)).erase b
      else Finset.Ico d (sb.groupFrags c / sb.frag) := by
    ext k
    rw [Finset.mem_filter, Finset.mem_range]
    split_ifs with h0
    · rw [Finset.mem_erase, Finset.mem_Ico]
      constructor
      · rintro ⟨hk, hw⟩
        obtain ⟨h1, h2⟩ := (hwhole k hk).mp hw
        exact ⟨fun he => h2 ⟨h0, he⟩, h1, hk⟩
      · rintro ⟨hne, h1, hk⟩
        exact ⟨hk, (hwhole k hk).mpr ⟨h1, fun he => hne he.2⟩⟩
    · rw [Finset.mem_Ico]
      constructor
      · rintro ⟨hk, hw⟩
        exact ⟨((hwhole k hk).mp hw).1, hk⟩
      · rintro ⟨h1, hk⟩
        exact ⟨hk, (hwhole k hk).mpr ⟨h1, fun he => h0 he.1⟩⟩
  rw [CgView.blockCount, h.ndblk hc, Nat.count_eq_card_filter_range, hset, hdiv]
  split_ifs with h0
  · subst h0
    have hmem : b ∈ Finset.Ico d (sb.groupFrags 0 / sb.frag) := by
      refine Finset.mem_Ico.mpr ⟨?_, ?_⟩
      · rw [hd, hb] at hlo
        exact Nat.le_of_mul_le_mul_left hlo hpos
      · refine (Nat.le_div_iff_mul_le hpos).mpr ?_
        rw [hb, Nat.mul_comm] at hin
        rw [Nat.succ_mul]
        exact hin
    rw [Finset.card_erase_of_mem hmem, Nat.card_Ico, Nat.sub_add_cancel]
    exact Nat.sub_pos_of_lt ((Finset.mem_Ico.mp hmem).1.trans_lt (Finset.mem_Ico.mp hmem).2)
  · rw [Nat.card_Ico, Nat.add_zero]

/-- What is free of a group beside whole blocks. -/
theorem nffree (g : sb.Geometry) (h : RootAlone sb D timestamp f body) {c : ℕ} (hc : c < sb.ncg) :
    (D.derived sb c).nffree = sb.groupFrags c % sb.frag + if c = 0 then sb.frag - 1 else 0 := by
  have hpos := g.frag_pos
  have h1 := h.freeCount g hc
  have h2 := h.blockCount g hc
  have h3 := (D.cg c).blockCount_mul_le sb.frag
  have hge := g.groupFrags_ge hc
  obtain ⟨d, hd⟩ := g.dblkno_dvd
  have hdiv : sb.dblkno / sb.frag = d := by rw [hd, Nat.mul_div_cancel_left _ (by omega)]
  have hdm := Nat.div_add_mod (sb.groupFrags c) sb.frag
  have hle : d ≤ sb.groupFrags c / sb.frag := by
    rw [Nat.le_div_iff_mul_le (by omega), Nat.mul_comm, ← hd]
    exact hge
  obtain ⟨m, hm⟩ := Nat.exists_eq_add_of_le hle
  rw [hdiv, hm, Nat.add_sub_cancel_left] at h2
  rw [hm, Nat.mul_add, ← hd] at hdm
  have hnf : (D.derived sb c).nffree = (D.cg c).freeCount - (D.cg c).blockCount sb.frag * sb.frag :=
    rfl
  rw [hnf]
  split_ifs at h1 h2 ⊢ with h0
  · have hm' : sb.frag * m = (D.cg c).blockCount sb.frag * sb.frag + sb.frag := by
      rw [← h2]
      ring
    omega
  · have hm' : sb.frag * m = (D.cg c).blockCount sb.frag * sb.frag := by
      rw [← h2]
      ring
    omega

theorem slack (g : sb.Geometry) (h : RootAlone sb D timestamp f body) :
    (D.recounted sb).Slack sb sb.freshSlack := by
  have hn := fun c (hc : c < sb.ncg) => h.ndblk hc
  have hsum : ∑ c ∈ Finset.range sb.ncg, (D.derived sb c).nffree = sb.freshSlack := by
    rw [Finset.sum_congr rfl fun c hc => h.nffree g (Finset.mem_range.mp hc),
      Finset.sum_add_distrib, Finset.sum_ite_eq', if_pos (Finset.mem_range.mpr g.ncg_pos),
      Nat.add_comm]
    rfl
  refine ⟨?_, ?_, ?_⟩
  · rw [recounted_total g hn]
    exact hsum
  · rw [← hsum]
    refine Finset.sum_congr rfl fun c hc => ?_
    rw [recounted_cg g hn (Finset.mem_range.mp hc)]
  · have hncg := g.ncg_lt
    have hfrag := g.frag_le
    have hpos := g.frag_pos
    have hcut := Finset.sum_le_card_nsmul (Finset.range sb.ncg) (fun c => sb.groupFrags c % sb.frag)
      16 fun c _ => (Nat.mod_lt _ (by omega)).le.trans hfrag
    rw [Finset.card_range, smul_eq_mul] at hcut
    rw [Superblock.freshSlack]
    omega

/-- The recounted view stores the fresh table. -/
theorem volume (g : sb.Geometry) (hfill : sb.PointersFill) (h : RootAlone sb D timestamp f body) :
    Volume sb (D.recounted sb) (fun _ => ⟨[f], []⟩) (Table.fresh sb timestamp f body) := by
  obtain ⟨hrun, hhead⟩ := h.isRun g
  have hf := h.lt_fpg g
  have hn : ∀ c < sb.ncg, (D.cg c).ndblk = sb.groupFrags c := fun c hc => by
    obtain ⟨v, hv, -, hn, -⟩ := h.group c hc
    rw [hn, hv.ndblk]
  have hmagic : ∀ c < sb.ncg, (D.cg c).magic = ufsCgMagic := fun c hc => by
    obtain ⟨v, hv, hm, -⟩ := h.group c hc
    rw [hm, hv.magic]
  have hino : (D.recounted sb).ino = D.ino := rfl
  have hdata : (D.recounted sb).data = D.data := rfl
  have hsize : (Dinode.freshRoot timestamp f).size = 512 := rfl
  have hruns : ∀ i : Inode, i.size = 512 → Owned.runs sb i ⟨[f], []⟩ = [(f, 1)] := by
    intro i hi
    rw [Owned.runs_eq, hi, show sb.allocationByteSizes 512 = [512] from
      allocationByteSizes_fragment g]
    rfl
  have hroot : Owned.runs sb ((D.recounted sb).ino ufsRootInode).toInode ⟨[f], []⟩ = [(f, 1)] := by
    rw [hino, h.ino]
    exact hruns _ rfl
  have hledger : ledger sb (D.recounted sb) (fun _ => ⟨[f], []⟩) {ufsRootInode} = [(f, 1)] := by
    rw [ledger, Finset.toList_singleton, List.flatMap_singleton]
    exact hroot
  have hcov : ∀ f', Covered [(f, 1)] f' ↔ f' = f := by
    intro f'
    rw [covered_cons, or_iff_left not_covered_nil]
    simp only [Run.Mem]
    omega
  have hused : ∀ n < sb.inodes, (D.inodeUsed sb n = true ↔
      n ∈ (Table.fresh sb timestamp f body).used) := by
    intro n hlt
    obtain ⟨v, hv, -, -, hu, -⟩ := h.group _ (Superblock.div_ipg_lt hlt)
    have hdm := Nat.div_add_mod' n sb.ipg
    have hml := g.mod_ipg_lt n
    have h2 := g.root_group
    rw [Disk.inodeUsed, hu, hv.used]
    simp only [Table.fresh, Table.used, Finset.mem_union, Finset.mem_insert, Finset.mem_singleton]
    constructor
    · rintro ⟨h0, hle⟩
      rw [h0, Nat.zero_mul, Nat.zero_add] at hdm
      simp only [ufsRootInode] at hle ⊢
      omega
    · intro hcases
      have hle : n ≤ ufsRootInode := by
        simp only [ufsRootInode] at hcases ⊢
        omega
      have h0 : n / sb.ipg = 0 := Nat.le_zero.mp ((Nat.div_le_div_right hle).trans h2.le)
      refine ⟨h0, ?_⟩
      rw [h0, Nat.zero_mul, Nat.zero_add] at hdm
      omega
  have hlt : ∀ n ∈ (Table.fresh sb timestamp f body).used, n < sb.inodes := by
    intro n hm
    have hr := g.root_lt
    simp only [Table.fresh, Table.used, Finset.mem_union, Finset.mem_insert, Finset.mem_singleton,
      ufsRootInode] at hm hr
    omega
  have hlive : ∀ n ∈ (Table.fresh sb timestamp f body).live, n = ufsRootInode :=
    fun n hm => Finset.mem_singleton.mp hm
  refine ⟨?_, ?_, by simp [Table.fresh], by simp [Table.fresh], by simp [Table.fresh], ?_, ?_, ?_, ?_,
    fun m => ?_, fun _ => ?_, h.slack g, hfill⟩
  · rw [show (Table.fresh sb timestamp f body).live = {ufsRootInode} from rfl, hledger]
    refine Space.recounted g hn hmagic (fun r hr => ?_) (List.pairwise_singleton _ _) ?_ ?_
    · rw [List.mem_singleton.mp hr]
      exact hrun
    · intro c hc i hi
      obtain ⟨v, hv, -, -, -, hfree⟩ := h.group c hc
      exact (hv.free i).mp ((hfree i).mp hi).1
    · intro f' hf'
      obtain ⟨hc, hlo, hhi⟩ := hf'
      obtain ⟨v, hv, -, -, -, hfree⟩ := h.group _ hc
      have hdm := Nat.div_add_mod' f' sb.fpg
      rw [hcov, ← Bool.not_eq_true, Disk.isFree, hfree, hv.free, not_and, not_not]
      constructor
      · intro hall
        obtain ⟨h0, h1⟩ := hall ⟨hlo, hhi⟩
        rw [h0, h1, Nat.zero_mul, Nat.zero_add] at hdm
        exact hdm.symm
      · rintro rfl -
        exact ⟨Nat.div_eq_of_lt hf, Nat.mod_eq_of_lt hf⟩
  · refine InodeMap.recounted g hused hn hmagic hlt (by simp [Table.fresh, Table.used])
      (by simp [Table.fresh, Table.used]) ?_ ?_
    · intro n hm
      rw [Finset.mem_singleton.mp hm]
      exact ⟨by simp [Table.fresh, Table.used], le_rfl⟩
    · intro n hm h2
      have hr : n = ufsRootInode := by
        simp only [Table.fresh, Table.used, Finset.mem_union, Finset.mem_insert,
          Finset.mem_singleton, ufsRootInode] at hm ⊢
        omega
      rw [hr, h.ino]
      exact iff_of_true (Dinode.freshRoot_isDirectory _ _) (Finset.mem_singleton_self _)
  · intro n hm
    rw [hlive n hm, hino, h.ino]
    refine ⟨by rw [hsize]; norm_num, ?_, ?_, rfl, rfl, ?_,
      (sb.pointerBlocks_direct (by decide : 1 ≤ ufsNdaddr)).symm⟩
    · rw [hsize, ← Superblock.allocationByteSizes_length g (by norm_num),
        show sb.allocationByteSizes 512 = [512] from allocationByteSizes_fragment g]
      rfl
    · intro b hb
      rw [List.mem_singleton.mp hb]
      exact (hrun.pos g).ne'
    · exact ⟨Subtree.empty, Subtree.empty, Subtree.empty, rfl, Tree.empty, Tree.empty, Tree.empty,
        rfl, rfl⟩
  · intro n hm
    rw [hlive n hm, Owned.sectors, hroot, hino, h.ino]
    rfl
  · intro n hm
    rw [hlive n hm, hino, h.ino]
    rfl
  · intro n hm
    rw [hlive n hm, Disk.contents, hino, h.ino]
    exact (Disk.body_of_data hdata _ _).trans h.body
  · by_cases hm : m = ufsRootInode
    · subst hm
      simp [Table.fresh, ledger]
    · rw [show (Table.fresh sb timestamp f body).live = {ufsRootInode} from rfl,
        Finset.erase_eq_of_notMem (by simpa using hm), hledger]
      exact (if_neg hm).symm
  · intro r hr
    rw [show (Table.fresh sb timestamp f body).live = {ufsRootInode} from rfl, hledger] at hr
    rw [List.mem_singleton.mp hr]
    exact hhead

end RootAlone

theorem Table.fresh_carries {sb : Superblock} {timestamp f : ℕ} {body : Bytes}
    (hb : Directory body [⟨dotName, ufsRootInode⟩, ⟨dotdotName, ufsRootInode⟩]) :
    Carries (Table.fresh sb timestamp f body) NameTree.fresh NameTree.fresh.links where
  live := rfl
  dirs := rfl
  reserved := rfl
  isDir n hn := iff_of_true (Dinode.freshRoot_isDirectory _ _) hn
  body d hd := by
    rw [Finset.mem_singleton.mp hd]
    exact ⟨_, hb, rfl⟩
  nlink n hn := by
    rw [Finset.mem_singleton.mp hn]
    change 2 % 2 ^ 16 = NameTree.fresh.links ufsRootInode
    decide

/-- The image stores nothing but a root directory. -/
def FreshTable (ufs : Ufs) (image : Bytes) (timestamp f : ℕ) (body : Bytes) : Prop :=
  ufs.Stores image (Table.fresh ufs.sb timestamp f body) ∧
    Directory body [⟨dotName, ufsRootInode⟩, ⟨dotdotName, ufsRootInode⟩]

/-- What is left of the formatter after the superblock: groups, root and summaries. -/
theorem formatBody_hoare (g : ufs.sb.Geometry) (hfill : ufs.sb.PointersFill)
    (hroom : ufs.sb.RootFits) {timestamp : ℕ} :
    (do
      Act.each (formatGroup ufs) (List.range ufs.sb.ncg)
      formatRoot ufs timestamp
      recomputeSummaryCounts ufs
      pure ufs : Write Ufs).hoare ufs.Holds D
      (fun u D' => u = ufs ∧ ∃ own f body,
        Volume ufs.sb D' own (Table.fresh ufs.sb timestamp f body) ∧
        Directory body [⟨dotName, ufsRootInode⟩, ⟨dotdotName, ufsRootInode⟩]) E := by
  refine (formatGroups_hoare g).bind ?_
  rintro - D₁ ⟨hp, -⟩
  refine (formatRoot_hoare g hroom hp).bind ?_
  rintro - D₂ ⟨f, body, hroot, hdir, -⟩
  have hgroup : ∀ c < ufs.sb.ncg, (D₂.cg c).magic = ufsCgMagic ∧
      (D₂.cg c).ndblk = ufs.sb.groupFrags c := fun c hc => by
    obtain ⟨v, hv, hm, hn, -⟩ := hroot.group c hc
    exact ⟨hm.trans hv.magic, hn.trans hv.ndblk⟩
  refine (recomputeSummaryCounts_hoare g (fun c hc => (hgroup c hc).1)
    fun c hc => (hgroup c hc).2).bind ?_
  rintro - D₃ rfl
  exact Act.hoare_pure ⟨rfl, _, f, body, hroot.volume g hfill, hdir⟩

end UfsFuse
