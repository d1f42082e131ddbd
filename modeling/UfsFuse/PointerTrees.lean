import UfsFuse.Replacement

/-!
# Pointer trees, written and read

The pointers that the builder lays out for a list of blocks are read back as that list, whatever the
depth of the trees, and its own blocks are new.
-/
namespace UfsFuse

/-- An image whose group headers are in order: the free maps stay within the data areas and the counts
of free blocks agree with them. -/
def Ufs.Mapped (ufs : Ufs) (image : Bytes) : Prop := ∃ D runs, ufs.Holds image D ∧ Space ufs.sb D runs

/-- Read at the size `size`, inode `n` has the blocks `data` and the new pointer blocks `ptrs`. -/
structure PointsTo (ufs : Ufs) (image image' : Bytes) (n size : ℕ) (data ptrs : List ℕ)
    (inode : Inode) : Prop where
  stored : readInode image' ufs n = some inode
  dataBlocks : inodeDataBlocks image' ufs { inode with size := size } = .ok data
  pointerBlocks : inodePointerBlocks image' ufs { inode with size := size } = .ok ptrs
  nodup : ptrs.Nodup
  taken : ∀ p ∈ ptrs, ∀ o < ufs.sb.frag,
    fragIsFree image ufs (p + o) = true ∧ fragIsFree image' ufs (p + o) = false

section Trees
variable {ufs : Ufs} {image image' : Bytes} {D D' : Disk} {runs : List Run} {n : ℕ} {ptrs : List ℕ}

theorem Ufs.Stores.mapped {T : Table} (h : ufs.Stores image T) : ufs.Mapped image := by
  obtain ⟨D, own, hi, hv⟩ := h
  exact ⟨D, _, hi, hv.space⟩

theorem blockRuns_nodup (g : ufs.sb.Geometry) (h : (blockRuns ufs.sb ptrs).Pairwise Run.Apart) :
    ptrs.Nodup := by
  have hpos := g.frag_pos
  rw [blockRuns, List.pairwise_map] at h
  refine h.imp fun {p q} hpq hne => ?_
  subst hne
  exact hpq p ⟨le_rfl, by omega⟩ ⟨le_rfl, by omega⟩

/-- New runs are apart from the old ones. -/
theorem Space.apart_new {sb : Superblock} {new : List Run} (h : Space sb D (new ++ runs)) {f : ℕ}
    (hf : Covered runs f) : ¬Covered new f := by
  rintro ⟨r, hr, hm⟩
  obtain ⟨r', hr', hm'⟩ := hf
  exact (List.pairwise_append.mp h.apart).2.2 r hr r' hr' f hm hm'

/-- Pointer blocks just taken were free. -/
theorem Space.fragIsFree_new (hi : ufs.Holds image D) (hs : Space ufs.sb D runs)
    (hi' : ufs.Holds image' D') (hs' : Space ufs.sb D' (blockRuns ufs.sb ptrs ++ runs)) {p o : ℕ}
    (hp : p ∈ ptrs) (ho : o < ufs.sb.frag) :
    fragIsFree image ufs (p + o) = true ∧ fragIsFree image' ufs (p + o) = false := by
  have g := hi.geom
  have hmem : (p, ufs.sb.frag) ∈ blockRuns ufs.sb ptrs := mem_blockRuns hp
  have hin : Run.Mem (p, ufs.sb.frag) (p + o) := ⟨Nat.le_add_right _ _, by dsimp only; omega⟩
  have hcov : Covered (blockRuns ufs.sb ptrs) (p + o) := ⟨_, hmem, hin⟩
  have hdata := ((hs'.isRun _ (List.mem_append_left _ hmem)).isData g hin).1
  have hold := hs.owned _ hdata
  have hnew := hs'.owned _ hdata
  rw [hi.fragIsFree hdata, hi'.fragIsFree hdata]
  constructor
  · rw [← Bool.not_eq_false, hold]
    exact fun hc => hs'.apart_new hc hcov
  · exact hnew.mpr (covered_append.mpr (.inl hcov))

/-- Allocated fragments keep their bytes. -/
theorem Space.runRaw_kept {new : List Run} (hi : ufs.Holds image D) (hs : Space ufs.sb D runs)
    (hi' : ufs.Holds image' D') (hs' : Space ufs.sb D' (new ++ runs))
    (hkeep : ∀ a, ¬Covered new (a / 512) → D'.data a = D.data a) {f : ℕ} (hf : ufs.sb.IsData f)
    (hfree : fragIsFree image ufs f = false) : runRaw image' ufs (f, 1) = runRaw image ufs (f, 1) := by
  have g := hi.geom
  have hpos := g.frag_pos
  have hrun : ufs.sb.IsRun f 1 :=
    ⟨hf.1, hf.2.1, Nat.one_pos, hf.2.2, Nat.mod_lt _ (by omega)⟩
  rw [hi.fragIsFree hf] at hfree
  have hcov := (hs.owned f hf).mp hfree
  rw [hi.runRaw hrun, hi'.runRaw hrun]
  refine Disk.bytes_congr fun a h1 h2 => hkeep a ?_
  have ha : a / 512 = f := by
    dsimp only at h1 h2
    omega
  rw [ha]
  exact hs'.apart_new hcov

/-- The trees built over a list of blocks. -/
theorem buildInodePointerStructure_read (h : ufs.Mapped image) (hn : n < ufs.sb.inodes)
    {data : List ℕ} (hp : ∀ b ∈ data, b ≠ 0 ∧ b < 2 ^ 32)
    (hlen : data.length ≤ 12 + (ufs.sb.nindir + ufs.sb.nindir ^ 2 + ufs.sb.nindir ^ 3)) :
    (buildInodePointerStructure ufs n data).wp image
      (fun k image' => ∃ ptrs, ptrs.length = k ∧ ptrs.length = ufs.sb.pointerBlocks data.length ∧
        (∀ p ∈ ptrs, ufs.sb.IsRun p ufs.sb.frag) ∧
        (∀ size < 2 ^ 63, ufs.sb.blocksFor size = data.length →
          ∃ inode, PointsTo ufs image image' n size data ptrs inode) ∧
        ∀ f, ufs.sb.IsData f → fragIsFree image ufs f = false →
          runRaw image' ufs (f, 1) = runRaw image ufs (f, 1))
      fun _ _ => freeBlocks image ufs < ufs.sb.pointerBlocks data.length := by
  obtain ⟨D, runs, hi, hs⟩ := h
  have g := hi.geom
  have hreach : reach ufs.sb.nindir [1, 2, 3] =
      ufs.sb.nindir + ufs.sb.nindir ^ 2 + ufs.sb.nindir ^ 3 := by
    simp [reach, Nat.add_assoc]
  have hspec := buildInodePointerStructure_hoare g hn hs
    (by simp only [ufsNdaddr]; omega : data.length ≤ ufsNdaddr + reach ufs.sb.nindir [1, 2, 3]) hp
  refine (hspec.run image hi).mono ?_ ?_
  · rintro k image' ⟨D', hi', D₁, ptrs, direct, indirect, ht, hD', rfl, hcount, hlaid⟩
    have hs' : Space ufs.sb D' (blockRuns ufs.sb ptrs ++ runs) := by
      rw [hD']
      exact ht.space.congr rfl rfl
    have hdata : D'.data = D₁.data := by
      rw [hD']
      rfl
    have hino : D'.ino n = { D₁.ino n with directBlocks := direct, indirectBlocks := indirect } := by
      rw [hD', Disk.setIno_at]
    have hrun' : ∀ p ∈ ptrs, ufs.sb.IsRun p ufs.sb.frag := fun p hp => ht.isRun (mem_blockRuns hp)
    refine ⟨ptrs, rfl, hcount, hrun', fun size hsize hblocks => ?_, fun f hf hfree =>
      hs.runRaw_kept hi hi' hs' (fun a ha => (congrFun hdata a).trans (ht.only.data a ha)) hf hfree⟩
    have hdirect : (D'.ino n).directBlocks = direct := by rw [hino]
    have hindirect : (D'.ino n).indirectBlocks = indirect := by rw [hino]
    have hl := (hlaid { (D'.ino n).toInode with size := size } hdirect hindirect hsize
      hblocks.symm).congr fun p _ => Disk.bytes_congr fun a _ _ => congrFun hdata a
    refine ⟨_, hi'.readInode hn, hl.inodeDataBlocks hi' hrun', hl.inodePointerBlocks hi' hrun', ?_, ?_⟩
    · exact blockRuns_nodup g (List.pairwise_append.mp ht.space.apart).1
    · exact fun p hp o ho => hs.fragIsFree_new hi hi' hs' hp ho
  · intro e image' hout
    have hlt := hout.nbfree_lt
    have htotal : freeBlocks image ufs = D.total.nbfree := by
      obtain ⟨-, rfl⟩ := hi
      rfl
    omega

/-- With room for its pointer blocks the list is written. -/
theorem buildInodePointerStructure_ok (h : ufs.Mapped image) (hn : n < ufs.sb.inodes)
    {data : List ℕ} (hp : ∀ b ∈ data, b ≠ 0 ∧ b < 2 ^ 32)
    (hlen : data.length ≤ 12 + (ufs.sb.nindir + ufs.sb.nindir ^ 2 + ufs.sb.nindir ^ 3))
    (hroom : ufs.sb.pointerBlocks data.length ≤ freeBlocks image ufs) :
    ∃ k image' ptrs, buildInodePointerStructure ufs n data image = (.ok k, image') ∧
      ptrs.length = ufs.sb.pointerBlocks data.length ∧ (∀ p ∈ ptrs, ufs.sb.IsRun p ufs.sb.frag) ∧
      ∀ size < 2 ^ 63, ufs.sb.blocksFor size = data.length →
        ∃ inode, PointsTo ufs image image' n size data ptrs inode := by
  cases (buildInodePointerStructure_read h hn hp hlen).ok_or_err with
  | inl hok =>
    obtain ⟨k, image', hrun, ptrs, -, hcount, hruns, hpoints, -⟩ := hok
    exact ⟨k, image', ptrs, hrun, hcount, hruns, hpoints⟩
  | inr herr =>
    obtain ⟨e, image', -, hshort⟩ := herr
    exact absurd hshort (not_lt.mpr hroom)

end Trees

/-! ## On a fresh slice -/

/-- All block addresses of the blank slice, twice: those that are free can become pointer blocks. -/
def blankBlocks : List ℕ := [56, 64, 72, 80, 88, 96, 104, 112, 120, 56, 64, 72, 80, 88, 96, 104, 112, 120]

theorem mem_blankBlocks {p : ℕ} (h : blankUfs.sb.IsRun p blankUfs.sb.frag) : p ∈ blankBlocks := by
  have hfpg : blankUfs.sb.fpg = 128 := rfl
  have hncg : blankUfs.sb.ncg = 1 := rfl
  have hlow : blankUfs.sb.dblkno = 56 := rfl
  have hfrag : blankUfs.sb.frag = 8 := rfl
  have hgroup : blankUfs.sb.groupFrags 0 = 128 := rfl
  obtain ⟨hc, hlo, -, hhi, hin⟩ := h
  rw [hfpg, hncg] at hc
  have hzero : p / 128 = 0 := by omega
  rw [hfpg, hfrag, hzero, hgroup] at hhi
  rw [hfpg, hfrag] at hin
  rw [hfpg, hlow] at hlo
  simp only [blankBlocks, List.mem_cons, List.not_mem_nil, or_false]
  omega

/-- Its pointer trees reach more than thirty blocks. -/
theorem blank_reach {len : ℕ} (h : len ≤ 30) :
    len ≤ 12 + (blankUfs.sb.nindir + blankUfs.sb.nindir ^ 2 + blankUfs.sb.nindir ^ 3) := by
  have hnindir : blankUfs.sb.nindir = 1024 := rfl
  rw [hnindir]
  omega

theorem blank_blocksFor {k : ℕ} (h : 0 < k) : blankUfs.sb.blocksFor (k * 4096) = k := by
  have hbsize : blankUfs.sb.bsize = 4096 := rfl
  rw [Superblock.blocksFor, hbsize, if_neg (by omega)]
  omega

end UfsFuse
