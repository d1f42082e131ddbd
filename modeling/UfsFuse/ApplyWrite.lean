import UfsFuse.Contents

/-!
# Writing a range

`apply_inode_write` keeps the allocations that do not change, gives back the others with the
pointer blocks, and lays the tail out afresh. Its result is the old contents with the range
overwritten.
-/
namespace UfsFuse

namespace Disk
variable {sb : Superblock} {D : Disk}

theorem body_append (xs ys : List ℕ) : ∀ size : ℕ,
    D.body sb (xs ++ ys) size = D.body sb xs size ++ D.body sb ys (size - xs.length * sb.bsize) := by
  induction xs with
  | nil =>
    intro size
    simp [body]
  | cons b xs ih =>
    intro size
    rw [List.cons_append, body, body, ih, List.append_assoc, List.length_cons, Nat.succ_mul,
      Nat.add_comm, Nat.sub_add_eq]

/-- Blocks hold no more than their own bytes. -/
theorem body_min (xs : List ℕ) : ∀ size : ℕ,
    D.body sb xs size = D.body sb xs (min size (xs.length * sb.bsize)) := by
  induction xs with
  | nil => exact fun _ => rfl
  | cons b xs ih =>
    intro size
    have h1 : min sb.bsize (min size ((xs.length + 1) * sb.bsize)) = min sb.bsize size := by
      rw [Nat.succ_mul]
      omega
    have h2 : min (size - sb.bsize) (xs.length * sb.bsize) =
        min size ((xs.length + 1) * sb.bsize) - sb.bsize := by
      rw [Nat.succ_mul]
      omega
    rw [body, body, List.length_cons, h1, ih, h2]

end Disk

theorem Superblock.Covers.take {sb : Superblock} (hb : 0 < sb.bsize) {sizes : List ℕ} :
    ∀ {size : ℕ}, sb.Covers sizes size → ∀ k,
    sb.Covers (sizes.take k) (min size (k * sb.bsize)) := by
  induction sizes with
  | nil =>
    intro size h k
    have h0 : size = 0 := h
    rw [List.take_nil, h0, Nat.zero_min]
    rfl
  | cons s sizes ih =>
    rintro size ⟨hpos, hs, hle, hr⟩ k
    cases k with
    | zero =>
      rw [Nat.zero_mul, Nat.min_zero]
      rfl
    | succ k =>
      rw [List.take_succ_cons, Nat.succ_mul]
      have he : min size (k * sb.bsize + sb.bsize) - sb.bsize =
          min (size - sb.bsize) (k * sb.bsize) := by omega
      refine ⟨by omega, hs, by omega, ?_⟩
      rw [he]
      exact ih hr k

theorem commonAllocationPrefix_le : ∀ xs ys : List ℕ,
    commonAllocationPrefix xs ys ≤ xs.length ∧ commonAllocationPrefix xs ys ≤ ys.length := by
  intro xs
  induction xs with
  | nil => exact fun _ => ⟨le_rfl, Nat.zero_le _⟩
  | cons x xs ih =>
    intro ys
    cases ys with
    | nil => exact ⟨Nat.zero_le _, le_rfl⟩
    | cons y ys =>
      rw [commonAllocationPrefix]
      split_ifs
      · exact ⟨Nat.succ_le_succ (ih ys).1, Nat.succ_le_succ (ih ys).2⟩
      · exact ⟨Nat.zero_le _, Nat.zero_le _⟩

theorem commonAllocationPrefix_take : ∀ xs ys : List ℕ,
    xs.take (commonAllocationPrefix xs ys) = ys.take (commonAllocationPrefix xs ys) := by
  intro xs
  induction xs with
  | nil =>
    intro ys
    cases ys with
    | nil => rfl
    | cons y ys => rfl
  | cons x xs ih =>
    intro ys
    cases ys with
    | nil => rfl
    | cons y ys =>
      rw [commonAllocationPrefix]
      split_ifs with h
      · rw [List.take_succ_cons, List.take_succ_cons, h, ih]
      · rfl

/-- Bytes past the overwritten range do not matter when the range reaches the end. -/
theorem Bytes.overlay_take {a b src : Bytes} {o : ℕ} (ho : o ≤ a.length)
    (ha : a.length ≤ o + src.length) (hb : b.length ≤ o + src.length) (hab : b.take a.length = a) :
    b.overlay o src = a.overlay o src := by
  have htake : b.take o = a.take o := by
    rw [← hab, List.take_take, Nat.min_eq_left ho]
  rw [Bytes.overlay, Bytes.overlay, htake, List.drop_eq_nil_of_le ha, List.drop_eq_nil_of_le hb]

/-- A failed replacement: part of the inode's runs are given back, and the free blocks ran out. -/
def Stranded (ufs : Ufs) (D : Disk) (own others : List Run) (need : ℕ) (e : Fault) (image : Bytes) :
    Prop :=
  ∃ D₁ kept, Space ufs.sb D₁ (kept ++ others) ∧ SpaceOnly D D₁ [] ∧
    (∀ f, Covered kept f → Covered own f) ∧
    ∃ missing, OutOfSpace ufs D₁ (kept ++ others) missing e image ∧ missing + kept.length ≤ need

/-- A call that is stranded needed more blocks than the other inodes leave. -/
theorem Stranded.spare_lt {ufs : Ufs} (g : ufs.sb.Geometry) {D : Disk} {own others : List Run}
    {need : ℕ} {e : Fault} {image : Bytes} (h : Stranded ufs D own others need e image) :
    spare ufs.sb others < need := by
  obtain ⟨D₁, kept, hs₁, -, -, missing, ho, hneed⟩ := h
  have hkept := @spare_append_le ufs.sb others g kept fun r hr =>
    hs₁.isRun r (List.mem_append_left _ hr)
  have hlt := ho.nbfree_lt
  rw [hs₁.total_spare g] at hlt
  omega

/-- Overwriting a range that starts within the old contents. -/
theorem overlay_body {sb : Superblock} {D : Disk} {blocks sizes : List ℕ} {size newSize offset : ℕ}
    {old data : Bytes} (hc : sb.Covers sizes newSize) (hl : blocks.length = sizes.length)
    (hold : old.length = size) (hpre : (D.body sb blocks newSize).take size = old)
    (ho : offset ≤ size) (hN : max size (offset + data.length) = newSize) :
    (D.body sb blocks newSize).overlay offset data = old.overlay offset data := by
  have hbl : (D.body sb blocks newSize).length = newSize := Disk.body_length hc hl
  by_cases hgrow : size < newSize
  · refine Bytes.overlay_take (by omega) (by omega) (by omega) ?_
    rw [hold, hpre]
  · rw [List.take_of_length_le (by omega)] at hpre
    rw [hpre]

/-- Data writes apart from the pointer blocks. -/
theorem Laid.fill {sb : Superblock} (g : sb.Geometry) {D D' : Disk} {i : Inode}
    {data ptrs : List ℕ} {xs : List Run} (h : Laid sb D i data ptrs) (hd : DataOnly D D' xs)
    (hap : ∀ r ∈ xs, ∀ r' ∈ blockRuns sb ptrs, Run.Apart r r') : Laid sb D' i data ptrs := by
  have hbs := g.bsize_eq
  refine h.congr fun p hp => Disk.bytes_congr fun a h1 h2 => hd.data a ?_
  rintro ⟨r, hr, hm⟩
  refine hap r hr _ (mem_blockRuns hp) _ hm ⟨?_, ?_⟩
  · simp only
    omega
  · simp only
    omega

/-- Data written into the inode's own blocks after a replacement. -/
theorem Replaced.fill {sb : Superblock} (g : sb.Geometry) {D D' D'' : Disk} {n : ℕ} {o : Owned}
    {others : List Run} (h : Replaced sb D D' n o others)
    (hd : DataOnly D' D'' (dataRuns o.data (sb.allocationByteSizes (D'.ino n).size))) :
    Replaced sb D D'' n o others where
  space := by
    rw [hd.ino]
    exact hd.space h.space
  laid := by
    rw [hd.ino]
    exact h.laid.fill g hd
      (List.pairwise_append.mp (List.pairwise_append.mp h.space.apart).1).2.2
  blocks := by
    rw [hd.ino]
    exact h.blocks
  inodes m hm := by rw [hd.ino, h.inodes m hm]
  core c := (hd.spaceOnly.core c).trans (h.core c)
  total := hd.spaceOnly.total.trans h.total
  keeps := by
    rintro a ⟨r, hr, hm⟩
    rw [hd.data, h.keeps a ⟨r, hr, hm⟩]
    rintro ⟨r', hr', hm'⟩
    exact (List.pairwise_append.mp h.space.apart).2.2 r' (List.mem_append_left _ hr') r hr _ hm' hm

theorem OutOfSpace.perm {ufs : Ufs} {D : Disk} {runs runs' : List Run} {need : ℕ} {e : Fault}
    {image : Bytes} (h : OutOfSpace ufs D runs need e image) (hp : runs.Perm runs') :
    OutOfSpace ufs D runs' need e image := by
  obtain ⟨D', leaked, hi, ht, hz, hlt⟩ := h
  exact ⟨D', leaked, hi, ⟨ht.space.perm (hp.append_left _), ht.only, ht.room, ht.heads⟩, hz, hlt⟩

section Apply
variable {ufs : Ufs}

/-- The allocations stay: the range is written in place and the size recorded. -/
theorem applyInPlace_hoare (g : ufs.sb.Geometry) {n : ℕ} (hn : n < ufs.sb.inodes) {D : Disk}
    {o : Owned} {others : List Run} {E : Fault → Bytes → Prop}
    (hs : Space ufs.sb D (o.runs ufs.sb (D.ino n) ++ others))
    (hl : Laid ufs.sb D (D.ino n) o.data o.ptrs)
    (hb : (D.ino n).blocks = o.sectors ufs.sb (D.ino n)) {offset newSize : ℕ} {data : Bytes}
    (ho : offset ≤ (D.ino n).size) (hnew : newSize < 2 ^ 63)
    (hN : max (D.ino n).size (offset + data.length) = newSize)
    (hsame : ufs.sb.allocationByteSizes newSize = ufs.sb.allocationByteSizes (D.ino n).size) :
    (do
      writeDataRange ufs o.data (ufs.sb.allocationByteSizes (D.ino n).size) offset data
      if newSize ≠ (D.ino n).size then writeInodeSize ufs n newSize).hoare ufs.Holds D
      (fun _ D' => ∃ o', Replaced ufs.sb D D' n o' others ∧ (D'.ino n).size = newSize ∧
        (D'.ino n).core = (D.ino n).core ∧ D'.contents ufs.sb (D'.ino n) o' =
          (D.contents ufs.sb (D.ino n) o).overlay offset data ∧
        o'.runs ufs.sb (D'.ino n) = o.runs ufs.sb (D.ino n) ∧
        (Heads ufs.sb (o.runs ufs.sb (D.ino n)) → Heads ufs.sb (o'.runs ufs.sb (D'.ino n)))) E := by
  have hcovn := Superblock.allocationByteSizes_covers g hnew
  have hlen := hl.sizes_length g
  have hcount := Superblock.allocationByteSizes_length g hnew
  have hcl := hl.contents_length g
  rw [hsame] at hcovn hcount
  have hdap := (List.pairwise_append.mp (List.pairwise_append.mp hs.apart).1)
  refine (writeDataRange_hoare g hcovn hlen (fun r hr => hs.isRun r
    (List.mem_append_left _ (List.mem_append_left _ hr))) hdap.1 (by omega)).bind ?_
  rintro - D₁ ⟨hd, hbody⟩
  set i : Dinode := { D₁.ino n with size := newSize } with hi
  have hino : D₁.ino n = D.ino n := by rw [hd.ino]
  have hruns : o.runs ufs.sb i = o.runs ufs.sb (D.ino n) := by
    rw [Owned.runs_eq, Owned.runs_eq, ← hsame]
  have hlaid : Laid ufs.sb D₁ i o.data o.ptrs := by
    have h := hl.fill g hd hdap.2.2
    rw [← hino] at h
    exact ⟨hnew, hlen.trans hcount, h.nonzero, h.direct_length, h.direct, h.indirect,
      h.filled⟩
  have hold : (D.body ufs.sb o.data newSize).take (D.ino n).size = D.contents ufs.sb (D.ino n) o := by
    have hsz := hcovn.size_le
    rw [← hlen] at hsz
    exact (Disk.body_take (by omega) (by omega)).symm
  have hfinal : ∃ o', Replaced ufs.sb D (D₁.setIno n i) n o' others ∧
      ((D₁.setIno n i).ino n).size = newSize ∧
      ((D₁.setIno n i).ino n).core = (D.ino n).core ∧
      (D₁.setIno n i).contents ufs.sb ((D₁.setIno n i).ino n) o' =
        (D.contents ufs.sb (D.ino n) o).overlay offset data ∧
      o'.runs ufs.sb ((D₁.setIno n i).ino n) = o.runs ufs.sb (D.ino n) ∧
      (Heads ufs.sb (o.runs ufs.sb (D.ino n)) →
        Heads ufs.sb (o'.runs ufs.sb ((D₁.setIno n i).ino n))) := by
    refine ⟨o, ⟨?_, ?_, ?_, ?_, ?_, ?_, ?_⟩, ?_, ?_, ?_, ?_, ?_⟩
    · rw [Disk.setIno_at, hruns]
      exact (hd.space hs).congr rfl rfl
    · rw [Disk.setIno_at]
      exact hlaid.congr fun _ _ => rfl
    · rw [Disk.setIno_at, Owned.sectors, hruns]
      exact (congrArg (fun d : Dinode => d.blocks) hino).trans hb
    · intro m hm
      rw [Disk.setIno_ino, Function.update_of_ne hm, hd.ino]
    · exact hd.spaceOnly.core
    · exact hd.spaceOnly.total
    · rintro a ⟨r, hr, hm⟩
      refine hd.data a ?_
      rintro ⟨r', hr', hm'⟩
      exact (List.pairwise_append.mp hs.apart).2.2 r' (List.mem_append_left _ hr') r hr _ hm' hm
    · rw [Disk.setIno_at]
    · rw [Disk.setIno_at, ← hino]
      rfl
    · rw [Disk.setIno_at]
      refine (Disk.body_of_data (Disk.setIno_data _ _ _) _ _).trans (hbody.trans ?_)
      exact overlay_body hcovn hlen hcl hold ho hN
    · rw [Disk.setIno_at, hruns]
    · intro hh
      rwa [Disk.setIno_at, hruns]
  split_ifs with hne
  · refine writeInodeSize_hoare hn ?_
    rw [Nat.mod_eq_of_lt (by omega : newSize < 2 ^ 64)]
    exact hfinal
  · have hid : D₁.setIno n i = D₁ := by
      have heq : i = D₁.ino n := by
        rw [hi, not_not.mp hne, ← hino]
      rw [heq, Disk.setIno_self]
    rw [hid] at hfinal
    exact Act.hoare_pure hfinal

theorem applyInodeWrite_hoare (g : ufs.sb.Geometry) (hfill : ufs.sb.PointersFill) {n : ℕ}
    (hn : n < ufs.sb.inodes) {D : Disk}
    {o : Owned} {others : List Run} (hs : Space ufs.sb D (o.runs ufs.sb (D.ino n) ++ others))
    (hl : Laid ufs.sb D (D.ino n) o.data o.ptrs)
    (hb : (D.ino n).blocks = o.sectors ufs.sb (D.ino n)) {offset : ℕ} {data : Bytes}
    (ho : offset ≤ (D.ino n).size) (hend : offset + data.length < 2 ^ 63) :
    (applyInodeWrite ufs n offset data).hoare ufs.Holds D
      (fun _ D' => ∃ o', Replaced ufs.sb D D' n o' others ∧
        (D'.ino n).size = max (D.ino n).size (offset + data.length) ∧
        (D'.ino n).core = (D.ino n).core ∧ D'.contents ufs.sb (D'.ino n) o' =
          (D.contents ufs.sb (D.ino n) o).overlay offset data ∧
        (o'.runs ufs.sb (D'.ino n) = o.runs ufs.sb (D.ino n) ∨
          (o'.runs ufs.sb (D'.ino n)).length =
            ufs.sb.blocksNeeded (max (D.ino n).size (offset + data.length))) ∧
        (Heads ufs.sb (o.runs ufs.sb (D.ino n)) → Heads ufs.sb (o'.runs ufs.sb (D'.ino n))))
      (Stranded ufs D (o.runs ufs.sb (D.ino n)) others
        (ufs.sb.blocksNeeded (max (D.ino n).size (offset + data.length)))) := by
  have hrun : ∀ r ∈ o.runs ufs.sb (D.ino n), ufs.sb.IsRun r.1 r.2 := fun r hr =>
    hs.isRun r (List.mem_append_left _ hr)
  have hsize := hl.size_lt
  have hnew : max (D.ino n).size (offset + data.length) < 2 ^ 63 := max_lt hsize hend
  have hcov := hl.covers g
  have hcovn := Superblock.allocationByteSizes_covers g hnew
  have hlen := hl.sizes_length g
  have hlenn := Superblock.allocationByteSizes_length g hnew
  have hcl := hl.contents_length g
  rw [applyInodeWrite]
  refine Act.hoare_read_bind (a := some (D.ino n).toInode) (fun s h => by rw [h.readInode hn]) ?_
  dsimp only
  refine Act.hoare_read_bind (fun s h => hl.inodeDataBlocks h (Owned.ptrs_isRun hrun)) ?_
  generalize hN : max (D.ino n).size (offset + data.length) = newSize at *
  have hle : offset + data.length ≤ newSize := by omega
  by_cases hsame : ufs.sb.allocationByteSizes newSize = ufs.sb.allocationByteSizes (D.ino n).size
  · rw [if_pos hsame]
    refine (applyInPlace_hoare g hn hs hl hb ho hnew hN hsame).post ?_
    rintro - D' ⟨o', hrep, hsz, hcore, hcont, hruns, hheads⟩
    exact ⟨o', hrep, hsz, hcore, hcont, .inl hruns, hheads⟩
  rw [if_neg hsame]
  set alloc := ufs.sb.allocationByteSizes (D.ino n).size with hA
  set wanted := ufs.sb.allocationByteSizes newSize with hW
  set keep := commonAllocationPrefix alloc wanted with hkeep
  obtain ⟨hk1, hk2⟩ := commonAllocationPrefix_le alloc wanted
  rw [← hkeep] at hk1 hk2
  have hktake : alloc.take keep = wanted.take keep := commonAllocationPrefix_take alloc wanted
  have hgrow : (D.ino n).size < newSize := by
    rcases Nat.lt_or_ge (D.ino n).size newSize with h | h
    · exact h
    · refine absurd ?_ hsame
      rw [hW, hA, show newSize = (D.ino n).size by omega]
  -- the runs of the inode: kept ones, the old tail, the pointer blocks
  have hkl : (o.data.take keep).length = (alloc.take keep).length := by
    rw [List.length_take, List.length_take, hlen]
  have hsuffix : (o.data.drop keep).length = (alloc.drop keep).length := by
    rw [List.length_drop, List.length_drop, hlen]
  have hsplit : dataRuns o.data alloc =
      dataRuns (o.data.take keep) (alloc.take keep) ++ dataRuns (o.data.drop keep) (alloc.drop keep) := by
    rw [← dataRuns_append hkl, List.take_append_drop, List.take_append_drop]
  set kept := dataRuns (o.data.take keep) (alloc.take keep) with hkept
  have hs' : Space ufs.sb D (dataRuns (o.data.drop keep) (alloc.drop keep) ++
      blockRuns ufs.sb o.ptrs ++ (kept ++ others)) := by
    refine hs.perm ?_
    rw [Owned.runs_eq, ← hA, hsplit]
    simpa only [List.append_assoc] using List.perm_append_comm_assoc kept
      (dataRuns (o.data.drop keep) (alloc.drop keep) ++ blockRuns ufs.sb o.ptrs) others
  have hkeptl : kept.length = keep := by
    rw [hkept, dataRuns_length hkl, List.length_take]
    omega
  have hkeptOwn : ∀ f, Covered kept f → Covered (o.runs ufs.sb (D.ino n)) f := by
    intro f hf
    rw [Owned.runs_eq, ← hA, hsplit, covered_append, covered_append]
    exact .inl (.inl hf)
  have hseed := fun (s : Bytes) (h : ufs.Holds s D) => h.readDataRange (hcov.drop keep) hsuffix
    (fun r hr => hs'.isRun r (List.mem_append_left _ (List.mem_append_left _ hr)))
    (show 0 + ((D.ino n).size - keep * ufs.sb.bsize) ≤ _ by omega)
  have hseedl : (D.body ufs.sb (o.data.drop keep) ((D.ino n).size - keep * ufs.sb.bsize)).length =
      (D.ino n).size - keep * ufs.sb.bsize := Disk.body_length (hcov.drop keep) hsuffix
  set seed := D.body ufs.sb (o.data.drop keep) ((D.ino n).size - keep * ufs.sb.bsize) with hseedD
  have hslice : seed.slice 0 ((D.ino n).size - keep * ufs.sb.bsize) = seed := by
    rw [Bytes.slice_zero_take, List.take_of_length_le hseedl.le]
  rw [hslice] at hseed
  refine Act.hoare_lift_bind (Outcome.guard_true (by omega)) ?_
  refine Act.hoare_read_bind hseed ?_
  refine Act.hoare_read_bind (fun s h => hl.inodePointerBlocks h (Owned.ptrs_isRun hrun)) ?_
  refine (freeOwned_hoare g hsuffix hs').bind ?_
  rintro - D₁ ⟨hs₁, ho₁⟩
  have hfail : ∀ {need : ℕ} {e : Fault} {image : Bytes},
      OutOfSpace ufs D₁ (kept ++ others) need e image →
      need + kept.length ≤ ufs.sb.blocksNeeded newSize →
      Stranded ufs D (o.runs ufs.sb (D.ino n)) others (ufs.sb.blocksNeeded newSize) e image :=
    fun h hle => ⟨D₁, kept, hs₁, ho₁, hkeptOwn, _, h, hle⟩
  refine ((allocateData_hoare g hs₁ (hcovn.drop keep).allocSize).mono (fun _ _ h => h)
    fun e image he => hfail he ?_).bind ?_
  · rw [hkeptl, List.length_drop, hlenn, Superblock.blocksNeeded]
    omega
  rintro tail D₂ ⟨htl, ht₂⟩
  set blocks := o.data.take keep ++ tail with hblocks
  have hkeepl : (o.data.take keep).length = keep := by
    rw [List.length_take]
    omega
  have hdropb : blocks.drop keep = tail := List.drop_left' hkeepl
  have hblockl : blocks.length = wanted.length := by
    rw [hblocks, List.length_append, hkeepl, htl, List.length_drop]
    omega
  have hnewRuns : dataRuns blocks wanted = kept ++ dataRuns tail (wanted.drop keep) := by
    rw [hkept, hktake, ← dataRuns_append (hkl.trans (congrArg List.length hktake)),
      List.take_append_drop]
  rw [hdropb]
  -- once the head of the new tail holds the old one, pointers, size and range follow
  have hrest : ∀ D₃, DataOnly D₂ D₃ (dataRuns tail (wanted.drop keep)) →
      (D₃.body ufs.sb tail (newSize - keep * ufs.sb.bsize)).take seed.length = seed →
      (buildInodePointerStructure ufs n blocks >>= fun count =>
        writeSizeAndBlocks ufs n newSize wanted count >>= fun _ =>
          writeDataRange ufs blocks wanted offset data).hoare ufs.Holds D₃
      (fun _ D' => ∃ o', Replaced ufs.sb D D' n o' others ∧ (D'.ino n).size = newSize ∧
        (D'.ino n).core = (D.ino n).core ∧ D'.contents ufs.sb (D'.ino n) o' =
          (D.contents ufs.sb (D.ino n) o).overlay offset data ∧
        (o'.runs ufs.sb (D'.ino n) = o.runs ufs.sb (D.ino n) ∨
          (o'.runs ufs.sb (D'.ino n)).length = ufs.sb.blocksNeeded newSize) ∧
        (Heads ufs.sb (o.runs ufs.sb (D.ino n)) → Heads ufs.sb (o'.runs ufs.sb (D'.ino n))))
      (Stranded ufs D (o.runs ufs.sb (D.ino n)) others (ufs.sb.blocksNeeded newSize)) := by
    intro D₃ hd₃ hseed₃
    have ht₃ := ht₂.fill hd₃
    have hperm : (dataRuns tail (wanted.drop keep) ++ (kept ++ others)).Perm
        (dataRuns blocks wanted ++ others) := by
      rw [hnewRuns, ← List.append_assoc]
      exact List.Perm.append_right _ List.perm_append_comm
    refine ((linkBlocks_hoare g hfill hn hnew hblockl (ht₃.space.perm hperm)).mono (fun _ _ h => h)
      fun e image he => ?_).bind ?_
    · refine hfail ((he.perm hperm.symm).after ht₃ le_rfl) ?_
      rw [hkeptl, dataRuns_length htl, htl, List.length_drop, hblockl, hlenn,
        Superblock.blocksNeeded]
      omega
    rintro count D₄ ⟨ptrs, rfl, hlink⟩
    refine (recordSize_hoare g hn hlink hnew).bind ?_
    rintro - D₅ ⟨hrep, hsize₅, hcore₅, hcont₅⟩
    have hruns₅ := hrep.space.isRun
    have hap₅ := (List.pairwise_append.mp (List.pairwise_append.mp hrep.space.apart).1).1
    have hfill := fun D₆ => @Replaced.fill _ g _ _ D₆ _ _ _ hrep
    rw [hsize₅] at hap₅ hfill
    refine (writeDataRange_hoare g hcovn hblockl (fun r hr => hruns₅ r ?_) hap₅ hle).post ?_
    · rw [Owned.runs_eq, hsize₅]
      exact List.mem_append_left _ (List.mem_append_left _ hr)
    rintro - D₆ ⟨hd₆, hbody₆⟩
    have hrep₆ := hfill D₆ hd₆
    refine ⟨⟨blocks, ptrs⟩, ?_, ?_, ?_, ?_, ?_, ?_⟩
    rotate_right 2
    · right
      rw [Owned.runs_length (by rw [hd₆.ino, hsize₅]; exact hblockl), hlink.count]
      dsimp only
      rw [hblockl, hlenn, Superblock.blocksNeeded]
    · intro hh
      rw [Owned.runs_eq, hd₆.ino, hsize₅, hnewRuns]
      refine Heads.append (Heads.append (fun r hr => hh r ?_) ht₂.heads) hlink.heads
      rw [Owned.runs_eq, ← hA, hsplit]
      exact List.mem_append_left _ (List.mem_append_left _ hr)
    · refine (hrep₆.of_spaceOnly ht₃.only fun f hf => ht₃.apart_others f ?_).of_spaceOnly ho₁
        fun _ _ => not_covered_nil
      exact covered_append.mpr (.inr hf)
    · rw [hd₆.ino, hsize₅]
    · rw [hd₆.ino, hcore₅, ht₃.only.ino, ho₁.ino]
    · rw [Disk.contents, hsize₅] at hcont₅
      rw [Disk.contents, hd₆.ino, hsize₅]
      refine hbody₆.trans ((congrArg (fun b => Bytes.overlay b offset data) hcont₅).trans ?_)
      refine overlay_body hcovn hblockl hcl ?_ ho hN
      -- the first bytes are the old contents: the kept blocks and the old tail
      have hroom := hcovn.size_le
      rw [← hblockl] at hroom
      have hkeptBody : D₃.body ufs.sb (o.data.take keep) (D.ino n).size =
          D.body ufs.sb (o.data.take keep) (D.ino n).size := by
        rw [Disk.body_min (D := D₃), Disk.body_min (D := D), hkeepl]
        refine Disk.body_congr (hcov.take g.bsize_pos keep) hkl fun a ha => ?_
        rw [ht₃.keeps (covered_append.mpr (.inl ha)), ho₁.data a not_covered_nil]
      have htailBody : D₃.body ufs.sb tail ((D.ino n).size - keep * ufs.sb.bsize) = seed := by
        have htroom := (hcovn.drop keep).size_le
        rw [← htl] at htroom
        have hle : (D.ino n).size - keep * ufs.sb.bsize ≤ newSize - keep * ufs.sb.bsize := by omega
        rw [Disk.body_take hle (by omega), ← hseedl, hseed₃]
      have htake : (D₃.body ufs.sb blocks newSize).take (D.ino n).size =
          D₃.body ufs.sb blocks (D.ino n).size := (Disk.body_take hgrow.le (by omega)).symm
      refine htake.trans ?_
      rw [hblocks, Disk.body_append, hkeepl, hkeptBody, htailBody, hseedD, Disk.contents]
      conv_rhs => rw [← List.take_append_drop keep o.data, Disk.body_append, hkeepl]
  split_ifs with hne
  · refine (writeDataRange_hoare g (hcovn.drop keep) htl (fun r hr => ht₂.isRun hr)
      (List.pairwise_append.mp ht₂.space.apart).1 (by omega)).bind ?_
    rintro - D₃ ⟨hd, hbody⟩
    refine hrest D₃ hd ?_
    rw [hbody, Bytes.overlay, List.take_zero, List.nil_append, List.take_left']
    rfl
  · refine hrest D₂ (DataOnly.refl _ _) ?_
    rw [not_not.mp hne]
    rfl

end Apply
end UfsFuse
