import UfsFuse.Steps

/-!
# What a change to one inode leaves alone

The write path changes the blocks of one inode at a time. Read off the image, that leaves the inode
map, the other inodes, the blocks they claim and the bytes in these as they were.
-/
namespace UfsFuse

/-- Inode `n` is marked used in the map of its group. -/
def inodeBit (image : Bytes) (ufs : Ufs) (n : ℕ) : Bool :=
  match readCgBlock image ufs (ufs.sb.itog n) >>= fun cg => isInodeUsed cg (n % ufs.sb.ipg) with
  | .ok used => used
  | _ => false

/-- The stored bytes of inode `n`. -/
def inodeRaw (image : Bytes) (ufs : Ufs) (n : ℕ) : Bytes :=
  image.slice (inodeOffset ufs n) ufsDinodeSize

/-- The bytes of a run of fragments. -/
def runRaw (image : Bytes) (ufs : Ufs) (r : Run) : Bytes :=
  image.slice (ufs.sb.dataBlockOffset ufs.startOffset r.1) (r.2 * sectorSize)

/-- The contents of inode `n`. -/
def contentsAt (image : Bytes) (ufs : Ufs) (n : ℕ) : Option Bytes :=
  match readInode image ufs n with
  | none => none
  | some inode =>
    match readInodeBytes image ufs inode with
    | .ok body => some body
    | _ => none

/-- Apart from inode `n` and its blocks, `image'` shows what `image` shows. -/
structure OthersKept (ufs : Ufs) (n : ℕ) (image image' : Bytes) : Prop where
  used : ∀ m < ufs.sb.inodes, inodeBit image' ufs m = inodeBit image ufs m
  inode : ∀ m < ufs.sb.inodes, m ≠ n → inodeRaw image' ufs m = inodeRaw image ufs m
  claims : ∀ m, inUse image ufs m = true → m ≠ n →
    claimedRuns image' ufs m = claimedRuns image ufs m
  blocks : ∀ m, inUse image ufs m = true → m ≠ n → ∀ r ∈ claimedRuns image ufs m,
    runRaw image' ufs r = runRaw image ufs r
  contents : ∀ m, inUse image ufs m = true → m ≠ n → contentsAt image' ufs m = contentsAt image ufs m
  entries : ∀ m, isDir image ufs m = true → m ≠ n → entriesAt image' ufs m = entriesAt image ufs m

section Views
variable {ufs : Ufs} {image image' : Bytes} {D D' : Disk} {own : ℕ → Owned} {T : Table} {m n : ℕ}

theorem Ufs.Holds.inodeBit (h : ufs.Holds image D) (hm : m < ufs.sb.inodes) :
    UfsFuse.inodeBit image ufs m = (D.cg (m / ufs.sb.ipg)).used (m % ufs.sb.ipg) := by
  have g := h.geom
  obtain ⟨b, hb, hlen, hdec⟩ := h.readCgBlock (Superblock.div_ipg_lt hm)
  have hmax : m % ufs.sb.ipg < maxipg := (g.mod_ipg_lt m).trans_le g.ipg_le
  have hu := isInodeUsed_eq hmax (hlen ▸ g.free_le_bsize)
  rw [UfsFuse.inodeBit, Superblock.itog, hb, Outcome.ok_bind, hu, hdec]

/-- The view of an inode decides its bytes. -/
theorem Ufs.Holds.inodeRaw_eq (h : ufs.Holds image D) (h' : ufs.Holds image' D')
    (hm : m < ufs.sb.inodes) (he : D'.ino m = D.ino m) :
    inodeRaw image' ufs m = inodeRaw image ufs m := by
  have g := h.geom
  have hin := g.inoOff_inside hm
  have hoff := inodeOffset_eq g m
  have hlen : ∀ {b : Bytes}, ufs.Fits b → (inodeRaw b ufs m).length = 128 := by
    intro b hf
    have hinside := hf.inside
    exact Bytes.slice_length (by simp only [ufsDinodeSize]; omega)
  obtain ⟨hf, rfl⟩ := h
  obtain ⟨hf', rfl⟩ := h'
  simp only [view, if_pos hm] at he
  exact Dinode.decode_injective (hlen hf') (hlen hf) he

theorem Ufs.Holds.runRaw (h : ufs.Holds image D) {r : Run} (hr : ufs.sb.IsRun r.1 r.2) :
    UfsFuse.runRaw image ufs r = D.bytes (r.1 * 512) (r.2 * 512) := by
  have g := h.geom
  have hpos : 0 < r.2 := hr.2.2.1
  have hs := h.getSlice (hr.inData g le_rfl) (by omega)
  rw [UfsFuse.getSlice, Outcome.bind_eq_ok] at hs
  obtain ⟨-, -, hs⟩ := hs
  rw [UfsFuse.runRaw, g.dataBlockOffset_eq]
  exact Outcome.ok.inj hs

theorem Beside.bytes (hb : Beside ufs.sb own T.live n D D') (hm : m ∈ T.live) (hmn : m ≠ n) {r : Run}
    (hr : r ∈ (own m).runs ufs.sb (D.ino m)) :
    D'.bytes (r.1 * 512) (r.2 * 512) = D.bytes (r.1 * 512) (r.2 * 512) := by
  refine Disk.bytes_congr fun a h1 h2 => hb.keeps a ?_
  refine ⟨r, mem_ledger.mpr ⟨m, Finset.mem_erase.mpr ⟨hmn, hm⟩, hr⟩, ?_, ?_⟩
  · omega
  · omega

theorem Ufs.Stores.contentsAt (h : ufs.Stores image T) (hn : n ∈ T.live) :
    UfsFuse.contentsAt image ufs n = some (T.file n).body := by
  rw [UfsFuse.contentsAt, h.readInode hn]
  dsimp only
  rw [h.readInodeBytes hn]

end Views

section Kept
variable {ufs : Ufs} {image image' : Bytes} {D D' : Disk} {own own' : ℕ → Owned} {T T' : Table}
variable {N : NameTree} {m n : ℕ}

theorem Carries.live_of_inUse (hc : Carries T N N.links) (hi : ufs.Stores image T)
    (hm : UfsFuse.inUse image ufs m = true) : m ∈ T.live := by
  rw [hc.live]
  exact (hc.used_iff hi).mp (hi.inUse.mp hm)

/-- A change beside the others keeps what the image shows of them. -/
theorem Beside.othersKept (hb : Beside ufs.sb own T.live n D D') (hi : ufs.Holds image D)
    (hv : Volume ufs.sb D own T) (hi' : ufs.Holds image' D') (hv' : Volume ufs.sb D' own' T')
    (hc : Carries T N N.links) (hs : N.Sound)
    (hsame : ∀ m ∈ T.live, m ≠ n → m ∈ T'.live ∧ T'.file m = T.file m) :
    OthersKept ufs n image image' := by
  have g := hi.geom
  have hst : ufs.Stores image T := ⟨D, own, hi, hv⟩
  have hst' : ufs.Stores image' T' := ⟨D', own', hi', hv'⟩
  have hlaid : ∀ m ∈ T.live, m ≠ n → Laid ufs.sb D' (D'.ino m) (own m).data (own m).ptrs :=
    fun m hm hmn => (hv.untouched g (Finset.mem_erase.mpr ⟨hmn, hm⟩) (hb.inodes m hmn) hb.keeps).1
  refine ⟨fun m hm => ?_, fun m hm hmn => ?_, fun m hu hmn => ?_, fun m hu hmn r hr => ?_,
    fun m hu hmn => ?_, fun m hd hmn => ?_⟩
  · rw [hi.inodeBit hm, hi'.inodeBit hm]
    exact congrFun (congrArg CgView.used (hb.core _)) _
  · exact hi.inodeRaw_eq hi' hm (hb.inodes m hmn)
  · have hm := hc.live_of_inUse hst hu
    have hrun := Owned.ptrs_isRun (hv.isRun hm)
    have hl := hlaid m hm hmn
    rw [hv.claimedRuns hi hm, claimedRuns, hi'.readInode (hv.live_lt hm)]
    dsimp only
    rw [hl.inodeDataBlocks hi' hrun, hl.inodePointerBlocks hi' hrun, hb.inodes m hmn]
  · have hm := hc.live_of_inUse hst hu
    rw [hv.claimedRuns hi hm] at hr
    have hrun := hv.isRun hm r hr
    rw [hi.runRaw hrun, hi'.runRaw hrun]
    exact hb.bytes hm hmn hr
  · have hm := hc.live_of_inUse hst hu
    obtain ⟨hm', hfile⟩ := hsame m hm hmn
    rw [hst.contentsAt hm, hst'.contentsAt hm', hfile]
  · have hm := (hc.shows hs hst).isDir.mp hd
    have hlive : m ∈ T.live := hc.live ▸ hs.dirs_live hm
    obtain ⟨hm', hfile⟩ := hsame m hlive hmn
    obtain ⟨es, hes, -⟩ := hc.body m hm
    have hes' : Directory (T'.file m).body es := hfile ▸ hes
    rw [entriesAt, entriesAt, hst.readInode hlive, hst'.readInode hm']
    dsimp only
    rw [hst.storedEntries hlive hes, hst'.storedEntries hm' hes']

end Kept
end UfsFuse
