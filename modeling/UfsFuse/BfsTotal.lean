import UfsFuse.Bfs

/-!
# The boot file system on arbitrary bytes

The readers of `svr4-bfs` with every index and every sum of offsets checked. On any bytes with a
superblock they do what the unchecked readers say.
-/
namespace UfsFuse
namespace BootFs

/-! ## Readers with checked indices -/

def detectAtStartChecked (image : Bytes) (fsStart : ℕ) : Outcome BfsError (Option Bfs) := do
  let stop ← usize (fsStart + bfsSuperSize)
  if stop > image.length then pure none
  else do
    let magic ← Codec.u32 image fsStart
    if magic ≠ bfsMagic then pure none
    else do
      let dataStart ← Codec.u32 image (fsStart + 4)
      let dataEnd ← Codec.u32 image (fsStart + 8)
      if dataStart < bfsSuperSize ∨ dataEnd < dataStart then pure none
      else pure (some ⟨fsStart, dataStart, dataEnd⟩)

/-- The extent and the file type in the slot of `inodeNumber`. -/
def readInodeChecked (image : Bytes) (bfs : Bfs) (inodeNumber : ℕ) :
    Outcome BfsError (Option (Extent × ℕ)) :=
  if inodeNumber < bfsRootInode then pure none
  else do
    let slot := inodeNumber - bfsRootInode
    let table ← usize (bfs.startOffset + bfsSuperSize)
    let inner ← usize (slot * bfsDirentSize)
    let pos ← usize (table + inner)
    let stop ← usize (pos + bfsDirentSize)
    if stop > image.length then pure none
    else do
      let storedIno ← Codec.u16 image (pos + Dirent.ino)
      if storedIno ≠ inodeNumber then pure none
      else do
        let sblock ← Codec.u32 image (pos + Dirent.sblock)
        let eblock ← Codec.u32 image (pos + Dirent.eblock)
        let eoffset ← Codec.u32 image (pos + Dirent.eoffset)
        let fileType ← Codec.u32 image (pos + Dirent.vattr)
        pure (some (⟨sblock, eblock, eoffset⟩, fileType))

/-- The `while` loop of `list_root`, for so many rounds; without an answer it goes on. -/
def listLoop (image : Bytes) (bfs : Bfs) (dirStart dirLen : ℕ) :
    ℕ → ℕ → List BfsEntry → Outcome BfsError (Option (List BfsEntry))
  | 0, offset, entries => do
      let stop ← usize (offset + bfsLdirSize)
      pure (if stop > dirLen then some entries else none)
  | rounds + 1, offset, entries => do
      let stop ← usize (offset + bfsLdirSize)
      if stop > dirLen then pure (some entries)
      else do
        let pos ← usize (dirStart + offset)
        let posEnd ← usize (pos + bfsLdirSize)
        if posEnd > image.length then pure (some entries)
        else do
          let ino ← Codec.u16 image pos
          if ino ≠ 0 then do
            let raw ← Codec.range image (pos + 2) (bfsLdirSize - 2)
            let name := fromUtf8Lossy (raw.takeWhile (· ≠ 0))
            let inode ← readInodeChecked image bfs ino
            let size := (inode.map fun i => inodeSize i.1).getD 0
            listLoop image bfs dirStart dirLen rounds (offset + bfsLdirSize)
              (entries ++ [⟨name, ino, size⟩])
          else listLoop image bfs dirStart dirLen rounds (offset + bfsLdirSize) entries

def listRootChecked (rounds : ℕ) (image : Bytes) (bfs : Bfs) :
    Outcome BfsError (Option (List BfsEntry)) := do
  let root ← readInodeChecked image bfs bfsRootInode
  match root with
  | none => pure (some [])
  | some (extent, _) => do
    let inner ← usize (extent.startBlock * sectorSize)
    let dirStart ← usize (bfs.startOffset + inner)
    listLoop image bfs dirStart (inodeSize extent) rounds 0 []

def readFileChecked (rounds : ℕ) (image : Bytes) (bfs : Bfs) (name : Str) :
    Outcome BfsError (Option (Option Bytes)) := do
  let listed ← listRootChecked rounds image bfs
  match listed with
  | none => pure none
  | some entries =>
    match entries.find? fun e => e.name = name with
    | none => pure (some none)
    | some entry => do
      let inode ← readInodeChecked image bfs entry.inode
      match inode with
      | none => pure (some none)
      | some (extent, _) => do
        let size := inodeSize extent
        let inner ← usize (extent.startBlock * sectorSize)
        let start ← usize (bfs.startOffset + inner)
        let stop ← usize (start + size)
        if stop > image.length then pure (some none)
        else do
          let data ← Codec.range image start size
          pure (some (some data))

/-! ## No index leaves the image -/
section Inside
variable {image : Bytes} {fsStart : ℕ} {bfs : Bfs}

theorem detectAtStartChecked_eq (h : fsStart + bfsSuperSize < 2 ^ 64) :
    detectAtStartChecked image fsStart = .ok (detectAtStart image fsStart) := by
  unfold detectAtStartChecked detectAtStart
  rw [usize_eq h, Outcome.ok_bind]
  by_cases hin : fsStart + bfsSuperSize > image.length
  · rw [if_pos hin, if_pos hin]
    rfl
  · have hle : fsStart + 512 ≤ image.length := not_lt.mp hin
    rw [if_neg hin, if_neg hin, Codec.u32_eq (by omega), Outcome.ok_bind]
    by_cases hmagic : image.u32 fsStart ≠ bfsMagic
    · rw [if_pos hmagic, if_pos hmagic]
      rfl
    · rw [if_neg hmagic, if_neg hmagic, Codec.u32_eq (by omega), Outcome.ok_bind,
        Codec.u32_eq (by omega), Outcome.ok_bind]
      by_cases hdata : image.u32 (fsStart + 4) < bfsSuperSize ∨
          image.u32 (fsStart + 8) < image.u32 (fsStart + 4)
      · rw [if_pos hdata]
        dsimp only
        rw [if_pos hdata]
        rfl
      · rw [if_neg hdata]
        dsimp only
        rw [if_neg hdata]
        rfl

/-- A file system that was detected has its superblock in the image. -/
theorem superblock_inside (h : detectAtStartChecked image fsStart = .ok (some bfs)) :
    bfs.startOffset + bfsSuperSize ≤ image.length := by
  have hguard : fsStart + bfsSuperSize < 2 ^ 64 := by
    unfold detectAtStartChecked at h
    obtain ⟨stop, hstop, -⟩ := Outcome.bind_eq_ok.mp h
    exact (usize_eq_ok.mp hstop).1
  rw [detectAtStartChecked_eq hguard] at h
  unfold detectAtStart at h
  dsimp only at h
  split_ifs at h with hin hmagic hdata
  · simp at h
  · simp at h
  · simp at h
  · obtain rfl := Option.some.inj (Outcome.ok.inj h)
    exact not_lt.mp hin

variable (hlen : image.length < 2 ^ 63) (hbfs : bfs.startOffset + bfsSuperSize ≤ image.length)
include hlen hbfs

/-- The slot of an inode. -/
def slotOffset (bfs : Bfs) (inodeNumber : ℕ) : ℕ :=
  bfs.startOffset + bfsSuperSize + (inodeNumber - bfsRootInode) * bfsDirentSize

theorem readInodeChecked_eq {n : ℕ} (hn : n < 2 ^ 16) :
    readInodeChecked image bfs n = .ok ((readInode image bfs n).map fun extent =>
      (extent, image.u32 (slotOffset bfs n + Dirent.vattr))) := by
  have hbase : bfs.startOffset + 512 < 2 ^ 63 := hbfs.trans_lt hlen
  unfold readInodeChecked readInode slotOffset
  simp only [bfsRootInode, bfsSuperSize, bfsDirentSize, Dirent.ino, Dirent.sblock, Dirent.eblock,
    Dirent.eoffset, Dirent.vattr]
  by_cases hroot : n < 2
  · rw [if_pos hroot, if_pos hroot]
    rfl
  rw [if_neg hroot, if_neg hroot, usize_eq (by omega), Outcome.ok_bind, usize_eq (by omega),
    Outcome.ok_bind, usize_eq (by omega), Outcome.ok_bind, usize_eq (by omega), Outcome.ok_bind]
  by_cases hin : bfs.startOffset + 512 + (n - 2) * 64 + 64 > image.length
  · rw [if_pos hin, if_pos hin]
    rfl
  rw [if_neg hin, if_neg hin, Codec.u16_eq (by omega), Outcome.ok_bind]
  by_cases hino : image.u16 (bfs.startOffset + 512 + (n - 2) * 64 + 0) ≠ n
  · rw [if_pos hino, if_pos hino]
    rfl
  · rw [if_neg hino, if_neg hino, Codec.u32_eq (by omega), Outcome.ok_bind,
      Codec.u32_eq (by omega), Outcome.ok_bind, Codec.u32_eq (by omega), Outcome.ok_bind,
      Codec.u32_eq (by omega), Outcome.ok_bind]
    rfl

end Inside

/-! ## Listing and reading -/
section Reading
variable {image : Bytes} {fsStart : ℕ} {bfs : Bfs} {n : ℕ} {extent : Extent}

/-- What `read_inode` returns is what the slot of this number holds. -/
structure InSlot (image : Bytes) (bfs : Bfs) (n : ℕ) (extent : Extent) : Prop where
  inside : slotOffset bfs n + bfsDirentSize ≤ image.length
  number : image.u16 (slotOffset bfs n + Dirent.ino) = n
  startBlock : extent.startBlock = image.u32 (slotOffset bfs n + Dirent.sblock)
  endBlock : extent.endBlock = image.u32 (slotOffset bfs n + Dirent.eblock)
  endOffset : extent.endOffset = image.u32 (slotOffset bfs n + Dirent.eoffset)

theorem readInode_inSlot (h : readInode image bfs n = some extent) : InSlot image bfs n extent := by
  unfold readInode at h
  dsimp only at h
  split_ifs at h with hroot hin hino
  obtain rfl := Option.some.inj h
  exact ⟨not_lt.mp hin, not_not.mp hino, rfl, rfl, rfl⟩

theorem InSlot.lt (h : InSlot image bfs n extent) :
    extent.startBlock < 2 ^ 32 ∧ extent.endOffset < 2 ^ 32 :=
  ⟨h.startBlock ▸ image.u32_lt _, h.endOffset ▸ image.u32_lt _⟩

/-- An extent ends at its last byte. -/
theorem inodeSize_le (extent : Extent) :
    inodeSize extent ≤ extent.endOffset + 1 - extent.startBlock * sectorSize := by
  unfold inodeSize
  dsimp only
  split_ifs <;> omega

/-- The length of the root directory. -/
def rootLength (image : Bytes) (bfs : Bfs) : ℕ :=
  ((readInode image bfs bfsRootInode).map inodeSize).getD 0

theorem listFrom_inode_lt {dirStart : ℕ} {entry : BfsEntry} (rounds offset : ℕ)
    (h : entry ∈ listFrom image bfs dirStart rounds offset) : entry.inode < 2 ^ 16 := by
  induction rounds generalizing offset with
  | zero => simp [listFrom] at h
  | succ rounds ih =>
    unfold listFrom at h
    dsimp only at h
    split_ifs at h with hin hino
    · simp at h
    · rcases List.mem_cons.mp h with rfl | h
      · exact image.u16_lt _
      · exact ih _ h
    · exact ih _ h

theorem listRoot_inode_lt {entry : BfsEntry} (h : entry ∈ listRoot image bfs) :
    entry.inode < 2 ^ 16 := by
  unfold listRoot at h
  cases hroot : readInode image bfs bfsRootInode with
  | none => simp [hroot] at h
  | some extent =>
    rw [hroot] at h
    exact listFrom_inode_lt _ _ h

variable (hlen : image.length < 2 ^ 63) (hbfs : bfs.startOffset + bfsSuperSize ≤ image.length)
include hlen hbfs

/-- The loop is over when every 16 bytes of the directory had their round. -/
theorem listLoop_eq {dirStart dirLen : ℕ} (hstart : dirStart < 2 ^ 63 + 2 ^ 41)
    (hdir : dirLen ≤ 2 ^ 32) (rounds done : ℕ) (entries : List BfsEntry)
    (hdone : done ≤ dirLen / bfsLdirSize) (hrounds : dirLen / bfsLdirSize ≤ done + rounds) :
    listLoop image bfs dirStart dirLen rounds (done * bfsLdirSize) entries =
      .ok (some (entries ++
        listFrom image bfs dirStart (dirLen / bfsLdirSize - done) (done * bfsLdirSize))) := by
  simp only [bfsLdirSize] at hdone hrounds ⊢
  induction rounds generalizing done entries with
  | zero =>
    have hend : done = dirLen / 16 := by omega
    unfold listLoop
    simp only [bfsLdirSize]
    rw [usize_eq (by omega), Outcome.ok_bind, if_pos (by omega), ← hend, Nat.sub_self, listFrom,
      List.append_nil]
    rfl
  | succ rounds ih =>
    unfold listLoop
    simp only [bfsLdirSize]
    rw [usize_eq (by omega), Outcome.ok_bind]
    by_cases hend : done * 16 + 16 > dirLen
    · rw [if_pos hend, show dirLen / 16 - done = 0 by omega, listFrom, List.append_nil]
      rfl
    obtain ⟨left, hleft⟩ : ∃ left, dirLen / 16 - done = left + 1 := ⟨dirLen / 16 - done - 1, by omega⟩
    have hnext : dirLen / 16 - (done + 1) = left := by omega
    rw [if_neg hend, usize_eq (by omega), Outcome.ok_bind, usize_eq (by omega), Outcome.ok_bind, hleft,
      listFrom]
    simp only [bfsLdirSize]
    by_cases hin : dirStart + done * 16 + 16 > image.length
    · rw [if_pos hin, if_pos hin, List.append_nil]
      rfl
    rw [if_neg hin, if_neg hin, Codec.u16_eq (by omega), Outcome.ok_bind,
      show done * 16 + 16 = (done + 1) * 16 by omega]
    by_cases hino : image.u16 (dirStart + done * 16) ≠ 0
    · rw [if_pos hino, if_pos hino, Codec.range_eq (by omega), Outcome.ok_bind,
        readInodeChecked_eq hlen hbfs (image.u16_lt _), Outcome.ok_bind,
        ih (done + 1) _ (by omega) (by omega), hnext, List.append_assoc, Option.map_map]
      rfl
    · rw [if_neg hino, if_neg hino, ih (done + 1) _ (by omega) (by omega), hnext]

theorem listRootChecked_eq {rounds : ℕ} (h : rootLength image bfs / bfsLdirSize ≤ rounds) :
    listRootChecked rounds image bfs = .ok (some (listRoot image bfs)) := by
  have hbase : bfs.startOffset + 512 < 2 ^ 63 := hbfs.trans_lt hlen
  unfold listRootChecked listRoot
  rw [readInodeChecked_eq hlen hbfs (by norm_num), Outcome.ok_bind]
  unfold rootLength at h
  cases hroot : readInode image bfs bfsRootInode with
  | none => rfl
  | some extent =>
    rw [hroot] at h
    obtain ⟨hstart, hend⟩ := (readInode_inSlot hroot).lt
    have hsize := inodeSize_le extent
    simp only [Option.map_some, sectorSize] at hsize ⊢
    rw [usize_eq (by omega), Outcome.ok_bind, usize_eq (by omega), Outcome.ok_bind]
    have hbelow : bfs.startOffset + extent.startBlock * 512 < 2 ^ 63 + 2 ^ 41 := by omega
    have hdir : inodeSize extent ≤ 2 ^ 32 := by omega
    have hloop := listLoop_eq hlen hbfs hbelow hdir rounds 0 [] (Nat.zero_le _) (by simpa using h)
    simpa using hloop

theorem readFileChecked_eq {rounds : ℕ} (name : Str) (h : rootLength image bfs / bfsLdirSize ≤ rounds) :
    readFileChecked rounds image bfs name = .ok (some (readFile image bfs name)) := by
  have hbase : bfs.startOffset + 512 < 2 ^ 63 := hbfs.trans_lt hlen
  unfold readFileChecked readFile
  rw [listRootChecked_eq hlen hbfs h, Outcome.ok_bind]
  dsimp only
  cases hfind : (listRoot image bfs).find? fun e => e.name = name with
  | none => rfl
  | some entry =>
    have hino := listRoot_inode_lt (List.mem_of_find?_eq_some hfind)
    rw [Option.bind_eq_bind, Option.bind_some]
    dsimp only
    rw [readInodeChecked_eq hlen hbfs hino, Outcome.ok_bind]
    cases hread : readInode image bfs entry.inode with
    | none => rfl
    | some extent =>
      obtain ⟨hstart, hend⟩ := (readInode_inSlot hread).lt
      have hsize := inodeSize_le extent
      simp only [Option.map_some, sectorSize, Option.bind_eq_bind, Option.bind_some] at hsize ⊢
      rw [usize_eq (by omega), Outcome.ok_bind, usize_eq (by omega), Outcome.ok_bind,
        usize_eq (by omega), Outcome.ok_bind]
      by_cases hin : bfs.startOffset + extent.startBlock * 512 + inodeSize extent > image.length
      · rw [if_pos hin, if_pos hin]
        rfl
      · rw [if_neg hin, if_neg hin, Codec.range_eq (not_lt.mp hin), Outcome.ok_bind]
        rfl

end Reading

/-- The bytes of a file lie in the extent that is recorded for its entry. -/
structure FromExtent (image : Bytes) (bfs : Bfs) (name : Str) (data : Bytes) (entry : BfsEntry)
    (extent : Extent) : Prop where
  listed : entry ∈ listRoot image bfs
  named : entry.name = name
  slot : InSlot image bfs entry.inode extent
  inside : bfs.startOffset + extent.startBlock * sectorSize + data.length ≤ image.length
  bytes : data = image.slice (bfs.startOffset + extent.startBlock * sectorSize) data.length
  within : ∀ i < data.length, extent.startBlock * sectorSize + i ≤ extent.endOffset

theorem readFile_fromExtent {image : Bytes} {bfs : Bfs} {name : Str} {data : Bytes}
    (h : readFile image bfs name = some data) :
    ∃ entry extent, FromExtent image bfs name data entry extent := by
  unfold readFile at h
  obtain ⟨entry, hfind, h⟩ := Option.bind_eq_some_iff.mp h
  obtain ⟨extent, hread, h⟩ := Option.bind_eq_some_iff.mp h
  dsimp only at h
  split_ifs at h with hin
  have hlength : (image.slice (bfs.startOffset + extent.startBlock * sectorSize)
      (inodeSize extent)).length = inodeSize extent := Bytes.slice_length (not_lt.mp hin)
  obtain rfl := Option.some.inj h
  refine ⟨entry, extent, List.mem_of_find?_eq_some hfind, ?_, readInode_inSlot hread, ?_, ?_, ?_⟩
  · simpa using List.find?_some hfind
  · rw [hlength]
    exact not_lt.mp hin
  · rw [hlength]
  · intro i hi
    have hsize := inodeSize_le extent
    rw [hlength] at hi
    omega

/-- On any bytes with a superblock, listing the root and reading a file never index outside the image.
The listing takes at most one round for each 16 bytes of the root directory, and what is read of a file
lies in the extent in the slot that carries the inode number of its entry. -/
theorem bfs_total {image : Bytes} {fsStart : ℕ} {bfs : Bfs} (hlen : image.length < 2 ^ 63)
    (h : detectAtStartChecked image fsStart = .ok (some bfs)) :
    listRootChecked (rootLength image bfs / bfsLdirSize) image bfs =
        .ok (some (listRoot image bfs)) ∧
      ∀ name, readFileChecked (rootLength image bfs / bfsLdirSize) image bfs name =
          .ok (some (readFile image bfs name)) ∧
        ∀ data, readFile image bfs name = some data →
          ∃ entry extent, FromExtent image bfs name data entry extent := by
  have hbfs := superblock_inside h
  exact ⟨listRootChecked_eq hlen hbfs le_rfl, fun name =>
    ⟨readFileChecked_eq hlen hbfs name le_rfl, fun _ hread => readFile_fromExtent hread⟩⟩

/-- A boot file system with the file "a", which reads "hi". -/
def oneFileBfs : Bytes :=
  Bytes.le 4 bfsMagic ++ Bytes.le 4 1024 ++ Bytes.le 4 2047 ++ Bytes.zeros 500 ++
    (Bytes.le 2 2 ++ Bytes.zeros 2 ++ Bytes.le 4 2 ++ Bytes.le 4 2 ++ Bytes.le 4 1039 ++
      Bytes.zeros 48) ++
    (Bytes.le 2 3 ++ Bytes.zeros 2 ++ Bytes.le 4 3 ++ Bytes.le 4 3 ++ Bytes.le 4 1537 ++
      Bytes.zeros 48) ++ Bytes.zeros 384 ++
    (Bytes.le 2 3 ++ [97] ++ Bytes.zeros 13) ++ Bytes.zeros 496 ++ [104, 105]

theorem bfs_total_oneFile :
    listRootChecked 1 oneFileBfs ⟨0, 1024, 2047⟩ = .ok (some [⟨[97], 3, 2⟩]) ∧
      readFileChecked 1 oneFileBfs ⟨0, 1024, 2047⟩ [97] = .ok (some (some [104, 105])) := by
  obtain ⟨hlist, hread⟩ := bfs_total (by decide +kernel)
    (by decide +kernel : detectAtStartChecked oneFileBfs 0 = .ok (some ⟨0, 1024, 2047⟩))
  have hrounds : rootLength oneFileBfs ⟨0, 1024, 2047⟩ / bfsLdirSize = 1 := by decide +kernel
  have hroot : listRoot oneFileBfs ⟨0, 1024, 2047⟩ = [⟨[97], 3, 2⟩] := by decide +kernel
  have hfile : readFile oneFileBfs ⟨0, 1024, 2047⟩ [97] = some [104, 105] := by decide +kernel
  rw [hrounds] at hlist hread
  rw [hlist, (hread [97]).1, hroot, hfile]
  exact ⟨rfl, rfl⟩

end BootFs
end UfsFuse
