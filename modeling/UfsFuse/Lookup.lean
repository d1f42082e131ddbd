import UfsFuse.Holes

/-!
# Lookup against listing

Lookup scans the directory blocks where they lie in the image; listing gathers the bytes of the
directory first and cuts them into blocks again. Both see the same records, malformed blocks
included, unless a directory block crosses the end of a data block.
-/
namespace UfsFuse

/-- The bytes of a list of blocks, cut at `size`. -/
def mappedBytes (image : Bytes) (ufs : Ufs) : List ℕ → ℕ → Bytes
  | [], _ => []
  | b :: bs, size =>
      image.slice (ufs.sb.dataBlockOffset ufs.startOffset b) (min ufs.sb.bsize size) ++
        mappedBytes image ufs bs (size - ufs.sb.bsize)

/-- The block list of an inode is complete and inside the image. -/
structure BlocksInside (image : Bytes) (ufs : Ufs) (inode : Inode) (blocks : List ℕ) : Prop where
  read : inodeDataBlocks image ufs inode = .ok blocks
  complete : inode.size ≤ blocks.length * ufs.sb.bsize
  inside : ∀ k b : ℕ, blocks[k]? = some b → k * ufs.sb.bsize < inode.size →
    ufs.sb.dataBlockOffset ufs.startOffset b + min ufs.sb.bsize (inode.size - k * ufs.sb.bsize) ≤
      image.length

/-- No directory block crosses the end of a data block. -/
def BlocksUncrossed (sb : Superblock) (size : ℕ) : Prop :=
  ∀ k, k * ufsDirblksiz < size →
    k * ufsDirblksiz % sb.bsize + min ufsDirblksiz (size - k * ufsDirblksiz) ≤ sb.bsize

/-- The entries that a listing shows have distinct ASCII names and inodes that can be read. -/
def NamesReadable (image : Bytes) (ufs : Ufs) (inode : Inode) : Prop :=
  ∀ es, storedEntries image ufs inode = .ok es →
    (∀ e ∈ es, e.name ≠ [] → Ascii e.name ∧ (readInode image ufs e.inode).isSome) ∧
      ((es.filter (·.name ≠ [])).map Entry.name).Nodup

/-- Lookup of a name returns the inode that the listing has under it, and nothing for the others. -/
def LookupAgrees (image : Bytes) (ufs : Ufs) (inode : Inode) : Prop :=
  ∃ listing, iterDirectoryEntries image ufs inode = .ok listing ∧
    ∀ name, name ≠ [] → Ascii name → ∃ found,
      lookupDirectoryEntry image ufs inode name = .ok found ∧
      (∀ n child, found = some (n, child) ↔
        (∃ entry ∈ listing, entry.name = name ∧ entry.inode = n) ∧
          readInode image ufs n = some child) ∧
      ((∀ entry ∈ listing, entry.name ≠ name) → found = none)

/-- Block sizes of whole directory blocks. -/
theorem BlocksUncrossed.of_dvd {sb : Superblock} (h : ufsDirblksiz ∣ sb.bsize) (hpos : 0 < sb.bsize)
    (size : ℕ) : BlocksUncrossed sb size := by
  obtain ⟨m, hm⟩ := h
  intro k _
  have hlt : k % m < m := Nat.mod_lt _ (by rw [hm] at hpos; exact Nat.pos_of_mul_pos_left hpos)
  have hmod : k * ufsDirblksiz % sb.bsize = k % m * ufsDirblksiz := by
    rw [hm, Nat.mul_comm ufsDirblksiz m, Nat.mul_mod_mul_right]
  have hle : (k % m + 1) * ufsDirblksiz ≤ m * ufsDirblksiz := Nat.mul_le_mul_right _ hlt
  have hmin := min_le_left ufsDirblksiz (size - k * ufsDirblksiz)
  rw [hmod, hm, Nat.mul_comm ufsDirblksiz m]
  rw [Nat.succ_mul] at hle
  omega

section Mapped
variable {image : Bytes} {ufs : Ufs}

@[simp] theorem mappedBytes_zero (image : Bytes) (ufs : Ufs) (blocks : List ℕ) :
    mappedBytes image ufs blocks 0 = [] := by
  induction blocks with
  | nil => rfl
  | cons b bs ih => simp [mappedBytes, ih]

theorem mappedBytes_length : ∀ {blocks : List ℕ} {size : ℕ},
    size ≤ blocks.length * ufs.sb.bsize →
    (∀ k b : ℕ, blocks[k]? = some b → k * ufs.sb.bsize < size →
      ufs.sb.dataBlockOffset ufs.startOffset b + min ufs.sb.bsize (size - k * ufs.sb.bsize) ≤
        image.length) →
    (mappedBytes image ufs blocks size).length = size := by
  intro blocks
  induction blocks with
  | nil =>
    intro size hcover _
    simp only [List.length_nil, Nat.zero_mul, Nat.le_zero] at hcover
    exact hcover.symm
  | cons b bs ih =>
    intro size hcover hin
    rcases Nat.eq_zero_or_pos size with rfl | hpos
    · simp
    · have hfirst := hin 0 b rfl (by simpa using hpos)
      rw [Nat.zero_mul, Nat.sub_zero] at hfirst
      rw [List.length_cons, Nat.succ_mul] at hcover
      have hrest : (mappedBytes image ufs bs (size - ufs.sb.bsize)).length = size - ufs.sb.bsize := by
        apply ih (by omega)
        intro k c hk hlt
        have hnext := hin (k + 1) c hk (by rw [Nat.succ_mul]; omega)
        rw [Nat.succ_mul] at hnext
        rwa [Nat.sub_sub, Nat.add_comm ufs.sb.bsize]
      rw [mappedBytes, List.length_append, Bytes.slice_length hfirst, hrest]
      omega

/-- A range inside one block is read where the block lies. -/
theorem mappedBytes_slice (hpos : 0 < ufs.sb.bsize) : ∀ {blocks : List ℕ} {size : ℕ},
    (∀ k b : ℕ, blocks[k]? = some b → k * ufs.sb.bsize < size →
      ufs.sb.dataBlockOffset ufs.startOffset b + min ufs.sb.bsize (size - k * ufs.sb.bsize) ≤
        image.length) →
    ∀ {off len b : ℕ}, 0 < len → off + len ≤ size → off % ufs.sb.bsize + len ≤ ufs.sb.bsize →
    blocks[off / ufs.sb.bsize]? = some b →
    (mappedBytes image ufs blocks size).slice off len =
      image.slice (ufs.sb.dataBlockOffset ufs.startOffset b + off % ufs.sb.bsize) len := by
  intro blocks
  induction blocks with
  | nil =>
    intro size _ off len b _ _ _ hb
    simp at hb
  | cons a as ih =>
    intro size hin off len b hlen hend hone hb
    have hfirst := hin 0 a rfl (by omega)
    rw [Nat.zero_mul, Nat.sub_zero] at hfirst
    have hsize := Bytes.slice_length hfirst
    rw [mappedBytes]
    by_cases hoff : off < ufs.sb.bsize
    · rw [Nat.div_eq_of_lt hoff, List.getElem?_cons_zero, Option.some.injEq] at hb
      rw [Nat.mod_eq_of_lt hoff] at hone ⊢
      have hrest : len - ((min ufs.sb.bsize size) - off) = 0 := by omega
      rw [Bytes.slice_append, hsize, hrest, Bytes.slice_zero_length, List.append_nil,
        Bytes.slice_slice (by omega), hb]
    · obtain ⟨rest, rfl⟩ : ∃ rest, off = rest + ufs.sb.bsize := ⟨off - ufs.sb.bsize, by omega⟩
      rw [Nat.add_div_right _ hpos, List.getElem?_cons_succ] at hb
      rw [Nat.add_mod_right] at hone ⊢
      have hfull : min ufs.sb.bsize size = ufs.sb.bsize := by omega
      rw [Bytes.slice_append, Bytes.slice_past (by omega), List.nil_append, hsize, hfull,
        Nat.add_sub_cancel, Nat.sub_eq_zero_of_le (Nat.le_add_left _ _), Nat.sub_zero]
      apply ih _ hlen (by omega) hone hb
      intro k c hk hlt
      have hnext := hin (k + 1) c hk (by rw [Nat.succ_mul]; omega)
      rw [Nat.succ_mul] at hnext
      rwa [Nat.sub_sub, Nat.add_comm ufs.sb.bsize]

theorem readRangeStep_mapped {size : ℕ} : ∀ {blocks : List ℕ} {k m : ℕ} {data : Bytes},
    (∀ j b : ℕ, blocks[j]? = some b → (k + j) * ufs.sb.bsize < size →
      ufs.sb.dataBlockOffset ufs.startOffset b +
        min ufs.sb.bsize (size - (k + j) * ufs.sb.bsize) ≤ image.length) →
    size ≤ (k + m) * ufs.sb.bsize →
    Outcome.foldM (readRangeStep image ufs 0 (0 + size)) data ((blocks.zipIdx k).take m) =
      .ok (data ++ mappedBytes image ufs blocks (size - k * ufs.sb.bsize)) := by
  intro blocks
  induction blocks with
  | nil =>
    intro k m data _ _
    simp [Outcome.foldM, mappedBytes]
  | cons b bs ih =>
    intro k m data hin hm
    cases m with
    | zero =>
      rw [Nat.add_zero] at hm
      rw [Nat.sub_eq_zero_of_le hm]
      simp [Outcome.foldM]
    | succ m =>
      have hrest : ∀ data : Bytes, Outcome.foldM (readRangeStep image ufs 0 (0 + size)) data
          ((bs.zipIdx (k + 1)).take m) =
          .ok (data ++ mappedBytes image ufs bs (size - k * ufs.sb.bsize - ufs.sb.bsize)) := by
        intro data
        rw [Nat.sub_sub, ← Nat.succ_mul]
        apply ih
        · intro j c hj hlt
          rw [Nat.add_right_comm, Nat.add_assoc] at hlt ⊢
          exact hin (j + 1) c hj hlt
        · rwa [Nat.add_right_comm, Nat.add_assoc]
      rw [List.zipIdx_cons, List.take_succ_cons, Outcome.foldM, mappedBytes, ← List.append_assoc]
      unfold readRangeStep
      dsimp only
      rw [Nat.zero_sub, Nat.zero_add, Nat.add_zero, Nat.sub_zero]
      split_ifs with hempty
      · have hzero : min ufs.sb.bsize (size - k * ufs.sb.bsize) = 0 := by omega
        rw [hzero, Bytes.slice_zero_length, List.append_nil]
        have hall := hrest data
        rw [Nat.zero_add] at hall
        exact hall
      · have hlt : (k + 0) * ufs.sb.bsize < size := by
          rw [Nat.add_zero]
          omega
        have hslice := hin 0 b rfl hlt
        rw [Nat.add_zero] at hslice
        unfold getSlice
        rw [Outcome.guard_true hslice]
        have hall := hrest (data ++ image.slice (ufs.sb.dataBlockOffset ufs.startOffset b)
          (min ufs.sb.bsize (size - k * ufs.sb.bsize)))
        rw [Nat.zero_add] at hall
        exact hall

end Mapped

/-! ## One directory block -/
section Records

/-- The live records among `records`, with their names as stored in `bytes`. -/
def liveEntries (bytes : Bytes) (records : List DirEntry) : List Entry :=
  (records.filter (·.inode ≠ 0)).map fun r => ⟨storedName bytes r, r.inode⟩

theorem liveEntries_cons (bytes : Bytes) (r : DirEntry) (rs : List DirEntry) :
    liveEntries bytes (r :: rs) =
      (if r.inode = 0 then [] else [⟨storedName bytes r, r.inode⟩]) ++ liveEntries bytes rs := by
  unfold liveEntries
  split_ifs with h <;> simp [h]

theorem liveEntries_append (bytes : Bytes) (rs rs' : List DirEntry) :
    liveEntries bytes (rs ++ rs') = liveEntries bytes rs ++ liveEntries bytes rs' := by
  simp [liveEntries]

/-- A decoded record repeats the header, and its name lies inside the block. -/
theorem decodeDirectoryEntry_cases (bytes : Bytes) (offset maxLength : ℕ) :
    (decodeDirectoryHeader bytes offset maxLength = none ∧
      decodeDirectoryEntry bytes offset maxLength = none) ∨
    ∃ header entry, decodeDirectoryHeader bytes offset maxLength = some header ∧
      decodeDirectoryEntry bytes offset maxLength = some entry ∧ entry.inode = header.inode ∧
      entry.recordLength = header.recordLength ∧ entry.nameLength = header.nameLength ∧
      entry.offset = offset ∧ entry.name = decodeAsciiReplace (storedName bytes entry) ∧
      offset + DirentOff.name + header.nameLength ≤ maxLength ∧ header.nameLength ≤ 255 := by
  unfold decodeDirectoryEntry
  cases h : decodeDirectoryHeader bytes offset maxLength with
  | none => exact .inl ⟨rfl, rfl⟩
  | some header =>
    unfold decodeDirectoryHeader at h
    dsimp only at h
    split_ifs at h with h1 h2 h3
    have hheader := Option.some.inj h
    have hname : header.nameLength = bytes.u16 (offset + DirentOff.namlen) := by rw [← hheader]
    refine .inr ⟨header, _, rfl, rfl, rfl, rfl, rfl, rfl, rfl, ?_, ?_⟩ <;> omega

/-- The records of a block end inside it, and their names are short. -/
theorem iterRecordsFrom_bounds {bytes : Bytes} {maxLength : ℕ} : ∀ {fuel offset : ℕ},
    ∀ r ∈ iterRecordsFrom bytes maxLength fuel offset,
    r.offset + DirentOff.name + r.nameLength ≤ maxLength ∧ r.nameLength ≤ 255 ∧
      r.name = decodeAsciiReplace (storedName bytes r) := by
  intro fuel
  induction fuel with
  | zero => exact fun r hr => absurd hr List.not_mem_nil
  | succ fuel ih =>
    intro offset r hr
    rw [iterRecordsFrom] at hr
    split_ifs at hr with hroom
    · rcases decodeDirectoryEntry_cases bytes offset maxLength with ⟨-, he⟩ |
        ⟨header, entry, -, he, -, -, hlength, hoff, hname, hend, hshort⟩
      · rw [he] at hr
        exact absurd hr List.not_mem_nil
      · rw [he] at hr
        rcases List.mem_cons.mp hr with rfl | hr
        · rw [hoff, hlength]
          exact ⟨hend, hshort, hname⟩
        · exact ih r hr
    · exact absurd hr List.not_mem_nil

/-- The scan of a block finds its first live record of that name. -/
theorem scanBlockFor_first {block name : Bytes} {span : ℕ} (hlen : block.length = span) :
    ∀ {fuel cursor : ℕ}, scanBlockFor block name span fuel cursor =
      ((liveEntries block (iterRecordsFrom block span fuel cursor)).find?
        (·.name = name)).map Entry.inode := by
  intro fuel
  induction fuel with
  | zero => exact rfl
  | succ fuel ih =>
    intro cursor
    rw [scanBlockFor, iterRecordsFrom]
    split_ifs with hroom
    · rcases decodeDirectoryEntry_cases block cursor span with ⟨hh, he⟩ |
        ⟨header, entry, hh, he, hinode, hstep, hlength, hoff, -, hend, -⟩
      · rw [hh, he]
        rfl
      · rw [hh, he]
        dsimp only
        have hstored : storedName block entry =
            block.slice (cursor + DirentOff.name) header.nameLength := by
          rw [storedName, hoff, hlength]
        have hsize : (storedName block entry).length = header.nameLength := by
          rw [hstored, Bytes.slice_length (by omega)]
        have hsame : (header.nameLength = name.length ∧
            block.slice (cursor + DirentOff.name) name.length = name) ↔
            storedName block entry = name := by
          constructor
          · rintro ⟨hl, hs⟩
            rw [hstored, hl, hs]
          · intro hs
            have hl : header.nameLength = name.length := by rw [← hsize, hs]
            rw [← hl, ← hstored]
            exact ⟨rfl, hs⟩
        rw [liveEntries_cons, hinode, hstep]
        by_cases hdead : header.inode = 0
        · rw [if_neg (fun h => h.1 hdead), if_pos hdead, List.nil_append, ih]
        · rw [if_neg hdead, List.singleton_append]
          by_cases hname : storedName block entry = name
          · rw [if_pos ⟨hdead, hsame.mpr hname⟩, List.find?_cons_of_pos (by simpa using hname)]
            rfl
          · rw [if_neg (fun h => hname (hsame.mp h.2)), List.find?_cons_of_neg (by simpa using hname), ih]
    · rfl

end Records

/-! ## The directory -/
section Directory
variable {image : Bytes} {ufs : Ufs} {inode : Inode} {blocks : List ℕ}

/-- The records of the directory block at `blockOffset`. -/
def blockRecords (body : Bytes) (blockOffset : ℕ) : List DirEntry :=
  let span := min ufsDirblksiz (body.length - blockOffset)
  (iterDirectoryRecords (body.slice blockOffset span) span).map fun record =>
    { record with offset := record.offset + blockOffset }

theorem mem_dirBlockOffsets {size off : ℕ} (h : off ∈ dirBlockOffsets size) :
    off < size ∧ ∃ k, off = k * ufsDirblksiz := by
  obtain ⟨k, hk, rfl⟩ := List.mem_map.mp h
  rw [List.mem_range] at hk
  have hle := Nat.div_mul_le_self (size + ufsDirblksiz - 1) ufsDirblksiz
  have hmul := Nat.mul_le_mul_right ufsDirblksiz hk
  rw [Nat.succ_mul] at hmul
  simp only [ufsDirblksiz] at *
  exact ⟨by omega, k, rfl⟩

theorem BlocksInside.readInodeBytes (h : BlocksInside image ufs inode blocks) :
    UfsFuse.readInodeBytes image ufs inode = .ok (mappedBytes image ufs blocks inode.size) ∧
      (mappedBytes image ufs blocks inode.size).length = inode.size := by
  refine ⟨?_, mappedBytes_length h.complete h.inside⟩
  unfold UfsFuse.readInodeBytes
  split_ifs with hzero
  · rw [hzero, mappedBytes_zero]
  · have hcover := h.complete
    have hpos : 0 < ufs.sb.bsize := by
      rcases Nat.eq_zero_or_pos ufs.sb.bsize with hb | hb
      · rw [hb, Nat.mul_zero] at hcover
        omega
      · exact hb
    rw [h.read, Outcome.ok_bind, readDataRange, if_neg hzero]
    dsimp only
    rw [Nat.zero_div, List.drop_zero, Nat.zero_add]
    have hfold := @readRangeStep_mapped image ufs inode.size blocks 0
      (min blocks.length ((inode.size + ufs.sb.bsize - 1) / ufs.sb.bsize)) []
    rw [Nat.zero_add, Nat.zero_mul, Nat.zero_add] at hfold
    apply hfold
    · intro j b hj hlt
      rw [Nat.zero_add] at hlt ⊢
      exact h.inside j b hj hlt
    · rcases min_choice blocks.length ((inode.size + ufs.sb.bsize - 1) / ufs.sb.bsize) with hm | hm
      · rwa [hm]
      · rw [hm]
        have hdiv := Nat.lt_div_mul_add hpos (a := inode.size + ufs.sb.bsize - 1)
        omega

theorem foldM_gather {step : List DirEntry → ℕ → Outcome Fault (List DirEntry)}
    {g : ℕ → List DirEntry} : ∀ {offsets : List ℕ} {acc : List DirEntry},
    (∀ off ∈ offsets, ∀ acc, step acc off = .ok (acc ++ g off)) →
    Outcome.foldM step acc offsets = .ok (acc ++ offsets.flatMap g) := by
  intro offsets
  induction offsets with
  | nil =>
    intro acc _
    simp [Outcome.foldM]
  | cons off offsets ih =>
    intro acc h
    rw [Outcome.foldM, h off (by simp), Outcome.ok_bind, ih (fun o ho => h o (by simp [ho]))]
    simp

/-- A listing gathers the records of the blocks. -/
theorem iterInodeDirectoryRecords_blocks {body : Bytes}
    (hread : readInodeBytes image ufs inode = .ok body) (hlen : body.length = inode.size) :
    iterInodeDirectoryRecords image ufs inode =
      .ok ((dirBlockOffsets inode.size).flatMap (blockRecords body)) := by
  rw [iterInodeDirectoryRecords, hread, Outcome.ok_bind]
  refine (foldM_gather (g := blockRecords body) ?_).trans (by rw [List.nil_append])
  intro off hoff acc
  obtain ⟨hlt, -⟩ := mem_dirBlockOffsets hoff
  have hmin : min ufsDirblksiz (inode.size - off) ≤ inode.size - off := min_le_right _ _
  have hend : min (off + min ufsDirblksiz (inode.size - off)) inode.size =
      off + min ufsDirblksiz (inode.size - off) := Nat.min_eq_left (by omega)
  unfold blockRecords
  dsimp only
  rw [hlen, hend, Outcome.guard_true (Nat.le_add_right _ _), Outcome.ok_bind,
    Nat.add_sub_cancel_left]
  rfl

/-- A name read in its block or in the directory. -/
theorem storedName_block {body : Bytes} {off span : ℕ} {r : DirEntry}
    (h : r.offset + DirentOff.name + r.nameLength ≤ span) :
    storedName body { r with offset := r.offset + off } = storedName (body.slice off span) r := by
  unfold storedName
  dsimp only
  rw [Bytes.slice_slice h, Nat.add_right_comm, Nat.add_comm _ off, ← Nat.add_assoc]

/-- The live entries of a block, read in the block or in the directory. -/
theorem liveEntries_blockRecords (body : Bytes) (off : ℕ) :
    liveEntries body (blockRecords body off) =
      liveEntries (body.slice off (min ufsDirblksiz (body.length - off)))
        (iterDirectoryRecords (body.slice off (min ufsDirblksiz (body.length - off)))
          (min ufsDirblksiz (body.length - off))) := by
  unfold liveEntries blockRecords
  dsimp only
  rw [List.filter_map, List.map_map]
  apply List.map_congr_left
  intro r hr
  obtain ⟨hend, -, -⟩ := iterRecordsFrom_bounds r (List.mem_filter.mp hr).1
  simp only [Function.comp, Entry.mk.injEq, and_true]
  exact storedName_block (by omega)

/-- Lookup scans the same bytes where they lie. -/
theorem BlocksInside.lookupLoop (h : BlocksInside image ufs inode blocks)
    (hcross : BlocksUncrossed ufs.sb inode.size) (name : Str) : ∀ {offsets : List ℕ},
    (∀ off ∈ offsets, off ∈ dirBlockOffsets inode.size) →
    UfsFuse.lookupLoop image ufs inode.size blocks name offsets =
      .ok (((offsets.flatMap fun off =>
          liveEntries (mappedBytes image ufs blocks inode.size)
            (blockRecords (mappedBytes image ufs blocks inode.size) off)).find?
          (·.name = name)).bind fun e =>
        (readInode image ufs e.inode).map fun child => (e.inode, child)) := by
  have hlen := mappedBytes_length h.complete h.inside
  intro offsets
  induction offsets with
  | nil => exact fun _ => rfl
  | cons off offsets ih =>
    intro hoffs
    obtain ⟨hlt, k, hk⟩ := mem_dirBlockOffsets (hoffs off (by simp))
    have hone := hcross k (hk ▸ hlt)
    rw [← hk] at hone
    have hspan : 0 < min ufsDirblksiz (inode.size - off) := lt_min (by norm_num) (by omega)
    have hle : min ufsDirblksiz (inode.size - off) ≤ inode.size - off := min_le_right _ _
    have hpos : 0 < ufs.sb.bsize := by omega
    have hindex : off / ufs.sb.bsize < blocks.length :=
      Nat.div_lt_of_lt_mul (by rw [Nat.mul_comm]; exact hlt.trans_le h.complete)
    have hb : blocks[off / ufs.sb.bsize]? = some blocks[off / ufs.sb.bsize] :=
      List.getElem?_eq_getElem hindex
    have hdm := Nat.div_add_mod' off ufs.sb.bsize
    have hin := h.inside _ _ hb (by omega)
    have hblock := mappedBytes_slice hpos h.inside hspan (by omega) hone hb
    have hsize : ((mappedBytes image ufs blocks inode.size).slice off
        (min ufsDirblksiz (inode.size - off))).length = min ufsDirblksiz (inode.size - off) :=
      Bytes.slice_length (by omega)
    rw [UfsFuse.lookupLoop]
    dsimp only
    rw [hb]
    dsimp only
    unfold getSlice
    rw [Outcome.guard_true (by omega), Outcome.ok_bind, Outcome.pure_def, Outcome.ok_bind, ← hblock,
      scanBlockFor_first hsize, List.flatMap_cons, List.find?_append, liveEntries_blockRecords, hlen,
      ih (fun o ho => hoffs o (by simp [ho]))]
    unfold iterDirectoryRecords
    rw [hsize, Nat.min_self]
    cases (liveEntries ((mappedBytes image ufs blocks inode.size).slice off
        (min ufsDirblksiz (inode.size - off))) (iterRecordsFrom
          ((mappedBytes image ufs blocks inode.size).slice off
            (min ufsDirblksiz (inode.size - off))) (min ufsDirblksiz (inode.size - off))
          (min ufsDirblksiz (inode.size - off)) 0)).find? (·.name = name) with
    | none => rfl
    | some e => rfl

theorem BlocksInside.storedEntries (h : BlocksInside image ufs inode blocks) :
    UfsFuse.storedEntries image ufs inode =
      .ok ((dirBlockOffsets inode.size).flatMap fun off =>
        liveEntries (mappedBytes image ufs blocks inode.size)
          (blockRecords (mappedBytes image ufs blocks inode.size) off)) := by
  obtain ⟨hread, hlen⟩ := h.readInodeBytes
  rw [UfsFuse.storedEntries, hread, Outcome.ok_bind, iterInodeDirectoryRecords_blocks hread hlen,
    Outcome.ok_bind]
  congr 1
  induction dirBlockOffsets inode.size with
  | nil => rfl
  | cons off offsets ih =>
    rw [List.flatMap_cons, List.flatMap_cons, ← ih]
    exact liveEntries_append _ _ _

/-- Lookup finds the first live record of that name, if its inode can be read. -/
theorem BlocksInside.lookupDirectoryEntry (h : BlocksInside image ufs inode blocks)
    (hcross : BlocksUncrossed ufs.sb inode.size) {es : List Entry}
    (hes : UfsFuse.storedEntries image ufs inode = .ok es) (name : Str) :
    UfsFuse.lookupDirectoryEntry image ufs inode name =
      .ok ((es.find? (·.name = name)).bind fun e =>
        (readInode image ufs e.inode).map fun child => (e.inode, child)) := by
  rw [h.storedEntries] at hes
  obtain rfl := Outcome.ok.inj hes
  rw [UfsFuse.lookupDirectoryEntry]
  split_ifs with hzero
  · rw [hzero]
    rfl
  · rw [h.read, Outcome.ok_bind, h.lookupLoop hcross name (fun _ hoff => hoff)]

/-- A listing shows the live records that have a name. -/
theorem BlocksInside.iterDirectoryEntries (h : BlocksInside image ufs inode blocks) {es : List Entry}
    (hes : UfsFuse.storedEntries image ufs inode = .ok es) :
    ∃ listing, UfsFuse.iterDirectoryEntries image ufs inode = .ok listing ∧
      ∀ name n, (∃ entry ∈ listing, entry.name = name ∧ entry.inode = n) ↔
        ∃ e ∈ es, e.name ≠ [] ∧ decodeAsciiReplace e.name = name ∧ e.inode = n := by
  obtain ⟨hread, hlen⟩ := h.readInodeBytes
  have hrecords := iterInodeDirectoryRecords_blocks hread hlen
  have hbounds : ∀ r ∈ (dirBlockOffsets inode.size).flatMap
      (blockRecords (mappedBytes image ufs blocks inode.size)),
      (storedName (mappedBytes image ufs blocks inode.size) r).length = r.nameLength ∧
        r.nameLength ≤ 255 ∧
        r.name = decodeAsciiReplace (storedName (mappedBytes image ufs blocks inode.size) r) := by
    intro r hr
    obtain ⟨off, hoff, hr⟩ := List.mem_flatMap.mp hr
    obtain ⟨hlt, -⟩ := mem_dirBlockOffsets hoff
    obtain ⟨raw, hraw, rfl⟩ := List.mem_map.mp hr
    obtain ⟨hend, hshort, hname⟩ := iterRecordsFrom_bounds raw hraw
    have hle : min ufsDirblksiz ((mappedBytes image ufs blocks inode.size).length - off) ≤
      (mappedBytes image ufs blocks inode.size).length - off := min_le_right _ _
    have hshift := @storedName_block (mappedBytes image ufs blocks inode.size) off
      (min ufsDirblksiz ((mappedBytes image ufs blocks inode.size).length - off)) raw (by omega)
    rw [hshift]
    refine ⟨?_, hshort, hname⟩
    exact Bytes.slice_length (by omega)
  rw [UfsFuse.storedEntries, hread, Outcome.ok_bind, hrecords, Outcome.ok_bind] at hes
  obtain rfl := Outcome.ok.inj hes
  rw [UfsFuse.iterDirectoryEntries, hrecords, Outcome.ok_bind]
  refine ⟨_, rfl, fun name n => ?_⟩
  constructor
  · rintro ⟨entry, hentry, rfl, rfl⟩
    obtain ⟨r, hr, rfl⟩ := List.mem_map.mp ((List.mergeSort_perm _ _).mem_iff.mp hentry)
    obtain ⟨hr, hlive⟩ := List.mem_filter.mp hr
    obtain ⟨hlength, -, hname⟩ := hbounds r hr
    simp only [decide_eq_true_eq] at hlive
    refine ⟨_, List.mem_map.mpr ⟨r, List.mem_filter.mpr ⟨hr, by simpa using hlive.1⟩, rfl⟩, ?_,
      hname.symm, rfl⟩
    intro hempty
    dsimp only at hempty
    rw [hempty, List.length_nil] at hlength
    omega
  · rintro ⟨e, he, hne, rfl, rfl⟩
    obtain ⟨r, hr, rfl⟩ := List.mem_map.mp he
    obtain ⟨hr, hlive⟩ := List.mem_filter.mp hr
    obtain ⟨hlength, hshort, hname⟩ := hbounds r hr
    have hpos : 0 < r.nameLength := by
      rw [← hlength]
      exact List.length_pos_of_ne_nil hne
    refine ⟨_, (List.mergeSort_perm _ _).mem_iff.mpr (List.mem_map.mpr
      ⟨r, List.mem_filter.mpr ⟨hr, ?_⟩, rfl⟩), hname, rfl⟩
    simp only [decide_eq_true_eq] at hlive ⊢
    exact ⟨hlive, hpos, hshort⟩

/-- Lookup agrees with listing in a directory whose blocks do not cross data blocks. -/
theorem lookup_agrees (h : BlocksInside image ufs inode blocks)
    (hcross : BlocksUncrossed ufs.sb inode.size) (hnames : NamesReadable image ufs inode) :
    LookupAgrees image ufs inode := by
  have hes := h.storedEntries
  generalize ((dirBlockOffsets inode.size).flatMap fun off =>
    liveEntries (mappedBytes image ufs blocks inode.size)
      (blockRecords (mappedBytes image ufs blocks inode.size) off)) = es at hes
  obtain ⟨listing, hlisting, hmem⟩ := h.iterDirectoryEntries hes
  obtain ⟨hascii, hdistinct⟩ := hnames es hes
  have hentry : ∀ name n, name ≠ [] → ((∃ entry ∈ listing, entry.name = name ∧ entry.inode = n) ↔
      ∃ e ∈ es, e.name = name ∧ e.inode = n) := by
    intro name n hname
    rw [hmem]
    constructor
    · rintro ⟨e, he, hne, rfl, hn⟩
      exact ⟨e, he, (decodeAsciiReplace_of_ascii (hascii e he hne).1).symm, hn⟩
    · rintro ⟨e, he, rfl, hn⟩
      exact ⟨e, he, hname, decodeAsciiReplace_of_ascii (hascii e he hname).1, hn⟩
  refine ⟨listing, hlisting, fun name hname _ => ⟨_, h.lookupDirectoryEntry hcross hes name, ?_, ?_⟩⟩
  · intro n child
    rw [hentry name n hname]
    cases hfind : es.find? (·.name = name) with
    | none =>
      have hnone : ∀ e ∈ es, e.name ≠ name := by simpa using hfind
      constructor
      · intro hfound
        cases hfound
      · rintro ⟨⟨e, he, hen, -⟩, -⟩
        exact absurd hen (hnone e he)
    | some e =>
      have he := List.mem_of_find?_eq_some hfind
      have hen : e.name = name := by simpa using List.find?_some hfind
      rw [Option.bind_some, Option.map_eq_some_iff]
      constructor
      · rintro ⟨c, hread, hpair⟩
        obtain ⟨rfl, rfl⟩ := Prod.mk.inj hpair
        exact ⟨⟨e, he, hen, rfl⟩, hread⟩
      · rintro ⟨⟨e', he', hen', rfl⟩, hread⟩
        -- names are distinct, so the first record of this name is the only one
        have hsame : e = e' := List.inj_on_of_nodup_map hdistinct
          (List.mem_filter.mpr ⟨he, by simpa [hen] using hname⟩)
          (List.mem_filter.mpr ⟨he', by simpa [hen'] using hname⟩) (hen.trans hen'.symm)
        exact ⟨child, hsame ▸ hread, by rw [hsame]⟩
  · intro hnone
    have hfind : es.find? (·.name = name) = none := by
      rw [List.find?_eq_none]
      intro e he hen
      obtain ⟨entry, hlisted, hentryName, -⟩ := (hentry name e.inode hname).mpr
        ⟨e, he, by simpa using hen, rfl⟩
      exact hnone entry hlisted hentryName
    rw [hfind]
    rfl

end Directory

/-! ## Directories of a stored slice -/
section Stored
variable {image : Bytes} {ufs : Ufs} {T : Table} {n : ℕ}

/-- The files of a stored slice have their blocks inside. -/
theorem Ufs.Stores.blocksInside (h : ufs.Stores image T) (hn : n ∈ T.live) :
    ∃ blocks, BlocksInside image ufs (T.file n).inode blocks := by
  have g := h.geom
  have hlen := h.body_length hn
  obtain ⟨D, own, hi, hv⟩ := h
  have hl := hv.laid n hn
  have hcover := (hl.covers g).size_le
  rw [← hl.sizes_length g, hv.inode n hn] at hcover
  refine ⟨(own n).data, hv.readBlocks hi hn, hcover, ?_⟩
  intro k b hk hlt
  obtain ⟨s, hs, hdvd, hmin, hrun⟩ := hv.runAt g hn hk
  rw [hlen] at hmin
  have hisRun : ufs.sb.IsRun b (s / 512) := hv.isRun hn _
    (by rw [Owned.runs_eq]; exact List.mem_append_left _ hrun)
  have hinside := (hisRun.inData g le_rfl).inside g (by omega)
  have hend := hi.1.inside
  rw [g.dataBlockOffset_eq]
  omega

theorem Ufs.Stores.blocksUncrossed (h : ufs.Stores image T) (size : ℕ) :
    BlocksUncrossed ufs.sb size := by
  have g := h.geom
  have hfrag := g.frag_pos
  have hbsize := g.bsize_eq
  exact .of_dvd ⟨ufs.sb.frag, by rw [hbsize, Nat.mul_comm]⟩ (by omega) size

end Stored

/-- Lookup in a fresh root. -/
theorem lookup_agrees_blank : ∃ inode, readInode blankImage blankUfs ufsRootInode = some inode ∧
    0 < inode.size ∧ LookupAgrees blankImage blankUfs inode := by
  have hfresh := blankImage_formatted.fresh
  generalize blankImage = image at hfresh ⊢
  obtain ⟨T, hst, hc, -, hsize⟩ := hfresh
  have hn : ufsRootInode ∈ T.live := hc.live ▸ Finset.mem_singleton_self _
  have hread := hst.readInode hn
  obtain ⟨es, hbody, hrecords⟩ := hc.body ufsRootInode (Finset.mem_singleton_self _)
  have hperm : es.Perm [(⟨dotName, ufsRootInode⟩ : Entry), ⟨dotdotName, ufsRootInode⟩] :=
    Multiset.coe_eq_coe.mp hrecords
  obtain ⟨blocks, hblocks⟩ := hst.blocksInside hn
  refine ⟨(T.file ufsRootInode).inode, hread, by rw [hsize]; decide,
    lookup_agrees hblocks (hst.blocksUncrossed _) ?_⟩
  intro es' hes'
  obtain rfl : es = es' := Outcome.ok.inj ((hst.storedEntries hn hbody).symm.trans hes')
  constructor
  · intro e he _
    have htwo := hperm.mem_iff.mp he
    simp only [List.mem_cons, List.not_mem_nil, or_false] at htwo
    rcases htwo with rfl | rfl
    · exact ⟨by decide, by rw [hread]; rfl⟩
    · exact ⟨by decide, by rw [hread]; rfl⟩
  · rw [((hperm.filter _).map Entry.name).nodup_iff]
    decide

/-! ## Blocks that cross -/

/-- Rounds of a lookup that find nothing. -/
theorem lookupLoop_none {image : Bytes} {ufs : Ufs} {size : ℕ} {blocks : List ℕ} {name : Str} :
    ∀ {offsets : List ℕ}, (∀ off ∈ offsets, ∃ b block, blocks[off / ufs.sb.bsize]? = some b ∧
      getSlice image (ufs.sb.dataBlockOffset ufs.startOffset b + off % ufs.sb.bsize)
        (min ufsDirblksiz (size - off)) = .ok block ∧
      scanBlockFor block name (min ufsDirblksiz (size - off)) (min ufsDirblksiz (size - off)) 0 =
        none) →
    lookupLoop image ufs size blocks name offsets = .ok none := by
  intro offsets
  induction offsets with
  | nil => exact fun _ => rfl
  | cons off offsets ih =>
    intro h
    obtain ⟨b, block, hb, hslice, hscan⟩ := h off (by simp)
    rw [lookupLoop]
    dsimp only
    rw [hb]
    dsimp only
    rw [hslice, Outcome.ok_bind, hscan]
    exact ih fun o ho => h o (by simp [ho])

/-- A superblock with blocks of `bsize` bytes and inodes from fragment 48 on, and nothing else. -/
def bareSuper (bsize : ℕ) : Bytes :=
  (((((((Bytes.zeros 1376).putU32 FsOff.iblkno 48).putU32 FsOff.bsize bsize).putU32 FsOff.fsize
    512).putU32 FsOff.inopb 32).putU32 FsOff.ipg 32).putU32 FsOff.fpg 128).putU32 FsOff.magic ufsMagic

def bareUfs (bsize : ℕ) : Ufs where
  startOffset := 0
  superOffset := ufsSbOffset
  sb :=
    { bsize, fsize := 512, frag := 0, dsize := 0, ipg := 32, fpg := 128, inopb := 32, fsbtodb := 0,
      cgoffset := 0, cgmask := 0, cblkno := 0, iblkno := 48, dblkno := 0, ncg := 0, minfree := 0,
      fragshift := 0, nindir := 0, nspf := 0, csaddr := 0, cssize := 0, nsect := 0, spc := 0,
      ncyl := 0, cpg := 0 }

/-- Detection accepts block sizes that are not whole directory blocks. -/
theorem bareSuper_detected {image : Bytes} {bsize : ℕ} (hb : bsize = 4096 ∨ bsize = 5000)
    (hlen : image.length = 65536) (hsuper : image.slice ufsSbOffset 1376 = bareSuper bsize) :
    detectUfsAtStart image 0 = some (bareUfs bsize) := by
  have hfield : ∀ off, off + 4 ≤ 1376 → image.u32 (ufsSbOffset + off) = (bareSuper bsize).u32 off := by
    intro off hoff
    rw [← hsuper, Bytes.u32_slice hoff]
  have hshift : image.i32 (ufsSbOffset + FsOff.fragshift) =
      (bareSuper bsize).i32 FsOff.fragshift := by
    rw [← hsuper, Bytes.i32_slice (by decide)]
  have hlong : ¬ufsSbOffset + ufsSbSize > image.length := by
    rw [hlen]
    decide
  unfold detectUfsAtStart Superblock.parse
  dsimp only
  rw [Nat.zero_add, if_neg hlong, hshift]
  simp (disch := decide) only [hfield]
  rcases hb with rfl | rfl
  · decide +kernel
  · decide +kernel

theorem bareUfs_readInode {image raw : Bytes} {bsize n : ℕ} (hn : n < 32)
    (hlen : image.length = 65536) (hraw : image.slice (24576 + n * 128) 128 = raw) :
    readInode image (bareUfs bsize) n = some (Inode.decode raw) := by
  have hoff : (bareUfs bsize).sb.inodeByteOffset (bareUfs bsize).startOffset n = 24576 + n * 128 := by
    have hmod : n % 32 = n := Nat.mod_eq_of_lt hn
    have hdiv : n / 32 = 0 := Nat.div_eq_of_lt hn
    simp [Superblock.inodeByteOffset, Superblock.itod, Superblock.itoo, Superblock.itog,
      Superblock.cgimin, Superblock.cgstart, Superblock.cgbase, Superblock.blkstofrags,
      Superblock.fsbtobytes, bareUfs, hmod, hdiv]
  have hin : ¬(24576 + n * 128 < (bareUfs bsize).startOffset ∨
      24576 + n * 128 + ufsDinodeSize > image.length) := by
    rw [hlen]
    simp only [bareUfs, ufsDinodeSize]
    omega
  unfold readInode
  dsimp only
  rw [hoff, if_neg hin]
  exact congrArg some (congrArg Inode.decode hraw)

/-- The image of 64 KiB with that superblock, inodes 2 and 3, and two stretches of data. -/
def bareImage (bsize : ℕ) (root file front back : Bytes) : Bytes :=
  (((((Bytes.zeros 65536).overlay ufsSbOffset (bareSuper bsize)).overlay 24832 root).overlay 24960
    file).overlay 32768 front).overlay 40960 back

theorem bareSuper_length (bsize : ℕ) : (bareSuper bsize).length = 1376 := by
  have step : ∀ {b : Bytes} {off v : ℕ}, off + 4 ≤ 1376 → b.length = 1376 →
      (b.putU32 off v).length = 1376 := by
    intro b off v hoff hb
    rw [Bytes.putU32_length (by omega), hb]
  unfold bareSuper
  iterate 7 apply step (by decide)
  exact Bytes.zeros_length _

theorem bareImage_slices {bsize : ℕ} {root file front back : Bytes} (hroot : root.length = 128)
    (hfile : file.length = 128) (hfront : front.length ≤ 8192) (hback : back.length ≤ 8192) :
    (bareImage bsize root file front back).length = 65536 ∧
      (bareImage bsize root file front back).slice ufsSbOffset 1376 = bareSuper bsize ∧
      (bareImage bsize root file front back).slice 24832 128 = root ∧
      (bareImage bsize root file front back).slice 24960 128 = file ∧
      (bareImage bsize root file front back).slice 32768 front.length = front ∧
      (bareImage bsize root file front back).slice 40960 back.length = back := by
  have hzeros := Bytes.zeros_length 65536
  have hsuper := bareSuper_length bsize
  unfold bareImage
  simp only [ufsSbOffset]
  generalize bareSuper bsize = super at hsuper ⊢
  generalize Bytes.zeros 65536 = zeros at hzeros ⊢
  have h0 : (zeros.overlay 8192 super).length = 65536 := by
    rw [Bytes.overlay_length (by omega), hzeros]
  have hs : (zeros.overlay 8192 super).slice 8192 1376 = super := by
    rw [← hsuper]
    exact Bytes.slice_overlay_same (by omega)
  generalize zeros.overlay 8192 super = image at h0 hs ⊢
  have h1 : (image.overlay 24832 root).length = 65536 := by
    rw [Bytes.overlay_length (by omega), h0]
  have h2 : ((image.overlay 24832 root).overlay 24960 file).length = 65536 := by
    rw [Bytes.overlay_length (by omega), h1]
  have h3 : (((image.overlay 24832 root).overlay 24960 file).overlay 32768 front).length = 65536 := by
    rw [Bytes.overlay_length (by omega), h2]
  -- the later writes are all behind what is read
  have hbelow : ∀ {o n : ℕ}, o + n ≤ 32768 →
      ((((image.overlay 24832 root).overlay 24960 file).overlay 32768 front).overlay 40960 back).slice
        o n = ((image.overlay 24832 root).overlay 24960 file).slice o n := by
    intro o n hon
    rw [Bytes.slice_overlay_disjoint (by omega) (by omega),
      Bytes.slice_overlay_disjoint (by omega) (by omega)]
  refine ⟨by rw [Bytes.overlay_length (by omega), h3], ?_, ?_, ?_, ?_, ?_⟩
  · rw [hbelow (by omega), Bytes.slice_overlay_disjoint (by omega) (by omega),
      Bytes.slice_overlay_disjoint (by omega) (by omega), hs]
  · rw [hbelow (by omega), Bytes.slice_overlay_disjoint (by omega) (by omega), ← hroot]
    exact Bytes.slice_overlay_same (by omega)
  · rw [hbelow (by omega), ← hfile]
    exact Bytes.slice_overlay_same (by omega)
  · rw [Bytes.slice_overlay_disjoint (by omega) (by omega)]
    exact Bytes.slice_overlay_same (by omega)
  · exact Bytes.slice_overlay_same (by omega)

/-- Inode 3, a directory of ten directory blocks; the last one crosses the end of the first block. -/
def crossedInode : Inode :=
  ⟨ufsIfdir ||| 0o755, 2, 0, 0, 0, 0, 0, 5120, [64, 80, 0, 0, 0, 0, 0, 0, 0, 0, 0, 0], [0, 0, 0], 0⟩

def crossedRaw : Bytes :=
  (((((Bytes.zeros 128).putU32 DiOff.mode (ufsIfdir ||| 0o755)).putU16 DiOff.nlink 2).putU64
    DiOff.size 5120).putU32 DiOff.db 64).putU32 (DiOff.db + 4) 80

/-- The image from fragment 64 on: nothing but a dead record up to the end of the block. -/
def crossedBlock : Bytes := (Bytes.zeros 5120).putU16 (4608 + DirentOff.reclen) 392

/-- What the second block holds of the directory: the record of "a". -/
def crossedTail : Bytes :=
  ((((Bytes.zeros 120).putU32 DirentOff.ino 3).putU16 DirentOff.reclen 120).putU16
    DirentOff.namlen 1).overlay DirentOff.name [97]

def crossedImage : Bytes := bareImage 5000 (Bytes.zeros 128) crossedRaw crossedBlock crossedTail

theorem crossed_lengths : crossedRaw.length = 128 ∧ crossedBlock.length = 5120 ∧
    crossedTail.length = 120 := by
  decide +kernel

theorem crossed_inside {image : Bytes} (hlen : image.length = 65536) :
    BlocksInside image (bareUfs 5000) crossedInode [64, 80] := by
  refine ⟨rfl, by decide, ?_⟩
  intro k b hk _
  have hlt : k < 2 := (List.getElem?_eq_some_iff.mp hk).1
  rw [hlen]
  interval_cases k
  · obtain rfl : 64 = b := Option.some.inj hk
    decide
  · obtain rfl : 80 = b := Option.some.inj hk
    decide

/-- The last directory block ends in the second data block; the listing shows its record there, and
lookup, which reads on behind the first data block, does not find it. -/
theorem crossed_lookup_disagrees : detectUfsAtStart crossedImage 0 = some (bareUfs 5000) ∧
    readInode crossedImage (bareUfs 5000) 3 = some crossedInode ∧ crossedInode.isDirectory = true ∧
    BlocksInside crossedImage (bareUfs 5000) crossedInode [64, 80] ∧
    NamesReadable crossedImage (bareUfs 5000) crossedInode ∧
    ¬LookupAgrees crossedImage (bareUfs 5000) crossedInode := by
  obtain ⟨hrawLength, hblockLength, htailLength⟩ := crossed_lengths
  have hslices := @bareImage_slices 5000 (Bytes.zeros 128) crossedRaw crossedBlock crossedTail
    (Bytes.zeros_length _) hrawLength (by omega) (by omega)
  rw [hblockLength, htailLength] at hslices
  unfold crossedImage
  generalize bareImage 5000 (Bytes.zeros 128) crossedRaw crossedBlock crossedTail = image at hslices ⊢
  obtain ⟨hlen, hsuper, -, hraw, hblock, htail⟩ := hslices
  have hread : readInode image (bareUfs 5000) 3 = some crossedInode := by
    have hdecode : Inode.decode crossedRaw = crossedInode := by decide +kernel
    rw [bareUfs_readInode (by decide) hlen hraw, hdecode]
  have hinside := crossed_inside hlen
  -- the bytes of the directory
  have hbody : mappedBytes image (bareUfs 5000) [64, 80] crossedInode.size =
      crossedBlock.slice 0 5000 ++ crossedTail := by
    rw [← hblock, ← htail, Bytes.slice_slice (by decide)]
    exact congrArg (image.slice 32768 5000 ++ ·) (List.append_nil _)
  have hes : storedEntries image (bareUfs 5000) crossedInode = .ok [⟨[97], 3⟩] := by
    rw [hinside.storedEntries, hbody]
    decide +kernel
  have hlookup : lookupDirectoryEntry image (bareUfs 5000) crossedInode [97] = .ok none := by
    rw [lookupDirectoryEntry, if_neg (by decide), hinside.read, Outcome.ok_bind]
    apply lookupLoop_none
    intro off hoff
    obtain ⟨k, hk, rfl⟩ := List.mem_map.mp hoff
    have hscan : ∀ k < 10, scanBlockFor (crossedBlock.slice (k * 512) 512) [97] 512 512 0 = none := by
      decide +kernel
    have hten : k < 10 := by simpa [crossedInode] using hk
    have hspan : min ufsDirblksiz (crossedInode.size - k * ufsDirblksiz) = 512 := by
      simp only [crossedInode, ufsDirblksiz]
      omega
    have hdiv : k * ufsDirblksiz / (bareUfs 5000).sb.bsize = 0 := by
      simp only [bareUfs, ufsDirblksiz]
      omega
    have hmod : k * ufsDirblksiz % (bareUfs 5000).sb.bsize = k * 512 := by
      simp only [bareUfs, ufsDirblksiz]
      omega
    have haddr : (bareUfs 5000).sb.dataBlockOffset (bareUfs 5000).startOffset 64 = 32768 := by decide
    refine ⟨64, crossedBlock.slice (k * 512) 512, by rw [hdiv]; rfl, ?_, ?_⟩
    · rw [hspan, hmod, haddr, getSlice, Outcome.guard_true (by omega), Outcome.ok_bind, ← hblock,
        Bytes.slice_slice (by omega)]
      rfl
    · rw [hspan]
      exact hscan k hten
  refine ⟨bareSuper_detected (.inr rfl) hlen hsuper, hread, by decide, hinside, ?_, ?_⟩
  · intro es hes'
    obtain rfl := Outcome.ok.inj (hes.symm.trans hes')
    refine ⟨fun e he _ => ?_, by decide⟩
    obtain rfl := List.mem_singleton.mp he
    exact ⟨by decide, by rw [hread]; rfl⟩
  · rintro ⟨listing, hlisting, hall⟩
    obtain ⟨listing', hlisting', hmem⟩ := hinside.iterDirectoryEntries hes
    obtain rfl := Outcome.ok.inj (hlisting.symm.trans hlisting')
    obtain ⟨found, hfound, hagree, -⟩ := hall [97] (by decide) (by decide)
    obtain rfl := Outcome.ok.inj (hlookup.symm.trans hfound)
    have hlisted := (hmem [97] 3).mpr ⟨⟨[97], 3⟩, List.mem_singleton_self _, by decide, by decide, rfl⟩
    cases (hagree 3 crossedInode).mpr ⟨hlisted, hread⟩

end UfsFuse
