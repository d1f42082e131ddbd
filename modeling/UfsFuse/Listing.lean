import UfsFuse.Paths

/-!
# What a slice shows

The inodes in use, the directories among them and the entries stored in each, read off an image
with the reader's own functions. Properties of a file system are stated about these; `Shows` connects
them to a tree of names.
-/
namespace UfsFuse

/-- The bytes of a record's name, as they are stored. -/
def storedName (body : Bytes) (record : DirEntry) : Str :=
  body.slice (record.offset + DirentOff.name) record.nameLength

/-- The live records of a directory. -/
def storedEntries (image : Bytes) (ufs : Ufs) (inode : Inode) : Outcome Fault (List Entry) := do
  let body ← readInodeBytes image ufs inode
  let records ← iterInodeDirectoryRecords image ufs inode
  pure ((records.filter (·.inode ≠ 0)).map fun r => ⟨storedName body r, r.inode⟩)

/-- Inode `n` is marked used; the reserved inodes 0 and 1 do not count. -/
def inUse (image : Bytes) (ufs : Ufs) (n : ℕ) : Bool :=
  decide (2 ≤ n ∧ n < ufs.sb.inodes) &&
    match readCgBlock image ufs (ufs.sb.itog n) >>= fun cg => isInodeUsed cg (n % ufs.sb.ipg) with
    | .ok used => used
    | _ => false

/-- Inode `n` is a directory in use. -/
def isDir (image : Bytes) (ufs : Ufs) (n : ℕ) : Bool :=
  inUse image ufs n && (readInode image ufs n).any Inode.isDirectory

def usedDirs (image : Bytes) (ufs : Ufs) : Finset ℕ :=
  (Finset.range ufs.sb.inodes).filter fun n => isDir image ufs n = true

/-- The entries of inode `n`, none if it cannot be read. -/
def entriesAt (image : Bytes) (ufs : Ufs) (n : ℕ) : List Entry :=
  match readInode image ufs n with
  | none => []
  | some inode =>
    match storedEntries image ufs inode with
    | .ok es => es
    | _ => []

/-- How many directory records name inode `n`. -/
def recordsNaming (image : Bytes) (ufs : Ufs) (n : ℕ) : ℕ :=
  ∑ d ∈ usedDirs image ufs, (entriesAt image ufs d).countP (·.inode = n)

/-! ## Room -/

/-- Fragment `f` is marked free in its group. -/
def fragIsFree (image : Bytes) (ufs : Ufs) (f : ℕ) : Bool :=
  match readCgBlock image ufs (f / ufs.sb.fpg) >>= fun cg => isFragFree cg (f % ufs.sb.fpg) with
  | .ok free => free
  | _ => false

/-- The runs of fragments that the pointers of inode `n` claim. -/
def claimedRuns (image : Bytes) (ufs : Ufs) (n : ℕ) : List Run :=
  match readInode image ufs n with
  | none => []
  | some inode =>
    match inodeDataBlocks image ufs inode, inodePointerBlocks image ufs inode with
    | .ok data, .ok ptrs => Owned.runs ufs.sb inode ⟨data, ptrs⟩
    | _, _ => []

/-- Free blocks, as the superblock counts them. -/
def freeBlocks (image : Bytes) (ufs : Ufs) : ℕ := image.u32 (ufs.superOffset + FsOff.cstotalNbfree)

/-- The blocks that are free or would be once inode `n` gave its own back. -/
def blocksBeside (image : Bytes) (ufs : Ufs) (n : ℕ) : ℕ :=
  ∑ c ∈ Finset.range ufs.sb.ncg, ((Finset.range ufs.sb.fpg).filter fun k =>
    ufs.sb.dblkno ≤ k * ufs.sb.frag ∧ k * ufs.sb.frag + ufs.sb.frag ≤ ufs.sb.groupFrags c ∧
      ∀ o < ufs.sb.frag, fragIsFree image ufs (c * ufs.sb.fpg + (k * ufs.sb.frag + o)) = true ∨
        Covered (claimedRuns image ufs n) (c * ufs.sb.fpg + (k * ufs.sb.frag + o))).card

section Room
variable {ufs : Ufs} {image : Bytes} {D : Disk} {own : ℕ → Owned} {T : Table} {n : ℕ}

theorem Ufs.Holds.fragIsFree_group (h : ufs.Holds image D) {f : ℕ}
    (hc : f / ufs.sb.fpg < ufs.sb.ncg) :
    UfsFuse.fragIsFree image ufs f = D.isFree ufs.sb f := by
  have g := h.geom
  obtain ⟨b, hb, hlen, hdec⟩ := h.readCgBlock hc
  have hmod : f % ufs.sb.fpg < ufs.sb.fpg := Nat.mod_lt _ g.fpg_pos
  have hfree := isFragFree_eq (b := b) (hlen.symm ▸ g.free_byte hmod)
  rw [UfsFuse.fragIsFree, hb, Outcome.ok_bind, hfree, hdec]
  rfl

theorem Ufs.Holds.fragIsFree (h : ufs.Holds image D) {f : ℕ} (hf : ufs.sb.IsData f) :
    UfsFuse.fragIsFree image ufs f = D.isFree ufs.sb f := h.fragIsFree_group hf.1

theorem Volume.claimedRuns (hi : ufs.Holds image D) (hv : Volume ufs.sb D own T) (hn : n ∈ T.live) :
    UfsFuse.claimedRuns image ufs n = (own n).runs ufs.sb (D.ino n) := by
  have hl := hv.laid n hn
  have hrun := Owned.ptrs_isRun (hv.isRun hn)
  rw [UfsFuse.claimedRuns, hi.readInode (hv.live_lt hn)]
  dsimp only
  rw [hl.inodeDataBlocks hi hrun, hl.inodePointerBlocks hi hrun]

theorem Ufs.Stores.freeBlocks (h : ufs.Stores image T) :
    UfsFuse.freeBlocks image ufs = T.room 0 := by
  have g := h.geom
  obtain ⟨D, own, ⟨-, rfl⟩, hv⟩ := h
  exact hv.nbfree_eq g

theorem Ufs.Stores.blocksBeside (h : ufs.Stores image T) (hn : n ∈ T.live) :
    UfsFuse.blocksBeside image ufs n = T.room n := by
  have g := h.geom
  obtain ⟨D, own, hi, hv⟩ := h
  have hsp := hv.space_at hn
  have hgl : ∀ c, ufs.sb.groupFrags c ≤ ufs.sb.fpg := Superblock.groupFrags_le ufs.sb
  rw [UfsFuse.blocksBeside, hv.claimedRuns hi hn, ← hv.room n, spare]
  refine Finset.sum_congr rfl fun c hc => congrArg Finset.card (Finset.filter_congr fun k _ => ?_)
  have hcn := Finset.mem_range.mp hc
  refine and_congr_right fun hlo => and_congr_right fun hhi =>
    forall_congr' fun o => imp_congr_right fun ho => ?_
  have hlt : k * ufs.sb.frag + o < ufs.sb.fpg := by
    have := hgl c
    omega
  have hdiv := g.frag_div (c := c) hlt
  have hmod := Superblock.frag_mod (c := c) hlt
  have hdata : ufs.sb.IsData (c * ufs.sb.fpg + (k * ufs.sb.frag + o)) :=
    ⟨by rwa [hdiv], by rw [hmod]; omega, by rw [hmod, hdiv]; omega⟩
  have hown := hsp.owned _ hdata
  rw [covered_append] at hown
  rw [hi.fragIsFree hdata]
  constructor
  · intro h hrest
    cases h with
    | inl hfree =>
      rw [hown.mpr (.inr hrest)] at hfree
      exact Bool.false_ne_true hfree
    | inr hcov =>
      obtain ⟨r, hr, hm⟩ := hcov
      obtain ⟨r', hr', hm'⟩ := hrest
      exact (List.pairwise_append.mp hsp.apart).2.2 r hr r' hr' _ hm hm'
  · intro h
    cases hfree : D.isFree ufs.sb (c * ufs.sb.fpg + (k * ufs.sb.frag + o)) with
    | true => exact .inl rfl
    | false => exact .inr ((hown.mp hfree).resolve_right h)

end Room

/-! ## Reading a stored directory -/
section Stored
variable {body : Bytes}

theorem placed_shift (base : ℕ) (rs : List Rec) : ∀ off : ℕ,
    ((placed off rs).map fun record => { record with offset := record.offset + base }) =
      placed (off + base) rs := by
  induction rs with
  | nil => exact fun _ => rfl
  | cons r rs ih =>
    intro off
    rw [placed, placed, List.map_cons, ih, Nat.add_right_comm]
    rfl

theorem placed_append (ys : List Rec) : ∀ (xs : List Rec) (off : ℕ),
    placed off (xs ++ ys) = placed off xs ++ placed (off + chainLength xs) ys := by
  intro xs
  induction xs with
  | nil => exact fun _ => rfl
  | cons r xs ih =>
    intro off
    rw [List.cons_append, placed, placed, ih, chainLength_cons, Nat.add_assoc]
    rfl

/-- The blocks of a directory make one chain. -/
theorem Chains.records {blocks : List (List Rec)} (h : Chains body blocks) :
    ∀ m j, j + m = blocks.length →
    Records body (blocks.length * ufsDirblksiz) (j * ufsDirblksiz) (blocks.drop j).flatten := by
  intro m
  induction m with
  | zero =>
    intro j hj
    rw [List.drop_of_length_le (by omega)]
    exact congrArg (· * ufsDirblksiz) hj
  | succ m ih =>
    intro j hj
    have hjl : j < blocks.length := by omega
    have hc := h.chain j _ (List.getElem?_eq_getElem hjl)
    rw [List.drop_eq_getElem_cons hjl, List.flatten_cons, Records.append, ← hc.stop_eq]
    exact ⟨hc, ih (j + 1) (by omega)⟩

theorem storedName_placed {stop : ℕ} : ∀ {rs : List Rec} {off : ℕ}, Records body stop off rs →
    ((placed off rs).filter (·.inode ≠ 0)).map
      (fun r => (⟨storedName body r, r.inode⟩ : Entry)) = entriesOf rs := by
  intro rs
  induction rs with
  | nil => exact fun _ => rfl
  | cons r rs ih =>
    intro off h
    obtain ⟨-, hat, hr⟩ := h
    unfold placed
    by_cases h0 : r.inode = 0
    · rw [List.filter_cons_of_neg (by simp [Rec.entry, h0]), entriesOf_cons_dead h0, ih hr]
    · rw [List.filter_cons_of_pos (by simp [Rec.entry, h0]), entriesOf_cons_live h0, List.map_cons,
        ih hr]
      have hname : storedName body (r.entry off) = r.name := hat.name
      rw [hname]
      rfl

variable {ufs : Ufs} {image : Bytes} {T : Table} {n : ℕ}

/-- The reader lists the records of all blocks, with their offsets in the directory. -/
theorem Ufs.Stores.directoryRecords (h : ufs.Stores image T) (hn : n ∈ T.live)
    {blocks : List (List Rec)} (hc : Chains (T.file n).body blocks) :
    UfsFuse.iterInodeDirectoryRecords image ufs (T.file n).inode = .ok (placed 0 blocks.flatten) := by
  have hlen := h.body_length hn
  have hcl := hc.length_eq
  rw [UfsFuse.iterInodeDirectoryRecords, h.readInodeBytes hn, Outcome.ok_bind, ← hlen, hcl,
    dirBlockOffsets_mul, ← hcl, List.range_eq_range']
  -- after the blocks below `j` their records have been collected
  have hloop : ∀ m j, j + m = blocks.length → ∀ records, placed 0 blocks.flatten =
      records ++ placed (j * ufsDirblksiz) (blocks.drop j).flatten → Outcome.foldM
        (fun records blockOffset => do
          let blockSpan := min ufsDirblksiz ((T.file n).body.length - blockOffset)
          let blockEnd := min (blockOffset + blockSpan) (T.file n).body.length
          Outcome.guard (blockOffset ≤ blockEnd)
          let blockBytes := (T.file n).body.slice blockOffset (blockEnd - blockOffset)
          pure (records ++ (iterDirectoryRecords blockBytes blockSpan).map fun record =>
            { record with offset := record.offset + blockOffset }))
        records ((List.range' j m).map (· * ufsDirblksiz)) =
          (.ok (placed 0 blocks.flatten) : Outcome Fault (List DirEntry)) := by
    intro m
    induction m with
    | zero =>
      intro j hj records hr
      rw [List.drop_of_length_le (by omega)] at hr
      rw [hr]
      simp [placed, Outcome.foldM]
    | succ m ih =>
      intro j hj records hr
      have hjl : j < blocks.length := by omega
      have hk : blocks[j]? = some blocks[j] := List.getElem?_eq_getElem hjl
      have hend := hc.end_le hk
      have hstop := (hc.chain j _ hk).stop_eq
      rw [Nat.succ_mul] at hend
      have hspan : min ufsDirblksiz ((T.file n).body.length - j * ufsDirblksiz) = ufsDirblksiz :=
        Nat.min_eq_left (by omega)
      have hmin : min (j * ufsDirblksiz + ufsDirblksiz) (T.file n).body.length =
          j * ufsDirblksiz + ufsDirblksiz := Nat.min_eq_left hend
      rw [List.drop_eq_getElem_cons hjl, List.flatten_cons, placed_append, ← hstop,
        ← List.append_assoc] at hr
      rw [List.range'_succ, List.map_cons, Outcome.foldM]
      dsimp only
      rw [hspan, hmin, Outcome.guard_true (Nat.le_add_right _ _), Outcome.ok_bind,
        Nat.add_sub_cancel_left, (hc.block hk).records, placed_shift, Nat.zero_add]
      exact ih (j + 1) (by omega) _ hr
  refine hloop blocks.length 0 (by omega) [] ?_
  rw [List.drop_zero, Nat.zero_mul]
  rfl

theorem Ufs.Stores.storedEntries (h : ufs.Stores image T) (hn : n ∈ T.live) {es : List Entry}
    (hd : Directory (T.file n).body es) :
    UfsFuse.storedEntries image ufs (T.file n).inode = .ok es := by
  obtain ⟨blocks, hc, -, rfl⟩ := hd
  rw [UfsFuse.storedEntries, h.readInodeBytes hn, Outcome.ok_bind, h.directoryRecords hn hc,
    Outcome.ok_bind]
  have hr := hc.records blocks.length 0 (by omega)
  rw [List.drop_zero, Nat.zero_mul] at hr
  exact congrArg Outcome.ok (storedName_placed hr)

end Stored

/-! ## Trees on an image -/

/-- The image shows this tree of names, with its numbers of links. -/
structure Shows (image : Bytes) (ufs : Ufs) (N : NameTree) : Prop where
  live : ∀ n, inUse image ufs n = true ↔ n ∈ N.live
  dirs : usedDirs image ufs = N.dirs
  entries : ∀ d ∈ N.dirs, (entriesAt image ufs d : Multiset Entry) = N.records d
  nlink : ∀ n ∈ N.live, ∃ i, readInode image ufs n = some i ∧ i.nlink = N.links n

section Shows
variable {ufs : Ufs} {image : Bytes} {T : Table} {N : NameTree} {n : ℕ}

theorem Ufs.Stores.inUse (h : ufs.Stores image T) :
    UfsFuse.inUse image ufs n = true ↔ 2 ≤ n ∧ n ∈ T.used := by
  have g := h.geom
  obtain ⟨D, own, hi, hv⟩ := h
  unfold UfsFuse.inUse
  by_cases hn : 2 ≤ n ∧ n < ufs.sb.inodes
  · obtain ⟨b, hb, hlen, hdec⟩ := hi.readCgBlock (Superblock.div_ipg_lt hn.2)
    have hmod := g.mod_ipg_lt n
    have hmax : n % ufs.sb.ipg < maxipg := hmod.trans_le g.ipg_le
    have hu := isInodeUsed_eq hmax (hlen ▸ g.free_le_bsize)
    rw [decide_eq_true hn, Bool.true_and, Superblock.itog, hb, Outcome.ok_bind, hu, hdec]
    exact (hv.map.mem n hn.2).trans (and_iff_right hn.1).symm
  · rw [decide_eq_false hn, Bool.false_and]
    exact iff_of_false Bool.false_ne_true fun h => hn ⟨h.1, hv.map.inRange n h.2⟩

theorem Carries.used_iff {links : ℕ → ℕ} (hc : Carries T N links) (h : ufs.Stores image T) :
    2 ≤ n ∧ n ∈ T.used ↔ n ∈ N.live := by
  obtain ⟨D, own, -, hv⟩ := h
  rw [Table.used, hc.reserved, hc.live, Finset.mem_union]
  constructor
  · intro hn
    cases hn.2 with
    | inl h =>
      simp only [Finset.mem_insert, Finset.mem_singleton] at h
      omega
    | inr h => exact h
  · intro hn
    exact ⟨hv.live_ge (hc.live ▸ hn), .inr hn⟩

theorem Carries.shows (hc : Carries T N N.links) (hs : N.Sound) (h : ufs.Stores image T) :
    Shows image ufs N := by
  have hlive : ∀ n, UfsFuse.inUse image ufs n = true ↔ n ∈ N.live := fun n =>
    h.inUse.trans (hc.used_iff h)
  have hread : ∀ n ∈ N.live, readInode image ufs n = some (T.file n).inode.toInode := fun n hn =>
    h.readInode (hc.live ▸ hn)
  refine ⟨hlive, ?_, fun d hd => ?_, fun n hn => ⟨_, hread n hn, hc.nlink n hn⟩⟩
  · ext n
    rw [usedDirs, Finset.mem_filter, Finset.mem_range, UfsFuse.isDir, Bool.and_eq_true]
    constructor
    · rintro ⟨-, hu, hd⟩
      have hn := (hlive n).mp hu
      rw [hread n hn] at hd
      exact (hc.isDir n hn).mp hd
    · intro hd
      have hn := hs.dirs_live hd
      refine ⟨(h.used_lt (Finset.mem_union_right _ (hc.live ▸ hn))).1, (hlive n).mpr hn, ?_⟩
      rw [hread n hn]
      exact (hc.isDir n hn).mpr hd
  · have hn := hs.dirs_live hd
    obtain ⟨es, hdir, hes⟩ := hc.body d hd
    rw [entriesAt, hread d hn]
    dsimp only
    rw [h.storedEntries (hc.live ▸ hn) hdir]
    exact hes

theorem Shows.recordsNaming (h : Shows image ufs N) (n : ℕ) :
    UfsFuse.recordsNaming image ufs n = N.links n := by
  rw [UfsFuse.recordsNaming, h.dirs]
  refine Finset.sum_congr rfl fun d hd => ?_
  rw [naming, ← h.entries d hd, Multiset.coe_countP]

end Shows
end UfsFuse
