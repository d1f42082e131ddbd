import UfsFuse.Formatted
import UfsFuse.Frame

/-!
# Replacing the contents of an inode

What the image shows after an inode was given new contents: as a whole, or by a write within or over
the end of the old ones. Both leave the inode with the same size, block count and allocation sizes.
-/
namespace UfsFuse

/-- Inode `n` stores `body` in blocks of the sizes that the allocator gives it. -/
structure Allotted (image : Bytes) (ufs : Ufs) (n : ℕ) (body : Bytes) (inode : Inode)
    (data ptrs : List ℕ) : Prop where
  stored : readInode image ufs n = some inode
  bytes : readInodeBytes image ufs inode = .ok body
  size : inode.size = body.length
  dataBlocks : inodeDataBlocks image ufs inode = .ok data
  pointerBlocks : inodePointerBlocks image ufs inode = .ok ptrs
  data_length : data.length = (ufs.sb.allocationByteSizes body.length).length
  ptrs_length : ptrs.length = ufs.sb.pointerBlocks data.length
  claims : claimedRuns image ufs n =
    dataRuns data (ufs.sb.allocationByteSizes body.length) ++ blockRuns ufs.sb ptrs
  sectors : inode.blocks = ((ufs.sb.allocationByteSizes body.length).map (· / sectorSize)).sum +
    ptrs.length * (ufs.sb.bsize / sectorSize)

def StoresAs (image : Bytes) (ufs : Ufs) (n : ℕ) (body : Bytes) : Prop :=
  ∃ inode data ptrs, Allotted image ufs n body inode data ptrs

section Stored
variable {ufs : Ufs} {image image' : Bytes} {D D' : Disk} {own own' : ℕ → Owned} {T T' : Table}
variable {n : ℕ} {body : Bytes}

/-- In a volume every inode stores its body that way. -/
theorem Volume.storesAs (hi : ufs.Holds image D) (hv : Volume ufs.sb D own T) (hn : n ∈ T.live) :
    StoresAs image ufs n (T.file n).body := by
  have g := hi.geom
  have hl := hv.laid n hn
  have hrun := hv.isRun hn
  have hsize : (D.ino n).size = (T.file n).body.length := by
    rw [hv.body_length g hn, hv.inode n hn]
  have hlen := hl.sizes_length g
  have hblocks := hv.blocks n hn
  rw [sectors_eq g hlen, hsize] at hblocks
  rw [hsize] at hlen
  refine ⟨D.ino n, (own n).data, (own n).ptrs, hi.readInode (hv.live_lt hn), ?_, hsize,
    hl.inodeDataBlocks hi (Owned.ptrs_isRun hrun), hl.inodePointerBlocks hi (Owned.ptrs_isRun hrun),
    hlen, hl.filled, ?_, hblocks⟩
  · rw [hi.readInodeBytes hl hrun]
    exact congrArg Outcome.ok (hv.body n hn)
  · rw [hv.claimedRuns hi hn, Owned.runs_eq, hsize]

theorem Allotted.run_sizes {inode : Inode} {data ptrs : List ℕ}
    (h : Allotted image ufs n body inode data ptrs) :
    (claimedRuns image ufs n).map Prod.snd =
      (ufs.sb.allocationByteSizes body.length).map (· / sectorSize) ++
        List.replicate (ufs.sb.pointerBlocks (ufs.sb.allocationByteSizes body.length).length)
          ufs.sb.frag := by
  have hptr : (blockRuns ufs.sb ptrs).map Prod.snd = List.replicate ptrs.length ufs.sb.frag := by
    rw [blockRuns, List.map_map, List.eq_replicate_iff]
    refine ⟨List.length_map _, fun x hx => ?_⟩
    obtain ⟨p, -, rfl⟩ := List.mem_map.mp hx
    rfl
  have hlen := h.data_length
  rw [h.claims, List.map_append, hptr, h.ptrs_length, hlen, dataRuns,
    List.map_snd_zip (by rw [List.length_map, hlen])]

/-- The contents decide size, block count and the sizes of the blocks. -/
theorem StoresAs.same (h : StoresAs image ufs n body) (h' : StoresAs image' ufs n body) :
    (readInode image ufs n).map (fun i => (i.size, i.blocks)) =
        (readInode image' ufs n).map (fun i => (i.size, i.blocks)) ∧
      (claimedRuns image ufs n).map Prod.snd = (claimedRuns image' ufs n).map Prod.snd := by
  obtain ⟨i, data, ptrs, h⟩ := h
  obtain ⟨i', data', ptrs', h'⟩ := h'
  constructor
  · rw [h.stored, h'.stored, Option.map_some, Option.map_some, h.size, h'.size, h.sectors, h'.sectors,
      h.ptrs_length, h'.ptrs_length, h.data_length, h'.data_length]
  · rw [h.run_sizes, h'.run_sizes]

/-- Fragments outside the data areas are never marked free. -/
theorem Space.meta_not_free {runs : List Run} (hi : ufs.Holds image D) (hs : Space ufs.sb D runs)
    {f : ℕ} (hf : f < ufs.sb.dsize) (hmeta : ¬ufs.sb.IsData f) :
    fragIsFree image ufs f = false ∧ ¬Covered runs f := by
  have g := hi.geom
  have hc : f / ufs.sb.fpg < ufs.sb.ncg :=
    Nat.div_lt_of_lt_mul (hf.trans_le (Nat.mul_comm _ _ ▸ g.dsize_le))
  constructor
  · rw [hi.fragIsFree_group hc, ← Bool.not_eq_true]
    intro hfree
    exact hmeta ⟨hc, hs.free_data _ hc _ hfree⟩
  · rintro ⟨r, hr, hm⟩
    exact hmeta ((hs.isRun r hr).isData g hm).1

/-- The fragments allocated after inode `n` was given new blocks. -/
theorem Replaced.allocated {o : Owned} (hi : ufs.Holds image D) (hv : Volume ufs.sb D own T)
    (hi' : ufs.Holds image' D') (hv' : Volume ufs.sb D' own' T') (hn : n ∈ T.live) (hn' : n ∈ T'.live)
    (ho : own' n = o)
    (hr : Replaced ufs.sb D D' n o (ledger ufs.sb D own (T.live.erase n))) {f : ℕ}
    (hf : f < ufs.sb.dsize) :
    fragIsFree image' ufs f = false ↔
      (fragIsFree image ufs f = false ∧ ¬Covered (claimedRuns image ufs n) f) ∨
        Covered (claimedRuns image' ufs n) f := by
  have hsp := hv.space_at hn
  rw [hv.claimedRuns hi hn, hv'.claimedRuns hi' hn', ho]
  by_cases hdata : ufs.sb.IsData f
  · have hold := hsp.owned f hdata
    have hnew := hr.space.owned f hdata
    rw [covered_append] at hold hnew
    rw [hi.fragIsFree hdata, hi'.fragIsFree hdata, hnew, hold]
    constructor
    · intro h
      cases h with
      | inl hmine => exact .inr hmine
      | inr hother =>
        refine .inl ⟨.inr hother, fun hmine => ?_⟩
        obtain ⟨r, hr, hm⟩ := hmine
        obtain ⟨r', hr', hm'⟩ := hother
        exact (List.pairwise_append.mp hsp.apart).2.2 r hr r' hr' f hm hm'
    · intro h
      cases h with
      | inl hother => exact .inr (hother.1.resolve_left hother.2)
      | inr hmine => exact .inl hmine
  · obtain ⟨hold, hno⟩ := hsp.meta_not_free hi hf hdata
    have hnew := (hr.space.meta_not_free hi' hf hdata).1
    exact iff_of_true hnew (.inl ⟨hold, fun hc => hno (covered_append.mpr (.inl hc))⟩)

end Stored

/-! ## The two ways to replace -/
section Calls
variable {ufs : Ufs} {image image' : Bytes} {T : Table} {n : ℕ}

/-- With room for the new contents the replacement succeeds. -/
theorem Ufs.Stores.setInodeContents_ok (h : ufs.Stores image T) (hn : n ∈ T.live) {new : Bytes}
    (hlen : new.length < 2 ^ 63) (hroom : ufs.sb.blocksNeeded new.length ≤ T.room n) :
    ∃ image', setInodeContents ufs n new image = (.ok (), image') := by
  cases ((setInodeContents_stores hn hlen).run image h).ok_or_err with
  | inl hok =>
    obtain ⟨_, image', hrun, -⟩ := hok
    exact ⟨image', hrun⟩
  | inr herr =>
    obtain ⟨e, image', -, hshort⟩ := herr
    exact absurd hshort (not_lt.mpr hroom)

theorem Ufs.Stores.applyInodeWrite_ok (h : ufs.Stores image T) (hn : n ∈ T.live) {data : Bytes}
    {offset : ℕ} (ho : offset ≤ (T.file n).body.length) (hend : offset + data.length < 2 ^ 63)
    (hroom : ufs.sb.blocksNeeded (max (T.file n).body.length (offset + data.length)) ≤ T.room n) :
    ∃ image', applyInodeWrite ufs n offset data image = (.ok (), image') := by
  cases ((applyInodeWrite_stores hn ho hend).run image h).ok_or_err with
  | inl hok =>
    obtain ⟨_, image', hrun, -⟩ := hok
    exact ⟨image', hrun⟩
  | inr herr =>
    obtain ⟨e, image', -, hshort⟩ := herr
    exact absurd hshort (not_lt.mpr hroom)

end Calls
end UfsFuse
