import UfsFuse.Body

/-!
# Reading is reading the body

`read_data_range`, `read_inode_bytes` and `read_inode_range` return ranges of the body of a file
whose blocks hold its size.
-/
namespace UfsFuse

theorem mem_take_zipIdx {α : Type} {l : List α} {s : ℕ} {x : α × ℕ} (h : x ∈ l.zipIdx.take s) :
    x.2 < s := by
  obtain ⟨i, hi, rfl⟩ := List.mem_iff_getElem.mp h
  rw [List.length_take] at hi
  simp only [List.getElem_take, List.getElem_zipIdx]
  omega

theorem mem_drop_zipIdx {α : Type} {l : List α} {s : ℕ} {x : α × ℕ} (h : x ∈ l.zipIdx.drop s) :
    s ≤ x.2 ∧ x.2 < l.length := by
  obtain ⟨i, hi, rfl⟩ := List.mem_iff_getElem.mp h
  rw [List.length_drop, List.length_zipIdx] at hi
  simp only [List.getElem_drop, List.getElem_zipIdx]
  omega

section Range
variable {ufs : Ufs} {image : Bytes} {D : Disk}

theorem Disk.bytes_slice (D : Disk) {addr len o n : ℕ} (h : o + n ≤ len) :
    (D.bytes addr len).slice o n = D.bytes (addr + o) n := by
  apply Bytes.ext_byte
  · rw [Bytes.slice_length (by rw [Disk.bytes_length]; exact h), Disk.bytes_length]
  · intro i hi
    have hin : i < n := hi.trans_le (Bytes.slice_length_le _ _ _)
    rw [Bytes.byte_slice hin, Disk.bytes_byte _ (by omega), Disk.bytes_byte _ hin, Nat.add_assoc]

/-- A slice that reaches past the end is cut short. -/
theorem Bytes.slice_min (b : Bytes) (o n : ℕ) : b.slice o n = b.slice o (min n (b.length - o)) := by
  simp only [Bytes.slice]
  rw [← List.length_drop, ← List.take_eq_take_min]

@[simp] theorem Bytes.slice_zero_length (b : Bytes) (o : ℕ) : b.slice o 0 = [] := by
  simp [Bytes.slice]

theorem Bytes.slice_past {b : Bytes} {o n : ℕ} (h : b.length ≤ o) : b.slice o n = [] := by
  simp [Bytes.slice, List.drop_eq_nil_of_le h]

/-- All blocks from number `k` on, each with its share of the range. -/
theorem readRangeStep_fold (h : ufs.Holds image D) {offset stop : ℕ} {sizes : List ℕ} :
    ∀ {data : List ℕ} {size k : ℕ}, ufs.sb.Covers sizes size → data.length = sizes.length →
    (∀ r ∈ dataRuns data sizes, ufs.sb.IsRun r.1 r.2) → stop ≤ k * ufs.sb.bsize + size →
    ∀ acc : Bytes, Outcome.foldM (readRangeStep image ufs offset stop) acc (data.zipIdx k) =
      .ok (acc ++ (D.body ufs.sb data size).slice (offset - k * ufs.sb.bsize)
        (stop - k * ufs.sb.bsize - (offset - k * ufs.sb.bsize))) := by
  have g := h.geom
  have hb := g.bsize_pos
  induction sizes with
  | nil =>
    intro data size k _ hl _ _ acc
    rw [List.eq_nil_of_length_eq_zero hl]
    simp [Outcome.foldM, Disk.body, Bytes.slice]
  | cons s sizes ih =>
    intro data size k hc hl hrun hstop acc
    cases data with
    | nil => simp at hl
    | cons b data =>
      obtain ⟨hpos, hs, hle, hr⟩ := hc
      have hl' : data.length = sizes.length := by simpa using hl
      have hrest := fun acc => ih (k := k + 1) hr hl'
        (fun r hm => hrun r (List.mem_cons_of_mem _ hm)) (by rw [Nat.succ_mul]; omega) acc
      have hsucc : (k + 1) * ufs.sb.bsize = k * ufs.sb.bsize + ufs.sb.bsize := Nat.succ_mul _ _
      rw [hsucc] at hrest
      generalize hK : k * ufs.sb.bsize = K at *
      have hbs : ∀ x, x - (K + ufs.sb.bsize) = x - K - ufs.sb.bsize := fun x => by omega
      simp only [hbs] at hrest
      generalize hO : offset - K = O at *
      generalize hS : stop - K = S at *
      have hSs : S ≤ size := by omega
      set A := D.bytes (b * 512) (min ufs.sb.bsize size) with hA
      have hAl : A.length = min ufs.sb.bsize size := Disk.bytes_length _ _ _
      rw [List.zipIdx_cons, Outcome.foldM, readRangeStep]
      simp only [hK, hO, hS, Disk.body]
      rw [← hA, Bytes.slice_append, hAl]
      by_cases hempty : O ≥ min ufs.sb.bsize S
      · rw [if_pos hempty]
        refine (hrest acc).trans ?_
        have hAe : A.slice O (S - O) = [] := by
          by_cases hOS : S ≤ O
          · rw [Nat.sub_eq_zero_of_le hOS, Bytes.slice_zero_length]
          · exact Bytes.slice_past (by omega)
        rw [hAe, List.nil_append]
        by_cases hOS : S ≤ O
        · have h1 : S - ufs.sb.bsize - (O - ufs.sb.bsize) = 0 := by omega
          have h2 : S - O - (min ufs.sb.bsize size - O) = 0 := by omega
          rw [h1, h2, Bytes.slice_zero_length, Bytes.slice_zero_length]
        · have h1 : min ufs.sb.bsize size = ufs.sb.bsize := by omega
          have h2 : S - ufs.sb.bsize - (O - ufs.sb.bsize) = S - O - (ufs.sb.bsize - O) := by omega
          rw [h1, h2]
      · rw [if_neg hempty, g.dataBlockOffset_eq, Nat.add_assoc]
        have hrunb : ufs.sb.IsRun b (s / 512) := hrun _ (List.mem_cons_self ..)
        have hin : ufs.sb.InData (b * 512) s :=
          hrunb.inData g (Nat.div_mul_cancel hs.2.2).ge
        rw [h.getSlice (hin.mono (Nat.le_add_right _ _) (by lia)) (by omega)]
        simp only [Outcome.ok_bind, Outcome.pure_def]
        have hpart : D.bytes (b * 512 + O) (min ufs.sb.bsize S - O) = A.slice O (S - O) := by
          have hm : min (S - O) (min ufs.sb.bsize size - O) = min ufs.sb.bsize S - O := by omega
          rw [Bytes.slice_min A, hAl, hm, Disk.bytes_slice _ (by omega)]
        rw [hpart]
        refine (hrest _).trans ?_
        rw [List.append_assoc]
        by_cases hbig : S ≤ ufs.sb.bsize
        · have h1 : S - ufs.sb.bsize - (O - ufs.sb.bsize) = 0 := by omega
          have h2 : S - O - (min ufs.sb.bsize size - O) = 0 := by omega
          rw [h1, h2, Bytes.slice_zero_length, Bytes.slice_zero_length]
        · have h1 : min ufs.sb.bsize size = ufs.sb.bsize := by omega
          have h2 : S - ufs.sb.bsize - (O - ufs.sb.bsize) = S - O - (ufs.sb.bsize - O) := by omega
          rw [h1, h2]

theorem Ufs.Holds.readDataRange (h : ufs.Holds image D) {data sizes : List ℕ} {size offset len : ℕ}
    (hc : ufs.sb.Covers sizes size) (hl : data.length = sizes.length)
    (hrun : ∀ r ∈ dataRuns data sizes, ufs.sb.IsRun r.1 r.2) (hle : offset + len ≤ size) :
    readDataRange image ufs data offset len = .ok ((D.body ufs.sb data size).slice offset len) := by
  have hb := h.geom.bsize_pos
  rw [UfsFuse.readDataRange]
  split_ifs with hz
  · rw [hz, Bytes.slice_zero_length]
  · dsimp only
    set start := offset / ufs.sb.bsize with hstart
    set stop := min data.length ((offset + len + ufs.sb.bsize - 1) / ufs.sb.bsize) with hstop
    have hall := @readRangeStep_fold _ _ _ h offset (offset + len) _ _ _ 0 hc hl hrun
      (by omega) []
    -- the blocks before and after the range contribute nothing
    have hbefore : ∀ x ∈ (data.zipIdx.take stop).take start, ∀ acc,
        readRangeStep image ufs offset (offset + len) acc x = .ok acc := by
      intro x hx acc
      have hlt := mem_take_zipIdx (List.mem_of_mem_take (by rwa [List.take_take, Nat.min_comm,
        ← List.take_take] at hx))
      have hm := Nat.mul_le_mul_right ufs.sb.bsize (Nat.succ_le_of_lt hlt)
      rw [Nat.succ_mul] at hm
      have hd : start * ufs.sb.bsize ≤ offset := Nat.div_mul_le_self offset ufs.sb.bsize
      rw [readRangeStep]
      dsimp only
      rw [if_pos (by omega)]
      rfl
    have hafter : ∀ x ∈ data.zipIdx.drop stop, ∀ acc,
        readRangeStep image ufs offset (offset + len) acc x = .ok acc := by
      intro x hx acc
      obtain ⟨hge, hlt⟩ := mem_drop_zipIdx hx
      have hge' : (offset + len + ufs.sb.bsize - 1) / ufs.sb.bsize ≤ x.2 := by omega
      have hm := Nat.mul_le_mul_right ufs.sb.bsize hge'
      have hd := Nat.div_add_mod' (offset + len + ufs.sb.bsize - 1) ufs.sb.bsize
      have hr := Nat.mod_lt (offset + len + ufs.sb.bsize - 1) hb
      rw [readRangeStep]
      dsimp only
      rw [if_pos (by omega)]
      rfl
    have hsplit : data.zipIdx = (data.zipIdx.take stop).take start ++
        (data.zipIdx.take stop).drop start ++ data.zipIdx.drop stop := by
      rw [List.take_append_drop, List.take_append_drop]
    rw [hsplit, Outcome.foldM_append, Outcome.foldM_append, Outcome.foldM_skip hbefore,
      Outcome.ok_bind] at hall
    simp only [Nat.zero_mul, Nat.sub_zero, List.nil_append, Nat.add_sub_cancel_left] at hall
    rcases hmid : Outcome.foldM (readRangeStep image ufs offset (offset + len)) []
        ((data.zipIdx.take stop).drop start) with acc | e | _
    · rw [hmid, Outcome.ok_bind, Outcome.foldM_skip hafter] at hall
      exact hall
    · rw [hmid] at hall
      exact absurd hall (by simp)
    · rw [hmid] at hall
      exact absurd hall (by simp)

end Range

/-! ## Files -/

/-- Blocks of an inode: its data blocks and its pointer blocks. -/
structure Owned where
  data : List ℕ
  ptrs : List ℕ
  deriving Inhabited

def Owned.none : Owned := ⟨[], []⟩

/-- All runs an inode owns. -/
def Owned.runs (sb : Superblock) (i : Inode) (o : Owned) : List Run :=
  dataRuns o.data (sb.allocationByteSizes i.size) ++ o.ptrs.map (·, sb.frag)

/-- The contents of an inode. -/
def Disk.contents (sb : Superblock) (D : Disk) (i : Inode) (o : Owned) : Bytes :=
  D.body sb o.data i.size

section Files
variable {ufs : Ufs} {image : Bytes} {D : Disk} {i : Inode} {o : Owned}

theorem Laid.covers {sb : Superblock} (g : sb.Geometry) {data ptrs : List ℕ}
    (hl : Laid sb D i data ptrs) : sb.Covers (sb.allocationByteSizes i.size) i.size :=
  Superblock.allocationByteSizes_covers g hl.size_lt

theorem Laid.sizes_length {sb : Superblock} (g : sb.Geometry) {data ptrs : List ℕ}
    (hl : Laid sb D i data ptrs) : data.length = (sb.allocationByteSizes i.size).length :=
  hl.count.trans (Superblock.allocationByteSizes_length g hl.size_lt).symm

theorem Owned.ptrs_isRun {sb : Superblock} (hrun : ∀ r ∈ o.runs sb i, sb.IsRun r.1 r.2) :
    ∀ p ∈ o.ptrs, sb.IsRun p sb.frag := fun p hp =>
  hrun (p, sb.frag) (List.mem_append_right _ (List.mem_map.mpr ⟨p, hp, rfl⟩))

theorem Laid.contents_length {sb : Superblock} (g : sb.Geometry)
    (hl : Laid sb D i o.data o.ptrs) : (D.contents sb i o).length = i.size :=
  Disk.body_length (hl.covers g) (hl.sizes_length g)

theorem Ufs.Holds.readInodeBytes (h : ufs.Holds image D) (hl : Laid ufs.sb D i o.data o.ptrs)
    (hrun : ∀ r ∈ o.runs ufs.sb i, ufs.sb.IsRun r.1 r.2) :
    readInodeBytes image ufs i = .ok (D.contents ufs.sb i o) := by
  have g := h.geom
  have hlen := hl.contents_length g
  rw [UfsFuse.readInodeBytes]
  split_ifs with hz
  · rw [hz] at hlen
    rw [List.eq_nil_of_length_eq_zero hlen]
  · rw [hl.inodeDataBlocks h (Owned.ptrs_isRun hrun), Outcome.ok_bind,
      h.readDataRange (hl.covers g) (hl.sizes_length g)
        (fun r hr => hrun r (List.mem_append_left _ hr)) (by omega)]
    rw [Disk.contents] at hlen ⊢
    conv_lhs => rw [← hlen]
    rw [hlen]
    conv_lhs =>
      arg 1
      arg 3
      rw [← hlen]
    rw [Bytes.slice_full]

theorem Ufs.Holds.readInodeRange (h : ufs.Holds image D) (hl : Laid ufs.sb D i o.data o.ptrs)
    (hrun : ∀ r ∈ o.runs ufs.sb i, ufs.sb.IsRun r.1 r.2) (offset size : ℕ) :
    readInodeRange image ufs i offset size = .ok ((D.contents ufs.sb i o).slice offset size) := by
  have g := h.geom
  have hlen := hl.contents_length g
  rw [UfsFuse.readInodeRange]
  split_ifs with hz
  · rcases hz with rfl | hz
    · rw [Bytes.slice_zero_length]
    · rw [Bytes.slice_past (by omega)]
  · dsimp only
    rw [hl.inodeDataBlocks h (Owned.ptrs_isRun hrun), Outcome.ok_bind,
      h.readDataRange (hl.covers g) (hl.sizes_length g)
        (fun r hr => hrun r (List.mem_append_left _ hr)) (by omega), Bytes.slice_min _ _ size, hlen]
    rfl

end Files
end UfsFuse
