import UfsFuse.Lookup

/-!
# Ranges of a file

Reader and writer cut a range of a file into parts of blocks, each with formulas of its own. Both come
to the same: byte `x` of a file lies at `byteAddress`.
-/
namespace UfsFuse

/-! ## Where the bytes of a file lie -/

/-- The address of byte `x` in a list of blocks. -/
def byteAddress (ufs : Ufs) (blocks : List ℕ) (x : ℕ) : ℕ :=
  ufs.sb.dataBlockOffset ufs.startOffset (blocks.getD (x / ufs.sb.bsize) 0) + x % ufs.sb.bsize

/-- The bytes `start .. stop` of a list of blocks. -/
def rangeBytes (image : Bytes) (ufs : Ufs) (blocks : List ℕ) (start stop : ℕ) : Bytes :=
  (List.range' start (stop - start)).map fun x => image.byte (byteAddress ufs blocks x)

section Address
variable {image : Bytes} {ufs : Ufs} {blocks : List ℕ} {start stop i : ℕ}

@[simp] theorem rangeBytes_length (image : Bytes) (ufs : Ufs) (blocks : List ℕ) (start stop : ℕ) :
    (rangeBytes image ufs blocks start stop).length = stop - start := by
  simp [rangeBytes]

theorem rangeBytes_empty (h : stop ≤ start) : rangeBytes image ufs blocks start stop = [] := by
  simp [rangeBytes, Nat.sub_eq_zero_of_le h]

theorem rangeBytes_append {middle : ℕ} (h₁ : start ≤ middle) (h₂ : middle ≤ stop) :
    rangeBytes image ufs blocks start middle ++ rangeBytes image ufs blocks middle stop =
      rangeBytes image ufs blocks start stop := by
  obtain ⟨m, rfl⟩ := Nat.exists_eq_add_of_le h₁
  have hlen : stop - start = m + (stop - (start + m)) := by omega
  unfold rangeBytes
  rw [← List.map_append, Nat.add_sub_cancel_left, List.range'_append_1, ← hlen]

theorem byte_rangeBytes {j : ℕ} (h : j < stop - start) :
    (rangeBytes image ufs blocks start stop).byte j = image.byte (byteAddress ufs blocks (start + j)) := by
  unfold rangeBytes
  rw [Bytes.byte, List.getD_eq_getElem?_getD, List.getElem?_map, List.getElem?_range' h,
    Option.map_some, Option.getD_some, Nat.one_mul]

/-- The bytes of one block lie one behind the other. -/
theorem byteAddress_block {r : ℕ} (h : r < ufs.sb.bsize) :
    byteAddress ufs blocks (i * ufs.sb.bsize + r) =
      ufs.sb.dataBlockOffset ufs.startOffset (blocks.getD i 0) + r := by
  unfold byteAddress
  rw [Nat.mul_comm, Nat.mul_add_div (by omega), Nat.mul_add_mod, Nat.div_eq_of_lt h,
    Nat.mod_eq_of_lt h, Nat.add_zero]

/-- A part of a block is a slice of the image. -/
theorem slice_block {r s : ℕ} (hrs : r ≤ s) (hs : s ≤ ufs.sb.bsize)
    (hin : ufs.sb.dataBlockOffset ufs.startOffset (blocks.getD i 0) + s ≤ image.length) :
    image.slice (ufs.sb.dataBlockOffset ufs.startOffset (blocks.getD i 0) + r) (s - r) =
      rangeBytes image ufs blocks (i * ufs.sb.bsize + r) (i * ufs.sb.bsize + s) := by
  have hlen := @Bytes.slice_length image
    (ufs.sb.dataBlockOffset ufs.startOffset (blocks.getD i 0) + r) (s - r) (by omega)
  apply Bytes.ext_byte
  · rw [hlen, rangeBytes_length]
    omega
  · intro j hj
    rw [hlen] at hj
    rw [Bytes.byte_slice hj, byte_rangeBytes (by omega), Nat.add_assoc (i * ufs.sb.bsize),
      byteAddress_block (by omega), Nat.add_assoc]

end Address

/-! ## Reading -/
section Reading
variable {image : Bytes} {ufs : Ufs} {blocks : List ℕ} {offset stop : ℕ}

/-- A part of a range that is in the block reads no further than the block. -/
theorem readRangeStep_eq (hb : 0 < ufs.sb.bsize) (i : ℕ)
    (hin : ∀ x, offset ≤ x → x < stop → x / ufs.sb.bsize = i →
      byteAddress ufs blocks x < image.length) :
    readRangeStep image ufs offset stop
        (rangeBytes image ufs blocks offset (min stop (i * ufs.sb.bsize))) (blocks.getD i 0, i) =
      .ok (rangeBytes image ufs blocks offset (min stop ((i + 1) * ufs.sb.bsize))) := by
  have hnext : (i + 1) * ufs.sb.bsize = i * ufs.sb.bsize + ufs.sb.bsize := Nat.succ_mul _ _
  unfold readRangeStep
  dsimp only
  by_cases hempty : offset - i * ufs.sb.bsize ≥ min ufs.sb.bsize (stop - i * ufs.sb.bsize)
  · rw [if_pos hempty]
    by_cases hstop : stop ≤ i * ufs.sb.bsize
    · rw [Nat.min_eq_left hstop, Nat.min_eq_left (by omega)]
      rfl
    · rw [rangeBytes_empty (by omega), rangeBytes_empty (by omega)]
      rfl
  · rw [if_neg hempty]
    set r := offset - i * ufs.sb.bsize with hr
    set s := min ufs.sb.bsize (stop - i * ufs.sb.bsize) with hs
    have hlast := hin (i * ufs.sb.bsize + (s - 1)) (by omega) (by omega) (by
      rw [Nat.mul_comm, Nat.mul_add_div hb, Nat.div_eq_of_lt (by omega), Nat.add_zero])
    rw [byteAddress_block (by omega)] at hlast
    have hslice := @slice_block image ufs blocks i r s (by omega) (by omega) (by omega)
    unfold getSlice
    rw [Outcome.guard_true (by omega), Outcome.ok_bind, Outcome.pure_def, Outcome.ok_bind, hslice,
      show min stop ((i + 1) * ufs.sb.bsize) = i * ufs.sb.bsize + s by omega]
    by_cases hbefore : offset ≤ i * ufs.sb.bsize
    · rw [show r = 0 by omega, Nat.add_zero, Nat.min_eq_right (by omega)]
      exact congrArg Outcome.ok (rangeBytes_append hbefore (by omega))
    · rw [show i * ufs.sb.bsize + r = offset by omega, rangeBytes_empty (by omega)]
      rfl

/-- The blocks of a list from one number up to another. -/
theorem zipIdx_take_drop (blocks : List ℕ) {first last : ℕ} (h : last ≤ blocks.length) :
    (blocks.zipIdx.take last).drop first =
      (List.range' first (last - first)).map fun i => (blocks.getD i 0, i) := by
  apply List.ext_getElem?
  intro j
  rw [List.getElem?_drop, List.getElem?_map]
  by_cases hj : j < last - first
  · have hlt : first + j < blocks.length := by omega
    rw [List.getElem?_take_of_lt (by omega), List.getElem?_zipIdx, List.getElem?_range' hj,
      List.getElem?_eq_getElem hlt, Option.map_some, Option.map_some, Nat.zero_add, Nat.one_mul,
      List.getD_eq_getElem _ _ hlt]
  · rw [List.getElem?_take_eq_none (by omega), List.getElem?_eq_none (by simpa using not_lt.mp hj)]
    rfl

theorem readRangeStep_loop (hb : 0 < ufs.sb.bsize) (n i : ℕ)
    (hin : ∀ x, offset ≤ x → x < stop → x / ufs.sb.bsize < i + n →
      byteAddress ufs blocks x < image.length) :
    Outcome.foldM (readRangeStep image ufs offset stop)
        (rangeBytes image ufs blocks offset (min stop (i * ufs.sb.bsize)))
        ((List.range' i n).map fun i => (blocks.getD i 0, i)) =
      .ok (rangeBytes image ufs blocks offset (min stop ((i + n) * ufs.sb.bsize))) := by
  induction n generalizing i with
  | zero => rfl
  | succ n ih =>
    rw [List.range'_succ, List.map_cons, Outcome.foldM,
      readRangeStep_eq hb i fun x h₁ h₂ h₃ => hin x h₁ h₂ (by omega), Outcome.ok_bind,
      ih (i + 1) fun x h₁ h₂ h₃ => hin x h₁ h₂ (by omega), Nat.add_right_comm, Nat.add_assoc]

/-- `read_data_range` returns the bytes of the range, as far as there are blocks. -/
theorem readDataRange_eq (hb : 0 < ufs.sb.bsize) {size : ℕ}
    (hin : ∀ x, offset ≤ x → x < offset + size → x < blocks.length * ufs.sb.bsize →
      byteAddress ufs blocks x < image.length) :
    readDataRange image ufs blocks offset size =
      .ok (rangeBytes image ufs blocks offset
        (min (offset + size) (blocks.length * ufs.sb.bsize))) := by
  unfold readDataRange
  by_cases hzero : size = 0
  · rw [if_pos hzero, rangeBytes_empty (by omega)]
  rw [if_neg hzero]
  dsimp only
  set first := offset / ufs.sb.bsize with hfirst
  set ceil := (offset + size + ufs.sb.bsize - 1) / ufs.sb.bsize with hceil
  have hbelow : first * ufs.sb.bsize ≤ offset := Nat.div_mul_le_self _ _
  have habove : offset + size ≤ ceil * ufs.sb.bsize := by
    have hdiv := Nat.div_add_mod' (offset + size + ufs.sb.bsize - 1) ufs.sb.bsize
    have hmod := Nat.mod_lt (offset + size + ufs.sb.bsize - 1) hb
    rw [← hceil] at hdiv
    omega
  have hlast : min (offset + size) (min blocks.length ceil * ufs.sb.bsize) =
      min (offset + size) (blocks.length * ufs.sb.bsize) := by
    rcases Nat.le_total blocks.length ceil with h | h
    · rw [Nat.min_eq_left h]
    · have hmul := Nat.mul_le_mul_right ufs.sb.bsize h
      rw [Nat.min_eq_right h]
      omega
  rw [zipIdx_take_drop blocks (Nat.min_le_left _ _)]
  have hstart : ([] : Bytes) =
      rangeBytes image ufs blocks offset (min (offset + size) (first * ufs.sb.bsize)) :=
    (rangeBytes_empty (by omega)).symm
  by_cases hnone : min blocks.length ceil ≤ first
  · have hmul := Nat.mul_le_mul_right ufs.sb.bsize hnone
    rw [Nat.sub_eq_zero_of_le hnone, ← hlast, rangeBytes_empty (by omega)]
    rfl
  · have hloop := @readRangeStep_loop image ufs blocks offset (offset + size) hb
      (min blocks.length ceil - first) first
    rw [Nat.add_sub_of_le (not_le.mp hnone).le] at hloop
    rw [hstart, hloop, hlast]
    intro x h₁ h₂ h₃
    refine hin x h₁ h₂ ?_
    have hmul := Nat.mul_le_mul_right ufs.sb.bsize (show x / ufs.sb.bsize + 1 ≤ blocks.length by omega)
    have hdiv := Nat.div_add_mod' x ufs.sb.bsize
    have hmod := Nat.mod_lt x hb
    rw [Nat.succ_mul] at hmul
    omega

theorem rangeBytes_slice {n o m : ℕ} (h : o + m ≤ n) :
    (rangeBytes image ufs blocks 0 n).slice o m = rangeBytes image ufs blocks o (o + m) := by
  have hlen := @Bytes.slice_length (rangeBytes image ufs blocks 0 n) o m (by simpa using h)
  apply Bytes.ext_byte
  · rw [hlen, rangeBytes_length]
    omega
  · intro j hj
    rw [hlen] at hj
    rw [Bytes.byte_slice hj, byte_rangeBytes (by omega), byte_rangeBytes (by omega), Nat.zero_add]

/-- The blocks of an inode can be collected, and what it uses of them lies in the image. -/
structure InodeInside (image : Bytes) (ufs : Ufs) (inode : Inode) (blocks : List ℕ) : Prop where
  read : inodeDataBlocks image ufs inode = .ok blocks
  inside : ∀ k b : ℕ, blocks[k]? = some b → k * ufs.sb.bsize < inode.size →
    ufs.sb.dataBlockOffset ufs.startOffset b + min ufs.sb.bsize (inode.size - k * ufs.sb.bsize) ≤
      image.length

variable {inode : Inode}

theorem InodeInside.address_lt (h : InodeInside image ufs inode blocks) (hb : 0 < ufs.sb.bsize) {x : ℕ}
    (hsize : x < inode.size) (hx : x < blocks.length * ufs.sb.bsize) :
    byteAddress ufs blocks x < image.length := by
  have hk : x / ufs.sb.bsize < blocks.length := Nat.div_lt_of_lt_mul (by rwa [Nat.mul_comm])
  have hdiv := Nat.div_add_mod' x ufs.sb.bsize
  have hmod := Nat.mod_lt x hb
  have hin := h.inside (x / ufs.sb.bsize) _ (List.getElem?_eq_getElem hk) (by omega)
  unfold byteAddress
  rw [List.getD_eq_getElem _ _ hk]
  omega

/-- A range of an inode is the range of its contents, cut at their end. -/
theorem readInodeRange_eq (hb : 0 < ufs.sb.bsize) (h : InodeInside image ufs inode blocks) :
    ∃ whole, readInodeBytes image ufs inode = .ok whole ∧ ∀ offset size,
      readInodeRange image ufs inode offset size =
        .ok (whole.slice (min offset whole.length)
          (min (offset + size) whole.length - min offset whole.length)) := by
  refine ⟨rangeBytes image ufs blocks 0 (min inode.size (blocks.length * ufs.sb.bsize)), ?_, ?_⟩
  · unfold readInodeBytes
    by_cases hzero : inode.size = 0
    · rw [if_pos hzero, rangeBytes_empty (by omega)]
    · rw [if_neg hzero, h.read, Outcome.ok_bind, readDataRange_eq hb, Nat.zero_add]
      exact fun x _ hx hl => h.address_lt hb (by omega) hl
  · intro offset size
    rw [rangeBytes_length, Nat.sub_zero, rangeBytes_slice (by omega)]
    unfold readInodeRange
    by_cases hnone : size = 0 ∨ offset ≥ inode.size
    · rw [if_pos hnone, rangeBytes_empty (by omega)]
    · rw [if_neg hnone]
      dsimp only
      rw [h.read, Outcome.ok_bind, readDataRange_eq hb fun x _ hx hl => h.address_lt hb (by omega) hl]
      by_cases hpast : offset ≤ min inode.size (blocks.length * ufs.sb.bsize)
      · rw [Nat.min_eq_left hpast]
        congr 2
        omega
      · rw [rangeBytes_empty (by omega), rangeBytes_empty (by omega)]

end Reading

/-! ## Writing -/

/-- The data fit in the allocations, which lie in the image and do not overlap. -/
structure WriteFits (image : Bytes) (ufs : Ufs) (blocks sizes : List ℕ) (offset len : ℕ) : Prop where
  room : ∀ x, offset ≤ x → x < offset + len → ∃ b s : ℕ, blocks[x / ufs.sb.bsize]? = some b ∧
    sizes[x / ufs.sb.bsize]? = some s ∧ x % ufs.sb.bsize < s
  inside : ∀ i b s : ℕ, blocks[i]? = some b → sizes[i]? = some s →
    ufs.sb.dataBlockOffset ufs.startOffset b + min ufs.sb.bsize s ≤ image.length
  apart : ∀ i j b c s t : ℕ, i ≠ j → blocks[i]? = some b → sizes[i]? = some s →
    blocks[j]? = some c → sizes[j]? = some t →
    ufs.sb.dataBlockOffset ufs.startOffset b + min ufs.sb.bsize s ≤
        ufs.sb.dataBlockOffset ufs.startOffset c ∨
      ufs.sb.dataBlockOffset ufs.startOffset c + min ufs.sb.bsize t ≤
        ufs.sb.dataBlockOffset ufs.startOffset b

/-- The range up to `stop` holds the data, and nothing else has changed. -/
structure Written (ufs : Ufs) (blocks : List ℕ) (offset : ℕ) (data image : Bytes) (stop : ℕ)
    (image' : Bytes) : Prop where
  length : image'.length = image.length
  hit : ∀ x, offset ≤ x → x < stop → image'.byte (byteAddress ufs blocks x) = data.byte (x - offset)
  miss : ∀ a, (∀ x, offset ≤ x → x < stop → a ≠ byteAddress ufs blocks x) →
    image'.byte a = image.byte a

section Writing
variable {image image' data : Bytes} {ufs : Ufs} {blocks sizes : List ℕ} {offset stop : ℕ}

theorem WriteFits.address_lt (h : WriteFits image ufs blocks sizes offset data.length)
    (hb : 0 < ufs.sb.bsize) {x : ℕ} (h₁ : offset ≤ x) (h₂ : x < offset + data.length) :
    byteAddress ufs blocks x < image.length := by
  obtain ⟨b, s, hblock, hsize, hlt⟩ := h.room x h₁ h₂
  have hin := h.inside _ _ _ hblock hsize
  have hmod := Nat.mod_lt x hb
  unfold byteAddress
  rw [List.getD_eq_getElem?_getD, hblock, Option.getD_some]
  omega

/-- Different bytes of the range lie at different addresses. -/
theorem WriteFits.address_ne (h : WriteFits image ufs blocks sizes offset data.length)
    (hb : 0 < ufs.sb.bsize) {x y : ℕ} (hx : offset ≤ x ∧ x < offset + data.length)
    (hy : offset ≤ y ∧ y < offset + data.length) (hne : x ≠ y) :
    byteAddress ufs blocks x ≠ byteAddress ufs blocks y := by
  obtain ⟨b, s, hblock, hsize, hlt⟩ := h.room x hx.1 hx.2
  obtain ⟨c, t, hblock', hsize', hlt'⟩ := h.room y hy.1 hy.2
  have hmod := Nat.mod_lt x hb
  have hmod' := Nat.mod_lt y hb
  unfold byteAddress
  rw [List.getD_eq_getElem?_getD, List.getD_eq_getElem?_getD, hblock, hblock', Option.getD_some,
    Option.getD_some]
  by_cases hsame : x / ufs.sb.bsize = y / ufs.sb.bsize
  · have hdiv := Nat.div_add_mod' x ufs.sb.bsize
    have hdiv' := Nat.div_add_mod' y ufs.sb.bsize
    rw [hsame] at hblock hdiv
    obtain rfl := Option.some.inj (hblock.symm.trans hblock')
    omega
  · have hapart := h.apart _ _ _ _ _ _ hsame hblock hsize hblock' hsize'
    omega

/-- The range grows by bytes written behind `base`, the address of byte `first`. -/
theorem Written.overlay {first n base : ℕ} (h : WriteFits image ufs blocks sizes offset data.length)
    (hb : 0 < ufs.sb.bsize) (hw : Written ufs blocks offset data image stop image')
    (hfirst : max offset stop = first) (hlast : first + n ≤ offset + data.length)
    (haddr : ∀ j < n, byteAddress ufs blocks (first + j) = base + j)
    (hfit : base + n ≤ image.length) :
    Written ufs blocks offset data image (first + n)
      (image'.overlay base (data.slice (first - offset) n)) := by
  have hlen : (data.slice (first - offset) n).length = n := Bytes.slice_length (by omega)
  have hin : base + (data.slice (first - offset) n).length ≤ image'.length := by
    rw [hlen, hw.length]
    exact hfit
  have hnew : ∀ a, base ≤ a → a < base + n → a = byteAddress ufs blocks (first + (a - base)) := by
    intro a h₁ h₂
    rw [haddr _ (by omega)]
    omega
  constructor
  · rw [Bytes.overlay_length hin, hw.length]
  · intro x hx hx'
    rw [Bytes.byte_overlay hin, hlen]
    by_cases hold : x < stop
    · have hout : ¬(base ≤ byteAddress ufs blocks x ∧ byteAddress ufs blocks x < base + n) := by
        rintro ⟨h₁, h₂⟩
        have hsame := hnew _ h₁ h₂
        exact h.address_ne hb ⟨hx, by omega⟩ ⟨by omega, by omega⟩ (by omega) hsame
      rw [if_neg hout]
      exact hw.hit x hx hold
    · have hx'' : byteAddress ufs blocks x = base + (x - first) := by
        rw [← haddr (x - first) (by omega)]
        congr 1
        omega
      rw [hx'', if_pos (by omega), Nat.add_sub_cancel_left, Bytes.byte_slice (by omega)]
      congr 1
      omega
  · intro a ha
    have hout : ¬(base ≤ a ∧ a < base + n) := by
      rintro ⟨h₁, h₂⟩
      exact ha _ (by omega) (by omega) (hnew a h₁ h₂)
    rw [Bytes.byte_overlay hin, hlen, if_neg hout]
    apply hw.miss
    intro x hx hx'
    exact ha x hx (by omega)

/-- One block of the range; the clamp to the allocation cuts nothing off. -/
theorem writeRangeStep_ok (hb : 0 < ufs.sb.bsize)
    (h : WriteFits image ufs blocks sizes offset data.length) {i : ℕ}
    (hi : i < blocks.length) (hi' : i < sizes.length)
    (hw : Written ufs blocks offset data image (min (offset + data.length) (i * ufs.sb.bsize)) image') :
    ∃ next, writeRangeStep ufs blocks sizes offset data i image' = (.ok (), next) ∧
      Written ufs blocks offset data image
        (min (offset + data.length) ((i + 1) * ufs.sb.bsize)) next := by
  have hnext : (i + 1) * ufs.sb.bsize = i * ufs.sb.bsize + ufs.sb.bsize := Nat.succ_mul _ _
  have hroom : ∀ r, offset ≤ i * ufs.sb.bsize + r → i * ufs.sb.bsize + r < offset + data.length →
      r < ufs.sb.bsize → r < sizes[i] := by
    intro r h₁ h₂ h₃
    obtain ⟨b, s, -, hs, hlt⟩ := h.room _ h₁ h₂
    rw [Nat.mul_comm, Nat.mul_add_div hb, Nat.div_eq_of_lt h₃, Nat.add_zero,
      List.getElem?_eq_getElem hi'] at hs
    rw [Nat.mul_comm, Nat.mul_add_mod, Nat.mod_eq_of_lt h₃] at hlt
    obtain rfl := Option.some.inj hs
    exact hlt
  have hinside := h.inside i _ _ (List.getElem?_eq_getElem hi) (List.getElem?_eq_getElem hi')
  unfold writeRangeStep
  rw [List.getElem?_eq_getElem hi, List.getElem?_eq_getElem hi', Outcome.unwrap_some,
    Outcome.unwrap_some, Act.lift_ok_bind, Act.lift_ok_bind]
  set r := offset - i * ufs.sb.bsize with hr
  set s := min ufs.sb.bsize (offset + data.length - i * ufs.sb.bsize) with hs
  have hclamp : r < s → s ≤ sizes[i] := by
    intro hlt
    have hlast := hroom (s - 1) (by omega) (by omega) (by omega)
    omega
  by_cases hskip : r ≥ min s sizes[i]
  · have hnone : s ≤ r := by
      by_contra hlt
      have hcut := hclamp (not_le.mp hlt)
      omega
    rw [if_pos hskip]
    refine ⟨image', rfl, hw.length, ?_, ?_⟩
    · intro x h₁ h₂
      exact hw.hit x h₁ (by omega)
    · intro a ha
      apply hw.miss
      intro x h₁ h₂
      exact ha x h₁ (by omega)
  · have hcut := hclamp (by omega)
    rw [if_neg hskip, Nat.min_eq_left hcut]
    have hgrow := @Written.overlay image image' data ufs blocks sizes offset _
      (i * ufs.sb.bsize + r) (s - r)
      (ufs.sb.dataBlockOffset ufs.startOffset blocks[i] + r) h hb hw (by omega) (by omega)
      (by
        intro j hj
        rw [Nat.add_assoc, byteAddress_block (by omega), List.getD_eq_getElem _ _ hi, Nat.add_assoc])
      (by omega)
    have hlen : (data.slice (i * ufs.sb.bsize + r - offset) (s - r)).length = s - r :=
      Bytes.slice_length (by omega)
    rw [show i * ufs.sb.bsize + r + (s - r) =
      min (offset + data.length) ((i + 1) * ufs.sb.bsize) by omega] at hgrow
    refine ⟨_, ?_, hgrow⟩
    apply Act.update_eq_ok.mpr
    rw [Outcome.guard_true (by rw [hlen, hw.length]; omega)]
    rfl

theorem writeRange_loop (hb : 0 < ufs.sb.bsize)
    (h : WriteFits image ufs blocks sizes offset data.length) (n i : ℕ)
    (hi : i + n ≤ blocks.length) (hi' : i + n ≤ sizes.length)
    (hw : Written ufs blocks offset data image (min (offset + data.length) (i * ufs.sb.bsize)) image') :
    ∃ next, Act.each (writeRangeStep ufs blocks sizes offset data) (List.range' i n) image' =
        (.ok (), next) ∧
      Written ufs blocks offset data image
        (min (offset + data.length) ((i + n) * ufs.sb.bsize)) next := by
  induction n generalizing i image' with
  | zero => exact ⟨image', rfl, hw⟩
  | succ n ih =>
    obtain ⟨middle, hstep, hmiddle⟩ := writeRangeStep_ok hb h (i := i) (by omega) (by omega) hw
    obtain ⟨next, hrest, hnext⟩ := ih (i + 1) (by omega) (by omega) hmiddle
    refine ⟨next, ?_, ?_⟩
    · rw [List.range'_succ, Act.each]
      exact Act.bind_eq_ok.mpr ⟨(), middle, hstep, hrest⟩
    · rwa [Nat.add_right_comm, Nat.add_assoc] at hnext

/-- What was written is what a read of the range returns, and no other byte of the image has changed. -/
theorem writeDataRange_read (hb : 0 < ufs.sb.bsize)
    (h : WriteFits image ufs blocks sizes offset data.length) :
    ∃ next, writeDataRange ufs blocks sizes offset data image = (.ok (), next) ∧
      readDataRange next ufs blocks offset data.length = .ok data ∧
      next.length = image.length ∧
      ∀ a, (∀ x, offset ≤ x → x < offset + data.length → a ≠ byteAddress ufs blocks x) →
        next.byte a = image.byte a := by
  have hstart : Written ufs blocks offset data image offset image :=
    ⟨rfl, fun x h₁ h₂ => absurd h₂ (by omega), fun a _ => rfl⟩
  obtain ⟨next, hwrite, hdone⟩ : ∃ next,
      writeDataRange ufs blocks sizes offset data image = (.ok (), next) ∧
      Written ufs blocks offset data image (offset + data.length) next := by
    unfold writeDataRange
    by_cases hempty : data = []
    · subst hempty
      exact ⟨image, rfl, hstart⟩
    rw [if_neg hempty]
    have hpos : 0 < data.length := List.length_pos_iff.mpr hempty
    set first := offset / ufs.sb.bsize with hfirst
    set ceil := (offset + data.length + ufs.sb.bsize - 1) / ufs.sb.bsize with hceil
    have hbelow : first * ufs.sb.bsize ≤ offset := Nat.div_mul_le_self _ _
    have habove : offset + data.length ≤ ceil * ufs.sb.bsize := by
      have hdiv := Nat.div_add_mod' (offset + data.length + ufs.sb.bsize - 1) ufs.sb.bsize
      have hmod := Nat.mod_lt (offset + data.length + ufs.sb.bsize - 1) hb
      rw [← hceil] at hdiv
      omega
    have hlast : ceil = (offset + data.length - 1) / ufs.sb.bsize + 1 := by
      rw [hceil, show offset + data.length + ufs.sb.bsize - 1 =
        offset + data.length - 1 + ufs.sb.bsize by omega, Nat.add_div_right _ hb]
    obtain ⟨b, s, hblock, hsize, -⟩ := h.room (offset + data.length - 1) (by omega) (by omega)
    have hblocks : ceil ≤ blocks.length := by
      have hlt := (List.getElem?_eq_some_iff.mp hblock).1
      omega
    have hsizes : ceil ≤ sizes.length := by
      have hlt := (List.getElem?_eq_some_iff.mp hsize).1
      omega
    have horder : first ≤ ceil := by
      rw [hlast, hfirst]
      exact (Nat.div_le_div_right (by omega)).trans (Nat.le_succ _)
    rw [Nat.min_eq_right (by omega)]
    have hloop := @writeRange_loop image image data ufs blocks sizes offset hb h
      (ceil - first) first (by omega) (by omega)
    rw [Nat.add_sub_of_le horder, Nat.min_eq_left habove] at hloop
    apply hloop
    constructor
    · rfl
    · intro x h₁ h₂
      omega
    · intro a _
      rfl
  refine ⟨next, hwrite, ?_, hdone.length, hdone.miss⟩
  have hlt : ∀ x, offset ≤ x → x < offset + data.length → x < blocks.length * ufs.sb.bsize := by
    intro x h₁ h₂
    obtain ⟨b, s, hblock, -, -⟩ := h.room x h₁ h₂
    have hk := (List.getElem?_eq_some_iff.mp hblock).1
    exact (Nat.div_lt_iff_lt_mul hb).mp hk
  rw [readDataRange_eq hb]
  · congr 1
    have hend : min (offset + data.length) (blocks.length * ufs.sb.bsize) = offset + data.length ∨
        data.length = 0 := by
      rcases Nat.eq_zero_or_pos data.length with hzero | hpos
      · exact .inr hzero
      · have hlast := hlt (offset + data.length - 1) (by omega) (by omega)
        omega
    apply Bytes.ext_byte
    · rw [rangeBytes_length]
      omega
    · intro j hj
      rw [rangeBytes_length] at hj
      rw [byte_rangeBytes hj, hdone.hit _ (by omega) (by omega), Nat.add_sub_cancel_left]
  · intro x h₁ h₂ _
    rw [hdone.length]
    exact h.address_lt hb h₁ h₂

end Writing

/-- Four bytes across the end of a block of 5000 bytes, the second allocation being a tail. -/
theorem crossed_fits {image : Bytes} (hlen : image.length = 65536) :
    WriteFits image (bareUfs 5000) [64, 80] [5000, 1024] 4998 4 := by
  have hblock : ∀ {i b s : ℕ}, ([64, 80] : List ℕ)[i]? = some b →
      ([5000, 1024] : List ℕ)[i]? = some s →
      (i = 0 ∧ b = 64 ∧ s = 5000) ∨ (i = 1 ∧ b = 80 ∧ s = 1024) := by
    intro i b s hb hs
    have hlt : i < 2 := (List.getElem?_eq_some_iff.mp hb).1
    interval_cases i
    · exact .inl ⟨rfl, (Option.some.inj hb).symm, (Option.some.inj hs).symm⟩
    · exact .inr ⟨rfl, (Option.some.inj hb).symm, (Option.some.inj hs).symm⟩
  constructor
  · intro x h₁ h₂
    interval_cases x
    · exact ⟨64, 5000, rfl, rfl, by decide⟩
    · exact ⟨64, 5000, rfl, rfl, by decide⟩
    · exact ⟨80, 1024, rfl, rfl, by decide⟩
    · exact ⟨80, 1024, rfl, rfl, by decide⟩
  · intro i b s hb hs
    rw [hlen]
    obtain ⟨-, rfl, rfl⟩ | ⟨-, rfl, rfl⟩ := hblock hb hs
    · decide
    · decide
  · intro i j b c s t hne hb hs hc ht
    obtain ⟨rfl, rfl, rfl⟩ | ⟨rfl, rfl, rfl⟩ := hblock hb hs
    · obtain ⟨rfl, -, -⟩ | ⟨-, rfl, rfl⟩ := hblock hc ht
      · exact absurd rfl hne
      · decide
    · obtain ⟨-, rfl, rfl⟩ | ⟨rfl, -, -⟩ := hblock hc ht
      · decide
      · exact absurd rfl hne

end UfsFuse
