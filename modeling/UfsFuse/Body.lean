import UfsFuse.Tree

/-!
# The contents of a file

`D.body data size`: the first `size` bytes stored in the blocks `data`. Reading a range returns the
range of the body; writing inside one block overwrites the range of the body, because the blocks
of a file do not overlap.
-/
namespace UfsFuse

namespace Bytes

theorem slice_append (a b : Bytes) (o n : ℕ) :
    slice (a ++ b) o n = a.slice o n ++ b.slice (o - a.length) (n - (a.length - o)) := by
  simp only [slice, List.drop_append, List.take_append, List.length_drop]

theorem slice_zero_take (b : Bytes) (n : ℕ) : b.slice 0 n = b.take n := rfl

theorem overlay_append_left {a b src : Bytes} {o : ℕ} (h : o + src.length ≤ a.length) :
    (a ++ b : Bytes).overlay o src = a.overlay o src ++ b := by
  simp only [overlay, List.append_assoc]
  rw [List.take_append_of_le_length (by omega), List.drop_append_of_le_length (by omega)]

theorem overlay_append_right {a b src : Bytes} {o : ℕ} :
    (a ++ b : Bytes).overlay (a.length + o) src = a ++ b.overlay o src := by
  simp only [overlay, List.append_assoc]
  rw [List.take_length_add_append, Nat.add_assoc, List.drop_length_add_append, List.append_assoc]

/-- Two adjacent overlays are one. -/
theorem overlay_overlay {b x y : Bytes} {o : ℕ} (h : o + x.length + y.length ≤ b.length) :
    (b.overlay o x).overlay (o + x.length) y = b.overlay o (x ++ y) := by
  have h1 : o + x.length ≤ b.length := by omega
  have h2 : o + x.length + y.length ≤ (b.overlay o x).length := by rwa [overlay_length h1]
  have h3 : o + (x ++ y : Bytes).length ≤ b.length := by rw [List.length_append]; omega
  apply ext_byte
  · rw [overlay_length h2, overlay_length h1, overlay_length h3]
  · intro i _
    rw [byte_overlay h2, byte_overlay h1, byte_overlay h3, List.length_append]
    simp only [Bytes.byte, List.getD_eq_getElem?_getD]
    split_ifs with c1 c2 c3 c4 c5
    · rw [List.getElem?_append_right (by omega)]
      congr 2
      omega
    · omega
    · rw [List.getElem?_append_left (by omega)]
    · omega
    · omega
    · rfl

end Bytes

/-! ## Allocation sizes -/
namespace Superblock
variable {sb : Superblock}

/-- Allocation sizes that hold `size` bytes, block after block. -/
def Covers (sb : Superblock) : List ℕ → ℕ → Prop
  | [], size => size = 0
  | s :: ss, size => 0 < size ∧ sb.AllocSize s ∧ min sb.bsize size ≤ s ∧ Covers sb ss (size - sb.bsize)

theorem blocksFor_succ (hb : 0 < sb.bsize) {size : ℕ} (h : 0 < size) :
    sb.blocksFor size = sb.blocksFor (size - sb.bsize) + 1 := by
  unfold blocksFor
  rw [if_neg (by omega)]
  by_cases hle : size ≤ sb.bsize
  · rw [if_pos (by omega)]
    apply Nat.div_eq_of_lt_le
    · omega
    · omega
  · rw [if_neg (by omega)]
    have he : size + sb.bsize - 1 = size - sb.bsize + sb.bsize - 1 + sb.bsize := by omega
    rw [he, Nat.add_div_right _ hb]

theorem allocationByteSizesLoop_covers (g : sb.Geometry) (needed : ℕ) :
    ∀ fuel remaining, fuel = sb.blocksFor remaining →
    sb.Covers (sb.allocationByteSizesLoop needed fuel remaining) remaining ∧
      (sb.allocationByteSizesLoop needed fuel remaining).length = fuel := by
  have hb := g.bsize_pos
  have hbs := g.bsize_eq
  intro fuel
  induction fuel with
  | zero =>
    intro remaining hf
    have hr : remaining = 0 := by
      by_contra hne
      rw [blocksFor_succ hb (Nat.pos_of_ne_zero hne)] at hf
      omega
    exact ⟨hr, rfl⟩
  | succ fuel ih =>
    intro remaining hf
    have hr : 0 < remaining := by
      rcases Nat.eq_zero_or_pos remaining with rfl | h
      · simp [blocksFor] at hf
      · exact h
    rw [blocksFor_succ hb hr] at hf
    obtain ⟨hc, hl⟩ := ih (remaining - sb.bsize) (by omega)
    rw [allocationByteSizesLoop, if_neg (by omega)]
    refine ⟨⟨hr, ?_, ?_, hc⟩, by rw [List.length_cons, hl]⟩
    · unfold AllocSize
      split_ifs
      · exact ⟨hb, le_rfl, Dvd.intro_left _ hbs.symm⟩
      · unfold fragroundup
        rw [g.fsize_eq]
        exact ⟨by omega, by omega, Nat.dvd_mul_left _ _⟩
    · split_ifs
      · exact min_le_left _ _
      · unfold fragroundup
        rw [g.fsize_eq]
        omega

theorem allocationByteSizes_covers (g : sb.Geometry) {size : ℕ} (h : size < 2 ^ 63) :
    sb.Covers (sb.allocationByteSizes size) size := by
  unfold allocationByteSizes
  split_ifs with hz
  · rcases hz with hz | hz
    · exact hz
    · omega
  · exact (allocationByteSizesLoop_covers g _ _ _ (by rw [blocksFor, if_neg (by omega)])).1

theorem allocationByteSizes_length (g : sb.Geometry) {size : ℕ} (h : size < 2 ^ 63) :
    (sb.allocationByteSizes size).length = sb.blocksFor size := by
  unfold allocationByteSizes
  split_ifs with hz
  · rcases hz with hz | hz
    · simp [blocksFor, hz]
    · omega
  · rw [(allocationByteSizesLoop_covers g _ _ _ (by rw [blocksFor, if_neg (by omega)])).2]
    rw [blocksFor, if_neg (by omega)]

theorem Covers.allocSize {sizes : List ℕ} : ∀ {size : ℕ}, sb.Covers sizes size →
    ∀ s ∈ sizes, sb.AllocSize s := by
  induction sizes with
  | nil => exact fun _ s hs => absurd hs List.not_mem_nil
  | cons a sizes ih =>
    rintro size ⟨-, ha, -, hr⟩ s hs
    rcases List.mem_cons.mp hs with rfl | hs
    · exact ha
    · exact ih hr s hs

theorem Covers.drop {sizes : List ℕ} : ∀ {size : ℕ}, sb.Covers sizes size → ∀ k,
    sb.Covers (sizes.drop k) (size - k * sb.bsize) := by
  induction sizes with
  | nil =>
    intro size h k
    have h0 : size = 0 := h
    rw [List.drop_nil, h0, Nat.zero_sub]
    rfl
  | cons a sizes ih =>
    intro size h k
    cases k with
    | zero => simpa using h
    | succ k =>
      rw [List.drop_succ_cons, Nat.succ_mul, Nat.add_comm, ← Nat.sub_sub]
      exact ih h.2.2.2 k

theorem Covers.length {sizes : List ℕ} (hb : 0 < sb.bsize) : ∀ {size : ℕ}, sb.Covers sizes size →
    sizes.length = sb.blocksFor size := by
  induction sizes with
  | nil =>
    intro size h
    have h0 : size = 0 := h
    simp [blocksFor, h0]
  | cons a sizes ih =>
    rintro size ⟨hpos, -, -, hr⟩
    rw [List.length_cons, ih hr, blocksFor_succ hb hpos]

theorem Covers.size_le {sizes : List ℕ} : ∀ {size : ℕ}, sb.Covers sizes size →
    size ≤ sizes.length * sb.bsize := by
  induction sizes with
  | nil =>
    intro size h
    have h0 : size = 0 := h
    omega
  | cons a sizes ih =>
    rintro size ⟨-, -, -, hr⟩
    have := ih hr
    rw [List.length_cons, Nat.succ_mul]
    omega

end Superblock

/-- The runs of a file's data: its blocks with their allocation sizes in bytes. -/
def dataRuns (data sizes : List ℕ) : List Run := data.zip (sizes.map (· / 512))

@[simp] theorem dataRuns_nil (sizes : List ℕ) : dataRuns [] sizes = [] := rfl
@[simp] theorem dataRuns_cons (b s : ℕ) (data sizes : List ℕ) :
    dataRuns (b :: data) (s :: sizes) = (b, s / 512) :: dataRuns data sizes := rfl

/-! ## Bodies -/
namespace Disk

/-- The bytes stored in `data`, cut at `size`. -/
def body (sb : Superblock) (D : Disk) : List ℕ → ℕ → Bytes
  | [], _ => []
  | b :: bs, size => D.bytes (b * 512) (min sb.bsize size) ++ body sb D bs (size - sb.bsize)

variable {sb : Superblock} {D D' : Disk}

/-- A body looks at data bytes only. -/
theorem body_of_data (h : D'.data = D.data) : ∀ (data : List ℕ) (size : ℕ),
    D'.body sb data size = D.body sb data size := by
  intro data
  induction data with
  | nil => exact fun _ => rfl
  | cons b data ih =>
    intro size
    rw [body, body, ih, bytes, bytes, h]

theorem body_length {sizes : List ℕ} : ∀ {data : List ℕ} {size : ℕ}, sb.Covers sizes size →
    data.length = sizes.length → (D.body sb data size).length = size := by
  induction sizes with
  | nil =>
    intro data size h hl
    have h0 : size = 0 := h
    rw [List.eq_nil_of_length_eq_zero hl, h0]
    rfl
  | cons s sizes ih =>
    intro data size h hl
    cases data with
    | nil => simp at hl
    | cons b data =>
      rw [body, List.length_append, bytes_length, ih h.2.2.2 (by simpa using hl)]
      omega

theorem mem_run {b s a len : ℕ} (hl : len ≤ s) (hd : 512 ∣ s) (h1 : b * 512 ≤ a)
    (h2 : a < b * 512 + len) : Run.Mem (b, s / 512) (a / 512) := by
  obtain ⟨k, rfl⟩ := hd
  refine ⟨?_, ?_⟩
  · simp only
    omega
  · simp only
    omega

/-- A body depends only on the bytes of its runs. -/
theorem body_congr {sizes : List ℕ} : ∀ {data : List ℕ} {size : ℕ}, sb.Covers sizes size →
    data.length = sizes.length →
    (∀ a, Covered (dataRuns data sizes) (a / 512) → D'.data a = D.data a) →
    D'.body sb data size = D.body sb data size := by
  induction sizes with
  | nil =>
    intro data size _ hl _
    rw [List.eq_nil_of_length_eq_zero hl]
    rfl
  | cons s sizes ih =>
    intro data size h hl hd
    cases data with
    | nil => rfl
    | cons b data =>
      obtain ⟨hpos, hs, hle, hr⟩ := h
      rw [body, body, ih hr (by simpa using hl) fun a ha => hd a (covered_cons.mpr (.inr ha))]
      congr 1
      apply bytes_congr
      exact fun a h1 h2 => hd a (covered_cons.mpr (.inl (mem_run hle hs.2.2 h1 h2)))

/-- Writing inside block `k` of a file overwrites that range of its body. -/
theorem body_write {src : Bytes} {sizes : List ℕ} : ∀ {data : List ℕ} {size k b o : ℕ},
    sb.Covers sizes size → data.length = sizes.length →
    (dataRuns data sizes).Pairwise Run.Apart → data[k]? = some b →
    o + src.length ≤ min sb.bsize (size - k * sb.bsize) →
    (D.write (b * 512 + o) src).body sb data size =
      (D.body sb data size).overlay (k * sb.bsize + o) src := by
  induction sizes with
  | nil =>
    intro data size k b o _ hl _ hk _
    rw [List.eq_nil_of_length_eq_zero hl] at hk
    simp at hk
  | cons s sizes ih =>
    intro data size k b o h hl hap hk ho
    cases data with
    | nil => simp at hk
    | cons c data =>
      have hfull := h
      obtain ⟨hpos, hs, hle, hr⟩ := h
      have hl' : data.length = sizes.length := by simpa using hl
      obtain ⟨hhead, htail⟩ := List.pairwise_cons.mp hap
      cases k with
      | zero =>
        obtain rfl : c = b := by simpa using hk
        simp only [Nat.zero_mul, Nat.sub_zero, Nat.zero_add] at ho ⊢
        have hrest : (D.write (c * 512 + o) src).body sb data (size - sb.bsize) =
            D.body sb data (size - sb.bsize) := by
          apply body_congr hr hl'
          intro a ha
          simp only [write]
          rw [if_neg]
          rintro ⟨h1, h2⟩
          obtain ⟨r, hm, hra⟩ := ha
          have hin : Run.Mem (c, s / 512) (a / 512) :=
            mem_run hle hs.2.2 (by lia) (by lia)
          exact hhead r hm _ hin hra
        rw [body, body, hrest, Bytes.overlay_append_left (by rw [bytes_length]; exact ho)]
        congr 1
        apply Bytes.ext_byte
        · rw [Bytes.overlay_length (by rw [bytes_length]; exact ho), bytes_length, bytes_length]
        · intro i hi
          rw [bytes_length] at hi
          rw [bytes_byte _ hi, Bytes.byte_overlay (by rw [bytes_length]; exact ho), bytes_byte _ hi]
          simp only [write]
          by_cases hc : o ≤ i ∧ i < o + src.length
          · rw [if_pos hc, if_pos (by omega)]
            congr 1
            omega
          · rw [if_neg hc, if_neg (by omega)]
      | succ k =>
        have hkb : data[k]? = some b := by simpa using hk
        have hkl : k < data.length := by
          by_contra hge
          rw [List.getElem?_eq_none (by omega)] at hkb
          simp at hkb
        rw [Nat.succ_mul] at ho
        have hsub : size - sb.bsize - k * sb.bsize = size - (k * sb.bsize + sb.bsize) := by omega
        by_cases hsrc : src.length = 0
        · have hnil := List.eq_nil_of_length_eq_zero hsrc
          subst hnil
          rw [Bytes.overlay_nil]
          apply body_congr hfull hl
          intro a _
          simp only [write]
          rw [if_neg (by simp)]
        have hbig : sb.bsize ≤ size := by omega
        have hrun : (b, (sizes.getD k 0) / 512) ∈ dataRuns data sizes := by
          have hks : k < sizes.length := by omega
          refine List.mem_iff_getElem?.mpr ⟨k, ?_⟩
          simp [dataRuns, List.getElem?_zip_eq_some, hkb, List.getD_eq_getElem?_getD, hks]
        have hck := (hr.drop k)
        have hsk : min sb.bsize (size - sb.bsize - k * sb.bsize) ≤ sizes.getD k 0 ∧
            512 ∣ sizes.getD k 0 := by
          have hks : k < sizes.length := by omega
          rw [List.drop_eq_getElem_cons hks] at hck
          simp only [List.getD_eq_getElem?_getD, List.getElem?_eq_getElem hks, Option.getD_some]
          exact ⟨hck.2.2.1, hck.2.1.2.2⟩
        have hfirst : (D.write (b * 512 + o) src).bytes (c * 512) (min sb.bsize size) =
            D.bytes (c * 512) (min sb.bsize size) := by
          apply bytes_congr
          intro a h1 h2
          simp only [write]
          rw [if_neg]
          rintro ⟨h3, h4⟩
          have hin : Run.Mem (b, sizes.getD k 0 / 512) (a / 512) :=
            mem_run hsk.1 hsk.2 (by lia) (by lia)
          exact hhead _ hrun _ (mem_run hle hs.2.2 h1 h2) hin
        rw [body, body, hfirst, ih hr hl' htail hkb (by omega)]
        have hlen : (D.bytes (c * 512) (min sb.bsize size)).length = sb.bsize := by
          rw [bytes_length]
          omega
        rw [← Bytes.overlay_append_right, hlen]
        congr 1
        rw [Nat.succ_mul]
        omega

/-- A body cut earlier is a prefix. -/
theorem body_take : ∀ {data : List ℕ} {size size' : ℕ}, size' ≤ size →
    size' ≤ data.length * sb.bsize → D.body sb data size' = (D.body sb data size).take size' := by
  intro data
  induction data with
  | nil =>
    intro size size' _ hlen
    have h0 : size' = 0 := by simpa using hlen
    rw [h0]
    rfl
  | cons b data ih =>
    intro size size' hle hlen
    rw [List.length_cons, Nat.succ_mul] at hlen
    have h := @ih (size - sb.bsize) (size' - sb.bsize) (by omega) (by omega)
    have hhead : D.bytes (b * 512) (min sb.bsize size') =
        (D.bytes (b * 512) (min sb.bsize size)).take size' := by
      rw [bytes, bytes, ← List.map_take, List.take_range]
      congr 2
      omega
    rw [body, body, h, List.take_append, bytes_length, hhead]
    congr 2
    by_cases hb : size' ≤ sb.bsize
    · omega
    · omega

end Disk
end UfsFuse
