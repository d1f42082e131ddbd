import UfsFuse.Geometry

/-!
# Cylinder-group headers

The header of a group as its counts and its two bitmaps, and what each change the allocator makes
to the buffer does to them.
-/
namespace UfsFuse

/-! ## Single bits -/

theorem maskByte_testBit {m k : ℕ} (hm : m < 8) :
    (UInt8.ofNat (1 <<< m)).toNat.testBit k = decide (k = m) := by
  have hpow : 2 ^ m < 2 ^ 8 := Nat.pow_lt_pow_right (by norm_num) hm
  have hval : (UInt8.ofNat (1 <<< m)).toNat = 2 ^ m := by
    rw [UInt8.toNat_ofNat', Nat.one_shiftLeft, Nat.mod_eq_of_lt hpow]
  rw [hval, Nat.testBit_two_pow]
  simp [eq_comm]

theorem byteOr_testBit (a : UInt8) {m k : ℕ} (hm : m < 8) :
    (a ||| UInt8.ofNat (1 <<< m)).toNat.testBit k = (a.toNat.testBit k || decide (k = m)) := by
  rw [UInt8.toNat_or, Nat.testBit_or, maskByte_testBit hm]

theorem byteClear_testBit (a : UInt8) {m k : ℕ} (hm : m < 8) :
    (a &&& ~~~UInt8.ofNat (1 <<< m)).toNat.testBit k =
      (a.toNat.testBit k && !decide (k = m)) := by
  rw [UInt8.toNat_and, Nat.testBit_and]
  by_cases hk : k < 8
  · have hnot : (~~~UInt8.ofNat (1 <<< m)).toNat.testBit k =
        !(UInt8.ofNat (1 <<< m)).toNat.testBit k := by
      rw [← UInt8.toNat_toBitVec, UInt8.toBitVec_not, BitVec.testBit_toNat, BitVec.getLsbD_not,
        ← BitVec.testBit_toNat, UInt8.toNat_toBitVec]
      simp [hk]
    rw [hnot, maskByte_testBit hm]
  · have hlt : a.toNat < 2 ^ k :=
      a.toNat_lt.trans_le (Nat.pow_le_pow_right (by norm_num) (not_lt.mp hk))
    rw [Nat.testBit_lt_two_pow hlt]
    simp

theorem setBitAt_length {b : Bytes} {base i : ℕ} {v : Bool} (h : base + i / 8 < b.length) :
    (setBitAt b base i v).length = b.length :=
  Bytes.overlay_length (by simpa using h)

/-- Setting one bit changes that bit and no other bit of any array. -/
theorem bitAt_setBitAt {b : Bytes} {base i : ℕ} {v : Bool} (h : base + i / 8 < b.length)
    (base' j : ℕ) :
    bitAt (setBitAt b base i v) base' j =
      if base' + j / 8 = base + i / 8 ∧ j % 8 = i % 8 then v else bitAt b base' j := by
  have hm : i % 8 < 8 := Nat.mod_lt _ (by norm_num)
  simp only [bitAt, setBitAt, nbby]
  rw [Bytes.byte_overlay (by simpa using h)]
  by_cases hb : base' + j / 8 = base + i / 8
  · rw [if_pos (by simp [hb]), hb, Nat.sub_self]
    cases v with
    | true =>
      simp only [if_true, Bytes.byte, List.getD_cons_zero, true_and]
      rw [byteOr_testBit _ hm]
      split_ifs with hk <;> simp [hk]
    | false =>
      simp only [Bool.false_eq_true, if_false, Bytes.byte, List.getD_cons_zero, true_and]
      rw [byteClear_testBit _ hm]
      split_ifs with hk <;> simp [hk]
  · have hout : ¬(base + i / 8 ≤ base' + j / 8 ∧
        base' + j / 8 < base + i / 8 + [if v = true then b.byte (base + i / 8) |||
          UInt8.ofNat (1 <<< (i % 8)) else b.byte (base + i / 8) &&&
          ~~~UInt8.ofNat (1 <<< (i % 8))].length) := by
      simp only [List.length_singleton]
      omega
    rw [if_neg hout, if_neg (fun hc => hb hc.1)]

theorem bitAt_setBitAt_same {b : Bytes} {base i : ℕ} {v : Bool} (h : base + i / 8 < b.length)
    (j : ℕ) : bitAt (setBitAt b base i v) base j = if j = i then v else bitAt b base j := by
  rw [bitAt_setBitAt h]
  by_cases hji : j = i
  · simp [hji]
  · rw [if_neg (by omega), if_neg hji]

theorem u32_setBitAt {b : Bytes} {base i off : ℕ} {v : Bool} (h : base + i / 8 < b.length)
    (hd : off + 4 ≤ base + i / 8 ∨ base + i / 8 < off) :
    (setBitAt b base i v).u32 off = b.u32 off :=
  Bytes.u32_overlay_of_disjoint (by simpa using h) (by simpa using hd)

theorem bitAt_overlay_of_disjoint {b src : Bytes} {off base j : ℕ}
    (h : off + src.length ≤ b.length) (hd : base + j / 8 < off ∨ off + src.length ≤ base + j / 8) :
    bitAt (b.overlay off src) base j = bitAt b base j := by
  simp only [bitAt, nbby]
  rw [Bytes.byte_overlay h, if_neg (by omega)]

/-! ## The decoded header -/

@[ext] structure CgView where
  magic : ℕ
  ndblk : ℕ
  irotor : ℕ
  counts : Csum
  used : ℕ → Bool
  free : ℕ → Bool

namespace CgView

/-- Inode bits stop at the magic, where the map has its `maxipg` bits. -/
def decode (b : Bytes) : CgView where
  magic := b.u32 CgOff.magic
  ndblk := b.u32 CgOff.ndblk
  irotor := b.u32 CgOff.irotor
  counts := ⟨b.u32 CgOff.ndir, b.u32 CgOff.nbfree, b.u32 CgOff.nifree, b.u32 CgOff.nffree⟩
  used i := decide (i < maxipg) && bitAt b CgOff.iused i
  free f := bitAt b CgOff.free f

end CgView

/-- A count after `(count + delta) as u32`. -/
def bump (count : ℕ) (delta : ℤ) : ℕ := (((count : ℤ) + delta) % 2 ^ 32).toNat

theorem bump_lt (count : ℕ) (delta : ℤ) : bump count delta < 2 ^ 32 := by
  unfold bump
  omega

theorem bump_eq {count : ℕ} {delta : ℤ} {v : ℕ} (h : (count : ℤ) + delta = v) (hv : v < 2 ^ 32) :
    bump count delta = v := by
  unfold bump
  omega

section Decode
variable {b : Bytes}

theorem decode_setFree {i : ℕ} {v : Bool} (h : CgOff.free + i / 8 < b.length) :
    CgView.decode (setBitAt b CgOff.free i v) =
      { CgView.decode b with free := Function.update (CgView.decode b).free i v } := by
  simp only [CgOff.free] at h
  ext j
  · exact u32_setBitAt h (by simp only [CgOff.free, CgOff.magic]; omega)
  · exact u32_setBitAt h (by simp only [CgOff.free, CgOff.ndblk]; omega)
  · exact u32_setBitAt h (by simp only [CgOff.free, CgOff.irotor]; omega)
  · simp only [CgView.decode]
    rw [u32_setBitAt h (by simp only [CgOff.ndir]; omega),
      u32_setBitAt h (by simp only [CgOff.nbfree]; omega),
      u32_setBitAt h (by simp only [CgOff.nifree]; omega),
      u32_setBitAt h (by simp only [CgOff.nffree]; omega)]
  · simp only [CgView.decode, maxipg]
    by_cases hj : j < 2048
    · rw [bitAt_setBitAt h, if_neg (by simp only [CgOff.iused]; omega)]
    · simp [hj]
  · simp only [CgView.decode, Function.update_apply]
    exact bitAt_setBitAt_same h j

theorem decode_setUsed {i : ℕ} {v : Bool} (hi : i < maxipg) (h : CgOff.free ≤ b.length) :
    CgView.decode (setBitAt b CgOff.iused i v) =
      { CgView.decode b with used := Function.update (CgView.decode b).used i v } := by
  simp only [maxipg, CgOff.free] at hi h
  have hb : CgOff.iused + i / 8 < b.length := by
    simp only [CgOff.iused]
    omega
  ext j
  · exact u32_setBitAt hb (by simp only [CgOff.iused, CgOff.magic]; omega)
  · exact u32_setBitAt hb (by simp only [CgOff.iused, CgOff.ndblk]; omega)
  · exact u32_setBitAt hb (by simp only [CgOff.iused, CgOff.irotor]; omega)
  · simp only [CgView.decode]
    rw [u32_setBitAt hb (by simp only [CgOff.iused, CgOff.ndir]; omega),
      u32_setBitAt hb (by simp only [CgOff.iused, CgOff.nbfree]; omega),
      u32_setBitAt hb (by simp only [CgOff.iused, CgOff.nifree]; omega),
      u32_setBitAt hb (by simp only [CgOff.iused, CgOff.nffree]; omega)]
  · simp only [CgView.decode, Function.update_apply, maxipg]
    rw [bitAt_setBitAt_same hb j]
    by_cases hji : j = i
    · simp [hji, hi]
    · simp [hji]
  · simp only [CgView.decode]
    rw [bitAt_setBitAt hb, if_neg (by simp only [CgOff.free, CgOff.iused]; omega)]

/-- Storing one of the header's `u32` fields leaves the other fields and the bitmaps alone. -/
theorem decode_putU32 {off v : ℕ} (h : CgOff.free ≤ b.length) (ho : off + 4 ≤ CgOff.iused) :
    (CgView.decode (b.putU32 off v)).used = (CgView.decode b).used ∧
    (CgView.decode (b.putU32 off v)).free = (CgView.decode b).free ∧
    (CgView.decode (b.putU32 off v)).magic = (CgView.decode b).magic := by
  simp only [CgOff.free, CgOff.iused] at h ho
  have hl : off + (Bytes.le 4 v).length ≤ b.length := by
    rw [Bytes.le_length]
    omega
  refine ⟨?_, ?_, ?_⟩
  · funext j
    simp only [CgView.decode, Bytes.putU32]
    rw [bitAt_overlay_of_disjoint hl (by rw [Bytes.le_length]; simp only [CgOff.iused]; omega)]
  · funext j
    simp only [CgView.decode, Bytes.putU32]
    rw [bitAt_overlay_of_disjoint hl (by rw [Bytes.le_length]; simp only [CgOff.free]; omega)]
  · simp only [CgView.decode, Bytes.putU32]
    exact Bytes.u32_overlay_of_disjoint hl (by rw [Bytes.le_length]; simp only [CgOff.magic]; omega)

theorem u32_putU32_of_disjoint {off o v : ℕ} (h : off + 4 ≤ b.length)
    (hd : o + 4 ≤ off ∨ off + 4 ≤ o) : (b.putU32 off v).u32 o = b.u32 o :=
  Bytes.u32_overlay_of_disjoint (by simpa using h) (by simpa using hd)

theorem decode_putIrotor {v : ℕ} (h : CgOff.free ≤ b.length) (hv : v < 2 ^ 32) :
    CgView.decode (b.putU32 CgOff.irotor v) = { CgView.decode b with irotor := v } := by
  obtain ⟨hu, hf, hm⟩ := @decode_putU32 b CgOff.irotor v h (by norm_num)
  simp only [CgOff.free] at h
  refine CgView.ext (by exact hm) ?_ ?_ ?_ (by exact hu) (by exact hf)
  · exact u32_putU32_of_disjoint (by simp only [CgOff.irotor]; omega) (by norm_num)
  · exact (Bytes.u32_putU32_same (by simp only [CgOff.irotor]; omega)).trans (Nat.mod_eq_of_lt hv)
  · simp only [CgView.decode]
    rw [u32_putU32_of_disjoint (by simp only [CgOff.irotor]; omega) (by norm_num),
      u32_putU32_of_disjoint (by simp only [CgOff.irotor]; omega) (by norm_num),
      u32_putU32_of_disjoint (by simp only [CgOff.irotor]; omega) (by norm_num),
      u32_putU32_of_disjoint (by simp only [CgOff.irotor]; omega) (by norm_num)]

theorem u32_adjustU32At {off : ℕ} {delta : ℤ} (h : off + 4 ≤ b.length) :
    (adjustU32At b off delta).u32 off = bump (b.u32 off) delta :=
  (Bytes.u32_putU32_same h).trans (Nat.mod_eq_of_lt (bump_lt _ _))

theorem decode_adjustCgFreeBlocks {delta : ℤ} (h : CgOff.free ≤ b.length) :
    CgView.decode (adjustCgFreeBlocks b delta) = { CgView.decode b with
      counts := { (CgView.decode b).counts with
        nbfree := bump (CgView.decode b).counts.nbfree delta } } := by
  obtain ⟨hu, hf, hm⟩ := @decode_putU32 b CgOff.nbfree (bump (b.u32 CgOff.nbfree) delta) h
    (by norm_num)
  simp only [CgOff.free] at h
  have hl : CgOff.nbfree + 4 ≤ b.length := by
    simp only [CgOff.nbfree]
    omega
  refine CgView.ext (by exact hm) ?_ ?_ ?_ (by exact hu) (by exact hf)
  · exact u32_putU32_of_disjoint hl (by norm_num)
  · exact u32_putU32_of_disjoint hl (by norm_num)
  · simp only [CgView.decode, adjustCgFreeBlocks]
    rw [u32_adjustU32At hl, adjustU32At, u32_putU32_of_disjoint hl (by norm_num),
      u32_putU32_of_disjoint hl (by norm_num), u32_putU32_of_disjoint hl (by norm_num)]

theorem decode_adjustCgFreeInodes {delta : ℤ} (h : CgOff.free ≤ b.length) :
    CgView.decode (adjustCgFreeInodes b delta) = { CgView.decode b with
      counts := { (CgView.decode b).counts with
        nifree := bump (CgView.decode b).counts.nifree delta } } := by
  obtain ⟨hu, hf, hm⟩ := @decode_putU32 b CgOff.nifree (bump (b.u32 CgOff.nifree) delta) h
    (by norm_num)
  simp only [CgOff.free] at h
  have hl : CgOff.nifree + 4 ≤ b.length := by
    simp only [CgOff.nifree]
    omega
  refine CgView.ext (by exact hm) ?_ ?_ ?_ (by exact hu) (by exact hf)
  · exact u32_putU32_of_disjoint hl (by norm_num)
  · exact u32_putU32_of_disjoint hl (by norm_num)
  · simp only [CgView.decode, adjustCgFreeInodes]
    rw [u32_adjustU32At hl, adjustU32At, u32_putU32_of_disjoint hl (by norm_num),
      u32_putU32_of_disjoint hl (by norm_num), u32_putU32_of_disjoint hl (by norm_num)]

theorem decode_adjustCgDirectoryCount {delta : ℤ} (h : CgOff.free ≤ b.length) :
    CgView.decode (adjustCgDirectoryCount b delta) = { CgView.decode b with
      counts := { (CgView.decode b).counts with
        ndir := bump (CgView.decode b).counts.ndir delta } } := by
  obtain ⟨hu, hf, hm⟩ := @decode_putU32 b CgOff.ndir (bump (b.u32 CgOff.ndir) delta) h
    (by norm_num)
  simp only [CgOff.free] at h
  have hl : CgOff.ndir + 4 ≤ b.length := by
    simp only [CgOff.ndir]
    omega
  refine CgView.ext (by exact hm) ?_ ?_ ?_ (by exact hu) (by exact hf)
  · exact u32_putU32_of_disjoint hl (by norm_num)
  · exact u32_putU32_of_disjoint hl (by norm_num)
  · simp only [CgView.decode, adjustCgDirectoryCount]
    rw [u32_adjustU32At hl, adjustU32At, u32_putU32_of_disjoint hl (by norm_num),
      u32_putU32_of_disjoint hl (by norm_num), u32_putU32_of_disjoint hl (by norm_num)]

end Decode
end UfsFuse
