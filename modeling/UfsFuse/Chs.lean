import UfsFuse.SkeletonImage

/-!
# CHS fields

`encode_chs` packs ten bits of the cylinder and six of the one-based sector into two bytes. What it
writes is read back by `decode_chs`, up to the clamps of the saturating mode.
-/
namespace UfsFuse

/-! ## The three bytes -/
section Fields
variable {cylinder head sector : ℕ}

theorem and_highBits {b : ℕ} (h : b < 256) : b &&& 0xC0 = 64 * (b / 64) := by
  have hall : ∀ b < 256, b &&& 0xC0 = 64 * (b / 64) := by decide +kernel
  exact hall b h

/-- Cylinder, head and sector in the bytes of a field. -/
def chsBytes (cylinder head sector : ℕ) : Bytes :=
  [UInt8.ofNat head, UInt8.ofNat (sector + 64 * (cylinder / 256)), UInt8.ofNat (cylinder % 256)]

theorem decodeChs_chsBytes {ε : Type} (hc : cylinder < 1024) (hh : head < 256) (hs : sector < 64) :
    (decodeChs (chsBytes cylinder head sector) : Outcome ε (ℕ × ℕ × ℕ)) =
      .ok (cylinder, head, sector) := by
  have hbyte : sector + 64 * (cylinder / 256) < 256 := by omega
  have hlow : cylinder % 256 < 2 ^ 8 := Nat.mod_lt _ (by norm_num)
  have hhigh : ((UInt8.ofNat (sector + 64 * (cylinder / 256))) &&& 0xC0).toNat =
      64 * (cylinder / 256) := by
    rw [UInt8.toNat_and, UInt8.toNat_ofNat', Nat.mod_eq_of_lt hbyte]
    change _ &&& 0xC0 = _
    rw [and_highBits hbyte]
    omega
  have hsector : ((UInt8.ofNat (sector + 64 * (cylinder / 256))) &&& 0x3F).toNat = sector := by
    rw [UInt8.toNat_and, UInt8.toNat_ofNat', Nat.mod_eq_of_lt hbyte]
    change _ &&& (2 ^ 6 - 1) = _
    rw [Nat.and_two_pow_sub_one_eq_mod]
    omega
  have hcylinder : (64 * (cylinder / 256)) <<< 2 ||| cylinder % 256 = cylinder := by
    have hshift : (64 * (cylinder / 256)) <<< 2 = (cylinder / 256) <<< 8 := by
      rw [Nat.shiftLeft_eq, Nat.shiftLeft_eq]
      omega
    rw [hshift, ← Nat.shiftLeft_add_eq_or_of_lt hlow, Nat.shiftLeft_eq]
    omega
  unfold decodeChs chsBytes
  rw [Codec.u8_eq (by simp), Outcome.ok_bind, Codec.u8_eq (by simp), Outcome.ok_bind,
    Codec.u8_eq (by simp), Outcome.ok_bind]
  change Outcome.ok (((UInt8.ofNat (sector + 64 * (cylinder / 256))) &&& 0xC0).toNat <<< 2 |||
    (UInt8.ofNat (cylinder % 256)).toNat, (UInt8.ofNat head).toNat,
    ((UInt8.ofNat (sector + 64 * (cylinder / 256))) &&& 0x3F).toNat) = _
  rw [hhigh, hsector, UInt8.toNat_ofNat', UInt8.toNat_ofNat', Nat.mod_eq_of_lt hh, Nat.mod_mod,
    hcylinder]

end Fields

/-! ## Encoding -/
section Encode
variable {geometry : RawDiskGeometry} {addressing : Str} {lba : UInt64} {saturate : Bool}

/-- The sector that a decoded field stands for. -/
def RawDiskGeometry.lbaOf (geometry : RawDiskGeometry) (chs : ℕ × ℕ × ℕ) : ℕ :=
  chs.1 * geometry.heads.toNat * geometry.sectorsPerTrack.toNat +
    chs.2.1 * geometry.sectorsPerTrack.toNat + (chs.2.2 - 1)

/-- The field of sector `v`. -/
def RawDiskGeometry.fieldOf (geometry : RawDiskGeometry) (v : ℕ) : ℕ × ℕ × ℕ :=
  (v / (geometry.heads.toNat * geometry.sectorsPerTrack.toNat),
    v % (geometry.heads.toNat * geometry.sectorsPerTrack.toNat) / geometry.sectorsPerTrack.toNat,
    v % (geometry.heads.toNat * geometry.sectorsPerTrack.toNat) % geometry.sectorsPerTrack.toNat + 1)

theorem RawDiskGeometry.Valid.spc_pos (h : geometry.Valid addressing) :
    0 < geometry.heads.toNat * geometry.sectorsPerTrack.toNat :=
  Nat.mul_pos h.heads_pos h.sectors_pos

/-- Head and sector are digits, and the digits give the sector back. -/
theorem RawDiskGeometry.Valid.fieldOf (h : geometry.Valid addressing) (v : ℕ) :
    1 ≤ (geometry.fieldOf v).2.2 ∧ (geometry.fieldOf v).2.2 ≤ geometry.sectorsPerTrack.toNat ∧
      (geometry.fieldOf v).2.1 < geometry.heads.toNat ∧ geometry.lbaOf (geometry.fieldOf v) = v := by
  have hmod := Nat.mod_lt v h.spc_pos
  have hsector := Nat.mod_lt (v % (geometry.heads.toNat * geometry.sectorsPerTrack.toNat)) h.sectors_pos
  refine ⟨Nat.succ_le_succ (Nat.zero_le _), hsector, ?_, ?_⟩
  · exact Nat.div_lt_of_lt_mul (hmod.trans_eq (Nat.mul_comm _ _))
  · unfold RawDiskGeometry.lbaOf RawDiskGeometry.fieldOf
    dsimp only
    rw [Nat.add_sub_cancel, Nat.mul_assoc, Nat.add_assoc, Nat.div_add_mod', Nat.div_add_mod']

/-- Both clamps leave a sector below cylinder 1024. -/
def RawDiskGeometry.saturated (geometry : RawDiskGeometry) (lba : ℕ) : ℕ :=
  min (min lba (geometry.totalSectors.toNat - 1))
    (1024 * (geometry.heads.toNat * geometry.sectorsPerTrack.toNat) - 1)

theorem RawDiskGeometry.Valid.totalSectors_pos (h : geometry.Valid addressing) :
    0 < geometry.totalSectors.toNat := by
  rw [h.totalSectors_toNat]
  exact Nat.mul_pos h.cylinders_pos h.spc_pos

theorem RawDiskGeometry.Valid.maxChsLba_toNat (h : geometry.Valid addressing) :
    (maxChsLba geometry).toNat = geometry.totalSectors.toNat - 1 := by
  have hone : (1 : UInt64) ≤ geometry.totalSectors := by
    rw [UInt64.le_iff_toNat_le]
    exact h.totalSectors_pos
  rw [maxChsLba, UInt64.toNat_sub_of_le _ _ hone]
  rfl

theorem RawDiskGeometry.Valid.cap_toNat (h : geometry.Valid addressing) :
    (1024 * geometry.heads.toUInt64 * geometry.sectorsPerTrack.toUInt64 - 1).toNat =
      1024 * (geometry.heads.toNat * geometry.sectorsPerTrack.toNat) - 1 := by
  have hheads : geometry.heads.toNat ≤ 16 := h.heads_le
  have hle : geometry.heads.toNat * geometry.sectorsPerTrack.toNat ≤ 16 * 63 :=
    Nat.mul_le_mul h.heads_le h.sectors_le
  have hpos := h.spc_pos
  have hfirst : (1024 * geometry.heads.toUInt64).toNat = 1024 * geometry.heads.toNat := by
    rw [UInt64.toNat_mul, UInt32.toNat_toUInt64]
    exact Nat.mod_eq_of_lt (by
      change 1024 * geometry.heads.toNat < 2 ^ 64
      omega)
  have hprod : (1024 * geometry.heads.toUInt64 * geometry.sectorsPerTrack.toUInt64).toNat =
      1024 * (geometry.heads.toNat * geometry.sectorsPerTrack.toNat) := by
    rw [UInt64.toNat_mul, hfirst, UInt32.toNat_toUInt64, Nat.mul_assoc]
    exact Nat.mod_eq_of_lt (by omega)
  have hone : (1 : UInt64) ≤ 1024 * geometry.heads.toUInt64 * geometry.sectorsPerTrack.toUInt64 := by
    rw [UInt64.le_iff_toNat_le, hprod]
    change 1 ≤ _
    omega
  rw [UInt64.toNat_sub_of_le _ _ hone, hprod]
  rfl

/-- The bytes of a sector below cylinder 1024. -/
def packChs (geometry : RawDiskGeometry) (lba : UInt64) : Bytes :=
  let cylinder : UInt64 := lba / geometry.sectorsPerCylinder
  let temp : UInt64 := lba % geometry.sectorsPerCylinder
  let head : UInt64 := temp / geometry.sectorsPerTrack.toUInt64
  let sector : UInt64 := temp % geometry.sectorsPerTrack.toUInt64 + 1
  let sectorByte : UInt64 := (sector &&& (0x3F : UInt64)) ||| ((cylinder >>> 2) &&& (0xC0 : UInt64))
  [(head &&& (0xFF : UInt64)).toUInt8, (sectorByte &&& (0xFF : UInt64)).toUInt8,
    (cylinder &&& (0xFF : UInt64)).toUInt8]

theorem packChs_eq (h : geometry.Valid addressing)
    (hlt : lba.toNat < 1024 * (geometry.heads.toNat * geometry.sectorsPerTrack.toNat)) :
    packChs geometry lba = chsBytes (geometry.fieldOf lba.toNat).1 (geometry.fieldOf lba.toNat).2.1
      (geometry.fieldOf lba.toNat).2.2 := by
  obtain ⟨-, hsector, hhead, -⟩ := h.fieldOf lba.toNat
  have hspc := geometry.sectorsPerCylinder_toNat
  have hheads : geometry.heads.toNat ≤ 16 := h.heads_le
  have hsectors : geometry.sectorsPerTrack.toNat ≤ 63 := h.sectors_le
  have hcyl : (geometry.fieldOf lba.toNat).1 < 1024 :=
    Nat.div_lt_of_lt_mul (hlt.trans_eq (Nat.mul_comm _ _))
  have hcylinder : (lba / geometry.sectorsPerCylinder).toNat = (geometry.fieldOf lba.toNat).1 := by
    rw [UInt64.toNat_div, hspc]
    rfl
  have hheadNat : (lba % geometry.sectorsPerCylinder / geometry.sectorsPerTrack.toUInt64).toNat =
      (geometry.fieldOf lba.toNat).2.1 := by
    rw [UInt64.toNat_div, UInt64.toNat_mod, hspc, UInt32.toNat_toUInt64]
    rfl
  have hsectorNat : (lba % geometry.sectorsPerCylinder % geometry.sectorsPerTrack.toUInt64 + 1).toNat =
      (geometry.fieldOf lba.toNat).2.2 := by
    have hmod := Nat.mod_lt (lba.toNat % (geometry.heads.toNat * geometry.sectorsPerTrack.toNat))
      h.sectors_pos
    rw [UInt64.toNat_add, UInt64.toNat_mod, UInt64.toNat_mod, hspc, UInt32.toNat_toUInt64]
    exact Nat.mod_eq_of_lt (by
      change _ + 1 < 2 ^ 64
      omega)
  generalize geometry.fieldOf lba.toNat = field at hcyl hcylinder hheadNat hsectorNat hsector hhead ⊢
  unfold packChs chsBytes
  dsimp only
  have hlow : ∀ x : UInt64, (x &&& 0xFF).toUInt8 = UInt8.ofNat x.toNat := by
    intro x
    rw [← UInt8.toNat_inj, UInt64.toNat_toUInt8, UInt64.toNat_and, UInt8.toNat_ofNat']
    change (x.toNat &&& (2 ^ 8 - 1)) % 2 ^ 8 = x.toNat % 2 ^ 8
    rw [Nat.and_two_pow_sub_one_eq_mod, Nat.mod_mod]
  have hhigh : field.1 >>> 2 &&& 0xC0 = (field.1 / 256) <<< 6 := by
    have hsmall : field.1 >>> 2 < 256 := by
      rw [Nat.shiftRight_eq_div_pow]
      omega
    rw [and_highBits hsmall, Nat.shiftRight_eq_div_pow, Nat.shiftLeft_eq]
    omega
  have hbyte : (((lba % geometry.sectorsPerCylinder % geometry.sectorsPerTrack.toUInt64 +
      (1 : UInt64)) &&& (0x3F : UInt64)) ||| ((lba / geometry.sectorsPerCylinder) >>> 2 &&& (0xC0 : UInt64))).toNat =
      field.2.2 + 64 * (field.1 / 256) := by
    rw [UInt64.toNat_or, UInt64.toNat_and, UInt64.toNat_and, UInt64.toNat_shiftRight, hsectorNat,
      hcylinder]
    change (field.2.2 &&& (2 ^ 6 - 1)) ||| (field.1 >>> 2 &&& 0xC0) = _
    rw [Nat.and_two_pow_sub_one_eq_mod, Nat.mod_eq_of_lt (by omega), hhigh, Nat.or_comm,
      ← Nat.shiftLeft_add_eq_or_of_lt (by omega), Nat.shiftLeft_eq]
    omega
  have hmod : UInt8.ofNat field.1 = UInt8.ofNat (field.1 % 256) := by
    rw [← UInt8.toNat_inj, UInt8.toNat_ofNat', UInt8.toNat_ofNat', Nat.mod_mod]
  rw [hlow, hlow, hlow, hheadNat, hbyte, hcylinder, hmod]

theorem toNat_min_u64 (a b : UInt64) : (min a b).toNat = min a.toNat b.toNat := by
  change (if a ≤ b then a else b).toNat = _
  by_cases hab : a ≤ b
  · rw [if_pos hab, min_eq_left (UInt64.le_iff_toNat_le.mp hab)]
  · rw [if_neg hab, min_eq_right (not_le.mp (mt UInt64.le_iff_toNat_le.mpr hab)).le]

/-- The sector after both clamps. -/
def clampChs (geometry : RawDiskGeometry) (saturate : Bool) (lba : UInt64) : UInt64 :=
  let lba := if maxChsLba geometry < lba then maxChsLba geometry else lba
  if saturate then min lba (1024 * geometry.heads.toUInt64 * geometry.sectorsPerTrack.toUInt64 - 1)
  else lba

theorem encodeChs_eq (h : geometry.Valid addressing) (h0 : lba ≠ 0)
    (haccept : ¬(maxChsLba geometry < lba ∧ saturate = false)) :
    encodeChs lba geometry saturate = .ok (packChs geometry (clampChs geometry saturate lba)) := by
  have hspc : geometry.sectorsPerCylinder ≠ 0 := by
    intro hz
    have hpos := h.spc_pos
    rw [← geometry.sectorsPerCylinder_toNat, hz] at hpos
    exact absurd hpos (lt_irrefl _)
  unfold encodeChs
  rw [if_neg h0, if_neg haccept]
  dsimp only
  rw [Outcome.guard_true hspc, Outcome.ok_bind]
  rfl

theorem clampChs_toNat (h : geometry.Valid addressing) :
    (clampChs geometry true lba).toNat = geometry.saturated lba.toNat := by
  have hmax := h.maxChsLba_toNat
  have hfirst : (if maxChsLba geometry < lba then maxChsLba geometry else lba).toNat =
      min lba.toNat (geometry.totalSectors.toNat - 1) := by
    by_cases hout : maxChsLba geometry < lba
    · rw [if_pos hout, hmax]
      rw [UInt64.lt_iff_toNat_lt, hmax] at hout
      exact (min_eq_right hout.le).symm
    · rw [if_neg hout]
      rw [UInt64.lt_iff_toNat_lt, hmax] at hout
      exact (min_eq_left (not_lt.mp hout)).symm
  unfold clampChs RawDiskGeometry.saturated
  dsimp only
  rw [if_pos rfl, toNat_min_u64, hfirst, h.cap_toNat]

/-- In saturating mode the field holds the clamped sector. -/
theorem encodeChs_saturated (h : geometry.Valid addressing) (h0 : lba ≠ 0) :
    encodeChs lba geometry true = .ok (chsBytes (geometry.fieldOf (geometry.saturated lba.toNat)).1
      (geometry.fieldOf (geometry.saturated lba.toNat)).2.1
      (geometry.fieldOf (geometry.saturated lba.toNat)).2.2) := by
  have hpos := h.spc_pos
  have hlt : (clampChs geometry true lba).toNat <
      1024 * (geometry.heads.toNat * geometry.sectorsPerTrack.toNat) := by
    rw [clampChs_toNat h]
    have hle : geometry.saturated lba.toNat ≤
      1024 * (geometry.heads.toNat * geometry.sectorsPerTrack.toNat) - 1 := min_le_right _ _
    omega
  rw [encodeChs_eq h h0 (by simp), packChs_eq h hlt, clampChs_toNat h]

/-- Otherwise a sector of the disk is encoded as it is. -/
theorem encodeChs_inside (h : geometry.Valid diskAddressingChs) (h0 : lba ≠ 0)
    (hlt : lba.toNat < geometry.totalSectors.toNat) :
    encodeChs lba geometry false = .ok (chsBytes (geometry.fieldOf lba.toNat).1
      (geometry.fieldOf lba.toNat).2.1 (geometry.fieldOf lba.toNat).2.2) := by
  have hinside : ¬maxChsLba geometry < lba := by
    rw [UInt64.lt_iff_toNat_lt, h.maxChsLba_toNat]
    omega
  have hclamp : clampChs geometry false lba = lba := by
    unfold clampChs
    rw [if_neg hinside]
    rfl
  have hcap : lba.toNat < 1024 * (geometry.heads.toNat * geometry.sectorsPerTrack.toNat) := by
    rw [h.totalSectors_toNat] at hlt
    exact hlt.trans_le (Nat.mul_le_mul_right _ (h.cylinders_le rfl))
  rw [encodeChs_eq h h0 fun hout => hinside hout.1, hclamp, packChs_eq h hcap]

theorem encodeChs_outside (h : geometry.Valid addressing)
    (hge : geometry.totalSectors.toNat ≤ lba.toNat) :
    encodeChs lba geometry false = .err (.lbaOutsideGeometry lba.toNat) := by
  have hpos := h.totalSectors_pos
  have h0 : lba ≠ 0 := by
    rintro rfl
    exact absurd (hpos.trans_le hge) (lt_irrefl _)
  have hout : maxChsLba geometry < lba := by
    rw [UInt64.lt_iff_toNat_lt, h.maxChsLba_toNat]
    omega
  unfold encodeChs
  rw [if_neg h0, if_pos ⟨hout, rfl⟩]

/-! ## The round trip -/

/-- The field that is written for `lba` reads back as digits of the geometry that stand for `v`. -/
def ReadsBackAs (geometry : RawDiskGeometry) (saturate : Bool) (lba : UInt64) (v : ℕ) : Prop :=
  ∃ raw chs, encodeChs lba geometry saturate = .ok raw ∧
    (decodeChs raw : Outcome IoError (ℕ × ℕ × ℕ)) = .ok chs ∧
    1 ≤ chs.2.2 ∧ chs.2.2 ≤ geometry.sectorsPerTrack.toNat ∧ chs.2.1 < geometry.heads.toNat ∧
    geometry.lbaOf chs = v

theorem readsBackAs_of_field (h : geometry.Valid addressing) {v : ℕ}
    (hlt : v < 1024 * (geometry.heads.toNat * geometry.sectorsPerTrack.toNat))
    (hencode : encodeChs lba geometry saturate = .ok (chsBytes (geometry.fieldOf v).1
      (geometry.fieldOf v).2.1 (geometry.fieldOf v).2.2)) : ReadsBackAs geometry saturate lba v := by
  obtain ⟨hone, hsector, hhead, hlba⟩ := h.fieldOf v
  have hheads : geometry.heads.toNat ≤ 16 := h.heads_le
  have hsectors : geometry.sectorsPerTrack.toNat ≤ 63 := h.sectors_le
  have hcyl : (geometry.fieldOf v).1 < 1024 :=
    Nat.div_lt_of_lt_mul (hlt.trans_eq (Nat.mul_comm _ _))
  exact ⟨_, geometry.fieldOf v, hencode, decodeChs_chsBytes hcyl (by omega) (by omega), hone, hsector,
    hhead, hlba⟩

theorem ReadsBackAs.unique {v v' : ℕ} (h : ReadsBackAs geometry saturate lba v)
    (h' : ReadsBackAs geometry saturate lba v') : v = v' := by
  obtain ⟨raw, chs, hencode, hdecode, -, -, -, rfl⟩ := h
  obtain ⟨raw', chs', hencode', hdecode', -, -, -, rfl⟩ := h'
  obtain rfl := Outcome.ok.inj (hencode.symm.trans hencode')
  obtain rfl := Outcome.ok.inj (hdecode.symm.trans hdecode')
  rfl

theorem ne_zero_of_toNat_pos (h : 0 < lba.toNat) : lba ≠ 0 := by
  rintro rfl
  exact absurd h (lt_irrefl _)

theorem readsBackAs_saturated (h : geometry.Valid addressing) (h0 : 0 < lba.toNat) :
    ReadsBackAs geometry true lba (geometry.saturated lba.toNat) := by
  have hpos := h.spc_pos
  have hle : geometry.saturated lba.toNat ≤
    1024 * (geometry.heads.toNat * geometry.sectorsPerTrack.toNat) - 1 := min_le_right _ _
  exact readsBackAs_of_field h (by omega) (encodeChs_saturated h (ne_zero_of_toNat_pos h0))

theorem RawDiskGeometry.saturated_mono {v v' : ℕ} (hle : v ≤ v') :
    geometry.saturated v ≤ geometry.saturated v' :=
  min_le_min_right _ (min_le_min_right _ hle)

/-- CHS fields go round: a sector of the disk is read back in CHS mode and any other one rejected; in
LBA28 mode the clamped sector is read back, which grows with the sector. -/
theorem encodeChs_roundTrip (geometry : RawDiskGeometry) :
    (validateGeometry geometry diskAddressingChs = .ok () → ∀ lba : UInt64,
      (0 < lba.toNat → lba.toNat < geometry.totalSectors.toNat →
        ReadsBackAs geometry false lba lba.toNat) ∧
      (geometry.totalSectors.toNat ≤ lba.toNat →
        encodeChs lba geometry false = .err (.lbaOutsideGeometry lba.toNat))) ∧
    (validateGeometry geometry diskAddressingLba28 = .ok () → ∀ lba : UInt64, 0 < lba.toNat →
      ReadsBackAs geometry true lba (min (min lba.toNat (geometry.totalSectors.toNat - 1))
        (1024 * geometry.heads.toNat * geometry.sectorsPerTrack.toNat - 1)) ∧
      ∀ lba' : UInt64, lba ≤ lba' → ∀ v v', ReadsBackAs geometry true lba v →
        ReadsBackAs geometry true lba' v' → v ≤ v') := by
  constructor
  · intro hvalid lba
    have h := validateGeometry_iff.mp hvalid
    refine ⟨fun h0 hlt => ?_, encodeChs_outside h⟩
    have hcap : lba.toNat < 1024 * (geometry.heads.toNat * geometry.sectorsPerTrack.toNat) := by
      rw [h.totalSectors_toNat] at hlt
      exact hlt.trans_le (Nat.mul_le_mul_right _ (h.cylinders_le rfl))
    exact readsBackAs_of_field h hcap (encodeChs_inside h (ne_zero_of_toNat_pos h0) hlt)
  · intro hvalid lba h0
    have h := validateGeometry_iff.mp hvalid
    rw [Nat.mul_assoc]
    refine ⟨readsBackAs_saturated h h0, fun lba' hle v v' hv hv' => ?_⟩
    have hle' : lba.toNat ≤ lba'.toNat := UInt64.le_iff_toNat_le.mp hle
    rw [hv.unique (readsBackAs_saturated h h0),
      hv'.unique (readsBackAs_saturated h (h0.trans_le hle'))]
    exact RawDiskGeometry.saturated_mono hle'

/-- Sector 70000 of a disk with the most cylinders, heads and sectors, and a sector far beyond it. -/
theorem encodeChs_roundTrip_largest :
    ReadsBackAs ⟨1024, 16, 63⟩ false 70000 70000 ∧
      ReadsBackAs ⟨1024, 16, 63⟩ true 5000000 1032191 := by
  have hround := encodeChs_roundTrip ⟨1024, 16, 63⟩
  exact ⟨(hround.1 (by decide) 70000).1 (by decide) (by decide),
    (hround.2 (by decide) 5000000 (by decide)).1⟩

end Encode

end UfsFuse
