import UfsFuse.AlternatesTables

/-!
# Sectors behind the alternates

`remap_guest_visible_sector` of `svr4-disk`: the driver's redirection of bad tracks and then of bad
sectors. It slices each table to the entries that the table says are used.
-/
namespace UfsFuse

@[simp, reducible] def vOther : ℕ := 7

/-- The loop over the bad tracks; `index` counts the entries passed. -/
def remapTrack (base sectors trackNumber sector : ℤ) : List ℤ → ℕ → ℤ
  | [], _ => sector
  | badTrack :: rest, index =>
      if trackNumber = badTrack then base + index * sectors + sector.tmod sectors
      else remapTrack base sectors trackNumber sector rest (index + 1)

/-- The loop over the bad sectors. -/
def remapSector (base sector : ℤ) : List ℤ → ℕ → ℤ
  | [], _ => sector
  | badSector :: rest, index =>
      if sector = badSector then base + index else remapSector base sector rest (index + 1)

/-- Division and remainder are those of `i64`, which truncate. -/
def remapGuestVisibleSector {ε : Type} (pdinfo : PdInfo) (partition : VtocPartition)
    (altInfo : Option AltInfo) (absoluteSector : ℤ) : Outcome ε ℤ :=
  match altInfo with
  | none => .ok absoluteSector
  | some altInfo =>
    if partition.index = 0 ∨ partition.tag = vBackup ∨ partition.tag = vOther then .ok absoluteSector
    else do
      Outcome.guard (0 < pdinfo.sectors)
      let sectors : ℤ := pdinfo.sectors
      let trackNumber := absoluteSector.tdiv sectors
      let trackUsed := altInfo.trackTable.used
      Outcome.guard (trackUsed ≤ altInfo.trackTable.badEntries.length)
      let remappedSector := remapTrack altInfo.trackTable.baseSector sectors trackNumber absoluteSector
        (altInfo.trackTable.badEntries.take trackUsed) 0
      let sectorUsed := altInfo.sectorTable.used
      Outcome.guard (sectorUsed ≤ altInfo.sectorTable.badEntries.length)
      pure (remapSector altInfo.sectorTable.baseSector remappedSector
        (altInfo.sectorTable.badEntries.take sectorUsed) 0)

/-! ## What the tables say -/

/-- A slice that is never remapped: the first one, the backup of the disk or another one. -/
def VtocPartition.Exempt (partition : VtocPartition) : Prop :=
  partition.index = 0 ∨ partition.tag = vBackup ∨ partition.tag = vOther

instance (partition : VtocPartition) : Decidable partition.Exempt :=
  inferInstanceAs (Decidable (_ ∨ _ ∨ _))

/-- The alternate of a sector's track: the first used entry counts, and the place in the track stays. -/
def AltTableInfo.trackRemap (table : AltTableInfo) (sectors sector : ℤ) : ℤ :=
  match (table.badEntries.take table.used).idxOf? (sector / sectors) with
  | some i => table.baseSector + i * sectors + sector % sectors
  | none => sector

def AltTableInfo.sectorRemap (table : AltTableInfo) (sector : ℤ) : ℤ :=
  match (table.badEntries.take table.used).idxOf? sector with
  | some i => table.baseSector + i
  | none => sector

/-- No more entries are used than are reserved. -/
def AltTableInfo.UsedReserved (table : AltTableInfo) : Prop := table.used ≤ table.reserved

section Loops
variable {base sectors track sector : ℤ}

theorem remapTrack_eq (entries : List ℤ) : ∀ index : ℕ,
    remapTrack base sectors track sector entries index = match entries.idxOf? track with
      | some i => base + ((index + i : ℕ) : ℤ) * sectors + sector.tmod sectors
      | none => sector := by
  induction entries with
  | nil => exact fun _ => rfl
  | cons bad rest ih =>
    intro index
    rw [remapTrack, List.idxOf?_cons]
    by_cases hbad : track = bad
    · simp [hbad]
    · rw [if_neg hbad, ih]
      have hne : (bad == track) = false := by simpa using Ne.symm hbad
      rw [hne]
      cases rest.idxOf? track with
      | none => rfl
      | some i =>
        have hindex : index + 1 + i = index + (i + 1) := by omega
        simp [hindex]

theorem remapSector_eq (entries : List ℤ) : ∀ index : ℕ,
    remapSector base sector entries index = match entries.idxOf? sector with
      | some i => base + ((index + i : ℕ) : ℤ)
      | none => sector := by
  induction entries with
  | nil => exact fun _ => rfl
  | cons bad rest ih =>
    intro index
    rw [remapSector, List.idxOf?_cons]
    by_cases hbad : sector = bad
    · simp [hbad]
    · rw [if_neg hbad, ih]
      have hne : (bad == sector) = false := by simpa using Ne.symm hbad
      rw [hne]
      cases rest.idxOf? sector with
      | none => rfl
      | some i =>
        have hindex : index + 1 + i = index + (i + 1) := by omega
        simp [hindex]

end Loops

/-- The alternate of a sector is an `i64`: no sum of the loop overflows. -/
theorem AltTableInfo.trackRemap_range {table : AltTableInfo} {sectors : ℕ} {sector : ℤ}
    (hbase : -2 ^ 31 ≤ table.baseSector ∧ table.baseSector < 2 ^ 31) (hused : table.used < 2 ^ 16)
    (hsectors : sectors < 2 ^ 32) (hpos : 0 < sectors) (hsector : 0 ≤ sector ∧ sector < 2 ^ 63) :
    -2 ^ 63 ≤ table.trackRemap sectors sector ∧ table.trackRemap sectors sector < 2 ^ 63 := by
  unfold AltTableInfo.trackRemap
  cases hfind : (table.badEntries.take table.used).idxOf? (sector / (sectors : ℤ)) with
  | none =>
    have hlow : (-2 : ℤ) ^ 63 ≤ 0 := by norm_num
    exact ⟨hlow.trans hsector.1, hsector.2⟩
  | some i =>
    have hi : i < table.used := by
      obtain ⟨hlt, -⟩ := List.findIdx?_eq_some_iff_getElem.mp hfind
      exact hlt.trans_le (List.length_take_le _ _)
    have hprod : (i : ℤ) * sectors ≤ 2 ^ 16 * 2 ^ 32 := by
      exact_mod_cast Nat.mul_le_mul (by omega : i ≤ 2 ^ 16) hsectors.le
    have hnonneg : 0 ≤ (i : ℤ) * sectors := by positivity
    have hmod := Int.emod_nonneg sector (by omega : (sectors : ℤ) ≠ 0)
    have hmod' := Int.emod_lt_of_pos sector (by omega : (0 : ℤ) < sectors)
    dsimp only
    constructor
    · linarith [hbase.1]
    · linarith [hbase.2]

/-! ## Parsed tables -/
section Parsed
variable {ε : Type} {raw : Bytes} {offset n next : ℕ} {table : AltTableInfo} {altInfo : AltInfo}

theorem parseAltTable_ok (h : (parseAltTable raw offset n : Outcome ε _) = .ok (table, next)) :
    table = altTableAt raw offset n := by
  by_cases hfit : offset + 8 + n * 4 ≤ raw.length
  · rw [parseAltTable_eq hfit] at h
    exact (Prod.mk.inj (Outcome.ok.inj h)).1.symm
  · obtain ⟨_, hguard, -⟩ := Outcome.bind_eq_ok.mp h
    exact absurd (Outcome.guard_eq_ok.mp hguard) hfit

/-- The number of reserved entries is the number of entries that were read. -/
theorem altTableAt_length (hn : n < 2 ^ 16) :
    (altTableAt raw offset n).badEntries.length = (altTableAt raw offset n).reserved := by
  unfold altTableAt
  rw [List.length_map, List.length_range, Nat.mod_eq_of_lt hn]

theorem parseAltInfo_length (h : (parseAltInfo raw offset : Outcome ε AltInfo) = .ok altInfo) :
    altInfo.trackTable.badEntries.length = altInfo.trackTable.reserved ∧
      altInfo.sectorTable.badEntries.length = altInfo.sectorTable.reserved := by
  unfold parseAltInfo at h
  obtain ⟨_, -, h⟩ := Outcome.bind_eq_ok.mp h
  obtain ⟨_, hview, h⟩ := Outcome.bind_eq_ok.mp h
  have hlen := Outcome.guard_eq_ok.mp hview
  rw [Codec.u32_eq (by omega), Outcome.ok_bind, Codec.u16_eq (by omega), Outcome.ok_bind,
    Codec.u16_eq (by omega), Outcome.ok_bind] at h
  obtain ⟨⟨trackTable, nextOffset⟩, htrack, h⟩ := Outcome.bind_eq_ok.mp h
  obtain ⟨_, hmeta, h⟩ := Outcome.bind_eq_ok.mp h
  have hlen' := Outcome.guard_eq_ok.mp hmeta
  rw [Codec.u16_eq (by omega), Outcome.ok_bind] at h
  obtain ⟨⟨sectorTable, _⟩, hsector, h⟩ := Outcome.bind_eq_ok.mp h
  obtain rfl := (Outcome.ok.inj h).symm
  dsimp only
  rw [parseAltTable_ok htrack, parseAltTable_ok hsector]
  exact ⟨altTableAt_length (Bytes.u16_lt _ _), altTableAt_length (Bytes.u16_lt _ _)⟩

end Parsed

/-! ## The remap -/
section Remap
variable {ε : Type} {pdinfo : PdInfo} {partition : VtocPartition} {altInfo : AltInfo} {sector : ℤ}

theorem remapGuestVisibleSector_exempt (h : partition.Exempt) :
    (remapGuestVisibleSector pdinfo partition (some altInfo) sector : Outcome ε ℤ) = .ok sector :=
  if_pos h

/-- With as many entries as are used the remap returns what the tables say. -/
theorem remapGuestVisibleSector_eq (h : ¬partition.Exempt) (hsectors : 0 < pdinfo.sectors)
    (hsector : 0 ≤ sector) (ht : altInfo.trackTable.used ≤ altInfo.trackTable.badEntries.length)
    (hs : altInfo.sectorTable.used ≤ altInfo.sectorTable.badEntries.length) :
    (remapGuestVisibleSector pdinfo partition (some altInfo) sector : Outcome ε ℤ) =
      .ok (altInfo.sectorTable.sectorRemap (altInfo.trackTable.trackRemap pdinfo.sectors sector)) := by
  have hslice : ¬(partition.index = 0 ∨ partition.tag = vBackup ∨ partition.tag = vOther) := h
  unfold remapGuestVisibleSector
  dsimp only
  rw [if_neg hslice, Outcome.guard_true hsectors, Outcome.ok_bind, Outcome.guard_true ht, Outcome.ok_bind,
    Outcome.guard_true hs, Outcome.ok_bind, remapTrack_eq, remapSector_eq,
    Int.tdiv_eq_ediv_of_nonneg hsector, Int.tmod_eq_emod_of_nonneg hsector]
  simp only [Nat.zero_add, Outcome.pure_def]
  rfl

/-- Otherwise a slice of a table ends behind it. -/
theorem remapGuestVisibleSector_panics (h : ¬partition.Exempt)
    (hused : ¬(altInfo.trackTable.used ≤ altInfo.trackTable.badEntries.length ∧
      altInfo.sectorTable.used ≤ altInfo.sectorTable.badEntries.length)) (out : ℤ) :
    (remapGuestVisibleSector pdinfo partition (some altInfo) sector : Outcome ε ℤ) ≠ .ok out := by
  have hslice : ¬(partition.index = 0 ∨ partition.tag = vBackup ∨ partition.tag = vOther) := h
  intro hout
  unfold remapGuestVisibleSector at hout
  dsimp only at hout
  rw [if_neg hslice] at hout
  obtain ⟨_, -, hout⟩ := Outcome.bind_eq_ok.mp hout
  obtain ⟨_, ht, hout⟩ := Outcome.bind_eq_ok.mp hout
  obtain ⟨_, hs, -⟩ := Outcome.bind_eq_ok.mp hout
  exact hused ⟨Outcome.guard_eq_ok.mp ht, Outcome.guard_eq_ok.mp hs⟩

/-- The remap of a parsed and valid block returns, with the sector that the tables say, exactly if the
slice is exempt or neither table uses more entries than it reserves. -/
theorem remapGuestVisibleSector_iff {raw : Bytes} {offset : ℕ}
    (hparse : (parseAltInfo raw offset : Outcome ε AltInfo) = .ok altInfo)
    (_hvalid : isValidAltInfo altInfo = true) (hsectors : 0 < pdinfo.sectors) (hsector : 0 ≤ sector) :
    (∃ out, (remapGuestVisibleSector pdinfo partition (some altInfo) sector : Outcome ε ℤ) = .ok out ∧
      out = if partition.Exempt then sector else
        altInfo.sectorTable.sectorRemap (altInfo.trackTable.trackRemap pdinfo.sectors sector)) ↔
      partition.Exempt ∨ altInfo.trackTable.UsedReserved ∧ altInfo.sectorTable.UsedReserved := by
  obtain ⟨ht, hs⟩ := parseAltInfo_length hparse
  unfold AltTableInfo.UsedReserved
  rw [← ht, ← hs]
  by_cases hexempt : partition.Exempt
  · rw [if_pos hexempt]
    exact iff_of_true ⟨sector, remapGuestVisibleSector_exempt hexempt, rfl⟩ (.inl hexempt)
  · rw [if_neg hexempt, or_iff_right hexempt]
    constructor
    · rintro ⟨out, hout, -⟩
      by_contra hused
      exact remapGuestVisibleSector_panics hexempt hused out hout
    · rintro ⟨htrack, hsect⟩
      exact ⟨_, remapGuestVisibleSector_eq hexempt hsectors hsector htrack hsect, rfl⟩

end Remap

/-- A block with one reserved and used bad track, 3, and no bad sector. -/
def oneTrackBlock : Bytes :=
  [0xEF, 0xBE, 0xAD, 0xDE, 2, 0, 0, 0, 1, 0, 1, 0, 63, 0, 0, 0, 3, 0, 0, 0, 0, 0, 0, 0, 0, 0, 0, 0]

/-- The same without the entry: one track is said to be used, none is reserved. -/
def usedUnreservedBlock : Bytes :=
  [0xEF, 0xBE, 0xAD, 0xDE, 2, 0, 0, 0, 1, 0, 0, 0, 63, 0, 0, 0, 0, 0, 0, 0, 0, 0, 0, 0]

/-- A disk with 17 sectors a track. -/
def seventeenSectors : PdInfo := ⟨0, validPd, 1, [], 0, 0, 17, 512, 0, 0, 0, 0, 0⟩

/-- Sector 56 is in the bad track 3, whose alternate begins at sector 63. -/
theorem remapGuestVisibleSector_track :
    ∃ out, (remapGuestVisibleSector seventeenSectors ⟨1, 2, 0, 0, 0⟩
        (some ⟨altSanity, altVersion, ⟨1, 1, 63, [3]⟩, ⟨0, 0, 0, []⟩⟩) 56 : Outcome IoError ℤ) = .ok out ∧
      out = if (⟨1, 2, 0, 0, 0⟩ : VtocPartition).Exempt then 56 else
        (⟨0, 0, 0, []⟩ : AltTableInfo).sectorRemap ((⟨1, 1, 63, [3]⟩ : AltTableInfo).trackRemap 17 56) := by
  have hparse : (parseAltInfo oneTrackBlock 0 : Outcome IoError AltInfo) =
      .ok ⟨altSanity, altVersion, ⟨1, 1, 63, [3]⟩, ⟨0, 0, 0, []⟩⟩ := by decide
  exact (@remapGuestVisibleSector_iff IoError seventeenSectors ⟨1, 2, 0, 0, 0⟩ _ 56 _ 0 hparse
    (by decide) (by decide) (by decide)).mpr (.inr ⟨le_refl 1, le_refl 0⟩)

/-- The block that uses a track which it does not reserve passes the parser and the test; the remap of
any sector panics. -/
theorem remapGuestVisibleSector_unreserved :
    ∃ altInfo : AltInfo, (parseAltInfo usedUnreservedBlock 0 : Outcome IoError AltInfo) = .ok altInfo ∧
      isValidAltInfo altInfo = true ∧
      (remapGuestVisibleSector seventeenSectors ⟨1, 2, 0, 0, 0⟩ (some altInfo) 56 :
        Outcome IoError ℤ) = .panic := by
  refine ⟨⟨altSanity, altVersion, ⟨1, 0, 63, []⟩, ⟨0, 0, 0, []⟩⟩, ?_⟩
  decide

end UfsFuse
