import UfsFuse.Skeleton

/-!
# Tables stored in an alternates block

The builder gives each table room for 253 entries and puts the second one behind that room. The
parser looks for it behind the reserved entries of the first.
-/
namespace UfsFuse

/-! ## What the parser reads -/
section Parse
variable {ε : Type} {raw : Bytes} {offset n : ℕ}

/-- The table of `n` entries at `offset`. -/
def altTableAt (raw : Bytes) (offset n : ℕ) : AltTableInfo :=
  ⟨raw.u16 offset, n % 2 ^ 16, raw.i32 (offset + 4),
    (List.range n).map fun i => raw.i32 (offset + 8 + i * 4)⟩

theorem parseAltTable_eq (h : offset + 8 + n * 4 ≤ raw.length) :
    (parseAltTable raw offset n : Outcome ε (AltTableInfo × ℕ)) =
      .ok (altTableAt raw offset n, offset + 8 + n * 4) := by
  have hentries : ∀ i ∈ List.range n,
      (Codec.i32 raw (offset + 8 + i * 4) : Outcome ε ℤ) = .ok (raw.i32 (offset + 8 + i * 4)) := by
    intro i hi
    have hlt := List.mem_range.mp hi
    exact Codec.i32_eq (by omega)
  unfold parseAltTable
  dsimp only
  rw [Outcome.guard_true h, Outcome.ok_bind, Outcome.collect_eq hentries]
  simp (disch := omega) only [Codec.u16_eq, Codec.i32_eq, Outcome.ok_bind, Outcome.pure_def,
    altTableAt]

/-- The second table follows the reserved entries of the first. -/
theorem parseAltInfo_eq {first second : ℕ} (hfirst : raw.u16 10 = first)
    (hsecond : raw.u16 (16 + first * 4 + 2) = second)
    (h : 16 + first * 4 + 8 + second * 4 ≤ raw.length) :
    (parseAltInfo raw 0 : Outcome ε AltInfo) =
      .ok ⟨raw.u32 0, raw.u16 4, altTableAt raw 8 first,
        altTableAt raw (16 + first * 4) second⟩ := by
  unfold parseAltInfo
  simp only [Nat.zero_le, Outcome.guard_true, Outcome.ok_bind, List.drop_zero]
  rw [Outcome.guard_true (by omega), Outcome.ok_bind, Codec.u32_eq (by omega), Outcome.ok_bind,
    Codec.u16_eq (by omega), Outcome.ok_bind, Codec.u16_eq (by omega), Outcome.ok_bind, hfirst,
    parseAltTable_eq (by omega), Outcome.ok_bind]
  dsimp only
  rw [show 8 + 8 = 16 from rfl, Outcome.guard_true (by omega), Outcome.ok_bind,
    Codec.u16_eq (by omega), Outcome.ok_bind, hsecond, parseAltTable_eq (by omega)]
  rfl

end Parse

/-! ## Stored tables -/

/-- A table that fits the layout: the `reserved` entries hold the bad entries. -/
structure AltTableInfo.Fits (table : AltTableInfo) : Prop where
  used_le : table.used ≤ table.reserved
  reserved_le : table.reserved ≤ maxAltents
  length_eq : table.badEntries.length = table.reserved
  base_range : -2 ^ 31 ≤ table.baseSector ∧ table.baseSector < 2 ^ 31
  entries_range : ∀ entry ∈ table.badEntries, -2 ^ 31 ≤ entry ∧ entry < 2 ^ 31

/-- The fields of a table stored at `offset`. -/
def altTableFields (offset : ℕ) (table : AltTableInfo) : List (ℕ × Bytes) :=
  [(offset, .le 2 table.used), (offset + 2, .le 2 table.reserved),
    (offset + 4, .le 4 (table.baseSector % 2 ^ 32).toNat),
    (offset + 8, .words (table.badEntries.map fun entry => (entry % 2 ^ 32).toNat))]

/-- The track table at offset 8 and the sector table behind the room for 253 entries. -/
def altBlockFields (track sector : AltTableInfo) : List (ℕ × Bytes) :=
  altTableFields 8 track ++ altTableFields (8 + 8 + maxAltents * 4) sector

/-- The block of `build_empty_alt_info` with two tables in it. -/
def altBlock (track sector : AltTableInfo) : Bytes :=
  buildEmptyAltInfo.overlays (altBlockFields track sector)

section Block
variable {track sector table : AltTableInfo}

theorem altBlockFields_ranges (track sector : AltTableInfo) :
    (altBlockFields track sector).map (fun f => (f.1, f.2.length)) =
      [(8, 2), (10, 2), (12, 4), (16, 4 * track.badEntries.length), (1028, 2), (1030, 2), (1032, 4),
        (1036, 4 * sector.badEntries.length)] := by
  simp only [altBlockFields, altTableFields, List.map_append, List.map_cons, List.map_nil,
    Bytes.le_length, Bytes.words_length, List.length_map, maxAltents]
  rfl

theorem altBlockFields_inside (ht : track.Fits) (hs : sector.Fits) :
    ∀ f ∈ altBlockFields track sector, f.1 + f.2.length ≤ buildEmptyAltInfo.length := by
  have htl := ht.length_eq
  have htr := ht.reserved_le
  have hsl := hs.length_eq
  have hsr := hs.reserved_le
  have hlength : buildEmptyAltInfo.length = 2048 := by decide +kernel
  refine Bytes.fields_inside (altBlockFields_ranges track sector) ?_
  simp only [maxAltents] at htr hsr
  simp only [List.forall_mem_cons, List.not_mem_nil, IsEmpty.forall_iff, implies_true, and_true]
  omega

theorem altBlockFields_apart (ht : track.Fits) :
    (altBlockFields track sector).Pairwise Bytes.FieldsApart := by
  have htl := ht.length_eq
  have htr := ht.reserved_le
  refine Bytes.pairwise_fieldsApart (altBlockFields_ranges track sector) ?_
  simp only [maxAltents] at htr
  simp only [List.pairwise_cons, List.forall_mem_cons, List.not_mem_nil, IsEmpty.forall_iff,
    implies_true, and_true, List.Pairwise.nil]
  omega

/-- A table of the block reads back where it was stored. -/
theorem altTableAt_stored {offset : ℕ} (ht : track.Fits) (hs : sector.Fits) (hf : table.Fits)
    (hmem : ∀ f ∈ altTableFields offset table, f ∈ altBlockFields track sector) :
    (altBlock track sector).u16 (offset + 2) = table.reserved ∧
      altTableAt (altBlock track sector) offset table.reserved = table := by
  have hin := altBlockFields_inside ht hs
  have hapart := @altBlockFields_apart track sector ht
  have hused := hf.used_le
  have hreserved := hf.reserved_le
  have hlength := hf.length_eq
  simp only [maxAltents] at hreserved
  have h0 : (altBlock track sector).u16 offset = table.used := by
    have hstored := Bytes.overlays_u16 hin hapart (hmem (offset, .le 2 table.used) (by
      simp [altTableFields]))
    exact hstored.trans (Nat.mod_eq_of_lt (by omega))
  have h2 : (altBlock track sector).u16 (offset + 2) = table.reserved := by
    have hstored := Bytes.overlays_u16 hin hapart (hmem (offset + 2, .le 2 table.reserved) (by
      simp [altTableFields]))
    exact hstored.trans (Nat.mod_eq_of_lt (by omega))
  have hword : ∀ v : ℤ, -2 ^ 31 ≤ v ∧ v < 2 ^ 31 → v.bmod (2 ^ 32) = v := by
    intro v hv
    exact Int.bmod_eq_of_le (by norm_num; omega) (by norm_num; omega)
  have h4 : (altBlock track sector).i32 (offset + 4) = table.baseSector := by
    have hstored := Bytes.overlays_i32 hin hapart
      (hmem (offset + 4, .le 4 (table.baseSector % 2 ^ 32).toNat) (by simp [altTableFields]))
    exact hstored.trans (hword _ hf.base_range)
  have hwords := Bytes.overlays_slice hin hapart _
    (hmem (offset + 8, .words (table.badEntries.map fun entry => (entry % 2 ^ 32).toNat)) (by
      simp [altTableFields]))
  have hentries : (List.range table.reserved).map
      (fun i => (altBlock track sector).i32 (offset + 8 + i * 4)) = table.badEntries := by
    refine List.ext_getElem (by simp [hlength]) ?_
    intro i hi hi'
    have hrange := hf.entries_range _ (List.getElem_mem hi')
    rw [List.getElem_map, List.getElem_range, ← hword _ hrange]
    refine Bytes.i32_of_u32 ?_
    simp only [Bytes.words_length, List.length_map] at hwords
    have hu32 : (altBlock track sector).u32 (offset + 8 + i * 4) =
        (Bytes.words (table.badEntries.map fun entry => (entry % 2 ^ 32).toNat)).u32 (i * 4) := by
      rw [← hwords, Bytes.u32_slice (by omega)]
      rfl
    have hpos : 0 ≤ table.badEntries[i] % 2 ^ 32 := Int.emod_nonneg _ (by norm_num)
    have hlt : table.badEntries[i] % 2 ^ 32 < 2 ^ 32 := Int.emod_lt_of_pos _ (by norm_num)
    rw [hu32, Bytes.words_u32 (by simpa using hi'), List.getD_eq_getElem _ _ (by simpa using hi'),
      List.getElem_map]
    exact Nat.mod_eq_of_lt (by omega)
  refine ⟨h2, ?_⟩
  rw [altTableAt, h0, h4, hentries, Nat.mod_eq_of_lt (by omega)]

/-- Outside the tables the block is as the builder left it: blank behind the version. -/
theorem altBlock_gap {offset n : ℕ} (ht : track.Fits) (hs : sector.Fits) (hlow : 6 ≤ offset)
    (hhigh : offset + n ≤ 2048)
    (hout : ∀ f ∈ altBlockFields track sector, offset + n ≤ f.1 ∨ f.1 + f.2.length ≤ offset) :
    (altBlock track sector).slice offset n = Bytes.zeros n := by
  have hblank : buildEmptyAltInfo.slice 6 2042 = Bytes.zeros 2042 := by decide +kernel
  rw [altBlock, Bytes.overlays_slice_apart (altBlockFields_inside ht hs) hout]
  calc buildEmptyAltInfo.slice offset n
      = (buildEmptyAltInfo.slice 6 2042).slice (offset - 6) n := by
        rw [Bytes.slice_slice (by omega), Nat.add_sub_cancel' hlow]
    _ = Bytes.zeros n := by rw [hblank, Bytes.slice_zeros (by omega)]

theorem altBlock_header (ht : track.Fits) (hs : sector.Fits) :
    (altBlock track sector).u32 0 = altSanity ∧ (altBlock track sector).u16 4 = altVersion := by
  have hslice : (altBlock track sector).slice 0 8 = buildEmptyAltInfo.slice 0 8 := by
    refine Bytes.overlays_slice_apart (altBlockFields_inside ht hs) ?_
    simp only [altBlockFields, altTableFields, List.forall_mem_append, List.forall_mem_cons,
      List.not_mem_nil, IsEmpty.forall_iff, implies_true, and_true, maxAltents]
    omega
  have hsanity := congrArg (Bytes.u32 · 0) hslice
  have hversion := congrArg (Bytes.u16 · 4) hslice
  simp (disch := norm_num) only [Bytes.u32_slice, Bytes.u16_slice, Nat.zero_add] at hsanity hversion
  rw [hsanity, hversion]
  decide +kernel

/-- What the parser takes for the second table. -/
theorem parseAltInfo_altBlock {ε : Type} (ht : track.Fits) (hs : sector.Fits) :
    ∃ second, (parseAltInfo (altBlock track sector) 0 : Outcome ε AltInfo) =
        .ok ⟨altSanity, altVersion, track, second⟩ ∧
      (second = sector ↔ track.reserved = maxAltents ∨ sector = ⟨0, 0, 0, []⟩) := by
  have hin := altBlockFields_inside ht hs
  have hlength : (altBlock track sector).length = 2048 :=
    (Bytes.overlays_length hin).trans (by decide +kernel)
  obtain ⟨hfirst, htrack⟩ := altTableAt_stored ht hs ht fun f hf => List.mem_append_left _ hf
  obtain ⟨hsanity, hversion⟩ := altBlock_header ht hs
  have htl := ht.length_eq
  have htr := ht.reserved_le
  have hsr := hs.reserved_le
  simp only [maxAltents] at htr hsr ⊢
  have hgap : ∀ n, 16 + track.reserved * 4 + n ≤ 1028 →
      (altBlock track sector).slice (16 + track.reserved * 4) n = Bytes.zeros n := by
    intro n hn
    refine altBlock_gap ht hs (by omega) (by omega) fun f hf => ?_
    have hrange := List.mem_map_of_mem (f := fun f : ℕ × Bytes => (f.1, f.2.length)) hf
    rw [altBlockFields_ranges] at hrange
    simp only [List.mem_cons, List.not_mem_nil, or_false, Prod.mk.injEq] at hrange
    omega
  by_cases hfull : track.reserved = 253
  · obtain ⟨hsecond, hsector⟩ := @altTableAt_stored track sector sector
      (8 + 8 + maxAltents * 4) ht hs hs fun f hf => List.mem_append_right _ hf
    have hnext : 16 + track.reserved * 4 = 8 + 8 + maxAltents * 4 := by rw [hfull]
    refine ⟨sector, ?_, iff_of_true rfl (.inl hfull)⟩
    have hreserved : (altBlock track sector).u16 (16 + track.reserved * 4 + 2) = sector.reserved := by
      rw [hnext]
      exact hsecond
    rw [parseAltInfo_eq hfirst hreserved (by omega), hsanity, hversion, htrack, hnext, hsector]
  · -- the parser looks into the room of the first table: nothing is reserved there
    have hfour := hgap 4 (by omega)
    have hused : (altBlock track sector).u16 (16 + track.reserved * 4) = 0 := by
      have hread := congrArg (Bytes.u16 · 0) hfour
      simp (disch := norm_num) only [Bytes.u16_slice, Nat.add_zero] at hread
      exact hread.trans (by decide)
    have hreserved : (altBlock track sector).u16 (16 + track.reserved * 4 + 2) = 0 := by
      have hread := congrArg (Bytes.u16 · 2) hfour
      simp (disch := norm_num) only [Bytes.u16_slice] at hread
      exact hread.trans (by decide)
    have hbase : sector.used = 0 → sector.reserved = 0 →
        (altBlock track sector).i32 (16 + track.reserved * 4 + 4) = 0 := by
      intro hu hr
      have hzero : ∀ b : Bytes, b.slice (16 + track.reserved * 4 + 4) 4 = Bytes.zeros 4 →
          b.i32 (16 + track.reserved * 4 + 4) = 0 := by
        intro b hb
        rw [Bytes.i32, Bytes.u32, hb, Bytes.leNat_zeros]
        rfl
      refine hzero _ ?_
      by_cases hlast : track.reserved = 252
      · -- the base is read where the count of the second table is stored
        have hapart := @altBlockFields_apart track sector ht
        have h0 := Bytes.overlays_slice hin hapart (1028, .le 2 sector.used) (by
          simp [altBlockFields, altTableFields])
        have h2 := Bytes.overlays_slice hin hapart (1030, .le 2 sector.reserved) (by
          simp [altBlockFields, altTableFields])
        simp only [Bytes.le_length, hu, hr] at h0 h2
        rw [hlast]
        calc (altBlock track sector).slice 1028 (2 + 2)
            = (altBlock track sector).slice 1028 2 ++ (altBlock track sector).slice 1030 2 :=
              Bytes.slice_add _ _ _ _
          _ = Bytes.le 2 0 ++ Bytes.le 2 0 := congrArg₂ (· ++ ·) h0 h2
          _ = Bytes.zeros 4 := by decide
      · have hread := congrArg (Bytes.slice · 4 4) (hgap 8 (by omega))
        simp (disch := norm_num) only [Bytes.slice_slice] at hread
        exact hread.trans (by decide)
    refine ⟨altTableAt (altBlock track sector) (16 + track.reserved * 4) 0, ?_, ?_⟩
    · rw [parseAltInfo_eq hfirst hreserved (by omega), hsanity, hversion, htrack]
    · rw [altTableAt, hused]
      constructor
      · intro heq
        have hu := congrArg AltTableInfo.used heq
        have hr := congrArg AltTableInfo.reserved heq
        rw [hbase hu.symm hr.symm] at heq
        exact .inr heq.symm
      · intro h
        have hempty := h.resolve_left hfull
        rw [hbase (by rw [hempty]) (by rw [hempty]), hempty]
        rfl

/-- The parser returns the two stored tables exactly when the first one reserves all its room or the
second one is empty. -/
theorem parseAltInfo_altBlock_iff (ht : track.Fits) (hs : sector.Fits) :
    (∃ info : AltInfo, (parseAltInfo (altBlock track sector) 0 : Outcome IoError AltInfo) = .ok info ∧
        info.trackTable = track ∧ info.sectorTable = sector) ↔
      track.reserved = maxAltents ∨ sector = ⟨0, 0, 0, []⟩ := by
  obtain ⟨second, hparse, hiff⟩ := parseAltInfo_altBlock (ε := IoError) ht hs
  rw [← hiff]
  constructor
  · rintro ⟨info, hinfo, _, hsector⟩
    cases hparse.symm.trans hinfo
    exact hsector
  · intro hsector
    exact ⟨_, hparse, rfl, hsector⟩

end Block

theorem AltTableInfo.fits_one (base entry : ℤ) (hb : -2 ^ 31 ≤ base ∧ base < 2 ^ 31)
    (he : -2 ^ 31 ≤ entry ∧ entry < 2 ^ 31) : AltTableInfo.Fits ⟨1, 1, base, [entry]⟩ where
  used_le := le_rfl
  reserved_le := by norm_num
  length_eq := rfl
  base_range := hb
  entries_range := by
    intro e hmem
    cases List.mem_singleton.mp hmem
    exact he

/-- One bad track and no bad sector. -/
theorem parseAltInfo_altBlock_track :
    ∃ info : AltInfo, (parseAltInfo (altBlock ⟨1, 1, 63, [70]⟩ ⟨0, 0, 0, []⟩) 0 :
        Outcome IoError AltInfo) = .ok info ∧
      info.trackTable = ⟨1, 1, 63, [70]⟩ ∧ info.sectorTable = ⟨0, 0, 0, []⟩ := by
  have hempty : AltTableInfo.Fits ⟨0, 0, 0, []⟩ :=
    ⟨le_rfl, by norm_num, rfl, by norm_num, by simp⟩
  exact (parseAltInfo_altBlock_iff (AltTableInfo.fits_one 63 70 (by norm_num) (by norm_num))
    hempty).mpr (.inr rfl)

/-- A bad sector is lost behind a track table that reserves one entry. -/
theorem parseAltInfo_altBlock_lost :
    ¬∀ track sector : AltTableInfo, track.Fits → sector.Fits →
      ∃ info : AltInfo, (parseAltInfo (altBlock track sector) 0 : Outcome IoError AltInfo) = .ok info ∧
        info.trackTable = track ∧ info.sectorTable = sector := by
  intro hall
  have ht := AltTableInfo.fits_one 63 70 (by norm_num) (by norm_num)
  have hs := AltTableInfo.fits_one 63 71 (by norm_num) (by norm_num)
  obtain ⟨info, hinfo, _, hsector⟩ := hall _ _ ht hs
  obtain ⟨second, hparse, hiff⟩ := parseAltInfo_altBlock (ε := IoError) ht hs
  cases hparse.symm.trans hinfo
  cases hiff.mp hsector with
  | inl hfull => simp at hfull
  | inr hempty => simp at hempty

end UfsFuse
