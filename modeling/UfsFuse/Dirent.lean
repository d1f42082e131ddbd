import UfsFuse.Write

/-!
# Directory records

A directory block is a chain of records that fills it. `Records b stop off rs`: from offset `off` the
buffer `b` holds exactly the records `rs`, up to `stop`. The readers of `dir.rs` return the chain.
-/
namespace UfsFuse

/-- A directory record. -/
structure Rec where
  inode : ℕ
  length : ℕ
  name : Bytes
  deriving DecidableEq, Repr

namespace Rec

/-- The record has room for its header and its name, a live one also for the rounding, and ends on a
word. -/
structure Fits (r : Rec) : Prop where
  header : ufsDirentHeaderSize + r.name.length ≤ r.length
  name_le : r.name.length ≤ 255
  room : r.inode ≠ 0 → ufsDirsiz r.name.length ≤ r.length
  aligned : 4 ∣ r.length

/-- The record stands at offset `off` of `b`. -/
structure At (r : Rec) (b : Bytes) (off : ℕ) : Prop where
  inode : b.u32 (off + DirentOff.ino) = r.inode
  length : b.u16 (off + DirentOff.reclen) = r.length
  namlen : b.u16 (off + DirentOff.namlen) = r.name.length
  name : b.slice (off + DirentOff.name) r.name.length = r.name

/-- What `dir.rs` decodes. -/
def entry (r : Rec) (off : ℕ) : DirEntry :=
  ⟨r.inode, r.length, r.name.length, decodeAsciiReplace r.name, off⟩

end Rec

def Records (b : Bytes) (stop : ℕ) : ℕ → List Rec → Prop
  | off, [] => off = stop
  | off, r :: rs => r.Fits ∧ r.At b off ∧ Records b stop (off + r.length) rs

/-- The bytes of a chain. -/
def chainLength (rs : List Rec) : ℕ := (rs.map Rec.length).sum

@[simp] theorem chainLength_nil : chainLength [] = 0 := rfl
@[simp] theorem chainLength_cons (r : Rec) (rs : List Rec) :
    chainLength (r :: rs) = r.length + chainLength rs := rfl
@[simp] theorem chainLength_append (xs ys : List Rec) :
    chainLength (xs ++ ys) = chainLength xs + chainLength ys := by
  rw [chainLength, List.map_append, List.sum_append]
  rfl

theorem ufsDirsiz_ge (n : ℕ) : ufsDirentHeaderSize + n + 1 ≤ ufsDirsiz n := by
  simp only [ufsDirsiz, ufsDirentHeaderSize]
  omega

theorem ufsDirsiz_aligned (n : ℕ) : 4 ∣ ufsDirsiz n := by
  simp only [ufsDirsiz, ufsDirentHeaderSize]
  omega

theorem Rec.Fits.length_ge {r : Rec} (h : r.Fits) : 8 ≤ r.length := by
  have := h.header
  simp only [ufsDirentHeaderSize] at this
  omega

/-! ## Buffers that differ in a range -/

/-- `b'` is `b` but for the bytes `[lo, hi)`. -/
structure Bytes.SameOutside (b b' : Bytes) (lo hi : ℕ) : Prop where
  length_eq : b'.length = b.length
  byte_eq : ∀ i, i < lo ∨ hi ≤ i → b'.byte i = b.byte i

namespace Bytes.SameOutside
variable {b b' b'' : Bytes} {lo hi : ℕ}

theorem trans (h : SameOutside b b' lo hi) (h' : SameOutside b' b'' lo hi) :
    SameOutside b b'' lo hi :=
  ⟨h'.length_eq.trans h.length_eq, fun i hi => (h'.byte_eq i hi).trans (h.byte_eq i hi)⟩

theorem overlay {src : Bytes} {o : ℕ} (hl : o + src.length ≤ b.length) (h1 : lo ≤ o)
    (h2 : o + src.length ≤ hi) : SameOutside b (b.overlay o src) lo hi :=
  ⟨Bytes.overlay_length hl, fun i hi' => by rw [Bytes.byte_overlay hl, if_neg (by omega)]⟩

theorem slice (h : SameOutside b b' lo hi) {o n : ℕ} (hd : o + n ≤ lo ∨ hi ≤ o) :
    b'.slice o n = b.slice o n := by
  apply Bytes.ext_byte
  · simp only [Bytes.slice, List.length_take, List.length_drop, h.length_eq]
  · intro i hi'
    have hin : i < n := hi'.trans_le (Bytes.slice_length_le _ _ _)
    rw [Bytes.byte_slice hin, Bytes.byte_slice hin, h.byte_eq]
    omega

end Bytes.SameOutside

/-! ## Chains -/
namespace Records
variable {b b' : Bytes} {stop : ℕ}

theorem stop_eq : ∀ {rs : List Rec} {off : ℕ}, Records b stop off rs →
    stop = off + chainLength rs := by
  intro rs
  induction rs with
  | nil => exact fun h => h.symm
  | cons r rs ih =>
    rintro off ⟨-, -, hr⟩
    rw [ih hr, chainLength_cons, Nat.add_assoc]

theorem append {ys : List Rec} : ∀ {xs : List Rec} {off : ℕ},
    Records b stop off (xs ++ ys) ↔
      Records b (off + chainLength xs) off xs ∧ Records b stop (off + chainLength xs) ys := by
  intro xs
  induction xs with
  | nil => simp [Records]
  | cons r xs ih =>
    intro off
    rw [List.cons_append, Records, Records, ih, chainLength_cons, Nat.add_assoc, and_assoc,
      and_assoc]

theorem At_window {small big : Bytes} {r : Rec} {base len off : ℕ}
    (h : ∀ o n, o + n ≤ len → small.slice o n = big.slice (base + o) n)
    (hin : off + 8 + r.name.length ≤ len) : r.At small off ↔ r.At big (base + off) := by
  have e0 := h (off + DirentOff.ino) 4 (by simp only [DirentOff.ino]; omega)
  have e4 := h (off + DirentOff.reclen) 2 (by simp only [DirentOff.reclen]; omega)
  have e6 := h (off + DirentOff.namlen) 2 (by simp only [DirentOff.namlen]; omega)
  have e8 := h (off + DirentOff.name) r.name.length (by simp only [DirentOff.name]; omega)
  constructor
  · rintro ⟨h0, h4, h6, h8⟩
    rw [Bytes.u32, e0] at h0
    rw [Bytes.u16, e4] at h4
    rw [Bytes.u16, e6] at h6
    rw [e8] at h8
    exact ⟨h0, h4, h6, h8⟩
  · rintro ⟨h0, h4, h6, h8⟩
    refine ⟨?_, ?_, ?_, ?_⟩
    · rw [Bytes.u32, e0]
      exact h0
    · rw [Bytes.u16, e4]
      exact h4
    · rw [Bytes.u16, e6]
      exact h6
    · rw [e8]
      exact h8

/-- A chain seen through a window of a larger buffer. -/
theorem window {small big : Bytes} {base len : ℕ}
    (h : ∀ o n, o + n ≤ len → small.slice o n = big.slice (base + o) n) (hs : stop ≤ len) :
    ∀ {rs : List Rec} {off : ℕ},
    Records small stop off rs ↔ Records big (base + stop) (base + off) rs := by
  intro rs
  induction rs with
  | nil =>
    intro off
    simp [Records]
  | cons r rs ih =>
    intro off
    rw [Records, Records, Nat.add_assoc base, ← ih]
    refine and_congr_right fun hf => and_congr_left fun hr => ?_
    have he := hr.stop_eq
    have hh := hf.header
    simp only [ufsDirentHeaderSize] at hh
    exact At_window h (by omega)

/-- A chain does not notice changes outside it. -/
theorem outside {lo hi : ℕ} (h : Bytes.SameOutside b b' lo hi) {rs : List Rec} {off : ℕ}
    (hr : Records b stop off rs) (hd : stop ≤ lo ∨ hi ≤ off) : Records b' stop off rs := by
  induction rs generalizing off with
  | nil => exact hr
  | cons r rs ih =>
    obtain ⟨hf, ha, hrest⟩ := hr
    have he := hrest.stop_eq
    have hh := hf.header
    simp only [ufsDirentHeaderSize] at hh
    refine ⟨hf, ?_, ih hrest (by omega)⟩
    obtain ⟨h0, h4, h6, h8⟩ := ha
    refine ⟨?_, ?_, ?_, ?_⟩
    · rw [Bytes.u32, h.slice (by simp only [DirentOff.ino]; omega)]
      exact h0
    · rw [Bytes.u16, h.slice (by simp only [DirentOff.reclen]; omega)]
      exact h4
    · rw [Bytes.u16, h.slice (by simp only [DirentOff.namlen]; omega)]
      exact h6
    · rw [h.slice (by simp only [DirentOff.name]; omega)]
      exact h8

/-- Some records of a chain are replaced by others of the same total length. -/
theorem splice {xs mid mid' ys : List Rec} {off : ℕ} (h : Records b stop off (xs ++ mid ++ ys))
    (hs : Bytes.SameOutside b b' (off + chainLength xs) (off + chainLength xs + chainLength mid))
    (hm : Records b' (off + chainLength xs + chainLength mid) (off + chainLength xs) mid') :
    Records b' stop off (xs ++ mid' ++ ys) := by
  rw [append, append] at h ⊢
  obtain ⟨⟨hx, -⟩, hy⟩ := h
  have hlen := hm.stop_eq
  have hmid : chainLength mid' = chainLength mid := by omega
  rw [chainLength_append] at hy ⊢
  rw [hmid]
  rw [← Nat.add_assoc] at hy ⊢
  exact ⟨⟨hx.outside hs (.inl le_rfl), hm⟩, hy.outside hs (.inr le_rfl)⟩

end Records

/-! ## Readers -/
section Readers
variable {b : Bytes} {stop : ℕ}

theorem decodeDirectoryHeader_eq {r : Rec} {off : ℕ} (hf : r.Fits) (ha : r.At b off)
    (hs : off + r.length ≤ stop) :
    decodeDirectoryHeader b off stop = some ⟨r.inode, r.length, r.name.length⟩ := by
  have hh := hf.header
  have hn := hf.name_le
  have h0 := ha.inode
  simp only [ufsDirentHeaderSize, DirentOff.ino, Nat.add_zero] at hh h0
  rw [decodeDirectoryHeader, if_neg (by simp only [ufsDirentHeaderSize]; omega)]
  dsimp only
  rw [ha.length, ha.namlen, h0, if_neg (by omega), if_neg (by simp only [DirentOff.name]; omega)]

theorem decodeDirectoryEntry_eq {r : Rec} {off : ℕ} (hf : r.Fits) (ha : r.At b off)
    (hs : off + r.length ≤ stop) : decodeDirectoryEntry b off stop = some (r.entry off) := by
  rw [decodeDirectoryEntry, decodeDirectoryHeader_eq hf ha hs]
  simp only [Option.bind_eq_bind, Option.bind_some, Option.pure_def]
  rw [ha.name]
  rfl

/-- The decoded records of a chain, with their offsets. -/
def placed : ℕ → List Rec → List DirEntry
  | _, [] => []
  | off, r :: rs => r.entry off :: placed (off + r.length) rs

theorem iterRecordsFrom_eq : ∀ {rs : List Rec} {fuel off : ℕ}, Records b stop off rs →
    chainLength rs ≤ fuel → iterRecordsFrom b stop fuel off = placed off rs := by
  intro rs
  induction rs with
  | nil =>
    intro fuel off h _
    have he : off = stop := h
    cases fuel with
    | zero => rfl
    | succ fuel =>
      rw [iterRecordsFrom, if_neg (by simp only [ufsDirentHeaderSize]; omega)]
      rfl
  | cons r rs ih =>
    rintro fuel off ⟨hf, ha, hr⟩ hfuel
    have hlen := hf.length_ge
    have hstop := hr.stop_eq
    rw [chainLength_cons] at hfuel
    obtain ⟨fuel, rfl⟩ : ∃ k, fuel = k + 1 := ⟨fuel - 1, by omega⟩
    rw [iterRecordsFrom, if_pos (by simp only [ufsDirentHeaderSize]; omega),
      decodeDirectoryEntry_eq hf ha (by omega), placed]
    simp only [Rec.entry]
    rw [ih hr (by omega)]

theorem iterDirectoryRecords_eq {rs : List Rec} (h : Records b b.length 0 rs) :
    iterDirectoryRecords b b.length = placed 0 rs := by
  have he := h.stop_eq
  rw [iterDirectoryRecords, Nat.min_self]
  exact iterRecordsFrom_eq h (by omega)

/-- Whether a record is a live entry of this name. -/
def Rec.Named (name : Bytes) (r : Rec) : Prop := r.inode ≠ 0 ∧ r.name = name

instance (name : Bytes) : DecidablePred (Rec.Named name) := fun r =>
  inferInstanceAs (Decidable (r.inode ≠ 0 ∧ r.name = name))

theorem scanBlockFor_eq {name : Bytes} : ∀ {rs : List Rec} {fuel off : ℕ},
    Records b stop off rs → chainLength rs ≤ fuel →
    scanBlockFor b name stop fuel off = (rs.find? (Rec.Named name)).map Rec.inode := by
  intro rs
  induction rs with
  | nil =>
    intro fuel off h _
    have he : off = stop := h
    cases fuel with
    | zero => rfl
    | succ fuel =>
      rw [scanBlockFor, if_neg (by simp only [ufsDirentHeaderSize]; omega)]
      rfl
  | cons r rs ih =>
    rintro fuel off ⟨hf, ha, hr⟩ hfuel
    have hlen := hf.length_ge
    have hstop := hr.stop_eq
    rw [chainLength_cons] at hfuel
    obtain ⟨fuel, rfl⟩ : ∃ k, fuel = k + 1 := ⟨fuel - 1, by omega⟩
    rw [scanBlockFor, if_pos (by simp only [ufsDirentHeaderSize]; omega),
      decodeDirectoryHeader_eq hf ha (by omega)]
    dsimp only
    have hiff : (r.inode ≠ 0 ∧ r.name.length = name.length ∧
        b.slice (off + DirentOff.name) name.length = name) ↔ r.Named name := by
      constructor
      · rintro ⟨h1, h2, h3⟩
        exact ⟨h1, by rw [← ha.name, h2, h3]⟩
      · rintro ⟨h1, rfl⟩
        exact ⟨h1, rfl, ha.name⟩
    by_cases hn : r.Named name
    · rw [if_pos (hiff.mpr hn), List.find?_cons_of_pos (by simpa using hn)]
      rfl
    · rw [if_neg (mt hiff.mp hn), List.find?_cons_of_neg (by simpa using hn), ih hr (by omega)]

end Readers

/-! ## Writing a record -/
section Encode
variable {b : Bytes} {ino len off : ℕ} {name : Bytes}

theorem encodeEntry_eq (h : DirentOff.name + name.length ≤ len) :
    ∃ e, encodeEntry ino name len = .ok e ∧ e.length = len ∧
      ∀ {b : Bytes} {off : ℕ}, off + len ≤ b.length → ino < 2 ^ 32 → len < 2 ^ 16 →
        (⟨ino, len, name⟩ : Rec).At (b.overlay off e) off := by
  simp only [DirentOff.name] at h
  refine ⟨Bytes.le 4 ino ++ Bytes.le 2 len ++ Bytes.le 2 name.length ++ name ++
    Bytes.zeros (len - (DirentOff.name + name.length)), ?_, ?_, ?_⟩
  · rw [encodeEntry, Outcome.guard_true (by simpa only [DirentOff.name] using h)]
    rfl
  · simp only [List.length_append, Bytes.le_length, Bytes.zeros_length, DirentOff.name]
    omega
  · intro b off hl hino hlen
    set e := Bytes.le 4 ino ++ Bytes.le 2 len ++ Bytes.le 2 name.length ++ name ++
      Bytes.zeros (len - (DirentOff.name + name.length)) with he
    have hel : e.length = len := by
      simp only [he, List.length_append, Bytes.le_length, Bytes.zeros_length, DirentOff.name]
      omega
    have hin : ∀ {o n : ℕ}, o + n ≤ len →
        (b.overlay off e).slice (off + o) n = e.slice o n := by
      intro o n hon
      rw [Bytes.slice_overlay_inside (by omega) (by omega) (by omega), Nat.add_sub_cancel_left]
    have hpart : ∀ (x y z : Bytes), (x ++ y ++ z).slice x.length y.length = y := by
      intro x y z
      rw [Bytes.slice, List.append_assoc, List.drop_left, List.take_left]
    have h0 : e.slice 0 4 = Bytes.le 4 ino := by
      simp [he, Bytes.slice, Bytes.le_length]
    have h4 : e.slice 4 2 = Bytes.le 2 len := by
      have h := hpart (Bytes.le 4 ino) (Bytes.le 2 len)
        (Bytes.le 2 name.length ++ name ++ Bytes.zeros (len - (DirentOff.name + name.length)))
      simpa only [he, Bytes.le_length, List.append_assoc] using h
    have h6 : e.slice 6 2 = Bytes.le 2 name.length := by
      have h := hpart (Bytes.le 4 ino ++ Bytes.le 2 len) (Bytes.le 2 name.length)
        (name ++ Bytes.zeros (len - (DirentOff.name + name.length)))
      simpa only [he, Bytes.le_length, List.length_append, List.append_assoc] using h
    have h8 : e.slice 8 name.length = name := by
      have h := hpart (Bytes.le 4 ino ++ Bytes.le 2 len ++ Bytes.le 2 name.length) name
        (Bytes.zeros (len - (DirentOff.name + name.length)))
      simpa only [he, Bytes.le_length, List.length_append, List.append_assoc] using h
    refine ⟨?_, ?_, ?_, ?_⟩
    · simp only [DirentOff.ino]
      rw [Bytes.u32, hin (by omega), h0, Bytes.leNat_le]
      exact Nat.mod_eq_of_lt (by omega)
    · simp only [DirentOff.reclen]
      rw [Bytes.u16, hin (by omega), h4, Bytes.leNat_le]
      exact Nat.mod_eq_of_lt (by omega)
    · simp only [DirentOff.namlen]
      rw [Bytes.u16, hin (by omega), h6, Bytes.leNat_le]
      exact Nat.mod_eq_of_lt (by omega)
    · simp only [DirentOff.name]
      rw [hin (by omega), h8]

theorem patch_eq {src : Bytes} (h : off + src.length ≤ b.length) :
    patch b off src = .ok (b.overlay off src) := by
  rw [patch, Outcome.guard_true h]
  rfl

/-- Only the length field of a record changes. -/
theorem Rec.At.relength {r : Rec} (ha : r.At b off) (hl : off + 8 + r.name.length ≤ b.length)
    (hlen : len < 2 ^ 16) :
    ({ r with length := len } : Rec).At (b.overlay (off + DirentOff.reclen) (Bytes.le 2 len)) off := by
  simp only [DirentOff.reclen]
  have hin : off + 4 + (Bytes.le 2 len).length ≤ b.length := by
    rw [Bytes.le_length]
    omega
  have hle : (Bytes.le 2 len).length = 2 := Bytes.le_length 2 len
  refine ⟨?_, ?_, ?_, ?_⟩
  · exact (Bytes.u32_overlay_of_disjoint hin (by simp only [DirentOff.ino]; omega)).trans ha.inode
  · refine (Bytes.u16_putU16_same (v := len) (by omega)).trans (Nat.mod_eq_of_lt hlen)
  · exact (Bytes.u16_overlay_of_disjoint hin (by simp only [DirentOff.namlen]; omega)).trans
      ha.namlen
  · exact (Bytes.slice_overlay_disjoint hin (by simp only [DirentOff.name]; omega)).trans ha.name

/-- Only the inode field of a record changes. -/
theorem Rec.At.renumber {r : Rec} (ha : r.At b off) (hl : off + 8 + r.name.length ≤ b.length)
    (hino : ino < 2 ^ 32) :
    ({ r with inode := ino } : Rec).At (b.overlay off (Bytes.le 4 ino)) off := by
  have hin : off + (Bytes.le 4 ino).length ≤ b.length := by
    rw [Bytes.le_length]
    omega
  have hle : (Bytes.le 4 ino).length = 4 := Bytes.le_length 4 ino
  refine ⟨?_, ?_, ?_, ?_⟩
  · refine (Bytes.u32_putU32_same (v := ino) (by omega)).trans (Nat.mod_eq_of_lt hino)
  · exact (Bytes.u16_overlay_of_disjoint hin (by simp only [DirentOff.reclen]; omega)).trans
      ha.length
  · exact (Bytes.u16_overlay_of_disjoint hin (by simp only [DirentOff.namlen]; omega)).trans
      ha.namlen
  · exact (Bytes.slice_overlay_disjoint hin (by simp only [DirentOff.name]; omega)).trans ha.name

end Encode
end UfsFuse
