import UfsFuse.Bfs
import UfsFuse.DirBlock

/-!
# What the boot file system formatter writes is what its reader finds

The formatter writes three kinds of ranges: inode slots, directory entries and file data. `Stored`
says what they hold for the files from some index on; later files are written past all of them.
-/
namespace UfsFuse

/-- Buffers of one length that agree on a range have the same slice there. -/
theorem Bytes.slice_congr {a b : Bytes} {o n : ℕ} (hl : a.length = b.length)
    (h : ∀ i, o ≤ i → i < o + n → a.byte i = b.byte i) : a.slice o n = b.slice o n := by
  apply Bytes.ext_byte
  · simp only [Bytes.slice, List.length_take, List.length_drop, hl]
  · intro i hi
    have hin : i < n := hi.trans_le (Bytes.slice_length_le _ _ _)
    rw [Bytes.byte_slice hin, Bytes.byte_slice hin]
    exact h _ (by omega) (by omega)

namespace BootFs

theorem roundUp_spec {value : ℕ} (hv : 0 < value) :
    value ≤ roundUp value sectorSize ∧ sectorSize ∣ roundUp value sectorSize ∧
      0 < roundUp value sectorSize := by
  have hd := Nat.div_add_mod' (value + sectorSize - 1) sectorSize
  have hm := Nat.mod_lt (value + sectorSize - 1) (show 0 < sectorSize by norm_num)
  refine ⟨?_, ?_, ?_⟩
  · rw [roundUp]
    omega
  · exact Dvd.intro_left _ rfl
  · rw [roundUp]
    omega

/-! ## Puts -/

theorem put_eq {buf src : Bytes} {off : ℕ} (h : off + src.length ≤ buf.length) :
    put buf off src = .ok (buf.overlay off src) := by
  rw [put, Outcome.guard_true h]
  rfl

/-- Fields one behind the other between `lo` and `hi`. -/
def FieldsFrom (hi : ℕ) : ℕ → List (ℕ × Bytes) → Prop
  | lo, [] => lo ≤ hi
  | lo, (off, src) :: rest => lo ≤ off ∧ FieldsFrom hi (off + src.length) rest

theorem FieldsFrom.le {hi : ℕ} {fields : List (ℕ × Bytes)} :
    ∀ {lo : ℕ}, FieldsFrom hi lo fields → lo ≤ hi := by
  induction fields with
  | nil => exact fun h => h
  | cons f rest ih =>
    intro lo h
    have hle := ih h.2
    exact h.1.trans ((Nat.le_add_right _ _).trans hle)

theorem putAll_eq {hi : ℕ} {fields : List (ℕ × Bytes)} :
    ∀ {lo : ℕ} {buf : Bytes}, FieldsFrom hi lo fields → hi ≤ buf.length →
    ∃ buf', putAll fields buf = .ok buf' ∧ Bytes.SameOutside buf buf' lo hi ∧
      ∀ f ∈ fields, buf'.slice f.1 f.2.length = f.2 := by
  induction fields with
  | nil =>
    intro lo buf _ _
    exact ⟨buf, rfl, ⟨rfl, fun _ _ => rfl⟩, fun f hf => absurd hf List.not_mem_nil⟩
  | cons f rest ih =>
    intro lo buf h hle
    have hend := h.2.le
    have hin : f.1 + f.2.length ≤ buf.length := by omega
    have hl := Bytes.overlay_length hin
    obtain ⟨buf', hput, hsame, hslice⟩ := @ih _ (buf.overlay f.1 f.2) h.2 (by omega)
    refine ⟨buf', ?_, ?_, ?_⟩
    · rw [putAll, put_eq hin, Outcome.ok_bind, hput]
    · have h1 := Bytes.SameOutside.overlay hin h.1 hend
      have hlo := h.1
      refine h1.trans ⟨hsame.length_eq, fun i hi' => hsame.byte_eq i ?_⟩
      omega
    · intro g hg
      cases List.mem_cons.mp hg with
      | inl he =>
        rw [he, hsame.slice (.inl le_rfl)]
        exact Bytes.slice_overlay_same hin
      | inr hr => exact hslice g hr

/-- Slot `slot` of the inode table carries this number and extent. -/
structure SlotIs (image : Bytes) (slot number : ℕ) (extent : Extent) : Prop where
  number_eq : image.u16 (bfsSuperSize + slot * bfsDirentSize + Dirent.ino) = number
  start_eq : image.u32 (bfsSuperSize + slot * bfsDirentSize + Dirent.sblock) = extent.startBlock
  end_eq : image.u32 (bfsSuperSize + slot * bfsDirentSize + Dirent.eblock) = extent.endBlock
  offset_eq : image.u32 (bfsSuperSize + slot * bfsDirentSize + Dirent.eoffset) = extent.endOffset

theorem u16_of_slice {b : Bytes} {o v : ℕ} (h : b.slice o 2 = Bytes.le 2 v) (hv : v < 2 ^ 16) :
    b.u16 o = v := by
  rw [Bytes.u16, h, Bytes.leNat_le]
  exact Nat.mod_eq_of_lt (by omega)

theorem u32_of_slice {b : Bytes} {o v : ℕ} (h : b.slice o 4 = Bytes.le 4 v) (hv : v < 2 ^ 32) :
    b.u32 o = v := by
  rw [Bytes.u32, h, Bytes.leNat_le]
  exact Nat.mod_eq_of_lt (by omega)

theorem putDirent_eq {buf : Bytes} {slot number : ℕ} {extent : Extent} {fileType mode nlink : ℕ}
    {timestamp : ℤ} (h : bfsSuperSize + (slot + 1) * bfsDirentSize ≤ buf.length)
    (hn : number < 2 ^ 16) (h1 : extent.startBlock < 2 ^ 32) (h2 : extent.endBlock < 2 ^ 32)
    (h3 : extent.endOffset < 2 ^ 32) :
    ∃ buf', putDirent buf (bfsSuperSize + slot * bfsDirentSize) number extent fileType mode nlink
        timestamp = .ok buf' ∧
      Bytes.SameOutside buf buf' (bfsSuperSize + slot * bfsDirentSize)
        (bfsSuperSize + (slot + 1) * bfsDirentSize) ∧ SlotIs buf' slot number extent := by
  set pos := bfsSuperSize + slot * bfsDirentSize with hpos
  have hnext : bfsSuperSize + (slot + 1) * bfsDirentSize = pos + 64 := by
    simp only [hpos, bfsSuperSize, bfsDirentSize]
    omega
  rw [hnext] at h ⊢
  rw [putDirent]
  obtain ⟨buf', hput, hsame, hslice⟩ := @putAll_eq (pos + 64)
    ([(pos + Dirent.ino, Bytes.le 2 number), (pos + Dirent.sblock, Bytes.le 4 extent.startBlock),
      (pos + Dirent.eblock, Bytes.le 4 extent.endBlock),
      (pos + Dirent.eoffset, Bytes.le 4 extent.endOffset)] ++
      vattrFields (pos + Dirent.vattr) fileType mode nlink timestamp) pos buf
    (by simp [FieldsFrom, vattrFields, Bytes.le_length]) h
  have hfield : ∀ {o w v : ℕ}, (o, Bytes.le w v) ∈
      [(pos + Dirent.ino, Bytes.le 2 number), (pos + Dirent.sblock, Bytes.le 4 extent.startBlock),
        (pos + Dirent.eblock, Bytes.le 4 extent.endBlock),
        (pos + Dirent.eoffset, Bytes.le 4 extent.endOffset)] →
      buf'.slice o w = Bytes.le w v := by
    intro o w v hm
    have hs := hslice _ (List.mem_append_left _ hm)
    rwa [Bytes.le_length] at hs
  refine ⟨buf', hput, hsame, ?_, ?_, ?_, ?_⟩
  · exact u16_of_slice (hfield (.head _)) hn
  · exact u32_of_slice (hfield (.tail _ (.head _))) h1
  · exact u32_of_slice (hfield (.tail _ (.tail _ (.head _)))) h2
  · exact u32_of_slice (hfield (.tail _ (.tail _ (.tail _ (.head _))))) h3

/-! ## The names -/

/-- What the name checks guarantee. -/
structure GoodName (name : Str) : Prop where
  nonempty : name ≠ []
  noSlash : 47 ∉ name
  short : name.length ≤ bfsMaxName
  ascii : Ascii name

theorem checkNames_eq {files : List (Str × Bytes)} : ∀ {seen : List Str},
    (checkNames seen files = .ok () ∧ (∀ f ∈ files, GoodName f.1) ∧
      (files.map Prod.fst).Nodup ∧ ∀ f ∈ files, f.1 ∉ seen) ∨
    ∃ e, checkNames seen files = .err e := by
  induction files with
  | nil =>
    intro seen
    exact .inl ⟨rfl, fun f hf => absurd hf List.not_mem_nil, List.nodup_nil,
      fun f hf => absurd hf List.not_mem_nil⟩
  | cons f rest ih =>
    intro seen
    rw [checkNames]
    split_ifs with h1 h2 h3 h4
    · exact .inr ⟨_, rfl⟩
    · exact .inr ⟨_, rfl⟩
    · exact .inr ⟨_, rfl⟩
    · cases @ih (seen ++ [f.1]) with
      | inr he => exact .inr he
      | inl ho =>
        obtain ⟨hok, hgood, hnodup, hseen⟩ := ho
        obtain ⟨hne, hslash⟩ := not_or.mp h1
        have hascii : Ascii f.1 := by
          rw [List.all_eq_true] at h3
          exact fun b hb => by simpa using h3 b hb
        refine .inl ⟨hok, ?_, ?_, ?_⟩
        · intro g hg
          cases List.mem_cons.mp hg with
          | inl he =>
            rw [he]
            exact ⟨hne, hslash, not_lt.mp h2, hascii⟩
          | inr hr => exact hgood g hr
        · rw [List.map_cons, List.nodup_cons]
          refine ⟨fun hm => ?_, hnodup⟩
          obtain ⟨g, hg, hgf⟩ := List.mem_map.mp hm
          exact hseen g hg (by simp [hgf])
        · intro g hg
          cases List.mem_cons.mp hg with
          | inl he =>
            rw [he]
            exact h4
          | inr hr => exact fun hm => hseen g hr (by simp [hm])
    · exact .inr ⟨_, rfl⟩

theorem fromUtf8LossyLoop_of_ascii {raw : Bytes} (h : Ascii raw) : ∀ fuel, raw.length ≤ fuel →
    fromUtf8LossyLoop fuel raw = raw := by
  induction raw with
  | nil =>
    intro fuel _
    cases fuel with
    | zero => rfl
    | succ fuel => rfl
  | cons b bs ih =>
    intro fuel hf
    rw [List.length_cons] at hf
    obtain ⟨fuel, rfl⟩ : ∃ k, fuel = k + 1 := ⟨fuel - 1, by omega⟩
    have hb : b < 0x80 := h b (by simp)
    have hp : utf8Prefix b bs = (1, true) := by
      rw [utf8Prefix, if_pos hb]
    rw [fromUtf8LossyLoop, hp]
    have hrest := ih (fun c hc => h c (by simp [hc])) fuel (by omega)
    simp [hrest]

theorem fromUtf8Lossy_of_ascii {raw : Bytes} (h : Ascii raw) : fromUtf8Lossy raw = raw :=
  fromUtf8LossyLoop_of_ascii h raw.length le_rfl

/-! ## The files -/

/-- The directory entry of a file. -/
def entryBytes (number : ℕ) (name : Str) : Bytes :=
  Bytes.le 2 number ++ name ++ Bytes.zeros (bfsLdirSize - (2 + name.length))

/-- The file numbered `number` is in slot `slot` and at `extent`. -/
structure FileIs (image : Bytes) (slot number : ℕ) (extent : Extent) (data : Bytes) : Prop where
  slot_is : SlotIs image slot number extent
  size_eq : inodeSize extent = data.length
  inside : extent.startBlock * sectorSize + data.length ≤ image.length
  data_eq : image.slice (extent.startBlock * sectorSize) data.length = data

/-- The files from index `index` on, their directory entries from `dirOff` on. -/
def Stored (image : Bytes) : ℕ → ℕ → List (Str × Bytes) → Prop
  | _, _, [] => True
  | index, dirOff, (name, data) :: rest =>
      image.slice dirOff bfsLdirSize = entryBytes (index + 3) name ∧
        (∃ extent, FileIs image (index + 1) (index + 3) extent data) ∧
        Stored image (index + 1) (dirOff + bfsLdirSize) rest

/-- The bytes of the first `index` files: their slots, their entries, their data. -/
def Before (index dataStart dirOff dataArea current i : ℕ) : Prop :=
  i < bfsSuperSize + (index + 1) * bfsDirentSize ∨ (dataStart ≤ i ∧ i < dirOff) ∨
    (dataArea ≤ i ∧ i < current)

theorem Before.next {index dataStart dirOff dataArea current space i : ℕ}
    (h : Before index dataStart dirOff dataArea current i) :
    Before (index + 1) dataStart (dirOff + bfsLdirSize) dataArea (current + space) i := by
  cases h with
  | inl h =>
    refine .inl (h.trans_le ?_)
    simp only [bfsSuperSize, bfsDirentSize]
    omega
  | inr h =>
    cases h with
    | inl h => exact .inr (.inl ⟨h.1, h.2.trans_le (Nat.le_add_right _ _)⟩)
    | inr h => exact .inr (.inr ⟨h.1, h.2.trans_le (Nat.le_add_right _ _)⟩)

section Write
variable {dataStart dataArea size : ℕ} {timestamp : ℤ}

theorem SlotIs.congr {a b : Bytes} {slot number : ℕ} {extent : Extent}
    (h : SlotIs a slot number extent) (hl : b.length = a.length)
    (hb : ∀ i, bfsSuperSize + slot * bfsDirentSize ≤ i →
      i < bfsSuperSize + (slot + 1) * bfsDirentSize → b.byte i = a.byte i) :
    SlotIs b slot number extent := by
  have hs : ∀ o n, o + n ≤ 64 → b.slice (bfsSuperSize + slot * bfsDirentSize + o) n =
      a.slice (bfsSuperSize + slot * bfsDirentSize + o) n := by
    intro o n hon
    refine Bytes.slice_congr hl fun i h1 h2 => hb i (by omega) ?_
    simp only [bfsSuperSize, bfsDirentSize] at h2 ⊢
    omega
  obtain ⟨h0, h1, h2, h3⟩ := h
  refine ⟨?_, ?_, ?_, ?_⟩
  · rw [Bytes.u16, hs _ 2 (by norm_num)]
    exact h0
  · rw [Bytes.u32, hs _ 4 (by norm_num)]
    exact h1
  · rw [Bytes.u32, hs _ 4 (by norm_num)]
    exact h2
  · rw [Bytes.u32, hs _ 4 (by norm_num)]
    exact h3

/-- The directory entry of one file. -/
theorem putEntry_eq {image : Bytes} {dirOff number : ℕ} {name : Str}
    (hn : name.length ≤ bfsMaxName) (h : dirOff + bfsLdirSize ≤ image.length) :
    ∃ image', putAll
        [(dirOff, Bytes.le 2 number), (dirOff + 2, name),
          (dirOff + 2 + name.length, Bytes.zeros (bfsLdirSize - (2 + name.length)))] image =
        .ok image' ∧
      Bytes.SameOutside image image' dirOff (dirOff + bfsLdirSize) ∧
      image'.slice dirOff bfsLdirSize = entryBytes number name := by
  simp only [bfsMaxName, bfsLdirSize] at hn h ⊢
  obtain ⟨image', hput, hsame, hslice⟩ := @putAll_eq (dirOff + 16)
    [(dirOff, Bytes.le 2 number), (dirOff + 2, name),
      (dirOff + 2 + name.length, Bytes.zeros (16 - (2 + name.length)))] dirOff image
    (by simp [FieldsFrom, Bytes.le_length]; omega) h
  refine ⟨image', hput, hsame, ?_⟩
  have h0 := hslice _ (.head _)
  have h1 := hslice _ (.tail _ (.head _))
  have h2 := hslice _ (.tail _ (.tail _ (.head _)))
  simp only [Bytes.le_length, Bytes.zeros_length] at h0 h1 h2
  have hsum : 16 = 2 + (name.length + (16 - (2 + name.length))) := by omega
  calc image'.slice dirOff 16
      = image'.slice dirOff (2 + (name.length + (16 - (2 + name.length)))) := by rw [← hsum]
    _ = image'.slice dirOff 2 ++ (image'.slice (dirOff + 2) name.length ++
          image'.slice (dirOff + 2 + name.length) (16 - (2 + name.length))) := by
      rw [Bytes.slice_add, Bytes.slice_add]
    _ = entryBytes number name := by
      rw [h0, h1, h2, entryBytes, List.append_assoc]

/-- Where the data of one file goes: nowhere, or the sectors from `current` on. -/
def extentOf (current : ℕ) (data : Bytes) : Extent :=
  if data = [] then ⟨0, 0, 0⟩
  else ⟨current / sectorSize, (current + roundUp data.length sectorSize) / sectorSize - 1,
    current + data.length - 1⟩

def spaceOf (data : Bytes) : ℕ := if data = [] then 0 else roundUp data.length sectorSize

def spaceAll (files : List (Str × Bytes)) : ℕ := (files.map fun f => spaceOf f.2).sum

theorem spaceOf_ge (data : Bytes) : data.length ≤ spaceOf data ∧ sectorSize ∣ spaceOf data := by
  rw [spaceOf]
  split_ifs with h
  · rw [h]
    exact ⟨le_rfl, dvd_zero _⟩
  · obtain ⟨h1, h2, -⟩ := roundUp_spec (List.length_pos_of_ne_nil h)
    exact ⟨h1, h2⟩

/-- The layout of the files from index `index` on. -/
def layoutsOf : ℕ → ℕ → List (Str × Bytes) → List Layout
  | _, _, [] => []
  | index, current, (name, data) :: rest =>
      ⟨index + 3, name, data, if data = [] then 0 else current, (extentOf current data).endBlock,
          (extentOf current data).endOffset⟩ ::
        layoutsOf (index + 1) (current + spaceOf data) rest

theorem layoutFiles_eq (hsize : size ≤ 2 ^ 32) {files : List (Str × Bytes)} :
    ∀ {index current : ℕ}, index + files.length ≤ 65533 → current ≤ size →
    (layoutFiles size index current files = .ok (layoutsOf index current files) ∧
      current + spaceAll files ≤ size) ∨
    ∃ e, layoutFiles size index current files = .err e := by
  induction files with
  | nil => exact fun _ hc => .inl ⟨rfl, hc⟩
  | cons f rest ih =>
    obtain ⟨name, data⟩ := f
    intro index current hi hc
    rw [List.length_cons] at hi
    have hnum : bfsRootInode + index % 2 ^ 16 + 1 = index + 3 := by
      simp only [bfsRootInode]
      omega
    have hsum : spaceAll ((name, data) :: rest) = spaceOf data + spaceAll rest := rfl
    rw [layoutFiles, layoutsOf, hsum]
    dsimp only
    rw [hnum]
    by_cases hd : data = []
    · rw [if_pos hd, if_pos hd, extentOf, spaceOf, if_pos hd, if_pos hd]
      cases @ih (index + 1) current (by omega) hc with
      | inl ho =>
        refine .inl ⟨?_, by omega⟩
        rw [ho.1]
        rfl
      | inr he =>
        obtain ⟨e, he⟩ := he
        refine .inr ⟨e, ?_⟩
        rw [he]
        rfl
    · rw [if_neg hd, if_neg hd, extentOf, spaceOf, if_neg hd, if_neg hd]
      have hpos := List.length_pos_of_ne_nil hd
      obtain ⟨hge, -, -⟩ := roundUp_spec hpos
      by_cases hfit : current + roundUp data.length sectorSize > size
      · rw [if_pos hfit]
        exact .inr ⟨_, rfl⟩
      · rw [if_neg hfit]
        have h1 : ((current + roundUp data.length sectorSize) / sectorSize - 1) % 2 ^ 32 =
            (current + roundUp data.length sectorSize) / sectorSize - 1 := by
          refine Nat.mod_eq_of_lt ?_
          simp only [sectorSize] at hfit ⊢
          omega
        have h2 : (current + data.length - 1) % 2 ^ 32 = current + data.length - 1 :=
          Nat.mod_eq_of_lt (by omega)
        rw [h1, h2]
        cases @ih (index + 1) (current + roundUp data.length sectorSize) (by omega) (by omega) with
        | inl ho =>
          refine .inl ⟨?_, by omega⟩
          rw [ho.1]
          rfl
        | inr he =>
          obtain ⟨e, he⟩ := he
          refine .inr ⟨e, ?_⟩
          rw [he]
          rfl

theorem extentOf_start {current : ℕ} (data : Bytes) (hc : sectorSize ∣ current) :
    (extentOf current data).startBlock * sectorSize = if data = [] then 0 else current := by
  rw [extentOf]
  split_ifs with hd
  · rfl
  · exact Nat.div_mul_cancel hc

theorem inodeSize_extentOf {current : ℕ} {data : Bytes} (hc : sectorSize ∣ current)
    (hpos : 0 < current) : inodeSize (extentOf current data) = data.length := by
  obtain ⟨k, rfl⟩ := hc
  rw [extentOf]
  split_ifs with hd
  · rw [hd]
    rfl
  · have hl := List.length_pos_of_ne_nil hd
    simp only [sectorSize] at hpos
    have hk : sectorSize * k / sectorSize = k := by
      simp only [sectorSize]
      omega
    rw [hk, inodeSize, if_neg (by simp only; omega)]
    simp only [sectorSize]
    rw [if_pos (by omega)]
    omega

/-- The place of a file among the others. -/
structure Room (dataStart dataArea size index dirOff current : ℕ) (data : Bytes) : Prop where
  number_lt : index + 3 < 2 ^ 16
  slot_le : bfsSuperSize + (index + 2) * bfsDirentSize ≤ dataStart
  dir_ge : dataStart ≤ dirOff
  dir_le : dirOff + bfsLdirSize ≤ dataArea
  area_le : dataArea ≤ current
  fits : current + spaceOf data ≤ size
  aligned : sectorSize ∣ current

theorem writeFile_eq (hsize : size ≤ 2 ^ 32) {image : Bytes} (hl : image.length = size)
    {index dirOff current : ℕ} {name : Str} {data : Bytes} (hname : name.length ≤ bfsMaxName)
    (h : Room dataStart dataArea size index dirOff current data) :
    ∃ image', writeFile timestamp image index dirOff
        ⟨index + 3, name, data, if data = [] then 0 else current, (extentOf current data).endBlock,
          (extentOf current data).endOffset⟩ = .ok image' ∧
      image'.length = image.length ∧
      (∀ i, Before index dataStart dirOff dataArea current i → image'.byte i = image.byte i) ∧
      image'.slice dirOff bfsLdirSize = entryBytes (index + 3) name ∧
      FileIs image' (index + 1) (index + 3) (extentOf current data) data := by
  obtain ⟨hnum, hslot, hdir, hdirle, harea, hfits, halign⟩ := h
  obtain ⟨hge, hdvd⟩ := spaceOf_ge data
  simp only [bfsSuperSize, bfsDirentSize, bfsLdirSize] at hslot hdirle
  have hpos : 0 < current := by omega
  have hstart := extentOf_start data halign
  have hext : (extentOf current data).startBlock < 2 ^ 32 ∧
      (extentOf current data).endBlock < 2 ^ 32 ∧ (extentOf current data).endOffset < 2 ^ 32 := by
    rw [spaceOf] at hfits
    rw [extentOf]
    split_ifs at hfits ⊢ with hd
    · simp
    · have hl := List.length_pos_of_ne_nil hd
      obtain ⟨hr, -, -⟩ := roundUp_spec hl
      simp only [sectorSize] at hr hfits ⊢
      omega
  -- the data, or nothing
  obtain ⟨image₁, hw₁, hs₁, hd₁⟩ : ∃ image₁, (if data = [] then .ok image else
      put image current data) = .ok image₁ ∧
      Bytes.SameOutside image image₁ current (current + data.length) ∧
      image₁.slice (if data = [] then 0 else current) data.length = data := by
    by_cases hd : data = []
    · refine ⟨image, if_pos hd, ⟨rfl, fun _ _ => rfl⟩, ?_⟩
      rw [hd]
      rfl
    · have hin : current + data.length ≤ image.length := by omega
      refine ⟨_, (if_neg hd).trans (put_eq hin), Bytes.SameOutside.overlay hin le_rfl le_rfl, ?_⟩
      rw [if_neg hd]
      exact Bytes.slice_overlay_same hin
  have hl₁ := hs₁.length_eq
  obtain ⟨image₂, hw₂, hs₂, hslot₂⟩ := @putDirent_eq image₁ (index + 1) (index + 3)
    (extentOf current data) bfsVreg 0o644 1 timestamp
    (by simp only [bfsSuperSize, bfsDirentSize]; omega) hnum hext.1 hext.2.1 hext.2.2
  have hl₂ := hs₂.length_eq
  obtain ⟨image₃, hw₃, hs₃, hentry⟩ := @putEntry_eq image₂ dirOff (index + 3) name hname
    (by simp only [bfsLdirSize]; omega)
  have hl₃ := hs₃.length_eq
  simp only [bfsSuperSize, bfsDirentSize, bfsLdirSize] at hs₂ hs₃
  have hcode : writeFile timestamp image index dirOff
      ⟨index + 3, name, data, if data = [] then 0 else current, (extentOf current data).endBlock,
        (extentOf current data).endOffset⟩ = .ok image₃ := by
    rw [writeFile]
    dsimp only
    by_cases hd : data = []
    · rw [if_pos hd] at hw₁
      obtain rfl : image = image₁ := Outcome.ok.inj hw₁
      rw [if_pos hd]
      have he : extentOf current data = ⟨0, 0, 0⟩ := if_pos hd
      rw [he] at hw₂
      rw [hw₂, Outcome.ok_bind, hw₃]
    · rw [if_neg hd] at hw₁
      have hsb : (extentOf current data).startBlock = current / sectorSize % 2 ^ 32 := by
        rw [extentOf, if_neg hd]
        refine (Nat.mod_eq_of_lt ?_).symm
        simp only [sectorSize]
        omega
      have he : extentOf current data = ⟨current / sectorSize % 2 ^ 32,
          (extentOf current data).endBlock, (extentOf current data).endOffset⟩ := by
        rw [← hsb]
      rw [if_neg hd, if_neg hd]
      rw [hw₁, Outcome.ok_bind]
      rw [he] at hw₂
      rw [hw₂, Outcome.ok_bind, hw₃]
  refine ⟨image₃, hcode, by omega, ?_, hentry, ?_, ?_, ?_, ?_⟩
  · intro i hi
    simp only [Before, bfsSuperSize, bfsDirentSize] at hi
    rw [hs₃.byte_eq i (by omega), hs₂.byte_eq i (by omega), hs₁.byte_eq i (by omega)]
  · refine hslot₂.congr hl₃ fun i h1 h2 => hs₃.byte_eq i (.inl ?_)
    simp only [bfsSuperSize, bfsDirentSize] at h2
    omega
  · exact inodeSize_extentOf halign hpos
  · rw [hstart]
    split_ifs with hd
    · rw [hd, List.length_nil]
      exact Nat.zero_le _
    · omega
  · rw [hstart]
    refine Eq.trans (Bytes.slice_congr (hl₃.trans hl₂) fun i h1 h2 => ?_) hd₁
    split_ifs at h1 h2 with hd
    · rw [hd, List.length_nil] at h2
      omega
    · rw [hs₃.byte_eq i (by omega), hs₂.byte_eq i (by omega)]

theorem FileIs.congr {a b : Bytes} {slot number : ℕ} {extent : Extent} {data : Bytes}
    (h : FileIs a slot number extent data) (hl : b.length = a.length)
    (hb : ∀ i, (bfsSuperSize + slot * bfsDirentSize ≤ i ∧
      i < bfsSuperSize + (slot + 1) * bfsDirentSize) ∨ (extent.startBlock * sectorSize ≤ i ∧
      i < extent.startBlock * sectorSize + data.length) → b.byte i = a.byte i) :
    FileIs b slot number extent data := by
  refine ⟨h.slot_is.congr hl fun i h1 h2 => hb i (.inl ⟨h1, h2⟩), h.size_eq, hl ▸ h.inside, ?_⟩
  exact (Bytes.slice_congr hl fun i h1 h2 => hb i (.inr ⟨h1, h2⟩)).trans h.data_eq

/-- The writing loop stores every file and leaves what is before the first one alone. -/
theorem writeFiles_eq (hsize : size ≤ 2 ^ 32) {files : List (Str × Bytes)} :
    ∀ {index dirOff current : ℕ} {image : Bytes}, image.length = size →
    (∀ f ∈ files, f.1.length ≤ bfsMaxName) → index + files.length ≤ 65533 →
    bfsSuperSize + (index + 1 + files.length) * bfsDirentSize ≤ dataStart →
    dataStart ≤ dirOff → dirOff + files.length * bfsLdirSize ≤ dataArea → dataArea ≤ current →
    current + spaceAll files ≤ size → sectorSize ∣ current →
    ∃ image', writeFiles timestamp index dirOff (layoutsOf index current files) image = .ok image' ∧
      image'.length = image.length ∧
      (∀ i, Before index dataStart dirOff dataArea current i → image'.byte i = image.byte i) ∧
      Stored image' index dirOff files := by
  induction files with
  | nil =>
    intro index dirOff current image _ _ _ _ _ _ _ _ _
    exact ⟨image, rfl, rfl, fun _ _ => rfl, trivial⟩
  | cons f rest ih =>
    obtain ⟨name, data⟩ := f
    intro index dirOff current image hl hnames hnum hslot hdir hdirle harea hfits halign
    have hsum : spaceAll ((name, data) :: rest) = spaceOf data + spaceAll rest := rfl
    rw [hsum] at hfits
    rw [List.length_cons] at hnum hslot hdirle
    simp only [bfsSuperSize, bfsDirentSize, bfsLdirSize] at hslot hdirle
    obtain ⟨hge, hdvd⟩ := spaceOf_ge data
    have hroom : Room dataStart dataArea size index dirOff current data :=
      ⟨by omega, by simp only [bfsSuperSize, bfsDirentSize]; omega, hdir,
        by simp only [bfsLdirSize]; omega, harea, by omega, halign⟩
    obtain ⟨image₁, hw₁, hl₁, hkeep₁, hentry, hfile⟩ :=
      @writeFile_eq dataStart dataArea size timestamp hsize image hl index dirOff current name data
        (hnames (name, data) (by simp)) hroom
    obtain ⟨image₂, hw₂, hl₂, hkeep₂, hstored⟩ := @ih (index + 1) (dirOff + bfsLdirSize)
      (current + spaceOf data) image₁ (hl₁.trans hl) (fun g hg => hnames g (by simp [hg])) (by omega)
      (by simp only [bfsSuperSize, bfsDirentSize]; omega) (by omega)
      (by simp only [bfsLdirSize]; omega) (by omega) (by omega) (Dvd.dvd.add halign hdvd)
    refine ⟨image₂, ?_, hl₂.trans hl₁, ?_, ?_, ⟨extentOf current data, ?_⟩, hstored⟩
    · rw [layoutsOf, writeFiles, hw₁, Outcome.ok_bind, hw₂]
    · exact fun i hi => (hkeep₂ i hi.next).trans (hkeep₁ i hi)
    · refine (Bytes.slice_congr hl₂ fun i h1 h2 => hkeep₂ i ?_).trans hentry
      exact .inr (.inl ⟨by omega, h2⟩)
    · have hstart := extentOf_start data halign
      refine hfile.congr hl₂ fun i hi => hkeep₂ i ?_
      cases hi with
      | inl hi => exact .inl hi.2
      | inr hi =>
        rw [hstart] at hi
        split_ifs at hi with hd
        · rw [hd, List.length_nil] at hi
          exact absurd (hi.1.trans_lt hi.2) (Nat.lt_irrefl _)
        · exact .inr (.inr ⟨harea.trans hi.1, hi.2.trans_le (Nat.add_le_add_left hge _)⟩)

/-- The superblock and the root inode. -/
theorem writeSuper_eq {rootDirBytes rootDirAlloc : ℕ} (hsize : size ≤ 2 ^ 32)
    (hds : bfsSuperSize + sectorSize ≤ dataStart) (hdvd : sectorSize ∣ dataStart)
    (hfits : dataStart + rootDirAlloc ≤ size) (hroot : rootDirBytes ≤ rootDirAlloc)
    (halloc : 0 < rootDirAlloc) :
    ∃ image extent, writeSuper size dataStart rootDirBytes rootDirAlloc timestamp = .ok image ∧
      image.length = size ∧ image.u32 0 = bfsMagic ∧ image.u32 4 = dataStart ∧
      image.u32 8 = size - 1 ∧ SlotIs image 0 bfsRootInode extent ∧
      extent.startBlock * sectorSize = dataStart ∧ inodeSize extent = rootDirBytes := by
  have hzl := Bytes.zeros_length size
  simp only [bfsSuperSize, sectorSize] at hds
  obtain ⟨image₁, hw₁, hs₁, hf₁⟩ := @putAll_eq 512
    [(0, Bytes.le 4 bfsMagic), (4, Bytes.le 4 dataStart), (8, Bytes.le 4 (size - 1)),
      (bfsSanitywOffset, Bytes.le 4 0xFFFFFFFF), (bfsSanitywOffset + 4, Bytes.le 4 0xFFFFFFFF),
      (bfsSanitywOffset + 8, Bytes.le 4 0xFFFFFFFF), (bfsSanitywOffset + 12, Bytes.le 4 0xFFFFFFFF)]
    0 (Bytes.zeros size) (by simp [FieldsFrom, Bytes.le_length]) (by omega)
  have hl₁ := hs₁.length_eq.trans hzl
  have h0 := hf₁ _ (.head _)
  have h4 := hf₁ _ (.tail _ (.head _))
  have h8 := hf₁ _ (.tail _ (.tail _ (.head _)))
  simp only [Bytes.le_length] at h0 h4 h8
  have hsb : dataStart / sectorSize % 2 ^ 32 = dataStart / sectorSize := by
    refine Nat.mod_eq_of_lt ?_
    simp only [sectorSize]
    omega
  have heb : ((dataStart + rootDirAlloc) / sectorSize - 1) % 2 ^ 32 =
      (dataStart + rootDirAlloc) / sectorSize - 1 := by
    refine Nat.mod_eq_of_lt ?_
    simp only [sectorSize]
    omega
  have heo : (if rootDirBytes ≠ 0 then (dataStart + rootDirBytes - 1) % 2 ^ 32
      else (dataStart - 1) % 2 ^ 32) = dataStart + rootDirBytes - 1 := by
    by_cases hz : rootDirBytes = 0
    · rw [if_neg (not_not.mpr hz), hz, Nat.add_zero]
      exact Nat.mod_eq_of_lt (by omega)
    · rw [if_pos hz]
      exact Nat.mod_eq_of_lt (by omega)
  obtain ⟨image₂, hw₂, hs₂, hslot⟩ := @putDirent_eq image₁ 0 bfsRootInode
    ⟨dataStart / sectorSize, (dataStart + rootDirAlloc) / sectorSize - 1,
      dataStart + rootDirBytes - 1⟩ bfsVdir 0o755 2 timestamp
    (by simp only [bfsSuperSize, bfsDirentSize]; omega) (by norm_num)
    (by simp only [sectorSize]; omega) (by simp only [sectorSize]; omega) (by simp only; omega)
  simp only [bfsSuperSize, bfsDirentSize, Nat.zero_mul, Nat.add_zero] at hw₂ hs₂
  have hword : ∀ o, o + 4 ≤ 512 → image₂.u32 o = image₁.u32 o := by
    intro o ho
    rw [Bytes.u32, hs₂.slice (.inl ho), Bytes.u32]
  refine ⟨image₂, _, ?_, hs₂.length_eq.trans hl₁, ?_, ?_, ?_, hslot, Nat.div_mul_cancel hdvd, ?_⟩
  · rw [writeSuper, hw₁, Outcome.ok_bind]
    dsimp only
    rw [hsb, heb, heo]
    exact hw₂
  · rw [hword 0 (by norm_num)]
    exact u32_of_slice h0 (by norm_num)
  · rw [hword 4 (by norm_num)]
    exact u32_of_slice h4 (by omega)
  · rw [hword 8 (by norm_num)]
    exact u32_of_slice h8 (by omega)
  · have hne : dataStart / sectorSize ≠ 0 := by
      simp only [sectorSize]
      omega
    rw [inodeSize, if_neg hne]
    dsimp only
    rw [Nat.div_mul_cancel hdvd]
    split_ifs <;> omega

end Write

/-! ## Reading the slice back -/
section Read
variable {out img : Bytes} {fsStart dataStart dataEnd : ℕ}

/-- The slice `img` stands at `fsStart` of `out`. -/
structure Shows (out img : Bytes) (fsStart : ℕ) : Prop where
  inside : fsStart + img.length ≤ out.length
  slice_eq : ∀ o n, o + n ≤ img.length → out.slice (fsStart + o) n = img.slice o n

theorem shows_overlay {image img : Bytes} {fsStart : ℕ} (h : fsStart + img.length ≤ image.length) :
    Shows (image.overlay fsStart img) img fsStart := by
  refine ⟨by rwa [Bytes.overlay_length h], fun o n hon => ?_⟩
  rw [Bytes.slice_overlay_inside h (by omega) (by omega), Nat.add_sub_cancel_left]

theorem Shows.u16 (h : Shows out img fsStart) {o : ℕ} (ho : o + 2 ≤ img.length) :
    out.u16 (fsStart + o) = img.u16 o := by
  rw [Bytes.u16, h.slice_eq o 2 ho, Bytes.u16]

theorem Shows.u32 (h : Shows out img fsStart) {o : ℕ} (ho : o + 4 ≤ img.length) :
    out.u32 (fsStart + o) = img.u32 o := by
  rw [Bytes.u32, h.slice_eq o 4 ho, Bytes.u32]

theorem readInode_eq (h : Shows out img fsStart) {slot number : ℕ} {extent : Extent}
    (hs : SlotIs img slot number extent) (hn : number = slot + bfsRootInode)
    (hin : bfsSuperSize + (slot + 1) * bfsDirentSize ≤ img.length) :
    readInode out ⟨fsStart, dataStart, dataEnd⟩ number = some extent := by
  subst hn
  have hi := h.inside
  simp only [bfsSuperSize, bfsDirentSize] at hin
  obtain ⟨h0, h1, h2, h3⟩ := hs
  rw [readInode, if_neg (by simp only [bfsRootInode]; omega)]
  dsimp only [bfsRootInode, bfsSuperSize, bfsDirentSize] at h0 h1 h2 h3 ⊢
  rw [Nat.add_sub_cancel, Nat.add_assoc fsStart, if_neg (by omega), Nat.add_assoc fsStart,
    Nat.add_assoc fsStart, Nat.add_assoc fsStart, Nat.add_assoc fsStart,
    h.u16 (by simp only [Dirent.ino]; omega), h.u32 (by simp only [Dirent.sblock]; omega),
    h.u32 (by simp only [Dirent.eblock]; omega), h.u32 (by simp only [Dirent.eoffset]; omega),
    h0, h1, h2, h3, if_neg (by simp)]

/-- A file as the listing shows it. -/
def listed (f : (Str × Bytes) × ℕ) : BfsEntry := ⟨f.1.1, f.2 + 3, f.1.2.length⟩

theorem listFrom_eq (h : Shows out img fsStart) {files : List (Str × Bytes)} :
    ∀ {index offset : ℕ}, Stored img index (dataStart + offset) files →
    (∀ f ∈ files, GoodName f.1 ∧ 0 ∉ f.1) →
    dataStart + offset + files.length * bfsLdirSize ≤ img.length →
    bfsSuperSize + (index + 1 + files.length) * bfsDirentSize ≤ img.length →
    index + files.length ≤ 65533 →
    listFrom out ⟨fsStart, dataStart, dataEnd⟩ (fsStart + dataStart) files.length offset =
      (files.zipIdx index).map listed := by
  induction files with
  | nil => exact fun _ _ _ _ _ => rfl
  | cons f rest ih =>
    obtain ⟨name, data⟩ := f
    rintro index offset ⟨hentry, ⟨extent, hfile⟩, hrest⟩ hnames hdir hslot hnum
    rw [List.length_cons] at hdir hslot hnum ⊢
    simp only [bfsSuperSize, bfsDirentSize, bfsLdirSize] at hdir hslot hentry
    have hin := h.inside
    obtain ⟨hgood, hnul⟩ := hnames (name, data) (by simp)
    have hpos : fsStart + dataStart + offset = fsStart + (dataStart + offset) := Nat.add_assoc _ _ _
    have hno : out.u16 (fsStart + (dataStart + offset)) = index + 3 := by
      rw [h.u16 (by omega)]
      refine u16_of_slice ?_ (by omega)
      have h2 : (img.slice (dataStart + offset) 16).slice 0 2 = img.slice (dataStart + offset) 2 :=
        @Bytes.slice_slice img (dataStart + offset) 16 0 2 (by norm_num)
      rw [hentry] at h2
      rw [← h2, entryBytes, Bytes.slice, List.drop_zero, List.append_assoc]
      exact List.take_left' (Bytes.le_length 2 _)
    have hname : (out.slice (fsStart + (dataStart + offset) + 2) (bfsLdirSize - 2)).takeWhile
        (· ≠ 0) = name := by
      rw [Nat.add_assoc fsStart, h.slice_eq _ _ (by simp only [bfsLdirSize]; omega)]
      have h2 := @Bytes.slice_slice img (dataStart + offset) 16 2 14 (by norm_num)
      rw [hentry] at h2
      have hraw : (entryBytes (index + 3) name).slice 2 14 =
          name ++ Bytes.zeros (bfsLdirSize - (2 + name.length)) := by
        have hshort := hgood.short
        simp only [bfsMaxName] at hshort
        rw [entryBytes, Bytes.slice, List.append_assoc, List.drop_left' (Bytes.le_length 2 _)]
        refine List.take_of_length_le ?_
        rw [List.length_append, Bytes.zeros_length]
        simp only [bfsLdirSize]
        omega
      have hdef : bfsLdirSize - 2 = 14 := rfl
      rw [hdef, ← h2, hraw]
      exact takeWhile_name hnul _
    have hread : readInode out ⟨fsStart, dataStart, dataEnd⟩ (index + 3) = some extent := by
      refine readInode_eq h hfile.slot_is rfl ?_
      simp only [bfsSuperSize, bfsDirentSize]
      lia
    have hrest' : Stored img (index + 1) (dataStart + (offset + bfsLdirSize)) rest := by
      rw [← Nat.add_assoc]
      exact hrest
    have hdir' : dataStart + (offset + bfsLdirSize) + rest.length * bfsLdirSize ≤ img.length := by
      simp only [bfsLdirSize]
      lia
    have hslot' : bfsSuperSize + (index + 1 + 1 + rest.length) * bfsDirentSize ≤ img.length := by
      simp only [bfsSuperSize, bfsDirentSize]
      lia
    have hnext := ih hrest' (fun g hg => hnames g (by simp [hg])) hdir' hslot' (by omega)
    rw [listFrom]
    dsimp only
    rw [hpos, if_neg (by simp only [bfsLdirSize]; omega), hno, if_pos (by omega), hname, hread, hnext,
      fromUtf8Lossy_of_ascii hgood.ascii, Option.map_some, Option.getD_some, hfile.size_eq]
    rfl

theorem find_listed {name : Str} {files : List (Str × Bytes)} :
    ∀ {index : ℕ}, name ∉ files.map Prod.fst →
    ((files.zipIdx index).map listed).find? (fun e => e.name = name) = none := by
  induction files with
  | nil => exact fun _ => rfl
  | cons f rest ih =>
    intro index hn
    rw [List.map_cons, List.mem_cons, not_or] at hn
    rw [List.zipIdx_cons, List.map_cons, List.find?_cons_of_neg]
    · exact ih hn.2
    · exact fun he => hn.1 (of_decide_eq_true he).symm

theorem find_stored {name : Str} {data : Bytes} {files : List (Str × Bytes)} :
    ∀ {index dirOff : ℕ}, Stored img index dirOff files → (files.map Prod.fst).Nodup →
    (name, data) ∈ files →
    ∃ k extent, index ≤ k ∧ k < index + files.length ∧ FileIs img (k + 1) (k + 3) extent data ∧
      ((files.zipIdx index).map listed).find? (fun e => e.name = name) =
        some ⟨name, k + 3, data.length⟩ := by
  induction files with
  | nil => exact fun _ _ hm => absurd hm List.not_mem_nil
  | cons f rest ih =>
    obtain ⟨n, d⟩ := f
    rintro index dirOff ⟨-, ⟨extent, hfile⟩, hrest⟩ hnodup hm
    rw [List.map_cons, List.nodup_cons] at hnodup
    rw [List.zipIdx_cons, List.map_cons]
    cases List.mem_cons.mp hm with
    | inl he =>
      obtain ⟨rfl, rfl⟩ := Prod.mk.inj he
      refine ⟨index, extent, le_rfl, by simp, hfile, ?_⟩
      rw [List.find?_cons_of_pos (by simp [listed])]
      rfl
    | inr hr =>
      obtain ⟨k, ext, hk1, hk2, hf, hfind⟩ := ih hrest hnodup.2 hr
      have hne : n ≠ name := by
        rintro rfl
        exact hnodup.1 (List.mem_map.mpr ⟨_, hr, rfl⟩)
      refine ⟨k, ext, by omega, by rw [List.length_cons]; omega, hf, ?_⟩
      rw [List.find?_cons_of_neg (p := fun e : BfsEntry => decide (e.name = name))
        fun he => hne (of_decide_eq_true he)]
      exact hfind

end Read

/-- What the reader finds in the image after a successful format. -/
structure RoundTrip (image out : Bytes) (fsStart sizeBytes : ℕ) (files : List (Str × Bytes)) :
    Prop where
  outside : Bytes.SameOutside image out fsStart (fsStart + sizeBytes)
  reads : ∃ bfs, detectAtStart out fsStart = some bfs ∧
    listRoot out bfs = files.zipIdx.map (fun f => ⟨f.1.1, f.2 + 3, f.1.2.length⟩) ∧
    (∀ f ∈ files, readFile out bfs f.1 = some f.2) ∧
    ∀ name, name ∉ files.map Prod.fst → readFile out bfs name = none

/-- Formatting a slice and reading it back. -/
theorem format_roundTrip {image : Bytes} {fsStart sizeBytes : ℕ} {files : List (Str × Bytes)}
    {direntSlots : Option ℕ} {timestamp : ℤ} (hslice : fsStart + sizeBytes ≤ image.length)
    (hsize : sizeBytes ≤ 2 ^ 32) (hcount : files.length ≤ 65533) (hnul : ∀ f ∈ files, 0 ∉ f.1) :
    (format fsStart sizeBytes files direntSlots timestamp).wp image
      (fun _ out => RoundTrip image out fsStart sizeBytes files) fun _ out => out = image := by
  rw [format]
  split_ifs with hsmall
  · exact rfl
  rw [Act.wp_bind]
  cases @checkNames_eq files [] with
  | inr he =>
    obtain ⟨e, he⟩ := he
    rw [he]
    exact rfl
  | inl hok =>
    obtain ⟨hok, hgood, hnodup, -⟩ := hok
    rw [Act.wp_lift hok]
    dsimp only
    set totalSlots := max (files.length + 1)
      (direntSlots.getD (max 16 (files.length + 1))) with hslots
    set dataStart := roundUp (bfsSuperSize + totalSlots * bfsDirentSize) sectorSize with hds
    set rootDirAlloc := max sectorSize
      (roundUp (max (files.length * bfsLdirSize) 1) sectorSize) with halloc
    obtain ⟨hge, hdvd, -⟩ := @roundUp_spec (bfsSuperSize + totalSlots * bfsDirentSize)
      (by simp only [bfsSuperSize]; omega)
    obtain ⟨hrge, hrdvd, -⟩ := @roundUp_spec (max (files.length * bfsLdirSize) 1) (by omega)
    rw [← hds] at hge hdvd
    simp only [bfsSuperSize, bfsDirentSize] at hge
    have htable : 512 + (files.length + 1) * 64 ≤ dataStart := by
      have hm := Nat.mul_le_mul_right 64 (le_max_left (files.length + 1)
        (direntSlots.getD (max 16 (files.length + 1))))
      rw [← hslots] at hm
      omega
    have hds2 : 512 + 512 ≤ dataStart := by
      obtain ⟨k, hk⟩ := hdvd
      simp only [sectorSize] at hk
      omega
    have hadvd : sectorSize ∣ rootDirAlloc := by
      rw [halloc]
      cases max_choice sectorSize (roundUp (max (files.length * bfsLdirSize) 1) sectorSize) with
      | inl h => rw [h]
      | inr h =>
        rw [h]
        exact hrdvd
    have hage : files.length * 16 ≤ rootDirAlloc ∧ 512 ≤ rootDirAlloc := by
      simp only [bfsLdirSize, sectorSize] at hrge halloc
      omega
    split_ifs with hbig
    · exact rfl
    rw [Act.wp_bind]
    cases @layoutFiles_eq sizeBytes hsize files 0 (dataStart + rootDirAlloc) (by omega)
      (by omega) with
    | inr he =>
      obtain ⟨e, he⟩ := he
      rw [he]
      exact rfl
    | inl hlay =>
      rw [Act.wp_lift hlay.1]
      obtain ⟨base, extent, hw₁, hl₁, hmagic, hstart, hend, hroot, hrs, hrsize⟩ :=
        @writeSuper_eq dataStart sizeBytes timestamp (files.length * bfsLdirSize) rootDirAlloc hsize
          hds2 hdvd (by omega) hage.1 (by omega)
      obtain ⟨img, hw₂, hl₂, hkeep, hstored⟩ :=
        @writeFiles_eq dataStart (dataStart + rootDirAlloc) sizeBytes timestamp hsize files 0
          dataStart (dataStart + rootDirAlloc) base hl₁ (fun f hf => (hgood f hf).short) (by omega)
          (by simp only [bfsSuperSize, bfsDirentSize]; lia) le_rfl
          (by simp only [bfsLdirSize]; lia) le_rfl hlay.2 (Dvd.dvd.add hdvd hadvd)
      have hlen := hl₂.trans hl₁
      have hin : fsStart + img.length ≤ image.length := by omega
      have hwrite : (do
          Outcome.guard (fsStart + sizeBytes ≤ image.length)
          let image' ← writeSuper sizeBytes dataStart (files.length * bfsLdirSize) rootDirAlloc
            timestamp
          let image' ← writeFiles timestamp 0 dataStart
            (layoutsOf 0 (dataStart + rootDirAlloc) files) image'
          pure (image.overlay fsStart image') : Outcome BfsError Bytes) =
            .ok (image.overlay fsStart img) := by
        rw [Outcome.guard_true hslice, Outcome.ok_bind, hw₁, Outcome.ok_bind, hw₂]
        rfl
      rw [Act.wp_update hwrite]
      have hshow := shows_overlay hin
      have hbytes : ∀ i, i < 512 + 64 → img.byte i = base.byte i := fun i hi => hkeep i (.inl hi)
      have hword : ∀ o, o + 4 ≤ 512 → img.u32 o = base.u32 o := by
        intro o ho
        rw [Bytes.u32, Bytes.slice_congr hl₂ fun i _ h2 => hbytes i (by omega), Bytes.u32]
      have hslot : SlotIs img 0 bfsRootInode extent :=
        hroot.congr hl₂ fun i _ h2 => hbytes i h2
      have hbig' : fsStart + 512 ≤ (image.overlay fsStart img).length := by
        rw [Bytes.overlay_length hin]
        omega
      refine ⟨Bytes.SameOutside.overlay hin le_rfl (by omega), ⟨fsStart, dataStart, sizeBytes - 1⟩,
        ?_, ?_⟩
      · have h0 := hshow.u32 (o := 0) (by omega)
        have h4 := hshow.u32 (o := 4) (by omega)
        have h8 := hshow.u32 (o := 8) (by omega)
        rw [hword 0 (by norm_num), hmagic, Nat.add_zero] at h0
        rw [hword 4 (by norm_num), hstart] at h4
        rw [hword 8 (by norm_num), hend] at h8
        rw [detectAtStart, if_neg (by simp only [bfsSuperSize]; omega), h0, if_neg (by simp)]
        dsimp only
        rw [h4, h8, if_neg (by simp only [bfsSuperSize]; omega)]
      · have hrootRead : readInode (image.overlay fsStart img)
            ⟨fsStart, dataStart, sizeBytes - 1⟩ bfsRootInode = some extent := by
          refine readInode_eq hshow hslot rfl ?_
          simp only [bfsSuperSize, bfsDirentSize]
          omega
        have hst : Stored img 0 (dataStart + 0) files := by
          rw [Nat.add_zero]
          exact hstored
        have hlist : listRoot (image.overlay fsStart img) ⟨fsStart, dataStart, sizeBytes - 1⟩ =
            files.zipIdx.map listed := by
          rw [listRoot, hrootRead]
          dsimp only
          rw [hrs, hrsize, Nat.mul_div_cancel _ (by norm_num)]
          refine @listFrom_eq _ img fsStart dataStart (sizeBytes - 1) hshow files 0 0 hst
            (fun f hf => ⟨hgood f hf, hnul f hf⟩) ?_ ?_ (by omega)
          · simp only [bfsLdirSize]
            lia
          · simp only [bfsSuperSize, bfsDirentSize]
            lia
        refine ⟨hlist, ?_, ?_⟩
        · rintro ⟨name, data⟩ hf
          obtain ⟨k, ext, -, hk, hfile, hfind⟩ := find_stored hstored hnodup hf
          have hread : readInode (image.overlay fsStart img)
              ⟨fsStart, dataStart, sizeBytes - 1⟩ (k + 3) = some ext := by
            refine readInode_eq hshow hfile.slot_is rfl ?_
            simp only [bfsSuperSize, bfsDirentSize]
            lia
          have hfin := hfile.inside
          have hsi := hshow.inside
          rw [readFile, hlist, hfind]
          simp only [Option.bind_eq_bind, Option.bind_some]
          rw [hread]
          simp only [Option.bind_some]
          rw [hfile.size_eq, Nat.add_assoc, if_neg (by omega), hshow.slice_eq _ _ hfin,
            hfile.data_eq]
        · intro name hname
          rw [readFile, hlist, find_listed hname]
          rfl

theorem format_roundTrip_one :
    512 + 4096 ≤ (Bytes.zeros 8192).length ∧
      (format 512 4096 [([97], [7])] none 0).wp (Bytes.zeros 8192)
        (fun _ out => RoundTrip (Bytes.zeros 8192) out 512 4096 [([97], [7])])
        fun _ out => out = Bytes.zeros 8192 := by
  have hlen : 512 + 4096 ≤ (Bytes.zeros 8192).length := by
    rw [Bytes.zeros_length]
    norm_num
  generalize Bytes.zeros 8192 = image at hlen ⊢
  exact ⟨hlen, format_roundTrip hlen (by norm_num) (by decide) (by decide)⟩

end BootFs
end UfsFuse
