import UfsFuse.Inspect

/-!
# The bootstrap in front of the pdinfo sector

`flatten_hdboot_bootstrap`: the `PT_LOAD` segments of the `hdboot` ELF, each copied to its physical
address. Segments may overlap; the last one wins.
-/
namespace UfsFuse

@[simp, reducible] def elfHeaderSize : ℕ := 52
@[simp, reducible] def elfProgramHeaderSize : ℕ := 32
@[simp, reducible] def ptLoad : ℕ := 1

/-- The space before the pdinfo sector. -/
@[simp, reducible] def bootstrapLimit : ℕ := hdpdloc * sectorSize

/-- The first bytes of an ELF file. -/
def elfMagic : Bytes := [0x7F, 0x45, 0x4C, 0x46]

inductive BootstrapError where
  /-- error: expected hdboot to be a 32-bit ELF hard-disk bootstrap image -/
  | notElf
  /-- error: expected hdboot to be a 32-bit little-endian ELF image -/
  | notLittleEndian
  /-- error: hdboot does not contain usable program headers -/
  | noProgramHeaders
  /-- error: hdboot is truncated in the program header table -/
  | truncatedTable
  /-- error: hdboot needs {end} bytes, but only {limit} bytes are available before pdinfo -/
  | tooLarge (stop limit : ℕ)
  /-- error: hdboot is truncated in a PT_LOAD segment -/
  | truncatedSegment
  /-- error: hdboot does not contain any PT_LOAD segments -/
  | noLoadSegments
  /-- error: hard-disk bootstrap does not place the boot signature at offset 510; … -/
  | noSignature
  deriving DecidableEq, Repr

/-- `dst[off..stop].copy_from_slice(&src[srcOff..srcStop])`. -/
def copyRange {ε : Type} (dst : Bytes) (off stop : ℕ) (src : Bytes) (srcOff srcStop : ℕ) :
    Outcome ε Bytes := do
  Outcome.guard (off ≤ stop ∧ stop ≤ dst.length)
  Outcome.guard (srcOff ≤ srcStop ∧ srcStop ≤ src.length)
  Outcome.guard (stop - off = srcStop - srcOff)
  pure (dst.overlay off (src.slice srcOff (srcStop - srcOff)))

/-- What a program header says about its segment. -/
structure ProgramHeader where
  type : ℕ
  offset : ℕ
  paddr : ℕ
  filesz : ℕ
  deriving DecidableEq, Repr

/-- 32-bit Elf32_Phdr: type, offset, vaddr, paddr, filesz, memsz, ... -/
def readProgramHeader {ε : Type} (payload : Bytes) (entry : ℕ) : Outcome ε ProgramHeader := do
  let pType ← Codec.u32 payload entry
  let pOffset ← Codec.u32 payload (entry + 4)
  let pPaddr ← Codec.u32 payload (entry + 12)
  let pFilesz ← Codec.u32 payload (entry + 16)
  pure ⟨pType, pOffset, pPaddr, pFilesz⟩

/-- The second half of the loop body; the state is the image so far and whether a segment was found. -/
def flattenSegment (payload : Bytes) (state : Bytes × Bool) (header : ProgramHeader) :
    Outcome BootstrapError (Bytes × Bool) :=
  if header.type ≠ ptLoad ∨ header.filesz = 0 then .ok state
  else do
    let stop ← usize (header.paddr + header.filesz)
    if stop > bootstrapLimit then .err (.tooLarge stop bootstrapLimit)
    else do
      let fileEnd ← usize (header.offset + header.filesz)
      if fileEnd > payload.length then .err .truncatedSegment
      else do
        let flattened ← copyRange state.1 header.paddr stop payload header.offset fileEnd
        pure (flattened, true)

/-- The loop over the program headers. -/
def flattenEntry (payload : Bytes) (ePhoff ePhentsize : ℕ) (state : Bytes × Bool) (index : ℕ) :
    Outcome BootstrapError (Bytes × Bool) := do
  let offset ← usize (index * ePhentsize)
  let entry ← usize (ePhoff + offset)
  let entryEnd ← usize (entry + elfProgramHeaderSize)
  if entryEnd > payload.length then .err .truncatedTable
  else do
    let header ← readProgramHeader payload entry
    flattenSegment payload state header

/-- The checks behind the loop. -/
def finishFlatten (state : Bytes × Bool) : Outcome BootstrapError Bytes :=
  let (flattened, foundLoad) := state
  if ¬foundLoad then .err .noLoadSegments
  else do
    let signature ← Codec.range flattened 510 2
    if signature ≠ [0x55, 0xAA] then .err .noSignature
    else .ok flattened

def flattenHdbootBootstrap (payload : Bytes) : Outcome BootstrapError Bytes :=
  if payload.length < elfHeaderSize then .err .notElf
  else do
    let magic ← Codec.range payload 0 4
    if magic ≠ elfMagic then .err .notElf
    else do
      let elfClass ← Codec.u8 payload 4
      let elfData ← Codec.u8 payload 5
      if elfClass ≠ 1 ∨ elfData ≠ 1 then .err .notLittleEndian
      else do
        let ePhoff ← Codec.u32 payload 28
        let ePhentsize ← Codec.u16 payload 42
        let ePhnum ← Codec.u16 payload 44
        if ePhnum = 0 ∨ ePhentsize < elfProgramHeaderSize then .err .noProgramHeaders
        else do
          let state ← Outcome.foldM (flattenEntry payload ePhoff ePhentsize)
            (Bytes.zeros bootstrapLimit, false) (List.range ePhnum)
          finishFlatten state

/-! ## Segments -/

/-- The program header at a file offset. -/
def programHeaderAt (payload : Bytes) (entry : ℕ) : ProgramHeader where
  type := payload.u32 entry
  offset := payload.u32 (entry + 4)
  paddr := payload.u32 (entry + 12)
  filesz := payload.u32 (entry + 16)

namespace ProgramHeader

/-- A non-empty `PT_LOAD` segment. -/
def IsLoad (h : ProgramHeader) : Prop := h.type = ptLoad ∧ h.filesz ≠ 0

instance (h : ProgramHeader) : Decidable h.IsLoad := inferInstanceAs (Decidable (_ ∧ _))

/-- The segment covers an address. -/
def Covers (h : ProgramHeader) (address : ℕ) : Prop :=
  h.paddr ≤ address ∧ address < h.paddr + h.filesz

instance (h : ProgramHeader) (address : ℕ) : Decidable (h.Covers address) :=
  inferInstanceAs (Decidable (_ ∧ _))

/-- The segment lies in the file and before the pdinfo sector. -/
def Fits (h : ProgramHeader) (payload : Bytes) : Prop :=
  h.paddr + h.filesz ≤ bootstrapLimit ∧ h.offset + h.filesz ≤ payload.length

end ProgramHeader

/-- The offset of an entry of the program header table. -/
def headerOffset (payload : Bytes) (index : ℕ) : ℕ := payload.u32 28 + index * payload.u16 42

/-- The non-empty `PT_LOAD` segments of some entries, in table order. -/
def loadSegments (payload : Bytes) (indices : List ℕ) : List ProgramHeader :=
  (indices.map fun i => programHeaderAt payload (headerOffset payload i)).filter (·.IsLoad)

/-- All segments of the file. -/
def segments (payload : Bytes) : List ProgramHeader :=
  loadSegments payload (List.range (payload.u16 44))

/-- The byte at an address: that of the last segment that covers it, or zero. -/
def memoryByte (payload : Bytes) (loads : List ProgramHeader) (address : ℕ) : UInt8 :=
  match loads.reverse.find? (·.Covers address) with
  | some h => payload.byte (h.offset + (address - h.paddr))
  | none => 0

/-- The files that `flatten_hdboot_bootstrap` accepts. -/
structure Bootable (payload : Bytes) : Prop where
  header : elfHeaderSize ≤ payload.length
  magic : payload.slice 0 4 = elfMagic
  littleEndian32 : payload.byte 4 = 1 ∧ payload.byte 5 = 1
  table : payload.u16 44 ≠ 0 ∧ elfProgramHeaderSize ≤ payload.u16 42
  headers : ∀ i < payload.u16 44, headerOffset payload i + elfProgramHeaderSize ≤ payload.length
  loads : segments payload ≠ []
  fits : ∀ h ∈ segments payload, h.Fits payload
  signature : memoryByte payload (segments payload) 510 = 0x55 ∧
    memoryByte payload (segments payload) 511 = 0xAA

/-! ## One program header -/
section Entry
variable {payload : Bytes} {loads : List ProgramHeader} {state : Bytes × Bool} {index : ℕ}

theorem memoryByte_append (payload : Bytes) (loads : List ProgramHeader) (h : ProgramHeader)
    (address : ℕ) : memoryByte payload (loads ++ [h]) address =
      if h.Covers address then payload.byte (h.offset + (address - h.paddr))
      else memoryByte payload loads address := by
  unfold memoryByte
  rw [List.reverse_append, List.reverse_singleton, List.singleton_append, List.find?_cons]
  by_cases hc : h.Covers address <;> simp [hc]

/-- The image after some segments. -/
structure Flattened (payload : Bytes) (loads : List ProgramHeader) (state : Bytes × Bool) :
    Prop where
  length : state.1.length = bootstrapLimit
  bytes : ∀ address, state.1.byte address = memoryByte payload loads address
  found : state.2 = true ↔ loads ≠ []

theorem flattened_zeros (payload : Bytes) : Flattened payload [] (Bytes.zeros bootstrapLimit, false) where
  length := Bytes.zeros_length _
  bytes address := Bytes.byte_zeros _ _
  found := by simp

/-- One more segment. -/
theorem Flattened.copy (hf : Flattened payload loads state) {h : ProgramHeader}
    (hfits : h.Fits payload) : Flattened payload (loads ++ [h])
      (state.1.overlay h.paddr (payload.slice h.offset h.filesz), true) := by
  have hl := Bytes.slice_length hfits.2
  have hin : h.paddr + (payload.slice h.offset h.filesz).length ≤ state.1.length := by
    rw [hl, hf.length]
    exact hfits.1
  constructor
  · exact (Bytes.overlay_length hin).trans hf.length
  · intro address
    rw [memoryByte_append, Bytes.byte_overlay hin, hl, hf.bytes]
    by_cases hc : h.Covers address
    · have hlt : address - h.paddr < h.filesz := Nat.sub_lt_left_of_lt_add hc.1 hc.2
      rw [if_pos hc, Bytes.byte_slice hlt]
      exact if_pos hc
    · rw [if_neg hc]
      exact if_neg hc
  · simp

/-- A program header that is in the file, with its segment. -/
def HeaderOk (payload : Bytes) (index : ℕ) : Prop :=
  headerOffset payload index + elfProgramHeaderSize ≤ payload.length ∧
    ∀ h ∈ loadSegments payload [index], h.Fits payload

theorem headerOffset_lt (payload : Bytes) (hindex : index < 2 ^ 16) :
    index * payload.u16 42 < 2 ^ 32 ∧ headerOffset payload index < 2 ^ 33 := by
  have hphoff := payload.u32_lt 28
  have hsize := payload.u16_lt 42
  have hmul : index * payload.u16 42 < 2 ^ 16 * 2 ^ 16 := Nat.mul_lt_mul'' hindex hsize
  unfold headerOffset
  omega

theorem readProgramHeader_eq {ε : Type} {entry : ℕ}
    (h : entry + elfProgramHeaderSize ≤ payload.length) :
    (readProgramHeader payload entry : Outcome ε ProgramHeader) =
      .ok (programHeaderAt payload entry) := by
  have hentry : entry + 20 ≤ payload.length := by
    simp only [elfProgramHeaderSize] at h
    omega
  unfold readProgramHeader
  rw [Codec.u32_eq (by omega), Codec.u32_eq (by omega), Codec.u32_eq (by omega),
    Codec.u32_eq (by omega)]
  rfl

theorem programHeaderAt_lt (payload : Bytes) (entry : ℕ) :
    (programHeaderAt payload entry).offset < 2 ^ 32 ∧ (programHeaderAt payload entry).paddr < 2 ^ 32 ∧
      (programHeaderAt payload entry).filesz < 2 ^ 32 :=
  ⟨payload.u32_lt _, payload.u32_lt _, payload.u32_lt _⟩

/-- The loop body without its arithmetic on `usize`. -/
theorem flattenEntry_eq (payload : Bytes) (state : Bytes × Bool) (hindex : index < 2 ^ 16) :
    flattenEntry payload (payload.u32 28) (payload.u16 42) state index =
      if headerOffset payload index + elfProgramHeaderSize ≤ payload.length then
        flattenSegment payload state (programHeaderAt payload (headerOffset payload index))
      else .err .truncatedTable := by
  obtain ⟨hmul, hoff⟩ := headerOffset_lt payload hindex
  have hentry : payload.u32 28 + index * payload.u16 42 = headerOffset payload index := rfl
  unfold flattenEntry
  rw [usize_eq (by omega), Outcome.ok_bind, hentry, usize_eq (by omega), Outcome.ok_bind,
    usize_eq (by simp only [elfProgramHeaderSize]; omega), Outcome.ok_bind]
  by_cases hin : headerOffset payload index + elfProgramHeaderSize ≤ payload.length
  · rw [if_pos hin, if_neg (not_lt.mpr hin), readProgramHeader_eq hin]
    rfl
  · rw [if_neg hin, if_pos (not_le.mp hin)]

/-- A segment that fits is copied. -/
theorem flattenSegment_ok (hf : Flattened payload loads state) {h : ProgramHeader}
    (hload : h.IsLoad) (hfits : h.Fits payload) (hbounds : h.offset < 2 ^ 32 ∧ h.filesz < 2 ^ 32) :
    flattenSegment payload state h =
      .ok (state.1.overlay h.paddr (payload.slice h.offset h.filesz), true) := by
  have hstop : h.paddr + h.filesz < 2 ^ 64 := by
    have := hfits.1
    simp only [bootstrapLimit, hdpdloc, sectorSize] at this
    omega
  have hcopy : (copyRange state.1 h.paddr (h.paddr + h.filesz) payload h.offset
      (h.offset + h.filesz) : Outcome BootstrapError Bytes) =
      .ok (state.1.overlay h.paddr (payload.slice h.offset h.filesz)) := by
    unfold copyRange
    rw [Outcome.guard_true ⟨Nat.le_add_right _ _, hf.length ▸ hfits.1⟩, Outcome.ok_bind,
      Outcome.guard_true ⟨Nat.le_add_right _ _, hfits.2⟩, Outcome.ok_bind,
      Outcome.guard_true (by omega), Nat.add_sub_cancel_left]
    rfl
  unfold flattenSegment
  rw [if_neg fun hn => hn.elim (absurd hload.1) hload.2, usize_eq hstop, Outcome.ok_bind,
    if_neg (not_lt.mpr hfits.1), usize_eq (by omega), Outcome.ok_bind, if_neg (not_lt.mpr hfits.2),
    hcopy]
  rfl

/-- One that does not is an error. -/
theorem flattenSegment_err {h : ProgramHeader} (hload : h.IsLoad) (hfits : ¬h.Fits payload)
    (hbounds : h.offset < 2 ^ 32 ∧ h.paddr < 2 ^ 32 ∧ h.filesz < 2 ^ 32) :
    ∃ e, flattenSegment payload state h = .err e := by
  unfold flattenSegment
  rw [if_neg fun hn => hn.elim (absurd hload.1) hload.2, usize_eq (by omega), Outcome.ok_bind]
  by_cases hstop : h.paddr + h.filesz ≤ bootstrapLimit
  · rw [if_neg (not_lt.mpr hstop), usize_eq (by omega), Outcome.ok_bind,
      if_pos (not_le.mp fun hend => hfits ⟨hstop, hend⟩)]
    exact ⟨_, rfl⟩
  · rw [if_pos (not_le.mp hstop)]
    exact ⟨_, rfl⟩

theorem loadSegments_singleton (payload : Bytes) (index : ℕ) :
    loadSegments payload [index] =
      if (programHeaderAt payload (headerOffset payload index)).IsLoad then
        [programHeaderAt payload (headerOffset payload index)] else [] := by
  by_cases h : (programHeaderAt payload (headerOffset payload index)).IsLoad <;>
    simp [loadSegments, h]

theorem flattenSegment_skip {h : ProgramHeader} (hload : ¬h.IsLoad) :
    flattenSegment payload state h = .ok state := by
  unfold flattenSegment
  rw [if_pos]
  unfold ProgramHeader.IsLoad at hload
  tauto

/-- The loop body adds the segment of its header. -/
theorem flattenEntry_ok (hf : Flattened payload loads state) (hindex : index < 2 ^ 16)
    (hok : HeaderOk payload index) :
    ∃ next, flattenEntry payload (payload.u32 28) (payload.u16 42) state index = .ok next ∧
      Flattened payload (loads ++ loadSegments payload [index]) next := by
  obtain ⟨hin, hfits⟩ := hok
  obtain ⟨hoffset, hpaddr, hfilesz⟩ := programHeaderAt_lt payload (headerOffset payload index)
  rw [flattenEntry_eq payload state hindex, if_pos hin]
  rw [loadSegments_singleton] at hfits ⊢
  by_cases hload : (programHeaderAt payload (headerOffset payload index)).IsLoad
  · rw [if_pos hload] at hfits ⊢
    have hfit := hfits _ (List.mem_singleton_self _)
    exact ⟨_, flattenSegment_ok hf hload hfit ⟨hoffset, hfilesz⟩, hf.copy hfit⟩
  · rw [if_neg hload, List.append_nil]
    exact ⟨_, flattenSegment_skip hload, hf⟩

theorem flattenEntry_err (hindex : index < 2 ^ 16) (hnot : ¬HeaderOk payload index) :
    ∃ e, flattenEntry payload (payload.u32 28) (payload.u16 42) state index = .err e := by
  rw [flattenEntry_eq payload state hindex]
  by_cases hin : headerOffset payload index + elfProgramHeaderSize ≤ payload.length
  · rw [if_pos hin]
    have hfits : ¬∀ h ∈ loadSegments payload [index], h.Fits payload := fun h => hnot ⟨hin, h⟩
    rw [loadSegments_singleton] at hfits
    by_cases hload : (programHeaderAt payload (headerOffset payload index)).IsLoad
    · rw [if_pos hload] at hfits
      exact flattenSegment_err hload (fun hfit => hfits (by simpa using hfit))
        (programHeaderAt_lt payload _)
    · exact absurd (by simp [hload]) hfits
  · rw [if_neg hin]
    exact ⟨_, rfl⟩

end Entry

/-! ## The program header table -/
section Table
variable {payload : Bytes} {loads : List ProgramHeader} {state : Bytes × Bool}

theorem loadSegments_cons (payload : Bytes) (index : ℕ) (indices : List ℕ) :
    loadSegments payload (index :: indices) =
      loadSegments payload [index] ++ loadSegments payload indices := by
  unfold loadSegments
  rw [← List.filter_append, ← List.map_append, List.singleton_append]

/-- The loop adds the segments of the headers in their order. -/
theorem flattenLoop_ok {indices : List ℕ} (hf : Flattened payload loads state)
    (hindices : ∀ i ∈ indices, i < 2 ^ 16) (hok : ∀ i ∈ indices, HeaderOk payload i) :
    ∃ next, Outcome.foldM (flattenEntry payload (payload.u32 28) (payload.u16 42)) state indices =
        .ok next ∧ Flattened payload (loads ++ loadSegments payload indices) next := by
  induction indices generalizing loads state with
  | nil => exact ⟨state, rfl, by simpa [loadSegments] using hf⟩
  | cons index indices ih =>
    simp only [List.forall_mem_cons] at hindices hok
    obtain ⟨middle, hstep, hmiddle⟩ := flattenEntry_ok hf hindices.1 hok.1
    obtain ⟨next, hrest, hnext⟩ := ih hmiddle hindices.2 hok.2
    refine ⟨next, ?_, ?_⟩
    · rw [Outcome.foldM, hstep]
      exact hrest
    · rwa [loadSegments_cons, ← List.append_assoc]

/-- It stops with an error at the first header that is not in order. -/
theorem flattenLoop_err {indices : List ℕ} (hf : Flattened payload loads state)
    (hindices : ∀ i ∈ indices, i < 2 ^ 16) (hnot : ¬∀ i ∈ indices, HeaderOk payload i) :
    ∃ e, Outcome.foldM (flattenEntry payload (payload.u32 28) (payload.u16 42)) state indices =
        .err e := by
  induction indices generalizing loads state with
  | nil => simp at hnot
  | cons index indices ih =>
    simp only [List.forall_mem_cons] at hindices hnot
    by_cases hok : HeaderOk payload index
    · obtain ⟨middle, hstep, hmiddle⟩ := flattenEntry_ok hf hindices.1 hok
      obtain ⟨e, hrest⟩ := ih hmiddle hindices.2 fun h => hnot ⟨hok, h⟩
      refine ⟨e, ?_⟩
      rw [Outcome.foldM, hstep]
      exact hrest
    · obtain ⟨e, hstep⟩ := @flattenEntry_err payload state index hindices.1 hok
      refine ⟨e, ?_⟩
      rw [Outcome.foldM, hstep]
      rfl

/-- Every header is in order exactly when all of them are in the file and the segments fit. -/
theorem headersOk_iff : (∀ i ∈ List.range (payload.u16 44), HeaderOk payload i) ↔
    (∀ i < payload.u16 44, headerOffset payload i + elfProgramHeaderSize ≤ payload.length) ∧
      ∀ h ∈ segments payload, h.Fits payload := by
  simp only [HeaderOk, segments, loadSegments, List.mem_range, List.mem_filter, List.mem_map,
    List.map_cons, List.map_nil, List.mem_singleton]
  constructor
  · intro h
    constructor
    · exact fun i hi => (h i hi).1
    · rintro header ⟨⟨i, hi, rfl⟩, hload⟩
      exact (h i hi).2 _ ⟨rfl, hload⟩
  · rintro ⟨hin, hfits⟩ i hi
    constructor
    · exact hin i hi
    · rintro header ⟨rfl, hload⟩
      exact hfits _ ⟨⟨i, hi, rfl⟩, hload⟩

theorem slice_two {b : Bytes} {off : ℕ} (h : off + 2 ≤ b.length) :
    b.slice off 2 = [b.byte off, b.byte (off + 1)] := by
  apply Bytes.ext_byte
  · exact Bytes.slice_length h
  · intro i hi
    rw [Bytes.slice_length h] at hi
    rw [Bytes.byte_slice hi]
    interval_cases i <;> rfl

end Table

/-! ## The whole file -/
section File
variable {payload : Bytes}

/-- Everything behind the checks of the ELF header. -/
theorem flattenHdbootBootstrap_eq (hheader : elfHeaderSize ≤ payload.length)
    (hmagic : payload.slice 0 4 = elfMagic) (hclass : payload.byte 4 = 1 ∧ payload.byte 5 = 1)
    (htable : payload.u16 44 ≠ 0 ∧ elfProgramHeaderSize ≤ payload.u16 42) :
    flattenHdbootBootstrap payload =
      Outcome.foldM (flattenEntry payload (payload.u32 28) (payload.u16 42))
        (Bytes.zeros bootstrapLimit, false) (List.range (payload.u16 44)) >>= finishFlatten := by
  have hlen : 52 ≤ payload.length := hheader
  unfold flattenHdbootBootstrap
  rw [if_neg (not_lt.mpr hheader), Codec.range_eq (by omega), Outcome.ok_bind,
    if_neg (not_not.mpr hmagic), Codec.u8_eq (by omega), Outcome.ok_bind, Codec.u8_eq (by omega),
    Outcome.ok_bind, if_neg (by tauto), Codec.u32_eq (by omega), Outcome.ok_bind,
    Codec.u16_eq (by omega), Outcome.ok_bind, Codec.u16_eq (by omega), Outcome.ok_bind,
    if_neg fun h => h.elim htable.1 (not_lt.mpr htable.2)]

theorem flattenHdbootBootstrap_header_err (h : ¬(elfHeaderSize ≤ payload.length ∧
      payload.slice 0 4 = elfMagic ∧ (payload.byte 4 = 1 ∧ payload.byte 5 = 1) ∧
      payload.u16 44 ≠ 0 ∧ elfProgramHeaderSize ≤ payload.u16 42)) :
    ∃ e, flattenHdbootBootstrap payload = .err e := by
  unfold flattenHdbootBootstrap
  by_cases hheader : elfHeaderSize ≤ payload.length
  swap
  · rw [if_pos (not_le.mp hheader)]
    exact ⟨_, rfl⟩
  have hlen : 52 ≤ payload.length := hheader
  rw [if_neg (not_lt.mpr hheader), Codec.range_eq (by omega), Outcome.ok_bind]
  by_cases hmagic : payload.slice 0 4 = elfMagic
  swap
  · rw [if_pos hmagic]
    exact ⟨_, rfl⟩
  rw [if_neg (not_not.mpr hmagic), Codec.u8_eq (by omega), Outcome.ok_bind, Codec.u8_eq (by omega),
    Outcome.ok_bind]
  by_cases hclass : payload.byte 4 = 1 ∧ payload.byte 5 = 1
  swap
  · rw [if_pos (by tauto)]
    exact ⟨_, rfl⟩
  rw [if_neg (by tauto), Codec.u32_eq (by omega), Outcome.ok_bind, Codec.u16_eq (by omega),
    Outcome.ok_bind, Codec.u16_eq (by omega), Outcome.ok_bind, if_pos]
  · exact ⟨_, rfl⟩
  · by_contra hn
    exact h ⟨hheader, hmagic, hclass, fun hz => hn (.inl hz), not_lt.mp fun hs => hn (.inr hs)⟩

/-- The checks of the finished image. -/
theorem finishFlatten_eq {state : Bytes × Bool} (hf : Flattened payload (segments payload) state) :
    finishFlatten state =
      if segments payload = [] then .err .noLoadSegments
      else if memoryByte payload (segments payload) 510 = 0x55 ∧
        memoryByte payload (segments payload) 511 = 0xAA then .ok state.1
      else .err .noSignature := by
  unfold finishFlatten
  dsimp only
  by_cases hloads : segments payload = []
  · rw [if_pos hloads, if_pos fun hfound => hf.found.mp hfound hloads]
  have hlen : 510 + 2 ≤ state.1.length := by
    rw [hf.length]
    norm_num
  rw [if_neg hloads, if_neg (not_not.mpr (hf.found.mpr hloads)), Codec.range_eq hlen,
    Outcome.ok_bind, slice_two hlen, hf.bytes, hf.bytes]
  by_cases hsignature : memoryByte payload (segments payload) 510 = 0x55 ∧
      memoryByte payload (segments payload) 511 = 0xAA
  · rw [if_pos hsignature, if_neg (by simp [hsignature])]
  · rw [if_neg hsignature, if_pos fun heq => hsignature (by simpa using heq)]

theorem flattenHdbootBootstrap_ok (h : Bootable payload) :
    ∃ out, flattenHdbootBootstrap payload = .ok out ∧ out.length = bootstrapLimit ∧
      ∀ address, out.byte address = memoryByte payload (segments payload) address := by
  have hindices : ∀ i ∈ List.range (payload.u16 44), i < 2 ^ 16 := fun i hi =>
    (List.mem_range.mp hi).trans (payload.u16_lt 44)
  obtain ⟨state, hloop, hf⟩ := flattenLoop_ok (flattened_zeros payload) hindices
    (headersOk_iff.mpr ⟨h.headers, h.fits⟩)
  refine ⟨state.1, ?_, hf.length, hf.bytes⟩
  rw [flattenHdbootBootstrap_eq h.header h.magic h.littleEndian32 h.table, hloop, Outcome.ok_bind,
    finishFlatten_eq hf, if_neg h.loads, if_pos h.signature]

theorem flattenHdbootBootstrap_err (h : ¬Bootable payload) :
    ∃ e, flattenHdbootBootstrap payload = .err e := by
  have hindices : ∀ i ∈ List.range (payload.u16 44), i < 2 ^ 16 := fun i hi =>
    (List.mem_range.mp hi).trans (payload.u16_lt 44)
  by_cases hchecks : elfHeaderSize ≤ payload.length ∧ payload.slice 0 4 = elfMagic ∧
      (payload.byte 4 = 1 ∧ payload.byte 5 = 1) ∧
      payload.u16 44 ≠ 0 ∧ elfProgramHeaderSize ≤ payload.u16 42
  swap
  · exact flattenHdbootBootstrap_header_err hchecks
  obtain ⟨hheader, hmagic, hclass, htable⟩ := hchecks
  rw [flattenHdbootBootstrap_eq hheader hmagic hclass htable]
  by_cases hok : ∀ i ∈ List.range (payload.u16 44), HeaderOk payload i
  · obtain ⟨state, hloop, hf⟩ := flattenLoop_ok (flattened_zeros payload) hindices hok
    obtain ⟨hheaders, hfits⟩ := headersOk_iff.mp hok
    rw [hloop, Outcome.ok_bind, finishFlatten_eq hf]
    by_cases hloads : segments payload = []
    · rw [if_pos hloads]
      exact ⟨_, rfl⟩
    · rw [if_neg hloads, if_neg fun hsignature =>
        h ⟨hheader, hmagic, hclass, htable, hheaders, hloads, hfits, hsignature⟩]
      exact ⟨_, rfl⟩
  · obtain ⟨e, hloop⟩ := flattenLoop_err (flattened_zeros payload) hindices hok
    exact ⟨e, by rw [hloop]; rfl⟩

/-- Flattening never panics, and gives an image exactly for a bootable file: the one whose bytes are
those of the last segment there. -/
theorem flattenHdbootBootstrap_iff (payload : Bytes) :
    flattenHdbootBootstrap payload ≠ .panic ∧
      ∀ out, flattenHdbootBootstrap payload = .ok out ↔
        Bootable payload ∧ out.length = bootstrapLimit ∧
          ∀ address < bootstrapLimit, out.byte address = memoryByte payload (segments payload) address := by
  by_cases h : Bootable payload
  · obtain ⟨image, hrun, hlength, hbytes⟩ := flattenHdbootBootstrap_ok h
    rw [hrun]
    constructor
    · simp
    · intro out
      constructor
      · rintro ⟨⟩
        exact ⟨h, hlength, fun address _ => hbytes address⟩
      · rintro ⟨-, hlength', hbytes'⟩
        have heq : image = out := Bytes.ext_byte (hlength.trans hlength'.symm) fun i hi => by
          rw [hbytes, hbytes' i (hlength ▸ hi)]
        rw [heq]
  · obtain ⟨e, hrun⟩ := flattenHdbootBootstrap_err h
    rw [hrun]
    constructor
    · simp
    · intro out
      simp [h]

end File

/-- A file with one segment, the boot signature. -/
example : Bootable (elfMagic ++ [1, 1] ++ Bytes.zeros 22 ++ Bytes.le 4 52 ++ Bytes.zeros 10 ++
    Bytes.le 2 32 ++ Bytes.le 2 1 ++ Bytes.zeros 6 ++ Bytes.le 4 1 ++ Bytes.le 4 84 ++
    Bytes.zeros 4 ++ Bytes.le 4 510 ++ Bytes.le 4 2 ++ Bytes.zeros 12 ++ [0x55, 0xAA]) :=
  ⟨by decide, by decide, by decide, by decide, by decide, by decide +kernel,
    by
      unfold ProgramHeader.Fits
      decide +kernel, by decide +kernel⟩

end UfsFuse
