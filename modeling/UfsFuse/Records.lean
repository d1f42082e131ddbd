import UfsFuse.Reader
import Mathlib

/-!
# Directory records side by side

The records that `iter_directory_records` returns lie one behind the other. The length of a name is
checked against the buffer only, so that a name may run into the records behind its own.
-/
namespace UfsFuse

/-! ## Ranges of a record -/
namespace DirEntry

/-- The bytes of a record. -/
def range (r : DirEntry) : Set ℕ := Set.Ico r.offset (r.offset + r.recordLength)

def header (r : DirEntry) : Set ℕ := Set.Ico r.offset (r.offset + ufsDirentHeaderSize)

/-- The bytes of its name. -/
def nameRange (r : DirEntry) : Set ℕ :=
  Set.Ico (r.offset + DirentOff.name) (r.offset + DirentOff.name + r.nameLength)

/-- Names and headers of two records do not meet. -/
def NamesApart (r s : DirEntry) : Prop :=
  Disjoint r.nameRange (s.header ∪ s.nameRange) ∧ Disjoint s.nameRange (r.header ∪ r.nameRange)

end DirEntry

/-- Records one behind the other from an offset on. -/
def Consecutive : ℕ → List DirEntry → Prop
  | _, [] => True
  | offset, r :: rs => r.offset = offset ∧ Consecutive (offset + r.recordLength) rs

/-- The records of a buffer keep to themselves. -/
structure SelfContained (buffer : Bytes) (records : List DirEntry) : Prop where
  consecutive : Consecutive 0 records
  inside : ∀ r ∈ records, r.offset + r.recordLength ≤ buffer.length
  disjoint : records.Pairwise fun r s => Disjoint r.range s.range
  holdsName : ∀ r ∈ records, ufsDirentHeaderSize + r.nameLength ≤ r.recordLength
  namesApart : records.Pairwise DirEntry.NamesApart

/-! ## The walk over the headers -/

/-- From the header of a record to the next one. -/
def NextHeader (bytes : Bytes) (maxLength offset next : ℕ) : Prop :=
  ∃ header, decodeDirectoryHeader bytes offset maxLength = some header ∧
    next = offset + header.recordLength

/-- An offset that the headers of a buffer lead to. -/
def Reached (bytes : Bytes) (maxLength : ℕ) (offset : ℕ) : Prop :=
  Relation.ReflTransGen (NextHeader bytes maxLength) 0 offset

/-- No header on the way has a name that is too long for its record. -/
def HeadersHoldNames (bytes : Bytes) (maxLength : ℕ) : Prop :=
  ∀ offset header, Reached bytes maxLength offset →
    decodeDirectoryHeader bytes offset maxLength = some header →
    ufsDirentHeaderSize + header.nameLength ≤ header.recordLength

section Walk
variable {bytes : Bytes} {maxLength offset : ℕ} {header : DirEntryHeader} {entry : DirEntry}

/-- The bounds of a header that decodes. -/
theorem decodeDirectoryHeader_bounds (h : decodeDirectoryHeader bytes offset maxLength = some header) :
    offset + ufsDirentHeaderSize ≤ maxLength ∧ 0 < header.recordLength ∧
      offset + header.recordLength ≤ maxLength := by
  unfold decodeDirectoryHeader at h
  dsimp only at h
  split_ifs at h with hroom hlength hname
  obtain rfl := Option.some.inj h
  rw [not_or, not_lt] at hlength
  exact ⟨not_lt.mp hroom, Nat.pos_of_ne_zero hlength.1, hlength.2⟩

theorem decodeDirectoryEntry_some (h : decodeDirectoryEntry bytes offset maxLength = some entry) :
    entry.offset = offset ∧ ∃ header, decodeDirectoryHeader bytes offset maxLength = some header ∧
      entry.recordLength = header.recordLength ∧ entry.nameLength = header.nameLength := by
  unfold decodeDirectoryEntry at h
  obtain ⟨header, hheader, h⟩ := Option.bind_eq_some_iff.mp h
  obtain rfl := Option.some.inj h
  exact ⟨rfl, header, hheader, rfl, rfl⟩

theorem decodeDirectoryEntry_none : decodeDirectoryEntry bytes offset maxLength = none ↔
    decodeDirectoryHeader bytes offset maxLength = none := by
  unfold decodeDirectoryEntry
  cases decodeDirectoryHeader bytes offset maxLength <;> simp

/-- Nothing is returned from a header that does not decode. -/
theorem not_reached_of_none (h : decodeDirectoryHeader bytes offset maxLength = none) :
    ¬∃ reached, Relation.ReflTransGen (NextHeader bytes maxLength) offset reached ∧
      decodeDirectoryEntry bytes reached maxLength = some entry := by
  rintro ⟨reached, hreached, hentry⟩
  rcases hreached.cases_head with rfl | ⟨next, ⟨header, hheader, -⟩, -⟩
  · rw [decodeDirectoryEntry_none.mpr h] at hentry
    cases hentry
  · rw [h] at hheader
    cases hheader

/-- The loop returns the records at the offsets that the headers lead to. -/
theorem mem_iterRecordsFrom (fuel : ℕ) (hfuel : maxLength ≤ offset + fuel) :
    entry ∈ iterRecordsFrom bytes maxLength fuel offset ↔
      ∃ reached, Relation.ReflTransGen (NextHeader bytes maxLength) offset reached ∧
        decodeDirectoryEntry bytes reached maxLength = some entry := by
  induction fuel generalizing offset with
  | zero =>
    refine iff_of_false List.not_mem_nil (not_reached_of_none (Option.eq_none_iff_forall_ne_some.mpr
      fun header hheader => ?_))
    obtain ⟨hin, -, -⟩ := decodeDirectoryHeader_bounds hheader
    simp only [ufsDirentHeaderSize] at hin
    omega
  | succ fuel ih =>
    unfold iterRecordsFrom
    cases hdecode : decodeDirectoryEntry bytes offset maxLength with
    | none =>
      rw [ite_self]
      exact iff_of_false List.not_mem_nil (not_reached_of_none (decodeDirectoryEntry_none.mp hdecode))
    | some first =>
      obtain ⟨-, header, hheader, hlength, -⟩ := decodeDirectoryEntry_some hdecode
      obtain ⟨hin, hpos, -⟩ := decodeDirectoryHeader_bounds hheader
      have hrest := @ih (offset + header.recordLength) (by omega)
      rw [if_pos hin, List.mem_cons, hlength, hrest]
      constructor
      · rintro (rfl | ⟨reached, hreached, hentry⟩)
        · exact ⟨offset, .refl, hdecode⟩
        · exact ⟨reached, hreached.head ⟨header, hheader, rfl⟩, hentry⟩
      · rintro ⟨reached, hreached, hentry⟩
        rcases hreached.cases_head with rfl | ⟨next, ⟨header', hheader', rfl⟩, hrest⟩
        · rw [hdecode] at hentry
          exact .inl (Option.some.inj hentry).symm
        · rw [hheader] at hheader'
          obtain rfl := Option.some.inj hheader'
          exact .inr ⟨reached, hrest, hentry⟩

theorem iterRecordsFrom_consecutive (fuel offset : ℕ) :
    Consecutive offset (iterRecordsFrom bytes maxLength fuel offset) := by
  induction fuel generalizing offset with
  | zero => trivial
  | succ fuel ih =>
    unfold iterRecordsFrom
    split_ifs
    · cases hdecode : decodeDirectoryEntry bytes offset maxLength with
      | none => trivial
      | some first => exact ⟨(decodeDirectoryEntry_some hdecode).1, ih _⟩
    · trivial

end Walk

/-! ## Consecutive records -/
section Apart
variable {offset : ℕ} {records : List DirEntry}

/-- Records one behind the other begin where the list begins or later. -/
theorem Consecutive.le (h : Consecutive offset records) : ∀ r ∈ records, offset ≤ r.offset := by
  induction records generalizing offset with
  | nil => simp
  | cons r rs ih =>
    intro s hs
    rcases List.mem_cons.mp hs with rfl | hs
    · exact h.1.ge
    · exact (Nat.le_add_right _ _).trans (ih h.2 s hs)

/-- Of two of them one ends before the other begins. -/
theorem Consecutive.pairwise (h : Consecutive offset records) :
    records.Pairwise fun r s => r.offset + r.recordLength ≤ s.offset := by
  induction records generalizing offset with
  | nil => exact .nil
  | cons r rs ih =>
    refine .cons (fun s hs => ?_) (ih h.2)
    rw [h.1]
    exact h.2.le s hs

theorem disjoint_range {r s : DirEntry} (h : r.offset + r.recordLength ≤ s.offset) :
    Disjoint r.range s.range := by
  rw [Set.disjoint_left]
  rintro x ⟨-, hx⟩ ⟨hx', -⟩
  omega

/-- Names that fit into their records stay clear of the records behind. -/
theorem namesApart_of_holds {r s : DirEntry} (h : r.offset + r.recordLength ≤ s.offset)
    (hr : ufsDirentHeaderSize + r.nameLength ≤ r.recordLength) : r.NamesApart s := by
  simp only [ufsDirentHeaderSize] at hr
  unfold DirEntry.NamesApart DirEntry.nameRange DirEntry.header
  simp only [Set.disjoint_left, Set.mem_union, Set.mem_Ico, DirentOff.name, ufsDirentHeaderSize]
  constructor
  · rintro x ⟨h₁, h₂⟩ (⟨h₃, h₄⟩ | ⟨h₃, h₄⟩) <;> omega
  · rintro x ⟨h₁, h₂⟩ (⟨h₃, h₄⟩ | ⟨h₃, h₄⟩) <;> omega

end Apart

/-- The records of a buffer keep to themselves exactly when no header on the way has a name that is too
long for its record. -/
theorem iterDirectoryRecords_selfContained_iff (bytes : Bytes) (size : ℕ) :
    SelfContained bytes (iterDirectoryRecords bytes size) ↔
      HeadersHoldNames bytes (min bytes.length size) := by
  have hmem (entry : DirEntry) := @mem_iterRecordsFrom bytes (min bytes.length size) 0 entry
    (min bytes.length size) (Nat.zero_add _).ge
  constructor
  · intro h offset header hreached hheader
    cases hentry : decodeDirectoryEntry bytes offset (min bytes.length size) with
    | none =>
      rw [decodeDirectoryEntry_none.mp hentry] at hheader
      cases hheader
    | some entry =>
      obtain ⟨-, header', hheader', hlength, hname⟩ := decodeDirectoryEntry_some hentry
      rw [hheader] at hheader'
      obtain rfl := Option.some.inj hheader'
      have hholds := h.holdsName entry ((hmem entry).mpr ⟨offset, hreached, hentry⟩)
      rwa [hlength, hname] at hholds
  · intro h
    have hfacts : ∀ r ∈ iterDirectoryRecords bytes size, r.offset + r.recordLength ≤ bytes.length ∧
        ufsDirentHeaderSize + r.nameLength ≤ r.recordLength := by
      intro r hr
      obtain ⟨offset, hreached, hentry⟩ := (hmem r).mp hr
      obtain ⟨hoff, header, hheader, hlength, hname⟩ := decodeDirectoryEntry_some hentry
      rw [hoff, hlength, hname]
      exact ⟨(decodeDirectoryHeader_bounds hheader).2.2.trans (Nat.min_le_left _ _),
        h offset header hreached hheader⟩
    have hconsecutive : Consecutive 0 (iterDirectoryRecords bytes size) :=
      iterRecordsFrom_consecutive _ _
    constructor
    · exact hconsecutive
    · exact fun r hr => (hfacts r hr).1
    · exact hconsecutive.pairwise.imp disjoint_range
    · exact fun r hr => (hfacts r hr).2
    · exact hconsecutive.pairwise.imp_of_mem fun hr _ hle =>
        namesApart_of_holds hle (hfacts _ hr).2

/-- A record of 8 bytes with a name of 4 bytes: the name is the inode number of the record behind. -/
theorem iterDirectoryRecords_overlap :
    ¬∀ (bytes : Bytes) (size : ℕ), SelfContained bytes (iterDirectoryRecords bytes size) := by
  intro h
  have hself := h [7, 0, 0, 0, 8, 0, 4, 0, 97, 98, 99, 100, 16, 0, 1, 0, 120, 0, 0, 0, 0, 0, 0, 0] 24
  have hholds := hself.holdsName ⟨7, 8, 4, [97, 98, 99, 100], 0⟩ (by decide)
  exact absurd hholds (by decide)

end UfsFuse
