import UfsFuse.Lookup
import UfsFuse.Paths

/-!
# Walking through files

Lookup does not ask whether it scans a directory, and neither does path resolution. So a walk stays
among directories exactly if nothing else that it can reach holds bytes that scan as records.
-/
namespace UfsFuse

/-! ## Text -/
section Text

/-- The UTF-8 bytes of a list of characters. -/
def Utf8 (s : Str) : Prop := ∃ chars : List Char, s = chars.flatMap String.utf8EncodeChar

theorem Utf8.nil : Utf8 [] := ⟨[], rfl⟩

theorem Utf8.slash : Utf8 [47] := ⟨['/'], by decide⟩

theorem Utf8.append {s t : Str} (hs : Utf8 s) (ht : Utf8 t) : Utf8 (s ++ t) := by
  obtain ⟨cs, rfl⟩ := hs
  obtain ⟨ct, rfl⟩ := ht
  exact ⟨cs ++ ct, List.flatMap_append.symm⟩

theorem Utf8.intercalate {parts : List Str} (h : ∀ part ∈ parts, Utf8 part) :
    Utf8 (List.intercalate [47] parts) := by
  induction parts with
  | nil => exact .nil
  | cons part parts ih =>
    have hrest := ih fun p hp => h p (by simp [hp])
    cases parts with
    | nil => simpa [List.intercalate] using h part (by simp)
    | cons next parts =>
      have hpart : Utf8 (part ++ ([47] ++ List.intercalate [47] (next :: parts))) :=
        (h part (by simp)).append (.append .slash hrest)
      simpa [List.intercalate] using hpart

/-- Only "/" itself is encoded with the byte of "/". -/
theorem slash_not_mem_utf8EncodeChar {c : Char} (h : c ≠ '/') : 47 ∉ String.utf8EncodeChar c := by
  have hlow : ∀ v : ℕ, v < 256 → 128 ≤ v → (47 : UInt8) ≠ UInt8.ofNat v := by
    intro v hv hge he
    have hn := congrArg UInt8.toNat he
    rw [UInt8.toNat_ofNat_of_lt' hv] at hn
    have h47 : (47 : UInt8).toNat = 47 := rfl
    omega
  unfold String.utf8EncodeChar
  dsimp only
  split_ifs with h1 h2 h3
  · intro hm
    have he := List.mem_singleton.mp hm
    have hn := congrArg UInt8.toNat he
    rw [UInt8.toNat_ofNat_of_lt' (Nat.lt_of_le_of_lt h1 (by decide))] at hn
    have h47 : (47 : UInt8).toNat = 47 := rfl
    apply h
    apply Char.ext
    apply UInt32.toNat_inj.mp
    rw [← hn]
    rfl
  · simp only [List.mem_cons, List.not_mem_nil, or_false, not_or]
    exact ⟨hlow _ (by omega) (by omega), hlow _ (by omega) (by omega)⟩
  · simp only [List.mem_cons, List.not_mem_nil, or_false, not_or]
    exact ⟨hlow _ (by omega) (by omega), hlow _ (by omega) (by omega), hlow _ (by omega) (by omega)⟩
  · simp only [List.mem_cons, List.not_mem_nil, or_false, not_or]
    exact ⟨hlow _ (by omega) (by omega), hlow _ (by omega) (by omega), hlow _ (by omega) (by omega),
      hlow _ (by omega) (by omega)⟩

theorem splitOn_append_left {sep : UInt8} {a : Str} (h : sep ∉ a) (b : Str) :
    (a ++ b).splitOn sep = (b.splitOn sep).modifyHead (a ++ ·) := by
  induction a with
  | nil =>
    rw [List.nil_append]
    exact (List.modifyHead_id ▸ rfl)
  | cons x a ih =>
    have hx : ¬(x == sep) = true := by
      intro he
      exact h (by simp [(beq_iff_eq.mp he).symm])
    rw [List.cons_append, List.splitOn_cons_eq_if_modifyHead, if_neg hx,
      ih (fun hm => h (by simp [hm])), List.modifyHead_modifyHead]
    rfl

/-- The pieces of a text between slashes are texts. -/
theorem Utf8.splitOn {path : Str} (h : Utf8 path) : ∀ part ∈ path.splitOn 47, Utf8 part := by
  obtain ⟨chars, rfl⟩ := h
  induction chars with
  | nil =>
    intro part hp
    simp only [List.flatMap_nil, List.splitOn_nil, List.mem_singleton] at hp
    exact hp ▸ .nil
  | cons c chars ih =>
    rw [List.flatMap_cons]
    by_cases hc : c = '/'
    · have henc : String.utf8EncodeChar c = [47] := by
        rw [hc]
        decide
      rw [henc, List.singleton_append, List.splitOn_cons_eq_if_modifyHead, if_pos (by decide)]
      intro part hp
      rcases List.mem_cons.mp hp with rfl | hp
      · exact .nil
      · exact ih part hp
    · rw [splitOn_append_left (slash_not_mem_utf8EncodeChar hc)]
      have hchar : Utf8 (String.utf8EncodeChar c) := ⟨[c], by simp⟩
      cases hs : (chars.flatMap String.utf8EncodeChar).splitOn 47 with
      | nil => simp
      | cons head tail =>
        rw [hs] at ih
        intro part hp
        rcases List.mem_cons.mp hp with rfl | hp
        · exact hchar.append (ih head (by simp))
        · exact ih part (by simp [hp])

end Text

/-! ## Records wherever they lie -/

/-- The live records that the scan of an inode's blocks sees, whatever the inode is. The scan ends
at a block that is missing or outside the image. -/
def recordsInPlace (image : Bytes) (ufs : Ufs) (size : ℕ) (blocks : List ℕ) : List ℕ → List Entry
  | [] => []
  | off :: offs =>
      match blocks[off / ufs.sb.bsize]? with
      | none => []
      | some b =>
          let span := min ufsDirblksiz (size - off)
          let start := ufs.sb.dataBlockOffset ufs.startOffset b + off % ufs.sb.bsize
          if start + span ≤ image.length then
            liveEntries (image.slice start span) (iterDirectoryRecords (image.slice start span) span) ++
              recordsInPlace image ufs size blocks offs
          else []

/-- The contents of an inode, taken for directory records. -/
def recordsOf (image : Bytes) (ufs : Ufs) (inode : Inode) : List Entry :=
  match inodeDataBlocks image ufs inode with
  | .ok blocks => recordsInPlace image ufs inode.size blocks (dirBlockOffsets inode.size)
  | _ => []

/-- In the contents of an inode the first record of that name leads to an inode that can be read. -/
def Leads (image : Bytes) (ufs : Ufs) (inode : Inode) (name : Str) (n : ℕ) (child : Inode) : Prop :=
  ∃ e, (recordsOf image ufs inode).find? (·.name = name) = some e ∧ e.inode = n ∧
    readInode image ufs n = some child

/-- A component of a path. -/
def Component (name : Str) : Prop := name ≠ [] ∧ 47 ∉ name ∧ Utf8 name

/-- The inodes that walks among directories reach. -/
inductive ReachedByDirectories (image : Bytes) (ufs : Ufs) : Inode → Prop
  | root {root : Inode} (h : readInode image ufs ufsRootInode = some root) :
      ReachedByDirectories image ufs root
  | child {dir child : Inode} {name : Str} {n : ℕ} (hr : ReachedByDirectories image ufs dir)
      (hd : dir.isDirectory = true) (hc : Component name) (h : Leads image ufs dir name n child) :
      ReachedByDirectories image ufs child

/-- Whatever walks among directories reach and is no directory holds no bytes that scan as a record
with a name that a path can have. -/
def RecordsInDirectories (image : Bytes) (ufs : Ufs) : Prop :=
  ∀ inode, ReachedByDirectories image ufs inode → inode.isDirectory = false →
    ∀ name, Component name → ∀ n child, ¬Leads image ufs inode name n child

/-- If the path resolves, the inodes that its proper prefixes reach are directories. -/
def ResolvesInDirectories (image : Bytes) (ufs : Ufs) (path : Str) : Prop :=
  ∀ found, resolvePath image ufs path = .ok (some found) →
    ∀ q, q <+: pathParts path → q ≠ pathParts path → ∀ root n inode,
      readInode image ufs ufsRootInode = some root →
      walkParts image ufs q (ufsRootInode, root) = .ok (some (n, inode)) → inode.isDirectory = true

section Walk
variable {image : Bytes} {ufs : Ufs}

theorem lookupLoop_found {size n : ℕ} {blocks : List ℕ} {name : Str} {child : Inode} :
    ∀ {offsets : List ℕ}, lookupLoop image ufs size blocks name offsets = .ok (some (n, child)) ↔
      ∃ e, (recordsInPlace image ufs size blocks offsets).find? (·.name = name) = some e ∧
        e.inode = n ∧ readInode image ufs n = some child := by
  intro offsets
  induction offsets with
  | nil => simp [lookupLoop, recordsInPlace]
  | cons off offsets ih =>
    rw [lookupLoop, recordsInPlace]
    dsimp only
    cases hb : blocks[off / ufs.sb.bsize]? with
    | none => simp
    | some b =>
      dsimp only
      unfold getSlice
      by_cases hin : ufs.sb.dataBlockOffset ufs.startOffset b + off % ufs.sb.bsize +
          min ufsDirblksiz (size - off) ≤ image.length
      · rw [Outcome.guard_true hin, if_pos hin, Outcome.ok_bind, Outcome.pure_def, Outcome.ok_bind]
        generalize hblock : image.slice (ufs.sb.dataBlockOffset ufs.startOffset b +
          off % ufs.sb.bsize) (min ufsDirblksiz (size - off)) = block
        have hlen : block.length = min ufsDirblksiz (size - off) := by
          rw [← hblock]
          exact Bytes.slice_length hin
        rw [scanBlockFor_first hlen, List.find?_append]
        unfold iterDirectoryRecords
        rw [hlen, Nat.min_self]
        cases (liveEntries block (iterRecordsFrom block (min ufsDirblksiz (size - off))
            (min ufsDirblksiz (size - off)) 0)).find? (·.name = name) with
        | none => exact ih
        | some e =>
          -- the first record of that name decides, also when its inode cannot be read
          dsimp only [Option.map_some, Option.some_or]
          rw [Outcome.pure_def, Outcome.ok.injEq, Option.map_eq_some_iff]
          constructor
          · rintro ⟨c, hread, hpair⟩
            obtain ⟨rfl, rfl⟩ := Prod.mk.inj hpair
            exact ⟨e, rfl, rfl, hread⟩
          · rintro ⟨e', he, rfl, hread⟩
            obtain rfl := Option.some.inj he
            exact ⟨child, hread, rfl⟩
      · rw [Outcome.guard, if_neg hin, if_neg hin]
        simp

/-- Lookup finds what the first record of the name leads to. -/
theorem lookupDirectoryEntry_found {inode child : Inode} {name : Str} {n : ℕ} :
    lookupDirectoryEntry image ufs inode name = .ok (some (n, child)) ↔
      Leads image ufs inode name n child := by
  unfold lookupDirectoryEntry Leads recordsOf
  cases hb : inodeDataBlocks image ufs inode with
  | ok blocks =>
    split_ifs with hzero
    · rw [hzero]
      simp [dirBlockOffsets, recordsInPlace]
    · exact lookupLoop_found
  | err e =>
    split_ifs
    · simp
    · simp
  | panic =>
    split_ifs
    · simp
    · simp

theorem walkParts_append {rest : List Str} : ∀ {q : List Str} {current : ℕ × Inode},
    walkParts image ufs (q ++ rest) current = (do
      match ← walkParts image ufs q current with
      | none => pure none
      | some next => walkParts image ufs rest next) := by
  intro q
  induction q with
  | nil => exact rfl
  | cons part q ih =>
    intro current
    rw [List.cons_append, walkParts, walkParts]
    cases lookupDirectoryEntry image ufs current.2 part with
    | err e => rfl
    | panic => rfl
    | ok found =>
      cases found with
      | none => rfl
      | some next => exact ih

theorem resolvePath_root {root : Inode} (h : readInode image ufs ufsRootInode = some root)
    (path : Str) :
    resolvePath image ufs path = walkParts image ufs (pathParts path) (ufsRootInode, root) := by
  rw [resolvePath, h]

/-- One component. -/
theorem walkParts_cons {part : Str} {rest : List Str} {current found : ℕ × Inode}
    (h : walkParts image ufs (part :: rest) current = .ok (some found)) :
    ∃ n child, Leads image ufs current.2 part n child ∧
      walkParts image ufs rest (n, child) = .ok (some found) := by
  obtain ⟨next, hlookup, hrest⟩ := Outcome.bind_eq_ok.mp h
  cases next with
  | none => cases hrest
  | some next => exact ⟨next.1, next.2, lookupDirectoryEntry_found.mp hlookup, hrest⟩

theorem walkParts_of_leads {part : Str} {rest : List Str} {current : ℕ × Inode} {n : ℕ}
    {child : Inode} (h : Leads image ufs current.2 part n child) :
    walkParts image ufs (part :: rest) current = walkParts image ufs rest (n, child) := by
  rw [walkParts, lookupDirectoryEntry_found.mpr h]
  rfl

/-- A walk that ends stays among directories up to its last component. -/
theorem RecordsInDirectories.walk (h : RecordsInDirectories image ufs) : ∀ {parts : List Str}
    {current found : ℕ × Inode}, ReachedByDirectories image ufs current.2 →
    (∀ part ∈ parts, Component part) → walkParts image ufs parts current = .ok (some found) →
    ∀ q, q <+: parts → q ≠ parts → ∀ n inode,
      walkParts image ufs q current = .ok (some (n, inode)) → inode.isDirectory = true := by
  intro parts
  induction parts with
  | nil =>
    intro current found _ _ _ q hq hne
    exact absurd (List.prefix_nil.mp hq) hne
  | cons part rest ih =>
    intro current found hreach hparts hwalk q hq hne n inode hwalkq
    have hcomponent := hparts part (by simp)
    obtain ⟨next, child, hleads, hrest⟩ := walkParts_cons hwalk
    have hdir : current.2.isDirectory = true := by
      cases hd : current.2.isDirectory with
      | true => rfl
      | false => exact absurd hleads (h _ hreach hd part hcomponent next child)
    cases q with
    | nil =>
      have hsame : current = (n, inode) := Option.some.inj (Outcome.ok.inj hwalkq)
      rw [hsame] at hdir
      exact hdir
    | cons part' q =>
      obtain ⟨rfl, hrestq⟩ := List.cons_prefix_cons.mp hq
      rw [walkParts_of_leads hleads] at hwalkq
      exact ih (hreach.child hdir hcomponent hleads) (fun p hp => hparts p (by simp [hp])) hrest q
        hrestq (fun he => hne (by rw [he])) n inode hwalkq

/-- What is reached is reached by the components of some path. -/
theorem ReachedByDirectories.parts {inode : Inode} (h : ReachedByDirectories image ufs inode) :
    ∃ root q n, readInode image ufs ufsRootInode = some root ∧ (∀ part ∈ q, Component part) ∧
      walkParts image ufs q (ufsRootInode, root) = .ok (some (n, inode)) := by
  induction h with
  | root hroot => exact ⟨_, [], _, hroot, by simp, rfl⟩
  | @child dir child name n _ _ hcomponent hleads ih =>
    obtain ⟨root, q, m, hroot, hparts, hwalk⟩ := ih
    refine ⟨root, q ++ [name], n, hroot, ?_, ?_⟩
    · intro part hp
      rcases List.mem_append.mp hp with hp | hp
      · exact hparts part hp
      · exact List.mem_singleton.mp hp ▸ hcomponent
    · rw [walkParts_append, hwalk, Outcome.ok_bind]
      exact walkParts_of_leads hleads

/-- Components make a path. -/
theorem exists_path {parts : List Str} (h : ∀ part ∈ parts, Component part) (hne : parts ≠ []) :
    ∃ path, Utf8 path ∧ pathParts path = parts := by
  exact ⟨List.intercalate [47] parts, .intercalate fun part hp => (h part hp).2.2,
    pathParts_intercalate (fun part hp => ⟨(h part hp).2.1, (h part hp).1⟩) hne⟩

end Walk

/-- The root: one record, "f", of inode 3. -/
def disguisedRoot : Bytes :=
  ((((Bytes.zeros 128).putU32 DiOff.mode (ufsIfdir ||| 0o755)).putU16 DiOff.nlink 2).putU64
    DiOff.size 512).putU32 DiOff.db 64

/-- Inode 3, a regular file of 512 bytes. -/
def disguisedFile : Bytes :=
  ((((Bytes.zeros 128).putU32 DiOff.mode (ufsIfreg ||| 0o644)).putU16 DiOff.nlink 1).putU64
    DiOff.size 512).putU32 DiOff.db 80

/-- A directory block that names inode 3 with one letter. -/
def oneRecord (letter : UInt8) : Bytes :=
  ((((Bytes.zeros 512).putU32 DirentOff.ino 3).putU16 DirentOff.reclen 512).putU16
    DirentOff.namlen 1).overlay DirentOff.name [letter]

/-- The file "f" holds a record named "x". -/
def disguisedImage : Bytes :=
  bareImage 4096 disguisedRoot disguisedFile (oneRecord 102) (oneRecord 120)

/-- What one block leads to. -/
theorem leads_oneRecord {image : Bytes} {inode child : Inode} {b : ℕ} {letter : UInt8}
    (hlen : image.length = 65536) (hsize : inode.size = 512)
    (hblocks : inodeDataBlocks image (bareUfs 4096) inode = .ok [b]) (hb : b ≤ 80)
    (hslice : image.slice (b * 512) 512 = oneRecord letter)
    (hentry : liveEntries (oneRecord letter) (iterDirectoryRecords (oneRecord letter) 512) =
      [⟨[letter], 3⟩]) (hchild : readInode image (bareUfs 4096) 3 = some child) :
    Leads image (bareUfs 4096) inode [letter] 3 child := by
  have haddr : (bareUfs 4096).sb.dataBlockOffset (bareUfs 4096).startOffset b = b * 512 := by
    simp [Superblock.dataBlockOffset, Superblock.fsbtobytes, bareUfs]
  have hrecords : recordsOf image (bareUfs 4096) inode = [⟨[letter], 3⟩] := by
    unfold recordsOf
    rw [hblocks, hsize]
    dsimp only
    have hoffs : dirBlockOffsets 512 = [0] := by decide
    rw [hoffs, recordsInPlace]
    simp only [Nat.zero_div, List.getElem?_cons_zero, haddr, Nat.zero_mod, Nat.add_zero, Nat.sub_zero,
      ufsDirblksiz, min_self]
    rw [if_pos (by omega), hslice, hentry]
    rfl
  exact ⟨⟨[letter], 3⟩, by rw [hrecords]; simp, rfl, hchild⟩

end UfsFuse
