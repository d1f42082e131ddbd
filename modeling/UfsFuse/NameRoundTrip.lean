import UfsFuse.Entering

/-!
# Names there and back

A name given to a file is found, listed and taken away again. Lookup compares stored bytes, listing and
removal compare decoded names, and only decoding limits the length.
-/
namespace UfsFuse

/-- A call that enters a name in a directory. -/
inductive NameCall where
  | createEmpty (mode uid gid timestamp : ℕ)
  | mkdir (mode uid gid timestamp : ℕ)
  | symlink (target : Str) (mode uid gid timestamp : ℕ)
  | mknod (fileType major minor mode uid gid timestamp : ℕ)
  | link (target : ℕ)
  deriving DecidableEq

namespace NameCall

/-- Enter `name` in directory `p`; the result is the inode that has the name then. -/
def run (ufs : Ufs) (p : ℕ) (name : Str) : NameCall → Write ℕ
  | createEmpty mode uid gid ts => createEmptyInParent ufs p name mode uid gid ts
  | mkdir mode uid gid ts => mkdirInParent ufs p name mode uid gid ts
  | symlink target mode uid gid ts => symlinkInParent ufs p name target mode uid gid ts
  | mknod type major minor mode uid gid ts =>
      mknodInParent ufs p name type major minor mode uid gid ts
  | link target => do
      linkInParent ufs p name target
      pure target

/-- Take the name away again. -/
def undo (ufs : Ufs) (p : ℕ) (name : Str) : NameCall → Write ℕ
  | mkdir .. => rmdirInParent ufs p name
  | _ => unlinkInParent ufs p name

/-- The new inode is counted as a directory. -/
def isMkdir : NameCall → Bool
  | mkdir .. => true
  | _ => false

/-- The new inode has the type of a directory; the mode of an empty file may say so too. -/
def isTyped : NameCall → Bool
  | createEmpty mode _ _ _ => decide (fileTypeOf mode = ufsIfdir)
  | mkdir .. => true
  | _ => false

/-- The arguments exist: a target is a string in memory, a linked inode is in use. -/
def Given (image : Bytes) (ufs : Ufs) : NameCall → Prop
  | symlink target _ _ _ _ => target.length < 2 ^ 63
  | link target => inUse image ufs target = true
  | _ => True

end NameCall

/-- What a listing of directory `n` shows: names and inode numbers. -/
def namesAt (image : Bytes) (ufs : Ufs) (n : ℕ) : List (Str × ℕ) :=
  match readInode image ufs n with
  | none => []
  | some inode =>
    match iterDirectoryEntries image ufs inode with
    | .ok entries => entries.map fun entry => (entry.name, entry.inode)
    | _ => []

/-- The name is found, the listing shows it beside all that it showed before, and taking the name
away restores the listing. -/
structure RoundTrips (ufs : Ufs) (p : ℕ) (name : Str) (call : NameCall) (m : ℕ)
    (image image' : Bytes) : Prop where
  found : ∃ inode child, readInode image' ufs p = some inode ∧
    lookupDirectoryEntry image' ufs inode name = .ok (some (m, child))
  listed : (name, m) ∈ namesAt image' ufs p
  kept : (namesAt image ufs p).Subperm (namesAt image' ufs p)
  restored : ∃ image'', call.undo ufs p name image' = (.ok m, image'') ∧
    namesAt image'' ufs p = namesAt image ufs p

/-! ## The listing -/

/-- Entries as a listing shows them, in the order of the directory. -/
def shownNames (es : List Entry) : List (Str × ℕ) :=
  (es.filter (·.name ≠ [])).map fun e => (decodeAsciiReplace e.name, e.inode)

section Shown
variable {es es' : List Entry} {e : Entry} {name : Str}

theorem shownNames_inserted (h : Inserted es e es') : (shownNames es).Sublist (shownNames es') := by
  obtain ⟨us, vs, rfl, rfl⟩ := h
  exact (((List.sublist_cons_self e vs).append_left us).filter _).map _

theorem mem_shownNames (he : e ∈ es) (hne : e.name ≠ []) :
    (decodeAsciiReplace e.name, e.inode) ∈ shownNames es :=
  List.mem_map.mpr ⟨e, List.mem_filter.mpr ⟨he, decide_eq_true hne⟩, rfl⟩

/-- How many entries read as `name` can be counted in the listing. -/
theorem shownNames_count (hne : name ≠ []) :
    (shownNames es).countP (fun x => decide (x.1 = name)) = es.countP fun e => decide (e.Reads name) := by
  induction es with
  | nil => rfl
  | cons e es ih =>
    unfold shownNames at ih ⊢
    by_cases h : e.name = []
    · have hno : ¬e.Reads name := fun hr => hne (by rw [← hr, h]; rfl)
      rw [List.filter_cons_of_neg (by simp [h]), ih, List.countP_cons_of_neg (by simp [hno])]
    · rw [List.filter_cons_of_pos (by simp [h]), List.map_cons, List.countP_cons, List.countP_cons, ih]
      rfl

/-- Taking away the first entry that reads as `name` leaves one such entry less. -/
theorem editFirst_count (h : editFirst (Entry.Reads name) (fun _ => []) es = some es') :
    es.countP (fun e => decide (e.Reads name)) = es'.countP (fun e => decide (e.Reads name)) + 1 := by
  cases exists_first (p := Entry.Reads name) es with
  | inl hno =>
    rw [editFirst_of_not hno] at h
    cases h
  | inr hex =>
    obtain ⟨xs, a, ys, rfl, hxs, ha⟩ := hex
    rw [editFirst_split hxs ha, Option.some.injEq] at h
    subst h
    simp only [List.countP_append, List.countP_cons, List.countP_nil, ha, decide_true, if_true]
    omega

/-- A name that is not ASCII is not what it decodes to. -/
theorem decodeAsciiReplace_ne (h : ¬Ascii name) : decodeAsciiReplace name ≠ name := by
  have hlen : ∀ raw : Str, raw.length ≤ (decodeAsciiReplace raw).length := by
    intro raw
    induction raw with
    | nil => exact le_rfl
    | cons b bs ih =>
      unfold decodeAsciiReplace at ih ⊢
      rw [List.flatMap_cons, List.length_append, List.length_cons]
      split_ifs
      · simp only [List.length_cons, List.length_nil]
        omega
      · simp only [List.length_cons, List.length_nil]
        omega
  intro he
  apply h
  have hall : ∀ raw : Str, (decodeAsciiReplace raw).length = raw.length → Ascii raw := by
    intro raw
    induction raw with
    | nil => exact fun _ b hb => absurd hb List.not_mem_nil
    | cons b bs ih =>
      intro hl
      have htail := hlen bs
      unfold decodeAsciiReplace at ih hl htail
      rw [List.flatMap_cons, List.length_append, List.length_cons] at hl
      by_cases hb : b < 0x80
      · rw [if_pos hb] at hl
        simp only [List.length_cons, List.length_nil] at hl
        intro c hc
        cases List.mem_cons.mp hc with
        | inl hc => exact hc ▸ hb
        | inr hc => exact ih (by omega) c hc
      · rw [if_neg hb] at hl
        simp only [List.length_cons, List.length_nil] at hl
        omega
  exact hall name (by rw [he])

/-- Entering a fresh ASCII name and editing it away again changes nothing. -/
theorem editFirst_inserted {n : ℕ} (h : Inserted es ⟨name, n⟩ es') (ha : Ascii name)
    (hfresh : ∀ e ∈ es, e.name ≠ name) :
    editFirst (Entry.Reads name) (fun _ => []) es' = some es := by
  obtain ⟨us, vs, rfl, rfl⟩ := h
  have hus : ∀ x ∈ us, ¬x.Reads name := fun x hx hr =>
    hfresh x (List.mem_append_left _ hx) ((Entry.reads_iff ha x).mp hr)
  have hnew : (⟨name, n⟩ : Entry).Reads name := (Entry.reads_iff ha ⟨name, n⟩).mpr rfl
  rw [editFirst_split hus hnew, List.append_nil]

/-- Entering a name that is not ASCII and editing its reading away leaves another list of names. -/
theorem shownNames_lossy {es'' : List Entry} {n : ℕ} (hne : name ≠ []) (ha : ¬Ascii name)
    (h : Inserted es ⟨name, n⟩ es')
    (hedit : editFirst (Entry.Reads name) (fun _ => []) es' = some es'') :
    ¬(shownNames es'').Perm (shownNames es) := by
  intro hperm
  have hcount := hperm.countP_eq fun x => decide (x.1 = name)
  rw [shownNames_count hne, shownNames_count hne] at hcount
  have hless := editFirst_count hedit
  have hsame : es'.countP (fun e => decide (e.Reads name)) =
      es.countP fun e => decide (e.Reads name) := by
    have hno : ¬(⟨name, n⟩ : Entry).Reads name := decodeAsciiReplace_ne ha
    rw [h.subset.countP_eq, List.countP_cons_of_neg (by simp [hno])]
  omega

theorem find_inserted {n : ℕ} (h : Inserted es ⟨name, n⟩ es') (hfresh : ∀ e ∈ es, e.name ≠ name) :
    es'.find? (·.name = name) = some ⟨name, n⟩ := by
  obtain ⟨us, vs, rfl, rfl⟩ := h
  have hus : us.find? (·.name = name) = none := by
    rw [List.find?_eq_none]
    intro x hx hn
    exact hfresh x (List.mem_append_left _ hx) (of_decide_eq_true hn)
  rw [List.find?_append, hus, Option.none_or, List.find?_cons_of_pos (by simp)]

end Shown

section Listing
variable {ufs : Ufs} {image : Bytes} {T : Table} {n : ℕ} {es : List Entry}

/-- Decoded records show what the entries show. -/
theorem Lists.shown {records : List DirEntry} {rs : List Rec} (h : Lists records rs)
    (hf : ∀ r ∈ rs, r.Fits) :
    (records.filter fun r => r.inode ≠ 0 ∧ r.nameLength > 0 ∧ r.nameLength ≤ 255).map
      (fun r => (r.name, r.inode)) = shownNames (entriesOf rs) := by
  unfold shownNames
  induction h with
  | nil => rfl
  | @cons d r records rs hd _ ih =>
    obtain ⟨off, rfl⟩ := hd
    have hrest := ih fun x hx => hf x (List.mem_cons_of_mem _ hx)
    have hle := (hf r (List.mem_cons_self ..)).name_le
    by_cases h0 : r.inode = 0
    · rw [List.filter_cons_of_neg (by simp [Rec.entry, h0]), entriesOf_cons_dead h0, hrest]
    · rw [entriesOf_cons_live h0]
      by_cases hn : r.name = []
      · rw [List.filter_cons_of_neg (by simp [Rec.entry, hn]),
          List.filter_cons_of_neg (by simp [hn]), hrest]
      · have hpos : 0 < r.name.length := List.length_pos_iff.mpr hn
        rw [List.filter_cons_of_pos (by simp [Rec.entry, h0, hpos, hle]),
          List.filter_cons_of_pos (by simp [hn]), List.map_cons, List.map_cons, hrest]
        rfl

theorem Ufs.Stores.namesAt (h : ufs.Stores image T) (hn : n ∈ T.live)
    (hd : Directory (T.file n).body es) :
    UfsFuse.namesAt image ufs n = (shownNames es).mergeSort fun a b => strLe a.1 b.1 := by
  obtain ⟨records, rs, he, hl, rfl, hf⟩ := h.iterInodeDirectoryRecords hn hd
  unfold UfsFuse.namesAt
  rw [h.readInode hn]
  dsimp only
  rw [iterDirectoryEntries, he, Outcome.ok_bind]
  simp only [Outcome.pure_def]
  refine (List.map_mergeSort (f := fun entry : DirListEntry => (entry.name, entry.inode))
    (s := fun a b => strLe a.1 b.1) fun _ _ _ _ => rfl).trans ?_
  rw [List.map_map, ← hl.shown hf]
  rfl

end Listing

/-! ## One directory of a table -/

/-- File `p` is a directory with these entries. -/
structure Shelf (T : Table) (p : ℕ) (es : List Entry) : Prop where
  live : p ∈ T.live
  isDir : (T.file p).inode.isDirectory = true
  body : Directory (T.file p).body es

section Shelf
variable {ufs : Ufs} {T T' : Table} {p n : ℕ} {es : List Entry} {name : Str}
  {E : Fault → Bytes → Prop}

theorem Shelf.congr (h : Shelf T p es) (hl : p ∈ T'.live) (hf : T'.file p = T.file p) :
    Shelf T' p es :=
  ⟨hl, hf ▸ h.isDir, hf ▸ h.body⟩

/-- A new link count leaves the directory as it is. -/
theorem Shelf.setNlink (h : Shelf T p es) (v : ℕ) :
    Shelf (T.setInode n { (T.file n).inode with nlink := v }) p es := by
  by_cases hpn : p = n
  · subst hpn
    refine ⟨h.live, ?_, ?_⟩
    · rw [Table.setInode, Table.setFile_self]
      exact h.isDir
    · rw [Table.setInode, Table.setFile_self]
      exact h.body
  · exact h.congr h.live (T.setFile_of_ne hpn _ _)

/-- The directory has one more entry; no other file has changed. -/
structure Shelved (T : Table) (p : ℕ) (es : List Entry) (e : Entry) (T' : Table) : Prop where
  shelf : ∃ es', Inserted es e es' ∧ Shelf T' p es'
  live : T'.live = T.live
  dirs : T'.dirs = T.dirs
  other : ∀ x, x ≠ p → T'.file x = T.file x

theorem addDirectoryEntry_shelf (h : Shelf T p es) (hname : name.length ≤ 255) (hn : n ∈ T.used)
    (h0 : n ≠ 0) :
    (addDirectoryEntry ufs p (T.file p).inode name n).hoare ufs.Stores T
      (fun _ T' => Shelved T p es ⟨name, n⟩ T')
      (ShortOf T p (entryCost ufs.sb (T.file p).body name)) := by
  refine hoare_stored fun image hi => ?_
  refine (addDirectoryEntry_stores h.live h.body hname h0 (hi.used_lt hn).2).post ?_
  rintro - T' ⟨i, body, es', room, rfl, hcore, hbody, hins, -, -⟩
  refine ⟨⟨es', hins, h.live, ?_, ?_⟩, rfl, rfl, fun x hx => T.setFile_of_ne hx _ _⟩
  · rw [Table.setFile_self]
    exact (Dinode.isDirectory_of_core hcore).trans h.isDir
  · rw [Table.setFile_self]
    exact hbody

theorem deleteDirectoryEntry_shelf (h : Shelf T p es) :
    (deleteDirectoryEntry ufs (T.file p).inode name).hoare ufs.Stores T
      (fun _ T' => ∃ es', editFirst (Entry.Reads name) (fun _ => []) es = some es' ∧
        Shelf T' p es' ∧ T'.live = T.live ∧ T'.dirs = T.dirs ∧
        (T'.file p).inode = (T.file p).inode)
      (fun _ _ => editFirst (Entry.Reads name) (fun _ => []) es = none) := by
  refine (deleteDirectoryEntry_stores h.live h.body name).mono ?_ fun _ _ he => he.2
  rintro - T' ⟨es', body, hedit, hbody, -, rfl⟩
  refine ⟨es', hedit, ⟨h.live, ?_, ?_⟩, rfl, rfl, Table.setBody_inode _ _ _⟩
  · rw [Table.setBody_inode]
    exact h.isDir
  · rw [Table.setBody_body]
    exact hbody

/-- Giving up a link or a whole file that is not the directory. -/
theorem dropLink_shelf (h : Shelf T p es) (hn : n ∈ T.live) (hnp : n ≠ p) (hnd : n ∉ T.dirs)
    (i : Inode) :
    (dropLink ufs n i).hoare ufs.Stores T (fun _ T' => Shelf T' p es) E := by
  rw [dropLink]
  refine Act.hoare_ite (fun _ => ?_) fun _ => ?_
  · refine (writeInodeNlink_stores hn).post ?_
    rintro - T' rfl
    exact h.setNlink _
  · refine (dropInode_stores hn false (iff_of_false Bool.false_ne_true hnd)).post ?_
    rintro - T' ⟨f, room, rfl, -⟩
    exact h.congr (Finset.mem_erase_of_ne_of_mem (Ne.symm hnp) h.live)
      (T.setFile_of_ne (Ne.symm hnp) f room)

/-- Looking the name up in the directory. -/
theorem lookupOr_shelf (h : Shelf T p es) (hn : n ∈ T.live)
    (hfind : es.find? (·.name = name) = some ⟨name, n⟩) (failure : Fault) :
    (lookupOr ufs (T.file p).inode name failure).hoare ufs.Stores T
      (fun r T' => T' = T ∧ r = (n, (T.file n).inode.toInode)) E := by
  rw [lookupOr]
  refine Act.hoare_read_bind (a := some (n, (T.file n).inode.toInode)) (fun image hi => ?_)
    (Act.hoare_pure ⟨rfl, rfl⟩)
  rw [hi.lookupDirectoryEntry h.live h.body, hfind, Option.bind_some, hi.readInode hn]
  rfl

theorem unlinkInParent_shelf (h : Shelf T p es) (hn : n ∈ T.live) (hnp : n ≠ p)
    (hfind : es.find? (·.name = name) = some ⟨name, n⟩) (hdir : (T.file n).inode.isDirectory = false)
    (hnd : n ∉ T.dirs) :
    (unlinkInParent ufs p name).hoare ufs.Stores T
      (fun r T' => r = n ∧ ∃ es', editFirst (Entry.Reads name) (fun _ => []) es = some es' ∧
        Shelf T' p es')
      (fun _ _ => editFirst (Entry.Reads name) (fun _ => []) es = none) := by
  rw [unlinkInParent]
  refine (readInodeOr_stores h.live _).step fun i hi => ?_
  subst hi
  refine (lookupOr_shelf h hn hfind _).step fun r hr => ?_
  subst hr
  dsimp only
  have hfile : ((T.file n).inode.toInode).isDirectory = false := hdir
  rw [if_neg (by rw [hfile]; exact Bool.false_ne_true)]
  refine (deleteDirectoryEntry_shelf h).bind ?_
  rintro - T₁ ⟨es', hedit, hs, hlive, hdirs, -⟩
  refine (dropLink_shelf hs (by rw [hlive]; exact hn) hnp (by rw [hdirs]; exact hnd) _).bind ?_
  intro _ T₂ hs₂
  exact Act.hoare_pure ⟨rfl, es', hedit, hs₂⟩

/-- A file whose type is a directory's is not unlinked. -/
theorem unlinkInParent_refuses (h : Shelf T p es) (hn : n ∈ T.live)
    (hfind : es.find? (·.name = name) = some ⟨name, n⟩) (hdir : (T.file n).inode.isDirectory = true) :
    (unlinkInParent ufs p name).hoare ufs.Stores T (fun _ _ => False) (fun _ _ => True) := by
  rw [unlinkInParent]
  refine (readInodeOr_stores h.live _).step fun i hi => ?_
  subst hi
  refine (lookupOr_shelf h hn hfind _).step fun r hr => ?_
  subst hr
  dsimp only
  have hfile : ((T.file n).inode.toInode).isDirectory = true := hdir
  rw [if_pos hfile]
  exact Act.hoare_fail fun _ _ => trivial

theorem rmdirInParent_shelf (h : Shelf T p es) (hn : n ∈ T.live) (hnp : n ≠ p)
    (hfind : es.find? (·.name = name) = some ⟨name, n⟩) (hdir : (T.file n).inode.isDirectory = true)
    (hnd : n ∈ T.dirs) {up : ℕ}
    (hdots : Directory (T.file n).body [⟨dotName, n⟩, ⟨dotdotName, up⟩]) :
    (rmdirInParent ufs p name).hoare ufs.Stores T
      (fun r T' => r = n ∧ ∃ es', editFirst (Entry.Reads name) (fun _ => []) es = some es' ∧
        Shelf T' p es')
      (fun _ _ => editFirst (Entry.Reads name) (fun _ => []) es = none) := by
  rw [rmdirInParent]
  refine (readInodeOr_stores h.live _).step fun i hi => ?_
  subst hi
  refine (lookupOr_shelf h hn hfind _).step fun r hr => ?_
  subst hr
  dsimp only
  have hfile : ((T.file n).inode.toInode).isDirectory = true := hdir
  rw [if_neg (not_not.mpr hfile)]
  have hempty : ([⟨dotName, n⟩, ⟨dotdotName, up⟩] : List Entry).all (fun e => decide e.IsDot) = true := by
    have h1 : (⟨dotName, n⟩ : Entry).IsDot := .inl ((Entry.reads_iff (by decide) _).mpr rfl)
    have h2 : (⟨dotdotName, up⟩ : Entry).IsDot := .inr ((Entry.reads_iff (by decide) _).mpr rfl)
    simp [h1, h2]
  refine Act.hoare_read_bind (a := true) (fun image hi => ?_) ?_
  · rw [← hempty]
    exact hi.directoryIsEmpty hn hdots
  rw [if_neg (by simp), dropDirectory]
  refine Act.hoare.bind (P := fun _ T' => ∃ es', editFirst (Entry.Reads name) (fun _ => []) es =
    some es' ∧ Shelf T' p es') ?_ fun _ T' h' => Act.hoare_pure ⟨rfl, h'⟩
  refine (deleteDirectoryEntry_shelf h).bind ?_
  rintro - T₁ ⟨es', hedit, hs, hlive, hdirs, -⟩
  refine (writeInodeNlink_stores hs.live).seq ?_
  have hs₂ := @Shelf.setNlink T₁ p p es' hs (((T.file p).inode.nlink - 1) % 2 ^ 16)
  refine (dropInode_stores ?_ true (iff_of_true rfl ?_)).post ?_
  · exact (hlive ▸ hn : n ∈ T₁.live)
  · exact (hdirs ▸ hnd : n ∈ T₁.dirs)
  · rintro - T' ⟨f, room, rfl, -⟩
    exact ⟨es', hedit, hs₂.congr (Finset.mem_erase_of_ne_of_mem (Ne.symm hnp) hs₂.live)
      (Table.setFile_of_ne _ (Ne.symm hnp) f room)⟩

end Shelf

/-! ## Entering -/

/-- What entering a name has done: the directory has the entry, and the inode is a file of its own
that is counted as the call says. -/
structure Named (T' : Table) (p : ℕ) (es : List Entry) (name : Str) (m : ℕ) (call : NameCall) :
    Prop where
  shelf : ∃ es', Inserted es ⟨name, m⟩ es' ∧ Shelf T' p es'
  live : m ∈ T'.live
  apart : m ≠ p
  isDir : (T'.file m).inode.isDirectory = call.isTyped
  dirs : m ∈ T'.dirs ↔ call.isMkdir = true
  dots : call.isMkdir = true → ∃ up, Directory (T'.file m).body [⟨dotName, m⟩, ⟨dotdotName, up⟩]

section Entering
variable {ufs : Ufs} {T : Table} {N : NameTree} {p : ℕ} {es : List Entry} {name : Str}

/-- Taking the name away again edits the directory, if the inode is of the type that it counts as. -/
theorem NameCall.undo_shelf {m : ℕ} {call : NameCall} (h : Named T p es name m call)
    (hfresh : ∀ e ∈ es, e.name ≠ name) (htype : call.isTyped = call.isMkdir) :
    ∃ es', Inserted es ⟨name, m⟩ es' ∧ (call.undo ufs p name).hoare ufs.Stores T
      (fun r T' => r = m ∧ ∃ es'', editFirst (Entry.Reads name) (fun _ => []) es' = some es'' ∧
        Shelf T' p es'')
      (fun _ _ => editFirst (Entry.Reads name) (fun _ => []) es' = none) := by
  obtain ⟨es', hins, hs⟩ := h.shelf
  refine ⟨es', hins, ?_⟩
  have hfind := find_inserted hins hfresh
  have hdir := h.isDir
  rw [htype] at hdir
  have hcounted := h.dirs
  cases call with
  | mkdir mode uid gid ts =>
    obtain ⟨up, hdots⟩ := h.dots rfl
    exact rmdirInParent_shelf hs h.live h.apart hfind hdir (hcounted.mpr rfl) hdots
  | createEmpty mode uid gid ts =>
    exact unlinkInParent_shelf hs h.live h.apart hfind hdir fun hm => Bool.false_ne_true (hcounted.mp hm)
  | symlink target mode uid gid ts =>
    exact unlinkInParent_shelf hs h.live h.apart hfind hdir fun hm => Bool.false_ne_true (hcounted.mp hm)
  | mknod type major minor mode uid gid ts =>
    exact unlinkInParent_shelf hs h.live h.apart hfind hdir fun hm => Bool.false_ne_true (hcounted.mp hm)
  | link target =>
    exact unlinkInParent_shelf hs h.live h.apart hfind hdir fun hm => Bool.false_ne_true (hcounted.mp hm)

theorem Shelved.named {T' : Table} {m : ℕ} {call : NameCall} (h : Shelved T p es ⟨name, m⟩ T')
    (hlive : m ∈ T.live) (hmp : m ≠ p) (hdir : (T.file m).inode.isDirectory = call.isTyped)
    (hdirs : m ∈ T.dirs ↔ call.isMkdir = true)
    (hdots : call.isMkdir = true →
      ∃ up, Directory (T.file m).body [⟨dotName, m⟩, ⟨dotdotName, up⟩]) :
    Named T' p es name m call := by
  have hfile := h.other m hmp
  refine ⟨h.shelf, h.live ▸ hlive, hmp, ?_, ?_, ?_⟩
  · rw [hfile]
    exact hdir
  · rw [h.dirs]
    exact hdirs
  · rw [hfile]
    exact hdots

theorem Named.setNlink {m : ℕ} {call : NameCall} (h : Named T p es name m call) (n v : ℕ) :
    Named (T.setInode n { (T.file n).inode with nlink := v }) p es name m call := by
  obtain ⟨es', hins, hs⟩ := h.shelf
  refine ⟨⟨es', hins, hs.setNlink v⟩, h.live, h.apart, ?_, h.dirs, ?_⟩
  · by_cases hmn : m = n
    · subst hmn
      rw [Table.setInode, Table.setFile_self]
      exact h.isDir
    · rw [Table.setInode, Table.setFile_of_ne _ hmn]
      exact h.isDir
  · intro hcall
    obtain ⟨up, hdots⟩ := h.dots hcall
    refine ⟨up, ?_⟩
    by_cases hmn : m = n
    · subst hmn
      rw [Table.setInode, Table.setFile_self]
      exact hdots
    · rw [Table.setInode, Table.setFile_of_ne _ hmn]
      exact hdots

/-- The new file before it has its name. -/
structure Unnamed (T : Table) (p : ℕ) (es : List Entry) (m : ℕ) (d : Bool) (i : Dinode)
    (T₁ : Table) : Prop where
  shelf : Shelf T₁ p es
  live : m ∈ T₁.live
  used : m ∈ T₁.used
  apart : m ≠ p
  dirs : m ∈ T₁.dirs ↔ d = true
  file : T₁.file m = ⟨i, []⟩
  parent : T₁.file p = T.file p
  room : T₁.room = T.room

theorem unnamed_create (hdirs : T.dirs ⊆ T.live) (h : Shelf T p es) {m : ℕ} (hm : m ∉ T.used)
    (d : Bool) (i : Dinode) : Unnamed T p es m d i ((T.reserve m d).create m i) := by
  obtain ⟨hlive, hused, hroom, hfile, hold, -⟩ := @create_facts T m d i hm
  have hml : m ∉ T.live := fun hl => hm (Finset.mem_union_right _ hl)
  have hp := hold p h.live
  refine ⟨h.congr (Finset.mem_insert_of_mem h.live) hp, hlive, hused, fun he => hml (he ▸ h.live),
    ?_, hfile, hp, hroom⟩
  cases d with
  | true => exact iff_of_true (Finset.mem_insert_self _ _) rfl
  | false => exact iff_of_false (fun hd => hml (hdirs hd)) Bool.false_ne_true

/-- Contents for the new file. -/
theorem Unnamed.setFile {T₁ : Table} {m : ℕ} {d : Bool} {i j : Dinode} (h : Unnamed T p es m d i T₁)
    (body : Bytes) (room : ℕ → ℕ) : Shelf (T₁.setFile m ⟨j, body⟩ room) p es ∧
      ((T₁.setFile m ⟨j, body⟩ room).file m) = ⟨j, body⟩ ∧
      ((T₁.setFile m ⟨j, body⟩ room).file p) = T.file p := by
  have hp := T₁.setFile_of_ne (Ne.symm h.apart) ⟨j, body⟩ room
  exact ⟨h.shelf.congr h.shelf.live hp, Table.setFile_self .., hp.trans h.parent⟩

theorem createEmptyInParent_named (hdirs : T.dirs ⊆ T.live) (h : Shelf T p es)
    (hname : name.length ≤ 255) {mode uid gid timestamp : ℕ} :
    (createEmptyInParent ufs p name mode uid gid timestamp).hoare ufs.Stores T
      (fun m T' => Named T' p es name m (.createEmpty mode uid gid timestamp))
      (fun _ _ => T.used.card = ufs.sb.inodes ∨
        T.room p < entryCost ufs.sb (T.file p).body name) := by
  rw [createEmptyInParent]
  refine (readInodeOr_stores h.live _).step fun i hi => ?_
  subst hi
  rw [if_neg (not_not.mpr h.isDir)]
  refine newInode_stores (fun _ _ _ hfull => .inl hfull) fun m hm hm2 _ _ => ?_
  have hu := unnamed_create hdirs h hm false
    (Dinode.fresh (fileTypeOf mode ||| permissionsOf mode) uid gid 1 timestamp)
  have hadd := @addDirectoryEntry_shelf ufs _ p m es name hu.shelf hname hu.used (by omega)
  rw [hu.parent] at hadd
  refine (hadd.mono (fun _ _ hq => hq) fun e image he => ?_).bind ?_
  · rw [ShortOf, hu.room] at he
    exact .inr he
  intro _ T' hT'
  refine Act.hoare_pure (hT'.named hu.live hu.apart ?_ hu.dirs fun hcall => ?_)
  · rw [hu.file]
    exact fresh_isDirectory (fileTypeOf_land mode) mode uid gid 1 timestamp
  · exact absurd hcall Bool.false_ne_true

theorem symlinkInParent_named (hdirs : T.dirs ⊆ T.live) (h : Shelf T p es)
    (hname : name.length ≤ 255) {target : Str} (htarget : target.length < 2 ^ 63)
    {mode uid gid timestamp : ℕ} :
    (symlinkInParent ufs p name target mode uid gid timestamp).hoare ufs.Stores T
      (fun m T' => Named T' p es name m (.symlink target mode uid gid timestamp))
      (fun _ _ => True) := by
  rw [symlinkInParent]
  refine (readInodeOr_stores h.live _).step fun i hi => ?_
  subst hi
  refine newInode_stores (fun _ _ _ _ => trivial) fun m hm hm2 _ _ => ?_
  have hu := unnamed_create hdirs h hm false
    (Dinode.fresh (ufsIflnk ||| permissionsOf mode) uid gid 1 timestamp)
  refine ((setInodeContents_stores hu.live htarget).mono (fun _ _ hq => hq) fun _ _ _ => trivial).bind ?_
  rintro - T₂ ⟨j, room, rfl, hcore, -⟩
  obtain ⟨hs₂, hfile, hparent⟩ := @Unnamed.setFile T p es _ m false _ j hu target room
  have hadd := @addDirectoryEntry_shelf ufs _ p m es name hs₂ hname hu.used (by omega)
  rw [hparent] at hadd
  refine (hadd.mono (fun _ _ hq => hq) fun _ _ _ => trivial).bind ?_
  intro _ T' hT'
  refine Act.hoare_pure (hT'.named hu.live hu.apart ?_ hu.dirs fun hcall => ?_)
  · rw [hfile, Dinode.isDirectory_of_core hcore, hu.file]
    exact fresh_isDirectory (by decide) mode uid gid 1 timestamp
  · exact absurd hcall Bool.false_ne_true

theorem mkdirInParent_named (hdirs : T.dirs ⊆ T.live) (h : Shelf T p es)
    (hname : name.length ≤ 255) {mode uid gid timestamp : ℕ} :
    (mkdirInParent ufs p name mode uid gid timestamp).hoare ufs.Stores T
      (fun m T' => Named T' p es name m (.mkdir mode uid gid timestamp)) (fun _ _ => True) := by
  refine hoare_stored fun image hst => ?_
  have hp0 : p ≠ 0 := by
    obtain ⟨D, own, -, hv⟩ := hst
    have := hv.live_ge h.live
    omega
  have hp32 := (hst.used_lt (Finset.mem_union_right _ h.live)).2
  have hmax := hst.geom.inodes_lt
  rw [mkdirInParent]
  refine (readInodeOr_stores h.live _).step fun i hi => ?_
  subst hi
  rw [if_neg (not_not.mpr h.isDir)]
  refine newInode_stores (fun _ _ _ _ => trivial) fun m hm hm2 hlt _ => ?_
  have hu := unnamed_create hdirs h hm true
    (Dinode.fresh (ufsIfdir ||| permissionsOf mode) uid gid 2 timestamp)
  have hm32 : m < 2 ^ 32 := by
    rw [Superblock.inodes] at hlt
    omega
  obtain ⟨block, hblock, hlen, hdots⟩ := buildDirectoryBlock_eq (by omega) hm32 hp0 hp32
  refine Act.hoare_lift_bind hblock ?_
  refine ((setInodeContents_stores hu.live (by rw [hlen]; norm_num)).mono (fun _ _ hq => hq)
    fun _ _ _ => trivial).bind ?_
  rintro - T₂ ⟨j, room, rfl, hcore, -⟩
  obtain ⟨hs₂, hfile, hparent⟩ := @Unnamed.setFile T p es _ m true _ j hu block room
  have hadd := @addDirectoryEntry_shelf ufs _ p m es name hs₂ hname hu.used (by omega)
  rw [hparent] at hadd
  refine (hadd.mono (fun _ _ hq => hq) fun _ _ _ => trivial).bind ?_
  intro _ T' hT'
  have hnamed : Named T' p es name m (.mkdir mode uid gid timestamp) := by
    refine hT'.named hu.live hu.apart ?_ hu.dirs fun _ => ⟨p, ?_⟩
    · rw [hfile, Dinode.isDirectory_of_core hcore, hu.file]
      exact fresh_isDirectory (by decide) mode uid gid 2 timestamp
    · rw [hfile]
      exact hdots
  obtain ⟨es', -, hs'⟩ := hnamed.shelf
  exact (writeInodeNlink_stores hs'.live).seq (Act.hoare_pure (hnamed.setNlink p _))

theorem mknodInParent_named (hdirs : T.dirs ⊆ T.live) (h : Shelf T p es)
    (hname : name.length ≤ 255) {fileType major minor mode uid gid timestamp : ℕ} :
    (mknodInParent ufs p name fileType major minor mode uid gid timestamp).hoare ufs.Stores T
      (fun m T' => Named T' p es name m (.mknod fileType major minor mode uid gid timestamp))
      (fun _ _ => True) := by
  rw [mknodInParent]
  refine Act.hoare_ite (fun _ => Act.hoare_fail fun _ _ => trivial) fun htype => ?_
  have hspecial : fileType = ufsIfchr ∨ fileType = ufsIfblk :=
    (not_and_or.mp htype).imp not_not.mp not_not.mp
  have htyped : fileType &&& ufsIfmt = fileType ∧ fileType ≠ ufsIfdir := by
    cases hspecial with
    | inl h => rw [h]; decide
    | inr h => rw [h]; decide
  refine (readInodeOr_stores h.live _).step fun i hi => ?_
  subst hi
  rw [if_neg (not_not.mpr h.isDir)]
  refine newInode_stores (fun _ _ _ _ => trivial) fun m hm hm2 _ _ => ?_
  have hu := unnamed_create hdirs h hm false
    (Dinode.fresh (fileType ||| permissionsOf mode) uid gid 1 timestamp)
  have hempty := congrArg File.body hu.file
  refine (writeInodeSize_stores hu.live hempty).seq ?_
  refine (writeInodeBlocks_stores hu.live hempty).seq ?_
  dsimp only
  rw [writeBlockLists_mod]
  refine (writeDevice_stores hu.live hempty (by simp) ?_).bind ?_
  · intro v hv
    obtain ⟨w, -, rfl⟩ := List.mem_map.mp hv
    exact Nat.mod_lt _ (Nat.two_pow_pos 32)
  rintro - T₂ ⟨j, rfl, hcore, -⟩
  obtain ⟨hs₂, hfile, hparent⟩ := @Unnamed.setFile T p es _ m false _ j hu [] T.room
  have hadd := @addDirectoryEntry_shelf ufs _ p m es name hs₂ hname hu.used (by omega)
  rw [hparent] at hadd
  rw [Table.setInode, hu.file]
  refine (hadd.mono (fun _ _ hq => hq) fun _ _ _ => trivial).bind ?_
  intro _ T' hT'
  refine Act.hoare_pure (hT'.named hu.live hu.apart ?_ hu.dirs fun hcall => ?_)
  · rw [hfile, Dinode.isDirectory_of_core hcore, hu.file]
    exact (fresh_isDirectory htyped.1 mode uid gid 1 timestamp).trans (decide_eq_false htyped.2)
  · exact absurd hcall Bool.false_ne_true

theorem linkInParent_named (hc : Carries T N N.links) (h : Shelf T p es)
    (hname : name.length ≤ 255) {target : ℕ} (ht : target ∈ T.live) :
    (NameCall.run ufs p name (.link target)).hoare ufs.Stores T
      (fun m T' => Named T' p es name m (.link target)) (fun _ _ => True) := by
  refine hoare_stored fun image hst => ?_
  have ht0 : target ≠ 0 := by
    obtain ⟨D, own, -, hv⟩ := hst
    have := hv.live_ge ht
    omega
  refine Act.hoare.bind (P := fun _ T' => Named T' p es name target (.link target)) ?_
    fun _ T' h' => Act.hoare_pure h'
  rw [linkInParent]
  refine (readInodeOr_stores h.live _).step fun i hi => ?_
  subst hi
  refine (readInodeOr_stores ht _).step fun i hi => ?_
  subst hi
  refine Act.hoare_ite (fun _ => Act.hoare_fail fun _ _ => trivial) fun hnd => ?_
  have hfile : (T.file target).inode.isDirectory = false := Bool.not_eq_true _ ▸ hnd
  have htp : target ≠ p := by
    rintro rfl
    exact hnd h.isDir
  have htd : target ∉ T.dirs := by
    rw [hc.dirs]
    exact fun hd => hnd ((hc.isDir target (hc.live ▸ ht)).mpr hd)
  refine ((addDirectoryEntry_shelf h hname (Finset.mem_union_right _ ht) ht0).mono
    (fun _ _ hq => hq) fun _ _ _ => trivial).bind ?_
  intro _ T' hT'
  have hnamed : Named T' p es name target (.link target) :=
    hT'.named ht htp hfile (iff_of_false htd Bool.false_ne_true) fun hcall =>
      absurd hcall Bool.false_ne_true
  refine (writeInodeNlink_stores hnamed.live).post ?_
  rintro - T'' rfl
  exact hnamed.setNlink target _

/-- Each of the calls enters the name, as long as it can be decoded. -/
theorem NameCall.run_named {image : Bytes} (hi : ufs.Stores image T) (hc : Carries T N N.links)
    (hs : N.Sound) (h : Shelf T p es) (hname : name.length ≤ 255) {call : NameCall}
    (hg : call.Given image ufs) :
    (call.run ufs p name).hoare ufs.Stores T (fun m T' => Named T' p es name m call)
      (fun _ _ => True) := by
  have hdirs : T.dirs ⊆ T.live := by
    rw [hc.dirs, hc.live]
    exact hs.dirs_live
  cases call with
  | createEmpty mode uid gid ts =>
    exact (createEmptyInParent_named hdirs h hname).mono (fun _ _ hq => hq) fun _ _ _ => trivial
  | mkdir mode uid gid ts => exact mkdirInParent_named hdirs h hname
  | symlink target mode uid gid ts => exact symlinkInParent_named hdirs h hname hg
  | mknod type major minor mode uid gid ts => exact mknodInParent_named hdirs h hname
  | link target => exact linkInParent_named hc h hname (hc.live_of_inUse hi hg)

end Entering

/-! ## Finding -/
section Lookup
variable {ufs : Ufs} {image : Bytes} {name : Str}

/-- No record header says more than 255. -/
theorem decodeDirectoryHeader_nameLength {bytes : Bytes} {offset stop : ℕ} {header : DirEntryHeader}
    (h : decodeDirectoryHeader bytes offset stop = some header) : header.nameLength ≤ 255 := by
  unfold decodeDirectoryHeader at h
  dsimp only at h
  split_ifs at h with _ _ hbad
  obtain rfl := Option.some.inj h
  exact not_lt.mp fun hlt => hbad (.inl hlt)

theorem scanBlockFor_long {block : Bytes} {span : ℕ} (hlong : 255 < name.length) :
    ∀ fuel cursor, scanBlockFor block name span fuel cursor = none := by
  intro fuel
  induction fuel with
  | zero => exact fun _ => rfl
  | succ fuel ih =>
    intro cursor
    unfold scanBlockFor
    split_ifs with h
    · cases hd : decodeDirectoryHeader block cursor span with
      | none => rfl
      | some header =>
        have hle := decodeDirectoryHeader_nameLength hd
        dsimp only
        rw [if_neg (by omega)]
        exact ih _
    · rfl

/-- A name of more than 255 bytes is never found. -/
theorem lookupDirectoryEntry_long (hlong : 255 < name.length) (inode : Inode) (r : ℕ × Inode) :
    lookupDirectoryEntry image ufs inode name ≠ .ok (some r) := by
  have hloop : ∀ (size : ℕ) (blocks offsets : List ℕ),
      lookupLoop image ufs size blocks name offsets ≠ .ok (some r) := by
    intro size blocks offsets
    induction offsets with
    | nil =>
      intro h
      cases h
    | cons offset rest ih =>
      intro h
      unfold lookupLoop at h
      dsimp only at h
      cases hb : blocks[offset / ufs.sb.bsize]? with
      | none =>
        rw [hb] at h
        cases h
      | some fsBlock =>
        rw [hb] at h
        obtain ⟨block, -, h⟩ := Outcome.bind_eq_ok.mp h
        rw [scanBlockFor_long hlong] at h
        exact ih h
  intro h
  unfold lookupDirectoryEntry at h
  split_ifs at h
  · cases h
  · obtain ⟨blocks, -, h⟩ := Outcome.bind_eq_ok.mp h
    exact hloop _ _ _ h

end Lookup

/-! ## There and back -/
section RoundTrip
variable {ufs : Ufs} {image image' : Bytes} {p m : ℕ} {name : Str} {call : NameCall}

/-- What a call that entered a short name has done. -/
theorem NameCall.entered (h : Consistent image ufs) (hp : isDir image ufs p = true)
    (hfresh : ∀ e ∈ entriesAt image ufs p, e.name ≠ name) (hg : call.Given image ufs)
    (hrun : call.run ufs p name image = (.ok m, image')) (hname : name.length ≤ 255) :
    ∃ es T', (∀ e ∈ es, e.name ≠ name) ∧
      namesAt image ufs p = ((shownNames es).mergeSort fun a b => strLe a.1 b.1) ∧
      ufs.Stores image' T' ∧ Named T' p es name m call := by
  obtain ⟨T, N, hst, hc, hs⟩ := h
  have hsh := hc.shows hs hst
  have hd := hsh.isDir.mp hp
  have hpl := hs.dirs_live hd
  obtain ⟨es, hbody, hes⟩ := hc.body p hd
  have hshelf : Shelf T p es := ⟨hc.live ▸ hpl, (hc.isDir p hpl).mpr hd, hbody⟩
  have hnew : ∀ e ∈ es, e.name ≠ name := fun e he =>
    hfresh e ((hsh.mem_entriesAt hd).mpr (hes ▸ Multiset.mem_coe.mpr he))
  obtain ⟨T', hst', hnamed⟩ := (NameCall.run_named hst hc hs hshelf hname hg).ok hst hrun
  exact ⟨es, T', hnew, hst.namesAt hshelf.live hbody, hst', hnamed⟩

/-- A name that went round is no longer than a record header may say. -/
theorem RoundTrips.short (hr : RoundTrips ufs p name call m image image') : name.length ≤ 255 := by
  by_contra hlong
  obtain ⟨inode, child, -, hfound⟩ := hr.found
  exact lookupDirectoryEntry_long (not_le.mp hlong) inode _ hfound

/-- Only an inode of the type that it counts as can be taken away by its name. -/
theorem RoundTrips.typed (hr : RoundTrips ufs p name call m image image')
    (h : Consistent image ufs) (hp : isDir image ufs p = true)
    (hfresh : ∀ e ∈ entriesAt image ufs p, e.name ≠ name) (hg : call.Given image ufs)
    (hrun : call.run ufs p name image = (.ok m, image')) : call.isTyped = call.isMkdir := by
  obtain ⟨es, T', hnew, -, hst', hnamed⟩ := NameCall.entered h hp hfresh hg hrun hr.short
  obtain ⟨image'', hundo, -⟩ := hr.restored
  cases call with
  | createEmpty mode uid gid ts =>
    by_contra htype
    obtain ⟨es', hins, hs'⟩ := hnamed.shelf
    have hdir := hnamed.isDir
    rw [Bool.eq_true_of_not_eq_false htype] at hdir
    obtain ⟨-, -, hno⟩ :=
      (unlinkInParent_refuses hs' hnamed.live (find_inserted hins hnew) hdir).ok hst' hundo
    exact hno
  | mkdir mode uid gid ts => rfl
  | symlink target mode uid gid ts => rfl
  | mknod type major minor mode uid gid ts => rfl
  | link target => rfl

/-- The listing is restored only for an ASCII name, because the removal reads names decoded. -/
theorem RoundTrips.ascii (hr : RoundTrips ufs p name call m image image')
    (h : Consistent image ufs) (hp : isDir image ufs p = true) (hne : name ≠ [])
    (hfresh : ∀ e ∈ entriesAt image ufs p, e.name ≠ name) (hg : call.Given image ufs)
    (hrun : call.run ufs p name image = (.ok m, image')) : Ascii name := by
  have htype := hr.typed h hp hfresh hg hrun
  obtain ⟨es, T', hnew, hbefore, hst', hnamed⟩ := NameCall.entered h hp hfresh hg hrun hr.short
  obtain ⟨image'', hundo, hafter⟩ := hr.restored
  by_contra hascii
  obtain ⟨es', hins, hspec⟩ := @NameCall.undo_shelf ufs T' p es name m call hnamed hnew htype
  obtain ⟨T'', hst'', -, es'', hedit, hs''⟩ := hspec.ok hst' hundo
  rw [hst''.namesAt hs''.live hs''.body, hbefore] at hafter
  have hsorted := List.mergeSort_perm (shownNames es'') fun a b => strLe a.1 b.1
  rw [hafter] at hsorted
  exact shownNames_lossy hne hascii hins hedit (hsorted.symm.trans (List.mergeSort_perm _ _))

/-- A short ASCII name goes round. -/
theorem roundTrips_of_ascii (h : Consistent image ufs) (hp : isDir image ufs p = true)
    (hne : name ≠ []) (hfresh : ∀ e ∈ entriesAt image ufs p, e.name ≠ name)
    (hg : call.Given image ufs) (hrun : call.run ufs p name image = (.ok m, image'))
    (hascii : Ascii name) (hname : name.length ≤ 255) (htype : call.isTyped = call.isMkdir) :
    RoundTrips ufs p name call m image image' := by
  obtain ⟨es, T', hnew, hbefore, hst', hnamed⟩ := NameCall.entered h hp hfresh hg hrun hname
  obtain ⟨es', hins, hspec⟩ := @NameCall.undo_shelf ufs T' p es name m call hnamed hnew htype
  obtain ⟨es₁, hins₁, hs₁⟩ := hnamed.shelf
  have hlist := hst'.namesAt hs₁.live hs₁.body
  constructor
  · refine ⟨_, (T'.file m).inode.toInode, hst'.readInode hs₁.live, ?_⟩
    rw [hst'.lookupDirectoryEntry hs₁.live hs₁.body, find_inserted hins₁ hnew, Option.bind_some,
      hst'.readInode hnamed.live]
    rfl
  · rw [hlist, List.mem_mergeSort]
    obtain ⟨us, vs, -, rfl⟩ := hins₁
    have hmem := @mem_shownNames (us ++ ⟨name, m⟩ :: vs) ⟨name, m⟩ (by simp) hne
    rwa [decodeAsciiReplace_of_ascii hascii] at hmem
  · rw [hlist, hbefore]
    exact (List.mergeSort_perm _ _).subperm.trans ((shownNames_inserted hins₁).subperm.trans
      (List.mergeSort_perm _ _).symm.subperm)
  · have hedit := editFirst_inserted hins hascii hnew
    cases (hspec.run image' hst').ok_or_err with
    | inl hok =>
      obtain ⟨r, image'', hundo, T'', hst'', rfl, es'', hedit', hs''⟩ := hok
      rw [hedit, Option.some.injEq] at hedit'
      subst hedit'
      exact ⟨image'', hundo, (hst''.namesAt hs''.live hs''.body).trans hbefore.symm⟩
    | inr herr =>
      obtain ⟨e, image'', -, hnone⟩ := herr
      rw [hedit] at hnone
      cases hnone

/-- Where an inode and a block are left, an empty file can be given any short name. -/
theorem Ufs.Stores.createEmptyInParent_ok {T : Table} {N : NameTree} (hi : ufs.Stores image T)
    (hc : Carries T N N.links) (hs : N.Sound) (hp : p ∈ N.dirs) (hname : name.length ≤ 255)
    (hinode : T.used.card ≠ ufs.sb.inodes)
    (hroom : ufs.sb.blocksNeeded ((T.file p).body.length + ufsDirblksiz) ≤ T.room p)
    (mode uid gid timestamp : ℕ) :
    ∃ m image', createEmptyInParent ufs p name mode uid gid timestamp image = (.ok m, image') := by
  have hdirs : T.dirs ⊆ T.live := by
    rw [hc.dirs, hc.live]
    exact hs.dirs_live
  have hpl := hs.dirs_live hp
  obtain ⟨es, hbody, -⟩ := hc.body p hp
  have hshelf : Shelf T p es := ⟨hc.live ▸ hpl, (hc.isDir p hpl).mpr hp, hbody⟩
  cases ((createEmptyInParent_named hdirs hshelf hname).run image hi).ok_or_err with
  | inl hok =>
    obtain ⟨m, image', hrun, -⟩ := hok
    exact ⟨m, image', hrun⟩
  | inr herr =>
    obtain ⟨e, image', -, hshort⟩ := herr
    cases hshort with
    | inl hfull => exact absurd hfull hinode
    | inr hshort => exact absurd hroom (not_le.mpr (hshort.trans_le (entryCost_le _ _ _)))

/-- In a blank root any short name but "." and ".." is new and can be entered. -/
theorem blank_createEmpty (hfresh : FreshVolume blankUfs image) (hname : name.length ≤ 255)
    (h1 : name ≠ dotName) (h2 : name ≠ dotdotName) (mode uid gid timestamp : ℕ) :
    isDir image blankUfs ufsRootInode = true ∧
      (∀ e ∈ entriesAt image blankUfs ufsRootInode, e.name ≠ name) ∧
      ∃ m image', createEmptyInParent blankUfs ufsRootInode name mode uid gid timestamp image =
        (.ok m, image') := by
  obtain ⟨T, hst, hc, -, hsize⟩ := hfresh
  have hsh := hc.shows NameTree.fresh_sound hst
  have hroot : ufsRootInode ∈ NameTree.fresh.dirs := Finset.mem_singleton_self _
  have hn : ufsRootInode ∈ T.live := hc.live ▸ NameTree.fresh_sound.dirs_live hroot
  have hlen : (T.file ufsRootInode).body.length = 512 := (hst.body_length hn).trans hsize
  refine ⟨hsh.isDir.mpr hroot, (hsh.fresh hroot).mpr fun hmem => ?_,
    hst.createEmptyInParent_ok hc NameTree.fresh_sound hroot hname ?_ ?_ mode uid gid timestamp⟩
  · obtain ⟨e, he, hen⟩ := Multiset.mem_map.mp hmem
    simp only [NameTree.records, NameTree.fresh, Multiset.mem_cons, Multiset.notMem_zero,
      or_false] at he
    cases he with
    | inl he => exact h1 (hen.symm.trans (congrArg Entry.name he))
    | inr he => exact h2 (hen.symm.trans (congrArg Entry.name he))
  · rw [Table.used, hc.reserved, hc.live]
    decide
  · rw [blank_room hst hc.live, hlen]
    decide

end RoundTrip
end UfsFuse
