import UfsFuse.DirOps
import UfsFuse.NameTree

/-!
# Tables that carry a tree of names

`Carries T N links`: the directories of the table are those of the tree, with the same entries, and
every file has the link count that `links` says. Each change of the table by the write path is a
change of the tree. In a consistent image the link counts are the numbers of records.
-/
namespace UfsFuse

structure Carries (T : Table) (N : NameTree) (links : ℕ → ℕ) : Prop where
  live : T.live = N.live
  dirs : T.dirs = N.dirs
  reserved : T.reserved = {0, 1}
  isDir : ∀ n ∈ N.live, (T.file n).inode.isDirectory = true ↔ n ∈ N.dirs
  body : ∀ d ∈ N.dirs, ∃ es : List Entry, Directory (T.file d).body es ∧
    (es : Multiset Entry) = N.records d
  nlink : ∀ n ∈ N.live, (T.file n).inode.nlink = links n

/-- The fields of an inode that no operation on names changes. -/
def Dinode.attrs (i : Dinode) : Dinode := { i.core with nlink := 0 }

/-- Files that stay in the table keep their attributes, and their bytes unless they are
directories. -/
structure Table.Keeps (T T' : Table) : Prop where
  packed : T'.packed = T.packed
  slack : T'.slack = T.slack
  files : ∀ n ∈ T.live, n ∈ T'.live → (T'.file n).inode.attrs = (T.file n).inode.attrs ∧
    (n ∉ T.dirs → (T'.file n).body = (T.file n).body)

theorem Dinode.isDirectory_of_core {i j : Dinode} (h : i.core = j.core) :
    i.isDirectory = j.isDirectory := by
  have hm : i.mode = j.mode := show i.core.mode = j.core.mode by rw [h]
  rw [Inode.isDirectory, Inode.isDirectory, Inode.fileType, Inode.fileType, hm]

theorem Dinode.nlink_of_core {i j : Dinode} (h : i.core = j.core) : i.nlink = j.nlink :=
  show i.core.nlink = j.core.nlink by rw [h]

theorem Dinode.attrs_of_core {i j : Dinode} (h : i.core = j.core) : i.attrs = j.attrs := by
  rw [attrs, attrs, h]

theorem Dinode.attrs_nlink (i : Dinode) (v : ℕ) : ({ i with nlink := v } : Dinode).attrs = i.attrs :=
  rfl

/-- One file of the table is replaced. -/
theorem Table.setFile_of_ne (T : Table) {n m : ℕ} (h : m ≠ n) (f : File) (room : ℕ → ℕ) :
    (T.setFile n f room).file m = T.file m := Function.update_of_ne h _ _

@[simp] theorem Table.setFile_self (T : Table) (n : ℕ) (f : File) (room : ℕ → ℕ) :
    (T.setFile n f room).file n = f := Function.update_self ..

namespace Carries
variable {T T' : Table} {N : NameTree} {links : ℕ → ℕ} {n p m : ℕ}

/-- Another inode and body for one file; the kind of the file stays. -/
theorem setFile (h : Carries T N links) (f : File) (room : ℕ → ℕ) (v : ℕ) (kids : ℕ → Multiset Entry)
    (up : ℕ → ℕ)
    (hdir : n ∈ N.live → (f.inode.isDirectory = true ↔ n ∈ N.dirs)) (hv : f.inode.nlink = v)
    (hkids : ∀ d ∈ N.dirs, d ≠ n → kids d = N.kids d ∧ up d = N.up d)
    (hbody : n ∈ N.dirs → ∃ es : List Entry, Directory f.body es ∧
      (es : Multiset Entry) = ⟨dotName, n⟩ ::ₘ ⟨dotdotName, up n⟩ ::ₘ kids n) :
    Carries (T.setFile n f room) { N with kids := kids, up := up } (Function.update links n v) where
  live := h.live
  dirs := h.dirs
  reserved := h.reserved
  isDir x hx := by
    by_cases hxn : x = n
    · subst hxn
      rw [Table.setFile_self]
      exact hdir hx
    · rw [T.setFile_of_ne hxn]
      exact h.isDir x hx
  body d hd := by
    by_cases hdn : d = n
    · subst hdn
      rw [Table.setFile_self]
      exact hbody hd
    · obtain ⟨hk, hu⟩ := hkids d hd hdn
      rw [T.setFile_of_ne hdn, NameTree.records]
      dsimp only
      rw [hk, hu]
      exact h.body d hd
  nlink x hx := by
    by_cases hxn : x = n
    · subst hxn
      rw [Table.setFile_self, Function.update_self]
      exact hv
    · rw [T.setFile_of_ne hxn, Function.update_of_ne hxn]
      exact h.nlink x hx

/-- New contents of a file that is not a directory. -/
theorem setContents (h : Carries T N links) (hn : n ∈ N.live) (hnd : n ∉ N.dirs) (i : Dinode)
    (body : Bytes) (room : ℕ → ℕ) (hi : i.core = (T.file n).inode.core) :
    Carries (T.setFile n ⟨i, body⟩ room) N links := by
  have hc := h.setFile ⟨i, body⟩ room (links n) N.kids N.up
    (fun _ => by rw [Dinode.isDirectory_of_core hi]; exact h.isDir n hn)
    ((Dinode.nlink_of_core hi).trans (h.nlink n hn)) (fun _ _ _ => ⟨rfl, rfl⟩)
    fun hd => absurd hd hnd
  rwa [Function.update_eq_self] at hc

/-- Another list of entries in one directory. -/
theorem setEntries (h : Carries T N links) (room : ℕ → ℕ) (hdirs : N.dirs ⊆ N.live) (hp : p ∈ N.dirs)
    {i : Dinode} {body : Bytes} {q : ℕ} {es : List Entry} {ks : Multiset Entry}
    (hi : i.core = (T.file p).inode.core) (hb : Directory body es)
    (hes : (es : Multiset Entry) = ⟨dotName, p⟩ ::ₘ ⟨dotdotName, q⟩ ::ₘ ks) :
    Carries (T.setFile p ⟨i, body⟩ room)
      { N with kids := Function.update N.kids p ks, up := Function.update N.up p q } links := by
  have hl := hdirs hp
  have hc := h.setFile (n := p) ⟨i, body⟩ room (links p) (Function.update N.kids p ks)
    (Function.update N.up p q)
    (fun _ => by rw [Dinode.isDirectory_of_core hi]; exact h.isDir p hl)
    ((Dinode.nlink_of_core hi).trans (h.nlink p hl))
    (fun d _ hd => ⟨Function.update_of_ne hd _ _, Function.update_of_ne hd _ _⟩)
    fun _ => ⟨es, hb, by rw [Function.update_self, Function.update_self]; exact hes⟩
  rwa [Function.update_eq_self] at hc

/-- Another link count. -/
theorem setNlink (h : Carries T N links) (hn : n ∈ N.live) (v : ℕ) :
    Carries (T.setInode n { (T.file n).inode with nlink := v }) N (Function.update links n v) :=
  h.setFile _ _ v N.kids N.up (fun _ => h.isDir n hn) rfl (fun _ _ _ => ⟨rfl, rfl⟩)
    fun hd => h.body n hd

/-- Other attributes. -/
theorem setAttrs (h : Carries T N links) (hn : n ∈ N.live) {i : Dinode}
    (hd : i.isDirectory = (T.file n).inode.isDirectory) (hl : i.nlink = (T.file n).inode.nlink) :
    Carries (T.setInode n i) N links := by
  have hc := h.setFile ⟨i, (T.file n).body⟩ T.room (links n) N.kids N.up
    (fun _ => by rw [hd]; exact h.isDir n hn) (hl.trans (h.nlink n hn)) (fun _ _ _ => ⟨rfl, rfl⟩)
    fun hd => h.body n hd
  rwa [Function.update_eq_self] at hc

/-- The table after a reserved inode has become a file. -/
theorem create_eq {d : Bool} {i : Dinode} (hm : m ∉ T.reserved) :
    (T.reserve m d).create m i = { T with
      live := insert m T.live
      dirs := if d then insert m T.dirs else T.dirs
      file := Function.update T.file m ⟨i, []⟩ } := by
  simp only [Table.reserve, Table.create, Finset.erase_insert hm]

/-- A new file that is not a directory. -/
theorem newFile (h : Carries T N links) (hdirs : N.dirs ⊆ N.live) (hm : m ∉ T.used) {i : Dinode}
    (hi : i.isDirectory = false) :
    Carries ((T.reserve m false).create m i) { N with live := insert m N.live }
      (Function.update links m i.nlink) := by
  have hml : m ∉ N.live := fun hh => hm (Finset.mem_union_right _ (h.live ▸ hh))
  have hmd : m ∉ N.dirs := fun hh => hml (hdirs hh)
  have hmr : m ∉ T.reserved := fun hh => hm (Finset.mem_union_left _ hh)
  rw [create_eq hmr]
  refine ⟨?_, h.dirs, h.reserved, fun x hx => ?_, fun d hd => ?_, fun x hx => ?_⟩
  · rw [h.live]
  · by_cases hxm : x = m
    · subst hxm
      dsimp only
      rw [Function.update_self, hi]
      exact iff_of_false Bool.false_ne_true hmd
    · dsimp only
      rw [Function.update_of_ne hxm]
      exact h.isDir x (Finset.mem_of_mem_insert_of_ne hx hxm)
  · have hdm : d ≠ m := fun hh => hmd (hh ▸ hd)
    dsimp only
    rw [Function.update_of_ne hdm]
    exact h.body d hd
  · by_cases hxm : x = m
    · subst hxm
      dsimp only
      rw [Function.update_self, Function.update_self]
    · dsimp only
      rw [Function.update_of_ne hxm, Function.update_of_ne hxm]
      exact h.nlink x (Finset.mem_of_mem_insert_of_ne hx hxm)

/-- A new directory with its first block. -/
theorem newDir (h : Carries T N links) (p : ℕ) (room : ℕ → ℕ) (hdirs : N.dirs ⊆ N.live)
    (hm : m ∉ T.used) {i j : Dinode}
    (hi : j.isDirectory = true) (hij : i.core = j.core) {body : Bytes} {es : List Entry}
    (hb : Directory body es) (hes : (es : Multiset Entry) = {⟨dotName, m⟩, ⟨dotdotName, p⟩}) :
    Carries (((T.reserve m true).create m j).setFile m ⟨i, body⟩ room)
      ⟨insert m N.live, insert m N.dirs, Function.update N.kids m 0, Function.update N.up m p⟩
      (Function.update links m j.nlink) := by
  have hml : m ∉ N.live := fun hh => hm (Finset.mem_union_right _ (h.live ▸ hh))
  have hmd : m ∉ N.dirs := fun hh => hml (hdirs hh)
  have hmr : m ∉ T.reserved := fun hh => hm (Finset.mem_union_left _ hh)
  rw [create_eq hmr]
  refine ⟨?_, ?_, h.reserved, fun x hx => ?_, fun d hd => ?_, fun x hx => ?_⟩
  · rw [← h.live]
    rfl
  · rw [← h.dirs]
    rfl
  · by_cases hxm : x = m
    · subst hxm
      rw [Table.setFile_self]
      dsimp only
      rw [Dinode.isDirectory_of_core hij, hi]
      exact iff_of_true rfl (Finset.mem_insert_self _ _)
    · rw [Table.setFile_of_ne _ hxm]
      dsimp only
      rw [Function.update_of_ne hxm, Finset.mem_insert, or_iff_right hxm]
      exact h.isDir x (Finset.mem_of_mem_insert_of_ne hx hxm)
  · by_cases hdm : d = m
    · subst hdm
      rw [Table.setFile_self]
      refine ⟨es, hb, ?_⟩
      rw [NameTree.records, hes]
      dsimp only
      rw [Function.update_self, Function.update_self]
      rfl
    · rw [Table.setFile_of_ne _ hdm, NameTree.records]
      dsimp only
      rw [Function.update_of_ne hdm, Function.update_of_ne hdm, Function.update_of_ne hdm]
      exact h.body d (Finset.mem_of_mem_insert_of_ne hd hdm)
  · by_cases hxm : x = m
    · subst hxm
      rw [Table.setFile_self, Function.update_self]
      exact Dinode.nlink_of_core hij
    · rw [Table.setFile_of_ne _ hxm, Function.update_of_ne hxm]
      dsimp only
      rw [Function.update_of_ne hxm]
      exact h.nlink x (Finset.mem_of_mem_insert_of_ne hx hxm)

/-- A file is given back. -/
theorem remove (h : Carries T N links) (f : File) (room : ℕ → ℕ) :
    Carries ((T.setFile n f room).remove n)
      { N with live := N.live.erase n, dirs := N.dirs.erase n } links where
  live := by rw [← h.live]; rfl
  dirs := by rw [← h.dirs]; rfl
  reserved := h.reserved
  isDir x hx := by
    have hxn := Finset.ne_of_mem_erase hx
    have hf : ((T.setFile n f room).remove n).file x = T.file x := T.setFile_of_ne hxn f room
    rw [hf, Finset.mem_erase, and_iff_right hxn]
    exact h.isDir x (Finset.mem_of_mem_erase hx)
  body d hd := by
    have hf : ((T.setFile n f room).remove n).file d = T.file d :=
      T.setFile_of_ne (Finset.ne_of_mem_erase hd) f room
    rw [hf]
    exact h.body d (Finset.mem_of_mem_erase hd)
  nlink x hx := by
    have hf : ((T.setFile n f room).remove n).file x = T.file x :=
      T.setFile_of_ne (Finset.ne_of_mem_erase hx) f room
    rw [hf]
    exact h.nlink x (Finset.mem_of_mem_erase hx)

end Carries

/-! ## What is kept -/
namespace Table.Keeps
variable {T T' T'' : Table} {n : ℕ}

theorem refl (T : Table) : T.Keeps T := ⟨rfl, rfl, fun _ _ _ => ⟨rfl, fun _ => rfl⟩⟩

/-- Files that stay through two changes, directories staying directories. -/
theorem trans (h : T.Keeps T') (h' : T'.Keeps T'') (hl : ∀ n ∈ T.live, n ∈ T''.live → n ∈ T'.live)
    (hd : ∀ n ∈ T.live, n ∈ T''.live → n ∈ T'.dirs → n ∈ T.dirs) : T.Keeps T'' := by
  refine ⟨h'.packed.trans h.packed, h'.slack.trans h.slack, fun n hn hn'' => ?_⟩
  have hn' := hl n hn hn''
  obtain ⟨h1, h2⟩ := h.files n hn hn'
  obtain ⟨h3, h4⟩ := h'.files n hn' hn''
  exact ⟨h3.trans h1, fun hnd => (h4 fun hh => hnd (hd n hn hn'' hh)).trans (h2 hnd)⟩

theorem setFile {f : File} {room : ℕ → ℕ} (ha : f.inode.attrs = (T.file n).inode.attrs)
    (hb : n ∈ T.live → n ∉ T.dirs → f.body = (T.file n).body) : T.Keeps (T.setFile n f room) := by
  refine ⟨rfl, rfl, fun x hx _ => ?_⟩
  by_cases hxn : x = n
  · subst hxn
    rw [Table.setFile_self]
    exact ⟨ha, hb hx⟩
  · rw [T.setFile_of_ne hxn]
    exact ⟨rfl, fun _ => rfl⟩

/-- A file that is not there before or not there afterwards does not count. -/
theorem of_file (hp : T'.packed = T.packed) (hs : T'.slack = T.slack)
    (h : ∀ x ∈ T.live, x ∈ T'.live → T'.file x = T.file x) : T.Keeps T' := by
  refine ⟨hp, hs, fun x hx hx' => ?_⟩
  rw [h x hx hx']
  exact ⟨rfl, fun _ => rfl⟩

end Table.Keeps
end UfsFuse
