import UfsFuse.Populate
import UfsFuse.Refinement
import UfsFuse.Symlinks

/-!
# Copies of host trees

A host tree that is copied onto a slice is found there again: the same names in the same directories,
the same contents, targets and attributes, and hard links exactly where the host has them.
-/
namespace UfsFuse

/-! ## Host trees -/

def HostLeaf.count (info : HostMeta) (key : ℕ × ℕ) : HostLeaf → ℕ
  | .file _ => if 1 < info.nlink ∧ key = info.key then 1 else 0
  | _ => 0

theorem HostLeaf.count_other (info : HostMeta) (key : ℕ × ℕ) : HostLeaf.other.count info key = 0 := rfl

namespace HostDir

/-- The names that are copied into the directory itself. -/
def names : HostDir → List Str
  | nil => []
  | dir none _ _ rest => rest.names
  | dir (some name) _ _ rest => name :: rest.names
  | entry none _ _ rest => rest.names
  | entry (some _) _ .other rest => rest.names
  | entry (some name) _ _ rest => name :: rest.names

/-- How many directories are copied into the directory itself. -/
def subdirs : HostDir → ℕ
  | nil => 0
  | dir none _ _ rest => rest.subdirs
  | dir (some _) _ _ rest => 1 + rest.subdirs
  | entry _ _ _ rest => rest.subdirs

/-- How many names the file with this key has in the tree, if it has several on the host. -/
def count (key : ℕ × ℕ) : HostDir → ℕ
  | nil => 0
  | dir none _ _ rest => rest.count key
  | dir (some _) _ inside rest => inside.count key + rest.count key
  | entry none _ _ rest => rest.count key
  | entry (some _) info leaf rest => leaf.count info key + rest.count key

end HostDir

/-- A name that can be copied. -/
structure CopyName (name : Str) : Prop where
  ok : NameOk name
  dot : name ≠ dotName
  dotdot : name ≠ dotdotName

/-- A file that can be copied. Names of one file of the host, by its key, show the same file. -/
def HostLeaf.Ok (files : ℕ × ℕ → HostMeta × Bytes) (info : HostMeta) : HostLeaf → Prop
  | .symlink target => ∀ bytes, target = some bytes → bytes.length < 2 ^ 63
  | .file data => data.length < 2 ^ 63 ∧ (1 < info.nlink → files info.key = (info, data))
  | _ => True

/-- A tree that can be copied: names are distinct and fit, and so does every file. -/
def HostDir.Ok (files : ℕ × ℕ → HostMeta × Bytes) : HostDir → Prop
  | .nil => True
  | .dir none _ _ rest => rest.Ok files
  | .dir (some name) _ inside rest => CopyName name ∧ inside.names.Nodup ∧
      2 + inside.subdirs < 2 ^ 16 ∧ inside.Ok files ∧ rest.Ok files
  | .entry none _ _ rest => rest.Ok files
  | .entry (some name) info leaf rest => CopyName name ∧ leaf.Ok files info ∧ rest.Ok files

/-! ## Copies -/

/-- The attributes of a copy. -/
def PopulateOptions.attrs (o : PopulateOptions) (info : HostMeta) (mode nlink : ℕ) : Dinode :=
  (Dinode.fresh mode (o.owner info).1 (o.owner info).2 nlink o.timestamp).attrs

def HostMeta.fileMode (info : HostMeta) : ℕ := fileTypeOf info.perm ||| permissionsOf info.perm

section Copied
variable (o : PopulateOptions) (V : FileTree) (links : HardLinks) (B : Finset ℕ)

/-- A file with one name, not among those of `B`. -/
structure Unshared (n : ℕ) : Prop where
  fresh : n ∉ B
  once : V.names.links n = 1
  apart : ∀ key, links key ≠ some n

/-- Inode `n` is a copy of the file. -/
def HostLeaf.CopiedTo (info : HostMeta) (n : ℕ) : HostLeaf → Prop
  | .symlink target => V.attrs n = o.attrs info (ufsIflnk ||| permissionsOf 0o777) 1 ∧
      target = some (V.body n) ∧ Unshared V links B n
  | .file data => V.attrs n = o.attrs info info.fileMode 1 ∧ V.body n = data ∧
      if 1 < info.nlink then links info.key = some n else Unshared V links B n
  | .device block => V.attrs n = o.attrs info
      ((if block then ufsIfblk else ufsIfchr) ||| permissionsOf info.perm) 1 ∧
      Unshared V links B n
  | .other => False

/-- These entries, with what is below them, are a copy of the host's directory; its directories are
not among those of `B`. -/
inductive Copied : HostDir → Multiset Entry → Prop
  | nil : Copied .nil 0
  | dir {name n info inside rest es} (hn : n ∈ V.names.dirs) (hB : n ∉ B)
      (ha : V.attrs n = o.attrs info (ufsIfdir ||| permissionsOf info.perm) 2)
      (hi : Copied inside (V.names.kids n)) (hr : Copied rest es) :
      Copied (.dir (some name) info inside rest) (⟨name, n⟩ ::ₘ es)
  | entry {name n info leaf rest es} (hn : n ∈ V.names.live) (hd : n ∉ V.names.dirs)
      (hl : leaf.CopiedTo o V links B info n) (hr : Copied rest es) :
      Copied (.entry (some name) info leaf rest) (⟨name, n⟩ ::ₘ es)
  | skipDir {info inside rest es} (hr : Copied rest es) : Copied (.dir none info inside rest) es
  | skipEntry {info leaf rest es} (hr : Copied rest es) : Copied (.entry none info leaf rest) es
  | skipOther {name info rest es} (hr : Copied rest es) :
      Copied (.entry (some name) info .other rest) es

end Copied

/-! ## Growing trees -/

/-- The inodes of `B` are as they were, but for new entries in directory `p` and new names of files
with several names. -/
structure Grown (B : Finset ℕ) (p : ℕ) (V V' : FileTree) (links links' : HardLinks) : Prop where
  live : V.names.live ⊆ V'.names.live
  dirs : ∀ n ∈ B, n ∈ V'.names.dirs ↔ n ∈ V.names.dirs
  attrs : ∀ n ∈ B, V'.attrs n = V.attrs n
  body : ∀ n ∈ B, V'.body n = V.body n
  kids : ∀ d ∈ B, d ≠ p → V'.names.kids d = V.names.kids d
  count : ∀ n ∈ B, n ≠ p → (∀ key, links key ≠ some n) →
    V'.names.links n = V.names.links n ∧ ∀ key, links' key ≠ some n
  old : ∀ key n, links key = some n → links' key = some n

namespace Grown
variable {B B' : Finset ℕ} {p q : ℕ} {V V' V'' : FileTree} {links links' links'' : HardLinks}

theorem refl (B : Finset ℕ) (p : ℕ) (V : FileTree) (links : HardLinks) : Grown B p V V links links :=
  ⟨subset_rfl, fun _ _ => Iff.rfl, fun _ _ => rfl, fun _ _ => rfl, fun _ _ _ => rfl,
    fun _ _ _ hk => ⟨rfl, hk⟩, fun _ _ hk => hk⟩

theorem trans (h : Grown B p V V' links links') (h' : Grown B p V' V'' links' links'') :
    Grown B p V V'' links links'' where
  live := h.live.trans h'.live
  dirs n hn := (h'.dirs n hn).trans (h.dirs n hn)
  attrs n hn := (h'.attrs n hn).trans (h.attrs n hn)
  body n hn := (h'.body n hn).trans (h.body n hn)
  kids d hd hp := (h'.kids d hd hp).trans (h.kids d hd hp)
  count n hn hp hk := by
    obtain ⟨h₁, hk'⟩ := h.count n hn hp hk
    obtain ⟨h₂, hk''⟩ := h'.count n hn hp hk'
    exact ⟨h₂.trans h₁, hk''⟩
  old key n hk := h'.old key n (h.old key n hk)

/-- Growth of a directory outside `B` is no growth there. -/
theorem within (h : Grown B' q V V' links links') (hB : B ⊆ B') (hq : q ∉ B) :
    Grown B p V V' links links' where
  live := h.live
  dirs n hn := h.dirs n (hB hn)
  attrs n hn := h.attrs n (hB hn)
  body n hn := h.body n (hB hn)
  kids d hd _ := h.kids d (hB hd) fun hdq => hq (hdq ▸ hd)
  count n hn _ := h.count n (hB hn) fun hnq => hq (hnq ▸ hn)
  old := h.old

theorem mono (h : Grown B' p V V' links links') (hB : B ⊆ B') : Grown B p V V' links links' where
  live := h.live
  dirs n hn := h.dirs n (hB hn)
  attrs n hn := h.attrs n (hB hn)
  body n hn := h.body n (hB hn)
  kids d hd := h.kids d (hB hd)
  count n hn := h.count n (hB hn)
  old := h.old

end Grown

section Leaves
variable {o : PopulateOptions} {B B' : Finset ℕ} {p n : ℕ} {V V' : FileTree}
  {links links' : HardLinks} {info : HostMeta} {leaf : HostLeaf}

theorem Unshared.mono (h : Unshared V links B' n) (hB : B ⊆ B') : Unshared V links B n :=
  ⟨fun hn => h.fresh (hB hn), h.once, h.apart⟩

theorem HostLeaf.CopiedTo.mono (h : leaf.CopiedTo o V links B' info n) (hB : B ⊆ B') :
    leaf.CopiedTo o V links B info n := by
  cases leaf with
  | symlink => exact ⟨h.1, h.2.1, h.2.2.mono hB⟩
  | file =>
    refine ⟨h.1, h.2.1, ?_⟩
    have hlast := h.2.2
    split_ifs at hlast ⊢
    · exact hlast
    · exact hlast.mono hB
  | device => exact ⟨h.1, h.2.mono hB⟩
  | other => exact h

/-- The copy of a file stays one while a directory grows. -/
theorem HostLeaf.CopiedTo.grown (h : leaf.CopiedTo o V links B info n)
    (hg : Grown V.names.live p V V' links links') (hn : n ∈ V.names.live) (hp : p ∈ B) :
    leaf.CopiedTo o V' links' B info n := by
  have hU : Unshared V links B n → Unshared V' links' B n := by
    intro hu
    obtain ⟨hl, hk⟩ := hg.count n hn (fun he => hu.fresh (he ▸ hp)) hu.apart
    exact ⟨hu.fresh, hl.trans hu.once, hk⟩
  have hattrs := hg.attrs n hn
  have hbody := hg.body n hn
  cases leaf with
  | symlink => exact ⟨hattrs.trans h.1, hbody ▸ h.2.1, hU h.2.2⟩
  | file =>
    refine ⟨hattrs.trans h.1, hbody.trans h.2.1, ?_⟩
    have hlast := h.2.2
    split_ifs at hlast ⊢
    · exact hg.old _ _ hlast
    · exact hU hlast
  | device => exact ⟨hattrs.trans h.1, hU h.2⟩
  | other => exact h

end Leaves

namespace Copied
variable {o : PopulateOptions} {B B' : Finset ℕ} {p : ℕ} {V V' : FileTree}
  {links links' : HardLinks} {host : HostDir} {es : Multiset Entry}

theorem mono (h : Copied o V links B' host es) (hB : B ⊆ B') : Copied o V links B host es := by
  induction h with
  | nil => exact .nil
  | dir hn hB' ha _ _ ihi ihr => exact .dir hn (fun hn => hB' (hB hn)) ha ihi ihr
  | entry hn hd hl _ ihr => exact .entry hn hd (hl.mono hB) ihr
  | skipDir _ ih => exact .skipDir ih
  | skipEntry _ ih => exact .skipEntry ih
  | skipOther _ ih => exact .skipOther ih

/-- A copy stays a copy while a directory outside it grows. -/
theorem grown (h : Copied o V links B host es) (hg : Grown V.names.live p V V' links links')
    (hs : V.names.Sound) (hp : p ∈ B) : Copied o V' links' B host es := by
  induction h with
  | nil => exact .nil
  | @dir name n info inside rest es hn hB ha _ _ ihi ihr =>
    have hl := hs.dirs_live hn
    have hnp : n ≠ p := fun he => hB (he ▸ hp)
    rw [← hg.kids n hl hnp] at ihi
    exact .dir ((hg.dirs n hl).mpr hn) hB ((hg.attrs n hl).trans ha) ihi ihr
  | entry hn hd hl _ ihr =>
    exact .entry (hg.live hn) (fun hd' => hd ((hg.dirs _ hn).mp hd')) (hl.grown hg hn hp) ihr
  | skipDir _ ih => exact .skipDir ih
  | skipEntry _ ih => exact .skipEntry ih
  | skipOther _ ih => exact .skipOther ih

end Copied

/-! ## One step -/

/-- Every file with several names that has been copied is one inode, with the host's contents. -/
structure Shared (o : PopulateOptions) (files : ℕ × ℕ → HostMeta × Bytes) (V : FileTree)
    (links : HardLinks) : Prop where
  file : ∀ key n, links key = some n → n ∈ V.names.live ∧ n ∉ V.names.dirs
  same : ∀ key n, links key = some n →
    V.attrs n = o.attrs (files key).1 (files key).1.fileMode 1 ∧ V.body n = (files key).2
  inj : ∀ key key' n, links key = some n → links key' = some n → key = key'

/-- How many names the copy of a file with several names has so far. -/
def HardLinks.placed (links : HardLinks) (V : FileTree) (key : ℕ × ℕ) : ℕ :=
  (links key).elim 0 V.names.links

/-- `V'` is `V` with the entries `es`, `subdirs` of them directories, added to directory `p`, and with
`count` names more for the files with several names. -/
structure CopyStep (o : PopulateOptions) (files : ℕ × ℕ → HostMeta × Bytes) (B : Finset ℕ) (p : ℕ)
    (V V' : FileTree) (links links' : HardLinks) (subdirs : ℕ) (count : ℕ × ℕ → ℕ)
    (es : Multiset Entry) : Prop where
  grown : Grown B p V V' links links'
  kids : V'.names.kids p = es + V.names.kids p
  own : V'.names.links p = V.names.links p + subdirs
  shared : Shared o files V' links'
  counts : ∀ key, links'.placed V' key = links.placed V key + count key

section Step
variable {o : PopulateOptions} {files : ℕ × ℕ → HostMeta × Bytes} {B : Finset ℕ} {p q m s s' : ℕ}
  {V V' V'' : FileTree} {links links' links'' : HardLinks} {c c' : ℕ × ℕ → ℕ} {es es' : Multiset Entry}
  {name : Str} {i : Dinode} {data : Bytes} {key : ℕ × ℕ}

theorem NameTree.Sound.links_unused {N : NameTree} (hs : N.Sound) (hm : m ∉ N.live) :
    N.links m = 0 := by
  have hd : m ∉ N.dirs := fun hd => hm (hs.dirs_live hd)
  rw [hs.links_file hd]
  by_contra hpos
  obtain ⟨d, hdir, e, he, rfl⟩ := NameTree.exists_of_entered (Nat.pos_of_ne_zero hpos)
  exact hm (hs.target d hdir e he)

/-- Counts follow the link counts of the inodes. -/
theorem HardLinks.placed_congr (h : ∀ n, links key = some n → V'.names.links n = V.names.links n) :
    links.placed V' key = links.placed V key := by
  unfold HardLinks.placed
  cases hk : links key with
  | none => rfl
  | some n => exact h n hk

theorem CopyStep.refl (h : Shared o files V links) (B : Finset ℕ) (p : ℕ) :
    CopyStep o files B p V V links links 0 (fun _ => 0) 0 :=
  ⟨.refl B p V links, (zero_add _).symm, rfl, h, fun _ => rfl⟩

theorem CopyStep.trans (h : CopyStep o files B p V V' links links' s c es)
    (h' : CopyStep o files B p V' V'' links' links'' s' c' es') :
    CopyStep o files B p V V'' links links'' (s + s') (fun key => c key + c' key) (es + es') where
  grown := h.grown.trans h'.grown
  kids := by rw [h'.kids, h.kids, add_comm es es', add_assoc]
  own := by rw [h'.own, h.own, add_assoc]
  shared := h'.shared
  counts key := by rw [h'.counts, h.counts, add_assoc]

theorem CopyStep.mono {B' : Finset ℕ} (h : CopyStep o files B' p V V' links links' s c es)
    (hB : B ⊆ B') : CopyStep o files B p V V' links links' s c es :=
  ⟨h.grown.mono hB, h.kids, h.own, h.shared, h.counts⟩

/-- What is copied into a new directory adds nothing to the one above. -/
theorem CopyStep.elsewhere (h : CopyStep o files V.names.live q V V' links links' s c es)
    (hs : V.names.Sound) (hsh : Shared o files V links) (hB : B ⊆ V.names.live) (hq : q ∉ B)
    (hp : p ∈ V.names.dirs) (hpB : p ∈ B) : CopyStep o files B p V V' links links' 0 c 0 := by
  have hl := hs.dirs_live hp
  have hpq : p ≠ q := fun he => hq (he ▸ hpB)
  refine ⟨h.grown.within hB hq, ?_, ?_, h.shared, h.counts⟩
  · rw [h.grown.kids p hl hpq, zero_add]
  · exact (h.grown.count p hl hpq fun key hk => (hsh.file key p hk).2 hp).1

theorem createDir_step (hs : V.names.Sound) (hp : p ∈ V.names.dirs) (hm : m ∉ V.names.live)
    (hsh : Shared o files V links) :
    CopyStep o files V.names.live p V (V.createDir p ⟨name, m⟩ i) links links 1 (fun _ => 0)
      {⟨name, m⟩} := by
  have hne : ∀ {n}, n ∈ V.names.live → n ≠ m := fun hn he => hm (he ▸ hn)
  have hpl := hs.dirs_live hp
  have hlinks : ∀ n ∈ V.names.live, (V.createDir p ⟨name, m⟩ i).names.links n =
      V.names.links n + if n = p then 1 else 0 := fun n hn =>
    @NameTree.links_enterDir V.names n p ⟨name, m⟩ hs hp hm hn
  have hsame : ∀ n ∈ V.names.live, n ≠ p →
      (V.createDir p ⟨name, m⟩ i).names.links n = V.names.links n := fun n hn hnp => by
    rw [hlinks n hn, if_neg hnp, add_zero]
  refine ⟨⟨Finset.subset_insert _ _, fun n hn => ?_, fun n hn => ?_, fun _ _ => rfl, fun d hd hdp => ?_,
    fun n hn hnp hk => ⟨hsame n hn hnp, hk⟩, fun _ _ hk => hk⟩, ?_, ?_, ⟨fun k n hk => ?_,
    fun k n hk => ?_, hsh.inj⟩, fun k => ?_⟩
  · exact Finset.mem_insert.trans (or_iff_right (hne hn))
  · exact Function.update_of_ne (hne hn) _ _
  · exact (Function.update_of_ne hdp _ _).trans (Function.update_of_ne (hne hd) _ _)
  · exact NameTree.Sound.enterDir_kids_self V.names
  · rw [hlinks p hpl, if_pos rfl]
  · obtain ⟨hl, hd⟩ := hsh.file k n hk
    refine ⟨Finset.mem_insert_of_mem hl, fun hd' => ?_⟩
    exact (Finset.mem_insert.mp hd').elim (hne hl) hd
  · obtain ⟨hattrs, hbody⟩ := hsh.same k n hk
    exact ⟨(Function.update_of_ne (hne (hsh.file k n hk).1) _ _).trans hattrs, hbody⟩
  · refine HardLinks.placed_congr fun n hk => ?_
    obtain ⟨hl, hd⟩ := hsh.file k n hk
    exact hsame n hl fun he => hd (he ▸ hp)

/-- The tree has a new file, and perhaps it is one with several names. -/
theorem create_grown (hp : p ∈ V.names.dirs) (hm : m ∉ V.names.live)
    (hold : ∀ key n, links key = some n → links' key = some n)
    (hnew : ∀ key n, links' key = some n → links key = some n ∨ n = m) :
    Grown V.names.live p V (V.create p ⟨name, m⟩ i data) links links' := by
  have hne : ∀ {n}, n ∈ V.names.live → n ≠ m := fun hn he => hm (he ▸ hn)
  refine ⟨Finset.subset_insert _ _, fun _ _ => Iff.rfl, fun n hn => ?_, fun n hn => ?_,
    fun d _ hdp => ?_, fun n hn _ hk => ⟨?_, fun key hk' => ?_⟩, hold⟩
  · exact Function.update_of_ne (hne hn) _ _
  · exact Function.update_of_ne (hne hn) _ _
  · exact Function.update_of_ne hdp _ _
  · have hl := @NameTree.links_enter V.names n p ⟨name, m⟩ hp
    rwa [if_neg fun he => hne hn he.symm, add_zero] at hl
  · exact (hnew key n hk').elim (hk key) (hne hn)

theorem create_links (hs : V.names.Sound) (hp : p ∈ V.names.dirs) (hm : m ∉ V.names.live) (n : ℕ) :
    (V.create p ⟨name, m⟩ i data).names.links n = if n = m then 1 else V.names.links n := by
  have hl := @NameTree.links_enter V.names n p ⟨name, m⟩ hp
  refine hl.trans ?_
  split_ifs with h₁ h₂ h₃
  · rw [← h₁, hs.links_unused hm]
  · exact absurd h₁.symm h₂
  · exact absurd h₃.symm h₁
  · rfl

/-- A new file, with one name or the first of several. -/
theorem create_step (hs : V.names.Sound) (hp : p ∈ V.names.dirs) (hm : m ∉ V.names.live)
    (hsh : Shared o files V links) (hold : ∀ key n, links key = some n → links' key = some n)
    (hnew : ∀ key n, links' key = some n → links key = some n ∨ n = m ∧ links key = none ∧ c key = 1 ∧
      i.attrs = o.attrs (files key).1 (files key).1.fileMode 1 ∧ data = (files key).2 )
    (hone : ∀ key key', links' key = some m → links' key' = some m → key = key')
    (hzero : ∀ key, links' key = links key → c key = 0) :
    CopyStep o files V.names.live p V (V.create p ⟨name, m⟩ i data) links links' 0 c
      {⟨name, m⟩} := by
  have hne : ∀ {n}, n ∈ V.names.live → n ≠ m := fun hn he => hm (he ▸ hn)
  have hmd : m ∉ V.names.dirs := fun hd => hm (hs.dirs_live hd)
  have hlinks := @create_links p m V name i data hs hp hm
  refine ⟨create_grown hp hm hold fun k n hk => (hnew k n hk).imp_right And.left,
    Function.update_self .., ?_, ⟨fun k n hk => ?_, fun k n hk => ?_, fun k k' n hk hk' => ?_⟩,
    fun k => ?_⟩
  · rw [hlinks, if_neg (hne (hs.dirs_live hp)), add_zero]
  · rcases hnew k n hk with hk | ⟨rfl, -⟩
    · exact ⟨Finset.mem_insert_of_mem (hsh.file k n hk).1, (hsh.file k n hk).2⟩
    · exact ⟨Finset.mem_insert_self _ _, hmd⟩
  · rcases hnew k n hk with hk | ⟨rfl, -, -, hi, hdata⟩
    · have hn := hne (hsh.file k n hk).1
      obtain ⟨hattrs, hbody⟩ := hsh.same k n hk
      exact ⟨(Function.update_of_ne hn _ _).trans hattrs, (Function.update_of_ne hn _ _).trans hbody⟩
    · exact ⟨(Function.update_self ..).trans hi, (Function.update_self ..).trans hdata⟩
  · rcases hnew k n hk with h₁ | ⟨rfl, -⟩
    · rcases hnew k' n hk' with h₂ | ⟨rfl, -⟩
      · exact hsh.inj k k' n h₁ h₂
      · exact absurd rfl (hne (hsh.file k n h₁).1)
    · exact hone k k' hk hk'
  · unfold HardLinks.placed
    cases hk : links' k with
    | none =>
      have hnone : links k = none := Option.eq_none_iff_forall_ne_some.mpr fun n hn => by
        rw [hold k n hn] at hk
        cases hk
      rw [hnone, hzero k (hk.trans hnone.symm)]
      rfl
    | some n =>
      rcases hnew k n hk with h₁ | ⟨rfl, h₁, hc, -⟩
      · rw [h₁, hzero k (hk.trans h₁.symm)]
        exact (hlinks n).trans (if_neg (hne (hsh.file k n h₁).1))
      · rw [h₁, hc]
        exact (hlinks n).trans (if_pos rfl)

/-- One more name of a file. -/
theorem link_step (hp : p ∈ V.names.dirs) (hsh : Shared o files V links)
    (hk : links key = some m) :
    CopyStep o files V.names.live p V (V.rename (V.names.enter p ⟨name, m⟩)) links links 0
      (fun k => if k = key then 1 else 0) {⟨name, m⟩} := by
  obtain ⟨hl, hd⟩ := hsh.file key m hk
  have hlinks : ∀ n, (V.rename (V.names.enter p ⟨name, m⟩)).names.links n =
      V.names.links n + if m = n then 1 else 0 := fun n => NameTree.links_enter hp
  refine ⟨⟨Finset.subset_insert _ _, fun _ _ => Iff.rfl, fun _ _ => rfl, fun _ _ => rfl,
    fun d _ hdp => Function.update_of_ne hdp _ _, fun n _ _ hno => ⟨?_, hno⟩, fun _ _ hk => hk⟩,
    Function.update_self .., ?_, ⟨fun k n hk => ⟨Finset.mem_insert_of_mem (hsh.file k n hk).1,
    (hsh.file k n hk).2⟩, hsh.same, hsh.inj⟩, fun k => ?_⟩
  · have hmn : m ≠ n := fun he => hno key (he ▸ hk)
    rw [hlinks, if_neg hmn, add_zero]
  · have hmp : m ≠ p := fun he => hd (he ▸ hp)
    rw [hlinks, if_neg hmp]
  · unfold HardLinks.placed
    cases hk' : links k with
    | none =>
      have hkk : k ≠ key := fun he => by
        rw [he, hk] at hk'
        cases hk'
      rw [if_neg hkk]
      rfl
    | some n =>
      refine (hlinks n).trans (congrArg _ ?_)
      by_cases hkk : k = key
      · rw [hkk, hk] at hk'
        rw [if_pos (Option.some.inj hk'), if_pos hkk]
      · have hmn : m ≠ n := fun he => hkk (hsh.inj k key m (he ▸ hk') hk)
        rw [if_neg hkk, if_neg hmn]

end Step

/-! ## Files -/
section Leaf
variable {ufs : Ufs} {image : Bytes} {o : PopulateOptions} {files : ℕ × ℕ → HostMeta × Bytes} {p m : ℕ}
  {V : FileTree} {links : HardLinks} {name : Str} {info : HostMeta} {leaf : HostLeaf} {i : Dinode}
  {data : Bytes} {key : ℕ × ℕ}

theorem Populate.onSlice_wp {α : Type} {x : Write α} {Q : α → Bytes → Prop} {E : Fault → Bytes → Prop}
    (h : x.wp image Q E) : (Populate.onSlice x).wp image Q fun _ _ => True := by
  unfold Act.wp at h ⊢
  unfold Populate.onSlice
  rcases hx : x image with ⟨a | e | _, t⟩
  · rw [hx] at h
    exact h
  · trivial
  · rw [hx] at h
    exact h

theorem FileTree.Represents.sound (h : V.Represents ufs image) : V.names.Sound := by
  obtain ⟨T, -, h⟩ := h
  exact h.sound

theorem HostMeta.perm_type (info : HostMeta) : fileTypeOf info.perm = ufsIfreg := by
  have hzero : info.perm &&& ufsIfmt = 0 := by
    rw [HostMeta.perm, Nat.land_assoc, show 0o7777 &&& ufsIfmt = 0 by decide, Nat.and_zero]
  rw [fileTypeOf, hzero]
  rfl

/-- A new file that is not to be shared. -/
theorem create_unshared (hs : V.names.Sound) (hp : p ∈ V.names.dirs) (hm : m ∉ V.names.live)
    (hsh : Shared o files V links) :
    CopyStep o files V.names.live p V (V.create p ⟨name, m⟩ i data) links links 0 (fun _ => 0)
      {⟨name, m⟩} ∧ Unshared (V.create p ⟨name, m⟩ i data) links V.names.live m := by
  have hno : ∀ key, links key ≠ some m := fun key hk => hm (hsh.file key m hk).1
  refine ⟨create_step hs hp hm hsh (fun _ _ hk => hk) (fun _ _ hk => .inl hk)
    (fun key _ hk => absurd hk (hno key)) fun _ _ => rfl, hm, ?_, hno⟩
  rw [create_links hs hp hm, if_pos rfl]

/-- A new file that is the first of several. -/
theorem create_shared (hs : V.names.Sound) (hp : p ∈ V.names.dirs) (hm : m ∉ V.names.live)
    (hsh : Shared o files V links) (hk : links key = none)
    (hi : i.attrs = o.attrs (files key).1 (files key).1.fileMode 1) (hdata : data = (files key).2) :
    CopyStep o files V.names.live p V (V.create p ⟨name, m⟩ i data) links
      (Function.update links key (some m)) 0 (fun k => if k = key then 1 else 0) {⟨name, m⟩} := by
  have hno : ∀ k, links k ≠ some m := fun k hk => hm (hsh.file k m hk).1
  have hupd : ∀ k, Function.update links key (some m) k = if k = key then some m else links k :=
    fun k => Function.update_apply ..
  have hmine : ∀ k, Function.update links key (some m) k = some m → k = key := by
    intro k hkm
    by_contra hkk
    rw [hupd, if_neg hkk] at hkm
    exact hno k hkm
  refine create_step hs hp hm hsh (fun k n hkn => ?_) (fun k n hkn => ?_)
    (fun k k' h h' => (hmine k h).trans (hmine k' h').symm) fun k hkk => if_neg fun he => ?_
  · rw [hupd, if_neg fun he => ?_]
    · exact hkn
    · rw [he, hk] at hkn
      cases hkn
  · rw [hupd] at hkn
    split_ifs at hkn with he
    · subst he
      exact .inr ⟨(Option.some.inj hkn).symm, hk, if_pos rfl, hi, hdata⟩
    · exact .inl hkn
  · rw [hupd, if_pos he, he, hk] at hkk
    cases hkk

/-- What copying one file has done. -/
structure LeafCopy (o : PopulateOptions) (files : ℕ × ℕ → HostMeta × Bytes) (V : FileTree) (p : ℕ)
    (links : HardLinks) (name : Str) (info : HostMeta) (leaf : HostLeaf) (links' : HardLinks)
    (V' : FileTree) (n : ℕ) : Prop where
  step : CopyStep o files V.names.live p V V' links links' 0 (fun key => leaf.count info key) {⟨name, n⟩}
  live : n ∈ V'.names.live
  file : n ∉ V'.names.dirs
  copied : leaf.CopiedTo o V' links' V.names.live info n

/-- A copy that is a new inode. -/
theorem FileTree.Represents.newLeaf (hs : V.names.Sound) {t : Bytes}
    {links' : HardLinks} (ht : (V.create p ⟨name, m⟩ i data).Represents ufs t) (hm : m ∉ V.names.live)
    (hstep : CopyStep o files V.names.live p V (V.create p ⟨name, m⟩ i data) links links' 0
      (fun key => leaf.count info key) {⟨name, m⟩})
    (hcopied : leaf.CopiedTo o (V.create p ⟨name, m⟩ i data) links' V.names.live info m) :
    ∃ V' n, V'.Represents ufs t ∧ LeafCopy o files V p links name info leaf links' V' n :=
  ⟨_, m, ht, hstep, Finset.mem_insert_self _ _, fun hd => hm (hs.dirs_live hd), hcopied⟩

theorem populateFile_copies (hV : V.Represents ufs image) (hp : p ∈ V.names.dirs) (hok : NameOk name)
    (hf : V.names.Fresh p name) (hlen : data.length < 2 ^ 63) {mode uid gid ts : ℕ}
    (hmode : fileTypeOf mode ≠ ufsIfdir) {k : ℕ → Populate HardLinks}
    {Q : HardLinks → Bytes → Prop} (hk : ∀ m t, m ∉ V.names.live → (V.create p ⟨name, m⟩
      (Dinode.fresh (fileTypeOf mode ||| permissionsOf mode) uid gid 1 ts) data).Represents ufs t →
      (k m).wp t Q fun _ _ => True) :
    (do
      let ino ← Populate.onSlice (createEmptyInParent ufs p name mode uid gid ts)
      Populate.onSlice (setInodeContents ufs ino data)
      k ino : Populate HardLinks).wp image Q fun _ _ => True := by
  obtain ⟨T, hi, hin⟩ := hV
  rw [Act.wp_bind]
  refine Populate.onSlice_wp ((hin.createEmptyInParent hi hp hok hf hmode).mono ?_ fun _ _ h => h)
  rintro m t ⟨hm, T₁, hi₁, hin₁⟩
  have hmd : m ∉ V.names.dirs := fun hd => hm (hin.sound.dirs_live hd)
  rw [Act.wp_bind]
  refine Populate.onSlice_wp ((hin₁.setInodeContents hi₁ (Finset.mem_insert_self _ _) hmd hlen).mono ?_
    fun _ _ h => h)
  rintro - t' ht'
  refine hk m t' hm ?_
  rw [FileTree.write, FileTree.create] at ht'
  dsimp only at ht'
  rw [Function.update_idem] at ht'
  exact ht'

theorem populateLeaf_copies (hV : V.Represents ufs image) (hp : p ∈ V.names.dirs)
    (hname : CopyName name) (hf : V.names.Fresh p name) (hleaf : leaf.Ok files info)
    (hother : leaf ≠ .other) (hsh : Shared o files V links)
    (hroom : ∀ key, links.placed V key + leaf.count info key < 2 ^ 16) :
    (populateLeaf ufs o p name info links leaf).wp image
      (fun links' t => ∃ V' n, V'.Represents ufs t ∧ LeafCopy o files V p links name info leaf links' V' n)
      fun _ _ => True := by
  have hs := hV.sound
  cases leaf with
  | other => exact absurd rfl hother
  | symlink target =>
    cases target with
    | none => trivial
    | some target =>
      obtain ⟨T, hi, hin⟩ := hV
      rw [populateLeaf, Act.wp_bind]
      refine Populate.onSlice_wp
        ((hin.symlinkInParent hi hp hname.ok hf (hleaf target rfl)).mono ?_ fun _ _ h => h)
      rintro m t ⟨hm, ht⟩
      obtain ⟨hstep, hun⟩ := create_unshared hs hp hm hsh
      have hbody : (V.create p ⟨name, m⟩ (Dinode.fresh (ufsIflnk ||| permissionsOf 0o777)
          (o.owner info).1 (o.owner info).2 1 o.timestamp) target).body m = target :=
        Function.update_self ..
      exact ht.newLeaf hs hm hstep ⟨Function.update_self .., congrArg some hbody.symm, hun⟩
  | device block =>
    obtain ⟨T, hi, hin⟩ := hV
    rw [populateLeaf, Act.wp_bind]
    refine Populate.onSlice_wp ((hin.mknodInParent hi hp hname.ok hf).mono ?_ fun _ _ h => h)
    rintro m t ⟨hm, ht⟩
    obtain ⟨hstep, hun⟩ := create_unshared hs hp hm hsh
    exact ht.newLeaf hs hm hstep ⟨Function.update_self .., hun⟩
  | file data =>
    obtain ⟨hlen, hsame⟩ := hleaf
    have hmode : fileTypeOf info.perm ≠ ufsIfdir := by
      rw [info.perm_type]
      decide
    rw [populateLeaf]
    by_cases hmany : 1 < info.nlink
    · have hfiles := hsame hmany
      rw [if_pos hmany]
      have hcount : (fun key => (HostLeaf.file data).count info key) =
          fun key => if key = info.key then 1 else 0 := by
        funext key
        rw [HostLeaf.count]
        simp only [hmany, true_and]
      cases hkey : links info.key with
      | none =>
        refine populateFile_copies hV hp hname.ok hf hlen hmode fun m t hm ht => ?_
        have hi : (Dinode.fresh (fileTypeOf info.perm ||| permissionsOf info.perm) (o.owner info).1
            (o.owner info).2 1 o.timestamp).attrs = o.attrs (files info.key).1
              (files info.key).1.fileMode 1 := by
          rw [hfiles]
          rfl
        have hdata : data = (files info.key).2 := by rw [hfiles]
        refine ht.newLeaf hs hm ?_ ⟨Function.update_self .., Function.update_self .., ?_⟩
        · rw [if_pos hmany, hcount]
          exact create_shared hs hp hm hsh hkey hi hdata
        · rw [if_pos hmany, if_pos hmany]
          exact Function.update_self ..
      | some n =>
        obtain ⟨hl, hd⟩ := hsh.file info.key n hkey
        have hlinks : V.names.links n + 1 < 2 ^ 16 := by
          have h := hroom info.key
          rw [HardLinks.placed, hkey, HostLeaf.count, if_pos ⟨hmany, rfl⟩] at h
          exact h
        obtain ⟨T, hi, hin⟩ := hV
        dsimp only
        rw [Act.wp_bind]
        refine Populate.onSlice_wp ((hin.linkInParent hi hp hname.ok hf hl fun _ => hlinks).mono ?_
          fun _ _ h => h)
        rintro - t ⟨-, ht⟩
        obtain ⟨hattrs, hbody⟩ := hsh.same info.key n hkey
        rw [hfiles] at hattrs hbody
        refine ⟨_, n, ht, ?_, Finset.mem_insert_self _ _, hd, hattrs, hbody, ?_⟩
        · rw [hcount]
          exact link_step hp hsh hkey
        · rw [if_pos hmany]
          exact hkey
    · rw [if_neg hmany]
      refine populateFile_copies hV hp hname.ok hf hlen hmode fun m t hm ht => ?_
      obtain ⟨hstep, hun⟩ := create_unshared hs hp hm hsh
      refine ht.newLeaf hs hm ?_ ⟨Function.update_self .., Function.update_self .., ?_⟩
      · rw [if_neg hmany]
        have hcount : (fun key => (HostLeaf.file data).count info key) = fun _ => 0 := by
          funext key
          rw [HostLeaf.count, if_neg fun h => hmany h.1]
        rw [hcount]
        exact hstep
      · rw [if_neg hmany, if_neg hmany]
        exact hun

end Leaf

/-! ## Directories -/

/-- What copying needs: a tree that can be copied, names that are new in the directory, and link counts
that stay in range. -/
structure Copyable (o : PopulateOptions) (files : ℕ × ℕ → HostMeta × Bytes) (V : FileTree)
    (links : HardLinks) (p : ℕ) (host : HostDir) : Prop where
  dir : p ∈ V.names.dirs
  ok : host.Ok files
  nodup : host.names.Nodup
  fresh : ∀ name ∈ host.names, V.names.Fresh p name
  subdirs : V.names.links p + host.subdirs < 2 ^ 16
  placed : ∀ key, links.placed V key + host.count key < 2 ^ 16
  shared : Shared o files V links

section Dir
variable {ufs : Ufs} {o : PopulateOptions} {files : ℕ × ℕ → HostMeta × Bytes} {p q s : ℕ}
  {V V' V'' : FileTree} {links links' links'' : HardLinks} {host rest inside : HostDir}
  {c : ℕ × ℕ → ℕ} {es es' : Multiset Entry} {name : Str} {info : HostMeta} {leaf : HostLeaf}

theorem HostDir.Ok.copyName (h : host.Ok files) : ∀ name ∈ host.names, CopyName name := by
  induction host with
  | nil => exact fun _ hn => nomatch hn
  | dir name info inside rest _ ih =>
    cases name with
    | none => exact ih h
    | some name =>
      intro x hx
      rcases List.mem_cons.mp hx with rfl | hx
      · exact h.1
      · exact ih h.2.2.2.2 x hx
  | entry name info leaf rest ih =>
    cases name with
    | none => exact ih h
    | some name =>
      obtain ⟨hname, -, hrest⟩ := h
      cases leaf with
      | other => exact ih hrest
      | _ =>
        intro x hx
        rcases List.mem_cons.mp hx with rfl | hx
        · exact hname
        · exact ih hrest x hx

/-- A name that was new and is not among the entries added is still new. -/
theorem NameTree.Fresh.add {N N' : NameTree} (h : N.Fresh p name)
    (hk : N'.kids p = es + N.kids p) (hno : name ∉ es.map Entry.name) : N'.Fresh p name := by
  rw [NameTree.Fresh, NameTree.Sound.records_names, Multiset.mem_cons, Multiset.mem_cons, not_or,
    not_or] at h ⊢
  rw [hk, Multiset.map_add, Multiset.mem_add, not_or]
  exact ⟨h.1, h.2.1, hno, h.2.2⟩

/-- After one entry the others can be copied. -/
theorem CopyStep.others {n : ℕ} (h : CopyStep o files V.names.live p V V' links links' s c {⟨name, n⟩})
    (hs : V.names.Sound) (hp : p ∈ V.names.dirs) (hok : rest.Ok files)
    (hnames : (name :: rest.names).Nodup)
    (hfresh : ∀ x ∈ rest.names, V.names.Fresh p x) (hsub : V.names.links p + (s + rest.subdirs) < 2 ^ 16)
    (hplaced : ∀ key, links.placed V key + (c key + rest.count key) < 2 ^ 16) :
    Copyable o files V' links' p rest := by
  obtain ⟨hname, hnodup⟩ := List.nodup_cons.mp hnames
  refine ⟨(h.grown.dirs p (hs.dirs_live hp)).mpr hp, hok, hnodup, fun x hx => ?_, ?_, fun key => ?_,
    h.shared⟩
  · refine (hfresh x hx).add h.kids ?_
    rw [Multiset.map_singleton, Multiset.mem_singleton]
    rintro rfl
    exact hname hx
  · rw [h.own]
    omega
  · rw [h.counts]
    have := hplaced key
    omega

/-- A new directory can be filled. -/
theorem createDir_copyable {m : ℕ} {i : Dinode} (hs : V.names.Sound) (hp : p ∈ V.names.dirs)
    (hm : m ∉ V.names.live) (hf : V.names.Fresh p name) (hne : name ≠ [])
    (hsh : Shared o files V links) (hok : inside.Ok files) (hnodup : inside.names.Nodup)
    (hsub : 2 + inside.subdirs < 2 ^ 16)
    (hplaced : ∀ key, links.placed V key + inside.count key < 2 ^ 16) :
    Copyable o files (V.createDir p ⟨name, m⟩ i) links m inside := by
  have hstep := @createDir_step o files p m V links name i hs hp hm hsh
  have hmp : m ≠ p := fun he => hm (he ▸ hs.dirs_live hp)
  have hkids : (V.createDir p ⟨name, m⟩ i).names.kids m = 0 :=
    (Function.update_of_ne hmp _ _).trans (Function.update_self ..)
  have hlinks : (V.createDir p ⟨name, m⟩ i).names.links m = 2 :=
    @NameTree.links_enterDir_new V.names p ⟨name, m⟩ hs hp hf hne hm
  refine ⟨Finset.mem_insert_self _ _, hok, hnodup, fun x hx => ?_, ?_, fun key => ?_, hstep.shared⟩
  · have hx := hok.copyName x hx
    rw [NameTree.Fresh, NameTree.Sound.records_names, hkids]
    simp only [Multiset.map_zero, Multiset.mem_cons, Multiset.notMem_zero, or_false, not_or]
    exact ⟨hx.dot, hx.dotdot⟩
  · rw [hlinks]
    exact hsub
  · rw [hstep.counts, add_zero]
    exact hplaced key

/-- What copying a directory has done. -/
def DirCopy (ufs : Ufs) (o : PopulateOptions) (files : ℕ × ℕ → HostMeta × Bytes) (V : FileTree)
    (links : HardLinks) (p : ℕ) (host : HostDir) (links' : HardLinks) (t : Bytes) : Prop :=
  ∃ V' es, V'.Represents ufs t ∧
    CopyStep o files V.names.live p V V' links links' host.subdirs (fun key => host.count key) es ∧
    Copied o V' links' V.names.live host es

/-- One entry and the others. -/
theorem DirCopy.entry {n : ℕ} {t : Bytes} (hp : p ∈ V.names.live)
    (h : LeafCopy o files V p links name info leaf links' V' n)
    (hrest : DirCopy ufs o files V' links' p rest links'' t) :
    DirCopy ufs o files V links p (.entry (some name) info leaf rest) links'' t := by
  obtain ⟨V'', es, ht, hstep, hcopied⟩ := hrest
  have hlive := h.step.grown.live
  have hall := h.step.trans (hstep.mono hlive)
  rw [zero_add, Multiset.singleton_add] at hall
  have hg := hstep.grown
  refine ⟨V'', ⟨name, n⟩ ::ₘ es, ht, hall, .entry (hg.live h.live) (fun hd => ?_) ?_
    (hcopied.mono hlive)⟩
  · exact h.file ((hg.dirs n h.live).mp hd)
  · exact h.copied.grown hg h.live hp

/-- A directory, what is in it, and the others. -/
theorem DirCopy.dir {m : ℕ} {t : Bytes} (hs : V.names.Sound) (hp : p ∈ V.names.dirs)
    (hm : m ∉ V.names.live) (hsh : Shared o files V links)
    (hs' : (V.createDir p ⟨name, m⟩ (Dinode.fresh (ufsIfdir ||| permissionsOf info.perm)
      (o.owner info).1 (o.owner info).2 2 o.timestamp)).names.Sound)
    (hinside : DirCopy ufs o files (V.createDir p ⟨name, m⟩ (Dinode.fresh
      (ufsIfdir ||| permissionsOf info.perm) (o.owner info).1 (o.owner info).2 2 o.timestamp)) links m
      inside links' t) :
    ∃ V', V'.Represents ufs t ∧
      CopyStep o files V.names.live p V V' links links' 1 (fun key => inside.count key) {⟨name, m⟩} ∧
      ∀ rest links'' u, DirCopy ufs o files V' links' p rest links'' u →
        DirCopy ufs o files V links p (.dir (some name) info inside rest) links'' u := by
  have hpl := hs.dirs_live hp
  have hmp : m ≠ p := fun he => hm (he ▸ hpl)
  have hnew := @createDir_step o files p m V links name (Dinode.fresh
    (ufsIfdir ||| permissionsOf info.perm) (o.owner info).1 (o.owner info).2 2 o.timestamp) hs hp hm hsh
  obtain ⟨V', es, ht, hstep, hcopied⟩ := hinside
  have hlive := hnew.grown.live
  have hml : m ∈ (V.createDir p ⟨name, m⟩ (Dinode.fresh (ufsIfdir ||| permissionsOf info.perm)
      (o.owner info).1 (o.owner info).2 2 o.timestamp)).names.live := Finset.mem_insert_self _ _
  have hkids : V'.names.kids m = es := by
    rw [hstep.kids]
    have hempty : (V.createDir p ⟨name, m⟩ (Dinode.fresh (ufsIfdir ||| permissionsOf info.perm)
        (o.owner info).1 (o.owner info).2 2 o.timestamp)).names.kids m = 0 :=
      (Function.update_of_ne hmp _ _).trans (Function.update_self ..)
    rw [hempty, add_zero]
  have hmd : m ∈ V'.names.dirs := (hstep.grown.dirs m hml).mpr (Finset.mem_insert_self _ _)
  have hattrs : V'.attrs m = o.attrs info (ufsIfdir ||| permissionsOf info.perm) 2 :=
    (hstep.grown.attrs m hml).trans (Function.update_self ..)
  have hhere := hnew.trans (hstep.elsewhere hs' hnew.shared hlive hm
    (Finset.mem_insert_of_mem hp) hpl)
  have hstep' : CopyStep o files V.names.live p V V' links links' 1 (fun key => inside.count key)
      {⟨name, m⟩} := by
    simp only [zero_add, add_zero] at hhere
    exact hhere
  refine ⟨V', ht, hstep', ?_⟩
  rintro rest links'' u ⟨V'', es', hu, hlast, hcopied'⟩
  have hml' := hstep.grown.live hml
  have hall := hstep'.trans (hlast.mono hstep'.grown.live)
  rw [Multiset.singleton_add] at hall
  have hg := hlast.grown
  have hdeep := (hcopied.mono hlive).grown hg ht.sound hpl
  rw [← hkids, ← hg.kids m hml' hmp] at hdeep
  exact ⟨V'', ⟨name, m⟩ ::ₘ es', hu, hall, .dir ((hg.dirs m hml').mpr hmd) hm
    ((hg.attrs m hml').trans hattrs) hdeep (hcopied'.mono hstep'.grown.live)⟩

/-- Copying a directory of the host. -/
theorem populateDir_copies : ∀ {V : FileTree} {links : HardLinks} {p : ℕ} {image : Bytes},
    V.Represents ufs image → Copyable o files V links p host →
    (populateDir ufs o p host links).wp image
      (fun links' t => DirCopy ufs o files V links p host links' t) fun _ _ => True := by
  induction host with
  | nil =>
    intro V links p image hV h
    exact ⟨V, 0, hV, .refl h.shared _ _, .nil⟩
  | dir name info inside rest ihi ihr =>
    intro V links p image hV h
    cases name with
    | none =>
      refine (ihr hV ⟨h.dir, h.ok, h.nodup, h.fresh, h.subdirs, h.placed, h.shared⟩).mono ?_
        fun _ _ h => h
      rintro links' t ⟨V', es, ht, hstep, hcopied⟩
      exact ⟨V', es, ht, hstep, .skipDir hcopied⟩
    | some name =>
      have hs := hV.sound
      obtain ⟨hname, hnodup, hsub, hoki, hokr⟩ := h.ok
      have hf := h.fresh name (List.mem_cons_self ..)
      have hlinks : V.names.links p + 1 < 2 ^ 16 := by
        have hsubs := h.subdirs
        rw [HostDir.subdirs] at hsubs
        omega
      obtain ⟨T, hi, hin⟩ := id hV
      rw [populateDir, Act.wp_bind]
      refine Populate.onSlice_wp ((hin.mkdirInParent hi h.dir hname.ok hf hlinks).mono ?_
        fun _ _ h => h)
      rintro m t ⟨hm, ht⟩
      have hcan := @createDir_copyable o files p V links inside name m (Dinode.fresh
        (ufsIfdir ||| permissionsOf info.perm) (o.owner info).1 (o.owner info).2 2 o.timestamp)
        hs h.dir hm hf hname.ok.ne h.shared hoki hnodup hsub fun key => by
          have hplaced := h.placed key
          rw [HostDir.count] at hplaced
          omega
      rw [Act.wp_bind]
      refine (ihi ht hcan).mono ?_ fun _ _ h => h
      intro links' t' hinside
      obtain ⟨V', ht', hstep, hrest⟩ := hinside.dir hs h.dir hm h.shared ht.sound
      refine (ihr ht' (hstep.others hs h.dir hokr h.nodup (fun x hx => h.fresh x
        (List.mem_cons_of_mem _ hx)) h.subdirs fun key => h.placed key)).mono (fun _ _ => ?_)
        fun _ _ h => h
      exact hrest rest _ _
  | entry name info leaf rest ihr =>
    intro V links p image hV h
    cases name with
    | none =>
      refine (ihr hV ⟨h.dir, h.ok, h.nodup, h.fresh, h.subdirs, h.placed, h.shared⟩).mono ?_
        fun _ _ h => h
      rintro links' t ⟨V', es, ht, hstep, hcopied⟩
      exact ⟨V', es, ht, hstep, .skipEntry hcopied⟩
    | some name =>
      obtain ⟨hname, hleaf, hokr⟩ := h.ok
      by_cases hother : leaf = .other
      · subst hother
        refine (ihr hV ⟨h.dir, hokr, h.nodup, h.fresh, h.subdirs, fun key => ?_, h.shared⟩).mono ?_
          fun _ _ h => h
        · have hplaced := h.placed key
          rwa [HostDir.count, HostLeaf.count_other, zero_add] at hplaced
        · rintro links' t ⟨V', es, ht, hstep, hcopied⟩
          refine ⟨V', es, ht, ?_, .skipOther hcopied⟩
          simp only [HostDir.count, HostLeaf.count_other, zero_add]
          exact hstep
      · have hs := hV.sound
        have hnames : (HostDir.entry (some name) info leaf rest).names = name :: rest.names := by
          cases leaf with
          | other => exact absurd rfl hother
          | _ => rfl
        have hnodup := h.nodup
        have hfresh := h.fresh
        rw [hnames] at hnodup hfresh
        rw [populateDir, Act.wp_bind]
        refine (populateLeaf_copies hV h.dir hname (hfresh name (List.mem_cons_self ..)) hleaf hother
          h.shared fun key => ?_).mono ?_ fun _ _ h => h
        · have hplaced := h.placed key
          rw [HostDir.count] at hplaced
          omega
        · rintro links' t ⟨V', n, ht, hcopy⟩
          refine (ihr ht (hcopy.step.others hs h.dir hokr hnodup (fun x hx => hfresh x
            (List.mem_cons_of_mem _ hx)) ?_ fun key => h.placed key)).mono (fun _ _ hr => ?_)
            fun _ _ h => h
          · have hsubs := h.subdirs
            rw [HostDir.subdirs] at hsubs
            rwa [zero_add]
          · exact .entry (hs.dirs_live h.dir) hcopy hr

end Dir

/-! ## The tool -/

/-- A host tree that fits a fresh file system: apart from what copying needs, fewer than 65534
directories in the directory and fewer than 65536 names of one file. -/
structure HostDir.Fits (files : ℕ × ℕ → HostMeta × Bytes) (host : HostDir) : Prop where
  ok : host.Ok files
  nodup : host.names.Nodup
  subdirs : 2 + host.subdirs < 2 ^ 16
  names : ∀ key, host.count key < 2 ^ 16

/-- The root directory holds a copy of the host's directory, with one inode for each file with several
names and as many names for it. -/
structure CopyOf (o : PopulateOptions) (host : HostDir) (V : FileTree) (links : HardLinks) : Prop where
  copied : Copied o V links {ufsRootInode} host (V.names.kids ufsRootInode)
  count : ∀ key n, links key = some n → V.names.links n = host.count key
  inj : ∀ key key' n, links key = some n → links key' = some n → key = key'

section Tool
variable {ufs : Ufs} {image t : Bytes} {o : PopulateOptions} {files : ℕ × ℕ → HostMeta × Bytes}
  {host : HostDir}

theorem HostDir.Fits.copyable (h : host.Fits files) (timestamp : ℕ) :
    Copyable o files (FileTree.fresh timestamp) (fun _ => none) ufsRootInode host := by
  refine ⟨Finset.mem_singleton_self _, h.ok, h.nodup, fun name hn => ?_, ?_, fun key => ?_, ?_⟩
  · have hname := h.ok.copyName name hn
    rw [NameTree.Fresh, NameTree.Sound.records_names]
    simp only [FileTree.fresh, NameTree.fresh, Multiset.map_zero, Multiset.mem_cons,
      Multiset.notMem_zero, or_false, not_or]
    exact ⟨hname.dot, hname.dotdot⟩
  · have hlinks : (FileTree.fresh timestamp).names.links ufsRootInode = 2 :=
      NameTree.fresh_sound.links_dir NameTree.fresh_sound.root
    rw [hlinks]
    exact h.subdirs
  · rw [HardLinks.placed, Option.elim_none, zero_add]
    exact h.names key
  · refine ⟨fun _ _ hk => ?_, fun _ _ hk => ?_, fun _ _ _ hk => ?_⟩
    all_goals exact absurd hk.symm (Option.some_ne_none _)

theorem Populate.onSlice_ok {α : Type} {x : Write α} {a : α} (h : x image = (.ok a, t)) :
    Populate.onSlice x image = (.ok a, t) := by
  unfold Populate.onSlice
  rw [h]

/-- A successful copy goes through the recount. -/
theorem populate_of_copied (hf : Formatted ufs image) (hsize : ufs.sb.dsize < 2 ^ 31)
    (hhost : host.Fits files) {links : HardLinks}
    (hdir : populateDir ufs o ufsRootInode host (fun _ => none) image = (.ok links, t)) :
    ∃ t', populate ufs o host [] image = (.ok (), t') := by
  obtain ⟨timestamp, hV⟩ := hf.represents
  obtain ⟨V, es, ht, -⟩ := (populateDir_copies hV (hhost.copyable timestamp)).ok hdir
  obtain ⟨_, t', hcount, -⟩ | ⟨_, _, -, hno⟩ := (ht.recount hsize).ok_or_err
  · refine ⟨t', (Act.bind_of_ok hdir).trans ?_⟩
    refine (Act.bind_of_ok (a := ()) (t := t) rfl).trans ?_
    exact Populate.onSlice_ok hcount
  · exact hno.elim

/-- A directory of the host with a symbolic link "l" to "ab". -/
def HostDir.linkAb : HostDir :=
  .entry (some [108]) ⟨0o120777, 0, 0, 1, 1, 1, 0⟩ (.symlink (some [97, 98])) .nil

end Tool
end UfsFuse
