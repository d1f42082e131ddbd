import UfsFuse.Refinement

/-!
# What a run leaves

Contents and attributes of a file after a run are what the calls on that file made of them, whatever
the other calls were; and the directories are one tree all the time.
-/
namespace UfsFuse

/-! ## One file -/

/-- The contents that a call gives inode `n`, which had `data`. -/
def Call.setBody : Call → ℕ → Bytes → Bytes
  | .setInodeContents m data, n, old => if n = m then data else old
  | .truncate m size, n, old => if n = m then old.resize size else old
  | _, _, old => old

namespace FileTree
variable {V V' : FileTree} {c : Call} {cs : List Call} {n p m : ℕ} {e : Entry} {i : Dinode} {data : Bytes}
  {name : Str}

theorem create_old (hm : m ∉ V.names.live) (hn : n ∈ V.names.live) :
    (V.create p ⟨name, m⟩ i data).attrs n = V.attrs n ∧
      (V.create p ⟨name, m⟩ i data).body n = V.body n := by
  have hnm : n ≠ m := fun h => hm (h ▸ hn)
  exact ⟨Function.update_of_ne hnm _ _, Function.update_of_ne hnm _ _⟩

theorem createDir_old (hm : m ∉ V.names.live) (hn : n ∈ V.names.live) :
    (V.createDir p ⟨name, m⟩ i).attrs n = V.attrs n := by
  have hnm : n ≠ m := fun h => hm (h ▸ hn)
  exact Function.update_of_ne hnm _ _

theorem write_body (V : FileTree) (m : ℕ) (data : Bytes) (n : ℕ) :
    (V.write m data).body n = if n = m then data else V.body n := Function.update_apply ..

/-- What a step does to a file that is there: what the call says about it. -/
theorem Step.old (h : V.Step c V') (hn : n ∈ V.names.live) :
    V'.attrs n = c.setAttrs n (V.attrs n) ∧ V'.body n = c.setBody n (V.body n) := by
  cases h with
  | createFile _ _ hm => exact create_old hm hn
  | makeDirectory _ _ hm => exact ⟨createDir_old hm hn, rfl⟩
  | symlink _ _ hm => exact create_old hm hn
  | createEmptyInParent _ _ hm => exact create_old hm hn
  | mkdirInParent _ _ hm => exact ⟨createDir_old hm hn, rfl⟩
  | symlinkInParent _ _ hm => exact create_old hm hn
  | mknodInParent _ _ hm => exact create_old hm hn
  | setInodeContents => exact ⟨rfl, write_body V _ _ n⟩
  | @truncate m size =>
    refine ⟨rfl, (write_body V m _ n).trans ?_⟩
    rw [Call.setBody]
    split_ifs with hnm
    · rw [hnm]
    · rfl
  | _ => exact ⟨rfl, rfl⟩

/-- A file that stays is a directory before and after, or neither. -/
theorem Step.dirs (hs : V.names.Sound) (h : V.Step c V') (hn : n ∈ V.names.live)
    (hn' : n ∈ V'.names.live) : n ∈ V'.names.dirs ↔ n ∈ V.names.dirs := by
  have hnew : ∀ {m}, m ∉ V.names.live → (n ∈ insert m V.names.dirs ↔ n ∈ V.names.dirs) := fun hm =>
    Finset.mem_insert.trans (or_iff_right fun he => hm (he ▸ hn))
  cases h with
  | makeDirectory _ _ hm => exact hnew hm
  | mkdirInParent _ _ hm => exact hnew hm
  | removeDirectory => exact Finset.mem_erase.trans (and_iff_right (Finset.ne_of_mem_erase hn'))
  | rmdirInParent => exact Finset.mem_erase.trans (and_iff_right (Finset.ne_of_mem_erase hn'))
  | renameInParent hp hq he hr => exact ⟨fun hd => hr.dirs_subset hs hp hq he hd, hr.dirs hs hp hq he hn'⟩
  | _ => exact Iff.rfl

end FileTree

section Contents
variable {image₀ image t : Bytes} {ufs : Ufs} {cs₀ cs : List (Call × Outcome Fault Unit)} {n : ℕ}

/-- What is in use in every state is so in the first. -/
theorem Trace.inUse_first
    (h : Trace (fun s c r => c.Sane ufs s r ∧ inUse s ufs n = true) ufs image cs t)
    (hn : inUse t ufs n = true) {V : FileTree} (hV : V.Represents ufs image) :
    inUse image ufs n = true := by
  induction h with
  | nil => exact hn
  | cons hok => exact hok.2
  | recount hsize hdo _ ih =>
    have hV' := (hV.recount hsize).ok hdo
    exact (hV.readFrom.inUse n).mpr ((hV'.readFrom.inUse n).mp (ih hn hV'))

/-- While a file is in use, its contents and attributes are what the calls on it say. -/
theorem Trace.old (h : Trace (fun s c r => c.Sane ufs s r ∧ inUse s ufs n = true) ufs image cs t)
    (hn : inUse t ufs n = true) : ∀ {V : FileTree}, V.Represents ufs image →
      ∃ V' : FileTree, V'.Represents ufs t ∧ (n ∈ V'.names.dirs ↔ n ∈ V.names.dirs) ∧
        V'.attrs n = (succeeded cs).foldl (fun i c => c.setAttrs n i) (V.attrs n) ∧
        V'.body n = (succeeded cs).foldl (fun data c => c.setBody n data) (V.body n) := by
  induction h with
  | nil => exact fun {V} hV => ⟨V, hV, Iff.rfl, rfl, rfl⟩
  | @cons image s t c r cs hok hdo hrest ih =>
    intro V hV
    have hlive := (hV.readFrom.inUse n).mp hok.2
    rcases (hV.step hok.1.1).ok_or_err with ⟨_, u, hdo', V₁, hstep, hV₁⟩ | ⟨f, u, hdo', hstay⟩
    · obtain ⟨rfl, rfl⟩ := Prod.mk.inj (hdo'.symm.trans hdo)
      obtain ⟨V', hV', hd, hattrs, hbody⟩ := ih hn hV₁
      obtain ⟨hattrs₁, hbody₁⟩ := hstep.old hlive
      refine ⟨V', hV', hd.trans ?_, ?_, ?_⟩
      · obtain ⟨T, -, hin⟩ := hV
        exact hstep.dirs hin.sound hlive ((hV₁.readFrom.inUse n).mp (hrest.inUse_first hn hV₁))
      · rw [hattrs, hattrs₁]
        rfl
      · rw [hbody, hbody₁]
        rfl
    · obtain ⟨rfl, rfl⟩ := Prod.mk.inj (hdo'.symm.trans hdo)
      have hfits : c.Fits image ufs := hok.1.2.resolve_left fun hr => nomatch hr
      exact ih hn (hstay.resolve_right (not_not.mpr hfits))
  | recount hsize hdo _ ih => exact fun hV => ih hn ((hV.recount hsize).ok hdo)

/-- From any state of a run on, a file that stays in use reads back as what the successful calls on
it have made of its old contents and attributes, in their order; other calls do not matter. -/
theorem trace_contents (hf : Formatted ufs image₀) (h₀ : Trace (Call.Sane ufs) ufs image₀ cs₀ image)
    (h : Trace (fun s c r => c.Sane ufs s r ∧ inUse s ufs n = true) ufs image cs t)
    (hn : inUse t ufs n = true) (hfile : isDir image ufs n = false) : isDir t ufs n = false ∧
      (∃ data, readInodeBytes image ufs (dinodeAt image ufs n).toInode = .ok data ∧
        readInodeBytes t ufs (dinodeAt t ufs n).toInode =
          .ok ((succeeded cs).foldl (fun data c => c.setBody n data) data)) ∧
      (dinodeAt t ufs n).attrs =
        (succeeded cs).foldl (fun i c => c.setAttrs n i) (dinodeAt image ufs n).attrs := by
  obtain ⟨timestamp, hV⟩ := hf.represents
  obtain ⟨V, -, hV⟩ := h₀.steps hV
  obtain ⟨V', hV', hd, hattrs, hbody⟩ := h.old hn hV
  have hr := hV.readFrom
  have hr' := hV'.readFrom
  have hnd : n ∉ V.names.dirs := fun hnd => by
    rw [(hr.isDir n).mpr hnd] at hfile
    cases hfile
  have hl := (hr.inUse n).mp (h.inUse_first hn hV)
  have hl' := (hr'.inUse n).mp hn
  have hnd' : n ∉ V'.names.dirs := fun hnd' => hnd (hd.mp hnd')
  refine ⟨?_, ⟨_, (hr.body n hl hnd).1, ?_⟩, ?_⟩
  · rw [← Bool.not_eq_true, hr'.isDir]
    exact hnd'
  · rw [(hr'.body n hl' hnd').1, hbody]
  · rw [(hr'.inode n hl').2.1, hattrs, (hr.inode n hl).2.1]

end Contents
/-! ## One tree of directories -/

/-- Down from the root, along entries other than "." and "..". -/
inductive Descends (image : Bytes) (ufs : Ufs) : List Str → ℕ → Prop
  | root : Descends image ufs [] ufsRootInode
  | entry {d : ℕ} {e : Entry} {parts : List Str} (h : Descends image ufs parts d)
      (hd : isDir image ufs d = true) (he : e ∈ entriesAt image ufs d) (h₁ : e.name ≠ dotName)
      (h₂ : e.name ≠ dotdotName) : Descends image ufs (parts ++ [e.name]) e.inode

/-- The directories form one tree: names in a directory are distinct, one path leads down to each
directory and ".." leads the same way up, and link counts are those of a tree. -/
structure OneTree (image : Bytes) (ufs : Ufs) : Prop where
  root : isDir image ufs ufsRootInode = true
  names : ∀ d, isDir image ufs d = true → ((entriesAt image ufs d).map Entry.name).Nodup
  dot : ∀ d, isDir image ufs d = true → ⟨dotName, d⟩ ∈ entriesAt image ufs d
  used : ∀ d, isDir image ufs d = true → ∀ e ∈ entriesAt image ufs d, inUse image ufs e.inode = true
  path : ∀ d, isDir image ufs d = true → ∃! parts, Descends image ufs parts d
  up : ∀ d, isDir image ufs d = true → ∀ e ∈ entriesAt image ufs d, e.name ≠ dotName →
    e.name ≠ dotdotName → isDir image ufs e.inode = true →
      ⟨dotdotName, d⟩ ∈ entriesAt image ufs e.inode
  rootUp : ⟨dotdotName, ufsRootInode⟩ ∈ entriesAt image ufs ufsRootInode
  nlinkDir : ∀ d, isDir image ufs d = true → nlinkOf image ufs d =
    2 + (((usedDirs image ufs).erase ufsRootInode).filter (parentOf image ufs · = d)).card
  nlinkFile : ∀ n, inUse image ufs n = true → isDir image ufs n = false →
    nlinkOf image ufs n = recordsNaming image ufs n ∧ 0 < nlinkOf image ufs n

section OneTree
variable {image t : Bytes} {ufs : Ufs} {N : NameTree} {d n : ℕ} {e x : Entry}

/-- Two entries that name the same directory are one entry. -/
theorem NameTree.Sound.kid_inj (hs : N.Sound) {p q : ℕ} (hp : p ∈ N.dirs) (hq : q ∈ N.dirs)
    (he : e ∈ N.kids p) (hx : x ∈ N.kids q) (hd : e.inode ∈ N.dirs) (h : e.inode = x.inode) :
    p = q ∧ e = x := by
  have hpq : p = q := by
    rw [← hs.up_eq p hp e he hd, h, hs.up_eq q hq x hx (h ▸ hd)]
  subst hpq
  refine ⟨rfl, ?_⟩
  by_contra hne
  have hone := hs.naming_dir hp he hd
  have herase := naming_erase (n := e.inode) he
  rw [if_pos rfl, hone] at herase
  have hpos : 0 < naming e.inode ((N.kids p).erase e) :=
    naming_pos.mpr ⟨x, (Multiset.mem_erase_of_ne fun hxe => hne hxe.symm).mpr hx, h.symm⟩
  omega

theorem Shows.kid (h : Shows image ufs N) (hd : UfsFuse.isDir image ufs d = true)
    (he : e ∈ entriesAt image ufs d) (h₁ : e.name ≠ dotName) (h₂ : e.name ≠ dotdotName) :
    d ∈ N.dirs ∧ e ∈ N.kids d := by
  have hd := h.isDir.mp hd
  exact ⟨hd, NameTree.Sound.kid_of_record ((h.mem_entriesAt hd).mp he) h₁ h₂⟩

/-- An entry of a directory in the tree is one of the image, other than "." and "..". -/
theorem Shows.kid_entry (h : Shows image ufs N) (hs : N.Sound) (hd : d ∈ N.dirs) (he : e ∈ N.kids d) :
    e ∈ entriesAt image ufs d ∧ e.name ≠ dotName ∧ e.name ≠ dotdotName := by
  refine ⟨(h.mem_entriesAt hd).mpr (NameTree.kid_record he), ?_⟩
  have hn := hs.names d hd
  rw [NameTree.Sound.records_names, Multiset.nodup_cons, Multiset.nodup_cons, Multiset.mem_cons,
    not_or] at hn
  have hm := Multiset.mem_map_of_mem Entry.name he
  exact ⟨fun h₁ => hn.1.2 (h₁ ▸ hm), fun h₂ => hn.2.1 (h₂ ▸ hm)⟩

/-- Going up leads to the root, so there is a way down. -/
theorem Shows.descends (h : Shows image ufs N) (hs : N.Sound) (k : ℕ) :
    ∀ {d : ℕ}, d ∈ N.dirs → N.up^[k] d = ufsRootInode → ∃ parts, Descends image ufs parts d := by
  induction k with
  | zero =>
    rintro d - hd
    rw [show d = ufsRootInode from hd]
    exact ⟨[], .root⟩
  | succ k ih =>
    intro d hd hup
    by_cases hroot : d = ufsRootInode
    · rw [hroot]
      exact ⟨[], .root⟩
    · obtain ⟨e, he, rfl⟩ := hs.kid_of_dir hd hroot
      have hp := hs.up_mem hd
      rw [Function.iterate_succ_apply] at hup
      obtain ⟨parts, hparts⟩ := ih hp hup
      obtain ⟨hmem, h₁, h₂⟩ := h.kid_entry hs hp he
      exact ⟨_, .entry hparts (h.isDir.mpr hp) hmem h₁ h₂⟩

/-- There is one way down. -/
theorem Descends.unique {parts : List Str} (hd : Descends image ufs parts d) (h : Shows image ufs N)
    (hs : N.Sound) (hdir : d ∈ N.dirs) :
    ∀ {parts' : List Str}, Descends image ufs parts' d → parts' = parts := by
  induction hd with
  | root =>
    intro parts' hd'
    generalize hr : ufsRootInode = r at hd'
    cases hd' with
    | root => rfl
    | entry _ hp he h₁ h₂ =>
      obtain ⟨hp, he⟩ := h.kid hp he h₁ h₂
      exact absurd hr.symm (hs.kid_ne_root hp he)
  | @entry p e parts _ hp he h₁ h₂ ih =>
    intro parts' hd'
    obtain ⟨hp, he⟩ := h.kid hp he h₁ h₂
    generalize hi : e.inode = s at hd'
    cases hd' with
    | root => exact absurd hi (hs.kid_ne_root hp he)
    | @entry q x parts' hd' hq hx h₁' h₂' =>
      obtain ⟨hq, hx⟩ := h.kid hq hx h₁' h₂'
      obtain ⟨rfl, rfl⟩ := hs.kid_inj hp hq he hx hdir hi
      rw [ih hp hd']

theorem Shows.oneTree (h : Shows image ufs N) (hs : N.Sound) : OneTree image ufs := by
  have hup : ∀ d ∈ N.dirs, (⟨dotdotName, N.up d⟩ : Entry) ∈ entriesAt image ufs d := fun d hd =>
    (h.mem_entriesAt hd).mpr (Multiset.mem_cons_of_mem (Multiset.mem_cons_self _ _))
  refine ⟨h.isDir.mpr hs.root, fun d hd => ?_, fun d hd => ?_, fun d hd e he => ?_, fun d hd => ?_,
    fun d hd e he h₁ h₂ hdir => ?_, ?_, fun d hd => ?_, fun n hn hd => ?_⟩
  · have hd := h.isDir.mp hd
    have hnames := hs.names d hd
    rwa [← h.entries d hd, Multiset.map_coe, Multiset.coe_nodup] at hnames
  · have hd := h.isDir.mp hd
    exact (h.mem_entriesAt hd).mpr (Multiset.mem_cons_self _ _)
  · have hd := h.isDir.mp hd
    exact (h.live _).mpr (hs.record_live hd ((h.mem_entriesAt hd).mp he))
  · have hd := h.isDir.mp hd
    obtain ⟨k, hk⟩ := hs.reached d hd
    obtain ⟨parts, hparts⟩ := h.descends hs k hd hk
    exact ⟨parts, hparts, fun parts' hparts' => hparts.unique h hs hd hparts'⟩
  · obtain ⟨hd, he⟩ := h.kid hd he h₁ h₂
    have hdir := h.isDir.mp hdir
    have hmem := hup _ hdir
    rwa [hs.up_eq d hd e he hdir] at hmem
  · have hmem := hup _ hs.root
    rwa [hs.root_up] at hmem
  · have hd := h.isDir.mp hd
    rw [h.nlinkOf (hs.dirs_live hd), hs.links_dir hd, h.dirs]
    refine congrArg (fun s => 2 + Finset.card s) (Finset.filter_congr fun s hs' => ?_)
    rw [h.parentOf hs (Finset.mem_of_mem_erase hs')]
  · have hn := (h.live n).mp hn
    have hnd : n ∉ N.dirs := fun hnd => by
      rw [h.isDir.mpr hnd] at hd
      cases hd
    rw [h.nlinkOf hn, h.recordsNaming]
    exact ⟨rfl, hs.links_file hnd ▸ hs.found n hn hnd⟩

end OneTree
end UfsFuse
