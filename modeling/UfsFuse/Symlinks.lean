import UfsFuse.NameRoundTrip
import UfsFuse.Resolve
import UfsFuse.Serve

/-!
# Symbolic links

The target of a link is stored byte for byte, whatever its length, and decoded as ASCII when it is
read.
-/
namespace UfsFuse

/-- A call that makes a symbolic link: in a directory, or at the end of a path. -/
inductive LinkCall where
  | inParent (parent : ℕ) (name : Str) (mode : ℕ)
  | atPath (path : Str) (mode : ℕ)
  deriving DecidableEq

namespace LinkCall

def run (ufs : Ufs) (target : Str) (uid gid timestamp : ℕ) : LinkCall → Write ℕ
  | inParent parent name mode => symlinkInParent ufs parent name target mode uid gid timestamp
  | atPath path mode => symlink ufs target path mode uid gid timestamp

/-- The link goes into inode `p`. -/
def Into (image : Bytes) (ufs : Ufs) (p : ℕ) : LinkCall → Prop
  | inParent parent _ _ => parent = p
  | atPath path _ => ∃ inode, resolvePath image ufs (splitParent path).1 = .ok (some (p, inode))

/-- The type of the new inode; with a path, the bits of the mode are set beside those of the type. -/
def type : LinkCall → ℕ
  | inParent _ _ _ => ufsIflnk
  | atPath _ mode => fileTypeOf (ufsIflnk ||| mode)

end LinkCall

/-- The target is what the reader returns, and what a daemon on the image replies. -/
structure TargetKept (ufs : Ufs) (image : Bytes) (m : ℕ) (target : Str) : Prop where
  read : ∃ inode, readInode image ufs m = some inode ∧
    readSymlinkTarget image ufs inode = .ok target
  replied : ∀ st : Daemon, st.img = image → st.ufs = ufs →
    Handler.readlink (ufsToFuse m) st = (.ok (.data target), st)

/-- Inode `m` is new, of the given type, and holds the target. -/
structure MadeLink (T : Table) (m : ℕ) (target : Str) (type : ℕ) (T' : Table) : Prop where
  fresh : m ∉ T.used
  two_le : 2 ≤ m
  live : m ∈ T'.live
  body : (T'.file m).body = target
  fileType : (T'.file m).inode.fileType = type

/-! ## Making a link -/
section Making
variable {ufs : Ufs} {T : Table} {p m : ℕ} {es : List Entry} {name target : Str} {type : ℕ}

theorem addDirectoryEntry_put_stores {n child : ℕ} (hn : n ∈ T.live)
    (hd : Directory (T.file n).body es) (h0 : child ≠ 0) (h32 : child < 2 ^ 32) :
    (addDirectoryEntry ufs n (T.file n).inode name child).hoare ufs.Stores T
      (fun _ T' => Put ufs T n es ⟨name, child⟩ T')
      (fun e image => ShortOf T n (entryCost ufs.sb (T.file n).body name) e image ∨
        ufsDirblksiz < ufsDirsiz name.length) :=
  hoare_stores fun g _ _ hv => (addDirectoryEntry_put g hv hn hd h0 h32).post fun _ _ h => h.2

/-- Giving the inode its name leaves what it holds. -/
theorem nameLink_made {T₂ : Table} {E : Fault → Bytes → Prop} (hp : p ∈ T.live)
    (hbody : Directory (T.file p).body es) (hm : m ∉ T.used) (hm2 : 2 ≤ m)
    (hparent : T₂.file p = T.file p) (hpl : p ∈ T₂.live) (hml : m ∈ T₂.live)
    (htarget : (T₂.file m).body = target) (htype : (T₂.file m).inode.fileType = type)
    (hE : ∀ e image, T₂.room p < entryCost ufs.sb (T.file p).body name ∨
      ufsDirblksiz < ufsDirsiz name.length → E e image) :
    (do
      addDirectoryEntry ufs p (T.file p).inode name m
      pure m : Write ℕ).hoare ufs.Stores T₂ (fun r T' => MadeLink T r target type T') E := by
  have hmp : m ≠ p := by
    rintro rfl
    exact hm (Finset.mem_union_right _ hp)
  refine hoare_stored fun image hst => ?_
  have hadd := @addDirectoryEntry_put_stores ufs T₂ es name p m hpl (by rw [hparent]; exact hbody)
    (by omega) (hst.used_lt (Finset.mem_union_right _ hml)).2
  rw [hparent] at hadd
  refine (hadd.mono (fun _ _ hq => hq) hE).bind ?_
  rintro - T' ⟨⟨i, body, room, rfl, -⟩, -⟩
  apply Act.hoare_pure
  constructor
  · exact hm
  · exact hm2
  · exact hml
  · rw [Table.setFile_of_ne _ hmp]
    exact htarget
  · rw [Table.setFile_of_ne _ hmp]
    exact htype

/-- Filling the inode and giving it its name. -/
theorem fillLink_made {E : Fault → Bytes → Prop} {mode uid gid timestamp : ℕ} (hp : p ∈ T.live)
    (hbody : Directory (T.file p).body es) (hm : m ∉ T.used) (hm2 : 2 ≤ m)
    (hroom : T.room m = T.room 0) (htype : type &&& ufsIfmt = type) (hlen : target.length < 2 ^ 63)
    (hE : ∀ e image, ¬Roomy ufs.sb T p name (ufs.sb.blocksNeeded target.length) ∨
      ufsDirblksiz < ufsDirsiz name.length → E e image) :
    (do
      setInodeContents ufs m target
      addDirectoryEntry ufs p (T.file p).inode name m
      pure m : Write ℕ).hoare ufs.Stores
        ((T.reserve m false).create m (Dinode.fresh (type ||| permissionsOf mode) uid gid 1 timestamp))
        (fun r T' => MadeLink T r target type T') E := by
  obtain ⟨hlive, -, hr, hfm, hfx, -⟩ := @create_facts T m false
    (Dinode.fresh (type ||| permissionsOf mode) uid gid 1 timestamp) hm
  have hmp : m ≠ p := by
    rintro rfl
    exact hm (Finset.mem_union_right _ hp)
  have hpl : p ∈ ((T.reserve m false).create m
      (Dinode.fresh (type ||| permissionsOf mode) uid gid 1 timestamp)).live :=
    Finset.mem_insert_of_mem hp
  refine ((setInodeContents_stores hlive hlen).mono (fun _ _ h => h) fun e image he => ?_).bind ?_
  · rw [ShortOf, hr, hroom] at he
    exact hE e image (.inl fun h => absurd h.own (not_le.mpr he))
  rintro - T₂ ⟨j, room, rfl, hcore, -, -, hroom'⟩
  rw [hr] at hroom'
  rw [hfm] at hcore
  refine nameLink_made hp hbody hm hm2 ?_ hpl hlive ?_ ?_ ?_
  · rw [Table.setFile_of_ne _ (Ne.symm hmp), hfx p hp]
  · rw [Table.setFile_self]
  · rw [Table.setFile_self]
    have hmode : j.mode = (type ||| permissionsOf mode) % 2 ^ 32 := congrArg (·.mode) hcore
    rw [Inode.fileType, hmode]
    exact fileType_or type mode htype
  · rintro e image (hshort | hlong)
    · refine hE e image (.inl fun h => ?_)
      have hentry := h.entry
      have hleft := hroom' p
      simp only [Table.setFile] at hshort
      omega
    · exact hE e image (.inr hlong)

theorem symlinkInParent_made {mode uid gid timestamp : ℕ} (hp : p ∈ T.live)
    (hbody : Directory (T.file p).body es) (hlen : target.length < 2 ^ 63) :
    (symlinkInParent ufs p name target mode uid gid timestamp).hoare ufs.Stores T
      (fun m T' => MadeLink T m target ufsIflnk T')
      (fun _ _ => T.used.card = ufs.sb.inodes ∨
        ¬Roomy ufs.sb T p name (ufs.sb.blocksNeeded target.length) ∨
        ufsDirblksiz < ufsDirsiz name.length) := by
  rw [symlinkInParent]
  refine (readInodeOr_stores hp _).step fun i hi => ?_
  subst hi
  refine newInode_stores (fun _ _ _ h => .inl h) fun m hm hm2 _ hroom => ?_
  exact fillLink_made hp hbody hm hm2 hroom (by decide) hlen fun _ _ h => .inr h

/-- The rest of `create_file`, once the inode is there. -/
theorem createLink_made {mode uid gid timestamp : ℕ} (hp : p ∈ T.live)
    (hbody : Directory (T.file p).body es) (hlen : target.length < 2 ^ 63) :
    (do
      let newNumber ← allocateInode ufs (some p) false
      initializeInode ufs newNumber (fileTypeOf mode ||| permissionsOf mode) uid gid 1 timestamp
      if target ≠ [] then setInodeContents ufs newNumber target
      addDirectoryEntry ufs p (T.file p).inode name newNumber
      pure newNumber : Write ℕ).hoare ufs.Stores T
      (fun m T' => MadeLink T m target (fileTypeOf mode) T') (fun _ _ => True) := by
  refine newInode_stores (fun _ _ _ _ => trivial) fun m hm hm2 _ hroom => ?_
  by_cases hempty : target = []
  · subst hempty
    rw [if_neg (not_not.mpr rfl)]
    obtain ⟨hlive, -, -, hfm, hfx, -⟩ := @create_facts T m false
      (Dinode.fresh (fileTypeOf mode ||| permissionsOf mode) uid gid 1 timestamp) hm
    refine nameLink_made hp hbody hm hm2 (hfx p hp) (Finset.mem_insert_of_mem hp) hlive ?_ ?_
      fun _ _ _ => trivial
    · rw [hfm]
    · rw [hfm]
      exact fileType_or (fileTypeOf mode) mode (fileTypeOf_land mode)
  · rw [if_pos hempty]
    exact fillLink_made hp hbody hm hm2 hroom (fileTypeOf_land mode) hlen fun _ _ _ => trivial

end Making

/-! ## Resolving the parent -/
section Parent
variable {ufs : Ufs} {image : Bytes}

/-- A walk ends with the inode that it names. -/
theorem walkParts_reads : ∀ {parts : List Str} {current found : ℕ × Inode},
    readInode image ufs current.1 = some current.2 →
    walkParts image ufs parts current = .ok (some found) →
    readInode image ufs found.1 = some found.2 := by
  intro parts
  induction parts with
  | nil =>
    intro current found hread hwalk
    have hsame : current = found := Option.some.inj (Outcome.ok.inj hwalk)
    rw [← hsame]
    exact hread
  | cons part rest ih =>
    intro current found _ hwalk
    obtain ⟨n, child, hleads, hrest⟩ := walkParts_cons hwalk
    obtain ⟨e, -, -, hchild⟩ := hleads
    exact @ih (n, child) found hchild hrest

theorem resolvePath_reads {path : Str} {p : ℕ} {inode : Inode}
    (h : resolvePath image ufs path = .ok (some (p, inode))) :
    readInode image ufs p = some inode := by
  unfold resolvePath at h
  cases hroot : readInode image ufs ufsRootInode with
  | none =>
    rw [hroot] at h
    cases h
  | some root =>
    rw [hroot] at h
    exact @walkParts_reads ufs image _ (ufsRootInode, root) (p, inode) hroot h

/-- The parent of a creation by path, once it is found. -/
theorem resolveCreationParent_ok {path : Str} {p : ℕ} {inode : Inode} {image' : Bytes}
    {r : Str × ℕ × Inode} (hres : resolvePath image ufs (splitParent path).1 = .ok (some (p, inode)))
    (hrun : resolveCreationParent ufs path image = (.ok r, image')) :
    r = ((splitParent path).2, p, inode) ∧ image' = image := by
  unfold resolveCreationParent at hrun
  generalize splitParent path = parent at hres hrun ⊢
  obtain ⟨found, middle, hread, hrun⟩ := Act.bind_eq_ok.mp hrun
  obtain ⟨hfound, rfl⟩ := Act.read_eq_ok.mp hread
  obtain rfl := Outcome.ok.inj (hres.symm.trans hfound)
  dsimp only at hrun
  by_cases hdir : ¬inode.isDirectory = true
  · rw [if_pos hdir] at hrun
    exact absurd hrun Act.fail_ne_ok
  · rw [if_neg hdir] at hrun
    obtain ⟨there, middle, hread, hrun⟩ := Act.bind_eq_ok.mp hrun
    obtain ⟨hthere, rfl⟩ := Act.read_eq_ok.mp hread
    cases there with
    | some e => exact absurd hrun Act.fail_ne_ok
    | none =>
      obtain ⟨hr, rfl⟩ := Prod.mk.inj hrun
      exact ⟨(Outcome.ok.inj hr).symm, rfl⟩

/-- What a successful call has made. -/
theorem LinkCall.made {T : Table} {p m uid gid timestamp : ℕ} {es : List Entry} {target : Str}
    {image' : Bytes} {call : LinkCall} (hst : ufs.Stores image T) (hp : p ∈ T.live)
    (hbody : Directory (T.file p).body es) (hinto : call.Into image ufs p)
    (hlen : target.length < 2 ^ 63)
    (hrun : call.run ufs target uid gid timestamp image = (.ok m, image')) :
    ∃ T', ufs.Stores image' T' ∧ MadeLink T m target call.type T' := by
  cases call with
  | inParent parent name mode =>
    obtain rfl : parent = p := hinto
    exact (symlinkInParent_made hp hbody hlen).ok hst hrun
  | atPath path mode =>
    obtain ⟨inode, hres⟩ := hinto
    have hinode := resolvePath_reads hres
    rw [hst.readInode hp, Option.some.injEq] at hinode
    subst hinode
    unfold LinkCall.run symlink createFile at hrun
    obtain ⟨r, middle, hparent, hrest⟩ := Act.bind_eq_ok.mp hrun
    obtain ⟨rfl, rfl⟩ := resolveCreationParent_ok hres hparent
    exact (createLink_made hp hbody hlen).ok hst hrest

end Parent

/-! ## Reading it back -/
section ReadBack
variable {ufs : Ufs} {image image' : Bytes} {p m uid gid timestamp : ℕ} {target : Str}
  {call : LinkCall}

theorem fuseToUfs_ufsToFuse {n : ℕ} (h : 2 ≤ n) : fuseToUfs (ufsToFuse n) = n := by
  unfold fuseToUfs ufsToFuse
  split_ifs <;> omega

theorem readlink_eq {st : Daemon} {ino : ℕ} {inode : Inode}
    (hread : readInode st.img st.ufs (fuseToUfs ino) = some inode)
    (htarget : readSymlinkTarget st.img st.ufs inode = .ok target) :
    Handler.readlink ino st =
      if inode.isSymlink then (.ok (.data target), st) else (.err (.errno .einval), st) := by
  have hfound : (fun st : Daemon => Outcome.ok (ε := Fault) (readInode st.img st.ufs (fuseToUfs ino)))
      st = .ok (some inode) := congrArg Outcome.ok hread
  unfold Handler.readlink
  rw [Handler.look_bind hfound]
  change (if inode.isSymlink then _ else _ : Handler Reply) st = _
  cases inode.isSymlink with
  | false => rfl
  | true =>
    rw [if_pos rfl, if_pos rfl, Handler.look_bind htarget]
    rfl

/-- What the reader and the daemon return of a new link. -/
theorem MadeLink.reads {T T' : Table} {type : ℕ} (h : MadeLink T m target type T')
    (hst : ufs.Stores image T') :
    (∃ inode, readInode image ufs m = some inode ∧
      readSymlinkTarget image ufs inode = .ok (decodeAsciiReplace target)) ∧
    ∀ st : Daemon, st.img = image → st.ufs = ufs →
      Handler.readlink (ufsToFuse m) st =
        if type = ufsIflnk then (.ok (.data (decodeAsciiReplace target)), st)
        else (.err (.errno .einval), st) := by
  have hread := hst.readInode h.live
  have htarget : readSymlinkTarget image ufs (T'.file m).inode.toInode =
      .ok (decodeAsciiReplace target) := by
    unfold readSymlinkTarget
    rw [hst.readInodeBytes h.live, h.body]
    rfl
  constructor
  · exact ⟨_, hread, htarget⟩
  · rintro st rfl rfl
    rw [readlink_eq (by rw [fuseToUfs_ufsToFuse h.two_le]; exact hread) htarget, Inode.isSymlink,
      h.fileType]
    simp only [beq_iff_eq]

theorem LinkCall.reads (h : Consistent image ufs) (hp : isDir image ufs p = true)
    (hinto : call.Into image ufs p) (hlen : target.length < 2 ^ 63)
    (hrun : call.run ufs target uid gid timestamp image = (.ok m, image')) :
    (∃ inode, readInode image' ufs m = some inode ∧
      readSymlinkTarget image' ufs inode = .ok (decodeAsciiReplace target)) ∧
    ∀ st : Daemon, st.img = image' → st.ufs = ufs →
      Handler.readlink (ufsToFuse m) st =
        if call.type = ufsIflnk then (.ok (.data (decodeAsciiReplace target)), st)
        else (.err (.errno .einval), st) := by
  obtain ⟨T, N, hst, hc, hs⟩ := h
  have hd := (hc.shows hs hst).isDir.mp hp
  obtain ⟨es, hbody, -⟩ := hc.body p hd
  obtain ⟨T', hst', hmade⟩ := LinkCall.made hst (hc.live ▸ hs.dirs_live hd) hbody hinto hlen hrun
  exact hmade.reads hst'

/-- No other target than an ASCII string is read back. -/
theorem TargetKept.ascii (hkept : TargetKept ufs image' m target) (h : Consistent image ufs)
    (hp : isDir image ufs p = true) (hinto : call.Into image ufs p) (hlen : target.length < 2 ^ 63)
    (hrun : call.run ufs target uid gid timestamp image = (.ok m, image')) : Ascii target := by
  obtain ⟨⟨inode, hread, htarget⟩, -⟩ := LinkCall.reads h hp hinto hlen hrun
  by_contra hascii
  obtain ⟨inode', hread', htarget'⟩ := hkept.read
  obtain rfl := Option.some.inj (hread.symm.trans hread')
  exact decodeAsciiReplace_ne hascii (Outcome.ok.inj (htarget.symm.trans htarget'))

/-- Where an inode and blocks are left, a link can be made. -/
theorem Ufs.Stores.symlinkInParent_ok {T : Table} {es : List Entry} {name : Str}
    (hst : ufs.Stores image T) (hp : p ∈ T.live) (hbody : Directory (T.file p).body es)
    (hlen : target.length < 2 ^ 63) (hinode : T.used.card ≠ ufs.sb.inodes)
    (hroom : Roomy ufs.sb T p name (ufs.sb.blocksNeeded target.length))
    (hname : ufsDirsiz name.length ≤ ufsDirblksiz) (mode uid gid timestamp : ℕ) :
    ∃ m image', symlinkInParent ufs p name target mode uid gid timestamp image = (.ok m, image') := by
  have hmade := @symlinkInParent_made ufs T p es name target mode uid gid timestamp hp hbody hlen
  cases (hmade.run image hst).ok_or_err with
  | inl hok =>
    obtain ⟨m, image', hrun, -⟩ := hok
    exact ⟨m, image', hrun⟩
  | inr herr =>
    obtain ⟨e, image', -, hfull | hcramped | hlong⟩ := herr
    · exact absurd hfull hinode
    · exact absurd hroom hcramped
    · exact absurd hname (not_le.mpr hlong)

/-- In a blank root a link with a target of two bytes can be made. -/
theorem blank_symlink (hfresh : FreshVolume blankUfs image) (h2 : target.length = 2)
    (mode uid gid timestamp : ℕ) :
    isDir image blankUfs ufsRootInode = true ∧ ∃ m image',
      (LinkCall.inParent ufsRootInode [108] mode).run blankUfs target uid gid timestamp image =
        (.ok m, image') := by
  obtain ⟨T, hst, hc, -, hsize⟩ := hfresh
  have hroot : ufsRootInode ∈ NameTree.fresh.dirs := Finset.mem_singleton_self _
  have hn : ufsRootInode ∈ T.live := hc.live ▸ NameTree.fresh_sound.dirs_live hroot
  have hlen : (T.file ufsRootInode).body.length = 512 := (hst.body_length hn).trans hsize
  have hcost := entryCost_le blankUfs.sb (T.file ufsRootInode).body [108]
  have hroom := blank_room hst hc.live
  have hfree := blank_room_zero hst hc.live hsize
  have hone : blankUfs.sb.blocksNeeded 2 = 1 := by decide
  have hmore : blankUfs.sb.blocksNeeded (512 + ufsDirblksiz) = 1 := by decide
  rw [hlen, hmore] at hcost
  obtain ⟨es, hbody, -⟩ := hc.body ufsRootInode hroot
  refine ⟨(hc.shows NameTree.fresh_sound hst).isDir.mpr hroot, ?_⟩
  refine hst.symlinkInParent_ok hn hbody (by omega) ?_ ⟨?_, ?_⟩ (by decide) mode uid gid timestamp
  · rw [Table.used, hc.reserved, hc.live]
    decide
  · rw [h2, hone]
    omega
  · rw [h2, hone, hroom]
    omega

end ReadBack

end UfsFuse
