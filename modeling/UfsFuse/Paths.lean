import UfsFuse.Removal

/-!
# Paths

A path is a list of components. Resolving it walks the tree of names from the root, as long as
every component is found in a directory; a component found in anything else was read out of the
contents of a file.
-/
namespace UfsFuse

/-! ## Components -/
section Components

theorem not_mem_splitOn (sep : UInt8) (path : Str) : ∀ part ∈ path.splitOn sep, sep ∉ part := by
  induction path with
  | nil => simp
  | cons b path ih =>
    rw [List.splitOn_cons_eq_if_modifyHead]
    by_cases hb : (b == sep) = true
    · rw [if_pos hb]
      intro part hp
      cases List.mem_cons.mp hp with
      | inl h => simp [h]
      | inr h => exact ih part h
    · rw [if_neg hb]
      cases hs : path.splitOn sep with
      | nil => simp
      | cons head tail =>
        rw [hs] at ih
        intro part hp
        cases List.mem_cons.mp hp with
        | inl h =>
          subst h
          intro hm
          cases List.mem_cons.mp hm with
          | inl h => exact hb (by simp [h])
          | inr h => exact ih head (List.mem_cons_self ..) h
        | inr h => exact ih part (List.mem_cons_of_mem _ h)

theorem pathParts_ne_nil {path part : Str} (h : part ∈ pathParts path) : part ≠ [] := by
  have hm := (List.mem_filter.mp h).2
  simpa using hm

theorem pathParts_intercalate {parts : List Str} (h : ∀ part ∈ parts, 47 ∉ part ∧ part ≠ [])
    (hne : parts ≠ []) : pathParts (List.intercalate [47] parts) = parts := by
  rw [pathParts, List.splitOn_intercalate 47 (fun l hl => (h l hl).1) hne, List.filter_eq_self]
  intro part hp
  simpa using (h part hp).2

theorem pathParts_nil : pathParts [] = [] := by
  rw [pathParts, List.splitOn_nil]
  rfl

/-- The parent path has all components but the last. -/
theorem splitParent_parts (path : Str) :
    pathParts (splitParent path).1 = (pathParts path).dropLast ∧
      (splitParent path).2 = (pathParts path).getLast?.getD [] := by
  refine ⟨?_, rfl⟩
  unfold splitParent
  dsimp only
  by_cases h : (pathParts path).length > 1
  · rw [if_pos h]
    refine pathParts_intercalate (fun part hp => ?_) ?_
    · have hm := List.mem_of_mem_dropLast hp
      exact ⟨not_mem_splitOn 47 path part (List.mem_of_mem_filter hm), pathParts_ne_nil hm⟩
    · intro hn
      have hl := congrArg List.length hn
      rw [List.length_dropLast, List.length_nil] at hl
      omega
  · rw [if_neg h, pathParts_nil]
    have hl : (pathParts path).dropLast.length = 0 := by
      rw [List.length_dropLast]
      omega
    exact (List.length_eq_zero_iff.mp hl).symm

end Components

/-! ## Walking -/

/-- A walk along names, from directory to directory. -/
inductive NameTree.Walk (N : NameTree) : ℕ → List Str → ℕ → Prop
  | here (n : ℕ) : Walk N n [] n
  | step {d n : ℕ} {e : Entry} {parts : List Str} (hd : d ∈ N.dirs) (he : e ∈ N.records d)
      (h : Walk N e.inode parts n) : Walk N d (e.name :: parts) n

/-- Every component that is found is found in a directory. -/
def WalksDirs (image : Bytes) (ufs : Ufs) : List Str → ℕ × Inode → Prop
  | [], _ => True
  | part :: rest, current => ∀ next, lookupDirectoryEntry image ufs current.2 part = .ok (some next) →
      current.2.isDirectory = true ∧ WalksDirs image ufs rest next

/-- A path that is looked up in directories only. -/
def PathInDirs (image : Bytes) (ufs : Ufs) (path : Str) : Prop :=
  ∀ root, readInode image ufs ufsRootInode = some root →
    WalksDirs image ufs (pathParts path) (ufsRootInode, root)

theorem WalksDirs.take {image : Bytes} {ufs : Ufs} {parts : List Str} (k : ℕ) :
    ∀ {current : ℕ × Inode}, WalksDirs image ufs parts current →
      WalksDirs image ufs (parts.take k) current := by
  induction parts generalizing k with
  | nil =>
    intro current _
    rw [List.take_nil]
    trivial
  | cons part rest ih =>
    intro current h
    cases k with
    | zero => trivial
    | succ k =>
      intro next hn
      obtain ⟨hd, hw⟩ := h next hn
      exact ⟨hd, ih k hw⟩

theorem PathInDirs.parent {image : Bytes} {ufs : Ufs} {path : Str} (h : PathInDirs image ufs path) :
    PathInDirs image ufs (splitParent path).1 := by
  intro root hr
  rw [(splitParent_parts path).1, List.dropLast_eq_take]
  exact (h root hr).take _

namespace NameTree.Walk
variable {N : NameTree} {a b c : ℕ} {parts : List Str}

theorem det (hs : N.Sound) (h : N.Walk a parts b) : N.Walk a parts c → b = c := by
  induction h with
  | here n =>
    intro h'
    cases h'
    rfl
  | step hd he _ ih =>
    intro h'
    generalize hp : _ :: _ = whole at h'
    cases h' with
    | here => cases hp
    | step hd' he' h' =>
      obtain ⟨hname, rfl⟩ := List.cons.inj hp
      obtain rfl := hs.name_inj hd he he' hname
      exact ih h'

/-- The last step of a walk. -/
theorem last {name : Str} (h : N.Walk a (parts ++ [name]) b) :
    ∃ d, N.Walk a parts d ∧ d ∈ N.dirs ∧ ∃ e ∈ N.records d, e.name = name ∧ e.inode = b := by
  induction parts generalizing a with
  | nil =>
    cases h with
    | step hd he h =>
      cases h
      exact ⟨_, .here _, hd, _, he, rfl, rfl⟩
  | cons part rest ih =>
    cases h with
    | step hd he h =>
      obtain ⟨d, hw, hdd, e, hed, hn, hi⟩ := ih h
      exact ⟨d, .step hd he hw, hdd, e, hed, hn, hi⟩

theorem live (hs : N.Sound) (ha : a ∈ N.live) (h : N.Walk a parts b) : b ∈ N.live := by
  induction h with
  | here => exact ha
  | step hd he _ ih => exact ih (hs.record_live hd he)

end NameTree.Walk

section Lookup
variable {ufs : Ufs} {image : Bytes} {T : Table} {N : NameTree} {n : ℕ}

/-- The part of a file that a directory block would hold. -/
theorem Volume.span_inData {sb : Superblock} {D : Disk} {own : ℕ → Owned} {T : Table} {n off b : ℕ}
    (g : sb.Geometry) (hv : Volume sb D own T) (hn : n ∈ T.live)
    (hb : (own n).data[off / sb.bsize]? = some b) (hfits : off % sb.bsize + ufsDirblksiz ≤ sb.bsize)
    (hlt : off < (T.file n).body.length) :
    sb.InData (b * 512 + off % sb.bsize) (min ufsDirblksiz ((T.file n).body.length - off)) := by
  obtain ⟨s, -, hsd, hsz, hmem⟩ := hv.runAt g hn hb
  have hrun := hv.isRun hn _ (List.mem_append_left _ hmem)
  have hdm := Nat.div_add_mod' off sb.bsize
  refine (hrun.inData g (Nat.div_mul_cancel hsd).ge).mono (Nat.le_add_right _ _) ?_
  simp only [ufsDirblksiz] at hfits ⊢
  omega

/-- Looking up a name in a stored file, whatever its contents, does not fail. -/
theorem Ufs.Stores.lookup_total (h : ufs.Stores image T) (hn : n ∈ T.live) (name : Str) :
    ∃ r, UfsFuse.lookupDirectoryEntry image ufs (T.file n).inode name = .ok r := by
  have g := h.geom
  have hlen := h.body_length hn
  obtain ⟨D, own, hi, hv⟩ := h
  unfold UfsFuse.lookupDirectoryEntry
  by_cases h0 : (T.file n).inode.size = 0
  · exact ⟨none, if_pos h0⟩
  rw [if_neg h0, hv.readBlocks hi hn, Outcome.ok_bind, ← hlen]
  have hloop : ∀ offsets : List ℕ,
      (∀ off ∈ offsets, ∃ k, off = k * ufsDirblksiz ∧ off < (T.file n).body.length) →
      ∃ r, lookupLoop image ufs (T.file n).body.length (own n).data name offsets = .ok r := by
    intro offsets
    induction offsets with
    | nil => exact fun _ => ⟨none, rfl⟩
    | cons off offsets ih =>
      intro hoff
      obtain ⟨r, hr⟩ := ih fun o ho => hoff o (List.mem_cons_of_mem _ ho)
      obtain ⟨k, hk, hlt⟩ := hoff off (List.mem_cons_self ..)
      unfold lookupLoop
      dsimp only
      cases hb : (own n).data[off / ufs.sb.bsize]? with
      | none => exact ⟨none, rfl⟩
      | some b =>
        dsimp only
        have hspan := hv.span_inData g hn hb (hk ▸ g.dirBlock_fits k) hlt
        rw [g.dataBlockOffset_eq, Nat.add_assoc, hi.getSlice hspan (by simp only [ufsDirblksiz]; omega),
          Outcome.ok_bind]
        cases scanBlockFor _ name _ _ 0 with
        | none => exact ⟨r, hr⟩
        | some m => exact ⟨_, rfl⟩
  refine hloop _ fun off hoff => ?_
  obtain ⟨k, hk, rfl⟩ := List.mem_map.mp hoff
  have hlt := List.mem_range.mp hk
  refine ⟨k, rfl, ?_⟩
  simp only [ufsDirblksiz] at hlt ⊢
  omega

/-- A walk through directories finds what the tree of names says. -/
theorem Carries.walkParts {links : ℕ → ℕ} (hc : Carries T N links) (hs : N.Sound)
    (hi : ufs.Stores image T) {parts : List Str} :
    ∀ {n : ℕ}, n ∈ N.live → WalksDirs image ufs parts (n, (T.file n).inode) →
      (∃ m, N.Walk n parts m ∧
        walkParts image ufs parts (n, (T.file n).inode) = .ok (some (m, (T.file m).inode))) ∨
      (∀ m, ¬N.Walk n parts m) ∧ walkParts image ufs parts (n, (T.file n).inode) = .ok none := by
  induction parts with
  | nil =>
    intro n _ _
    exact .inl ⟨n, .here n, rfl⟩
  | cons part rest ih =>
    intro n hn hw
    unfold UfsFuse.walkParts
    by_cases hd : n ∈ N.dirs
    · cases N.fresh_or_record n part with
      | inl hf =>
        rw [hc.lookup_fresh hs hi hd hf]
        refine .inr ⟨fun m hm => ?_, rfl⟩
        cases hm with
        | step _ he _ => exact hf (Multiset.mem_map_of_mem Entry.name he)
      | inr he =>
        obtain ⟨e, he, rfl⟩ := he
        have hlook := hc.lookup_some hs hi hd he
        rw [hlook, Outcome.ok_bind]
        cases ih (hs.record_live hd he) (hw _ hlook).2 with
        | inl h =>
          obtain ⟨m, hm, hr⟩ := h
          exact .inl ⟨m, .step hd he hm, hr⟩
        | inr h =>
          refine .inr ⟨fun m hm => ?_, h.2⟩
          generalize hp : e.name :: rest = whole at hm
          cases hm with
          | here => cases hp
          | step _ he' hm =>
            obtain ⟨hname, rfl⟩ := List.cons.inj hp
            obtain rfl := hs.name_inj hd he he' hname
            exact h.1 m hm
    · obtain ⟨r, hr⟩ := hi.lookup_total (hc.live ▸ hn) part
      cases r with
      | none =>
        rw [hr]
        refine .inr ⟨fun m hm => ?_, rfl⟩
        cases hm with
        | step hd' _ _ => exact hd hd'
      | some next => exact absurd ((hc.isDir n hn).mp (hw next hr).1) hd

theorem Carries.resolvePath {links : ℕ → ℕ} (hc : Carries T N links) (hs : N.Sound)
    (hi : ufs.Stores image T) {path : Str} (hp : PathInDirs image ufs path) :
    (∃ m, N.Walk ufsRootInode (pathParts path) m ∧
      resolvePath image ufs path = .ok (some (m, (T.file m).inode))) ∨
    (∀ m, ¬N.Walk ufsRootInode (pathParts path) m) ∧ resolvePath image ufs path = .ok none := by
  have hroot := hs.dirs_live hs.root
  have hr := hi.readInode (hc.live ▸ hroot)
  unfold UfsFuse.resolvePath
  rw [hr]
  exact hc.walkParts hs hi hroot (hp _ hr)

end Lookup

/-! ## Operations on paths -/
section Operations
variable {ufs : Ufs} {image : Bytes} {T : Table} {N : NameTree} {α : Type} {Q : α → Bytes → Prop}
  {E : Fault → Bytes → Prop}

theorem Act.wp_read_bind {ε σ α β : Type} {s : σ} {E : ε → σ → Prop} {f : σ → Outcome ε α} {a : α}
    {k : α → Act ε σ β} {Q : β → σ → Prop} (h : f s = .ok a) (hk : (k a).wp s Q E) :
    (Act.read f >>= k).wp s Q E := by
  rw [wp_bind, wp_read h]
  exact hk

/-- The directory that a path goes through last, and the last component. -/
structure NameTree.Below (N : NameTree) (path : Str) (p : ℕ) (name : Str) : Prop where
  dir : p ∈ N.dirs
  walk : N.Walk ufsRootInode (pathParts path).dropLast p
  last : name = (pathParts path).getLast?.getD []

/-- The parent of a creation: a directory without the new name. -/
theorem resolveCreationParent_stores {path : Str} {k : Str × ℕ × Inode → Write α}
    (hi : ufs.Stores image T) (hc : Carries T N N.links) (hs : N.Sound)
    (hp : PathInDirs image ufs (splitParent path).1) (hE : ∀ e, E e image)
    (hk : ∀ p name, N.Below path p name → N.Fresh p name →
      (k (name, p, (T.file p).inode)).wp image Q E) :
    (resolveCreationParent ufs path >>= k).wp image Q E := by
  obtain ⟨hparts, hlast⟩ := splitParent_parts path
  have hres := hc.resolvePath hs hi hp
  rw [hparts] at hres
  rw [Act.wp_bind]
  unfold resolveCreationParent
  dsimp only
  cases hres with
  | inr h => exact Act.wp_read_bind h.2 (hE _)
  | inl h =>
    obtain ⟨p, hw, hr⟩ := h
    refine Act.wp_read_bind hr (Act.wp_ite.mpr ⟨fun _ => hE _, fun hd => ?_⟩)
    have hpl := hw.live hs (hs.dirs_live hs.root)
    have hpd := (hc.isDir p hpl).mp (not_not.mp hd)
    cases N.fresh_or_record p (splitParent path).2 with
    | inl hf =>
      refine Act.wp_read_bind (hc.lookup_fresh hs hi hpd hf) ?_
      exact hk p _ ⟨hpd, hw, hlast⟩ hf
    | inr he =>
      obtain ⟨e, he, hname⟩ := he
      have hlook := hc.lookup_some hs hi hpd he
      rw [hname] at hlook
      exact Act.wp_read_bind hlook (hE _)

/-- The rest of `create_file`, once the inode is there. -/
theorem fillFile_stores {m p : ℕ} {i : Dinode} {name : Str} {data : Bytes} (hc : Carries T N N.links)
    (hs : N.Sound) (hp : p ∈ N.dirs) (hm : m ∉ T.used) (hm2 : 2 ≤ m) (hi : i.isDirectory = false)
    (hl : i.nlink = 1) (hname : name.length ≤ 255) (hdata : data.length < 2 ^ 63)
    (hroom : T.room m = T.room 0)
    (hE : ∀ e image, ¬Roomy ufs.sb T p name (ufs.sb.blocksNeeded data.length) → E e image) :
    (do
      if data ≠ [] then setInodeContents ufs m data
      addDirectoryEntry ufs p (T.file p).inode name m
      pure m : Write ℕ).hoare ufs.Stores ((T.reserve m false).create m i)
      (fun r T' => NewFile T N p name r T' ∧ (T'.file r).body = data ∧
        (T'.file r).inode.core = i.core) E := by
  by_cases h : data = []
  · subst h
    rw [if_neg (not_not.mpr rfl)]
    have hpl := hs.dirs_live hp
    have hmp : m ≠ p := fun h => hm (Finset.mem_union_right _ (hc.live ▸ h ▸ hpl))
    obtain ⟨-, hmu, hr, hfm, hfx, hk⟩ := @create_facts T m false i hm
    have hc₁ := hc.newFile hs.dirs_live hm hi
    rw [hl] at hc₁
    refine (enterNew_stores hs hc.live hc.dirs hp hm hm2 hc₁ hmu hk (hfx p (hc.live ▸ hpl)) hname
      ?_).bind ?_
    · intro e image he
      refine hE e image fun h => ?_
      have := h.entry
      rw [hr] at he
      omega
    rintro - T' ⟨hnew, hother⟩
    have hfile := (hother m hmp).trans hfm
    exact Act.hoare_pure ⟨hnew, by rw [hfile], by rw [hfile]⟩
  · rw [if_pos h]
    exact fillNew_stores hc hs hp hm hm2 hi hl hname hdata hroom hE

theorem createFile_stores {path : Str} {data : Bytes} {mode uid gid timestamp : ℕ}
    (hi : ufs.Stores image T) (hc : Carries T N N.links) (hs : N.Sound)
    (hp : PathInDirs image ufs (splitParent path).1) (hmode : fileTypeOf mode ≠ ufsIfdir)
    (hdata : data.length < 2 ^ 63)
    (hnew : ∀ p name, N.Below path p name → N.Fresh p name → name.length ≤ 255) :
    (createFile ufs path data mode uid gid timestamp).wp image
      (fun m t => ∃ T', ufs.Stores t T' ∧ ∃ p name, N.Below path p name ∧ N.Fresh p name ∧
        NewFile T N p name m T' ∧ (T'.file m).body = data ∧ (T'.file m).inode.core =
          (Dinode.fresh (fileTypeOf mode ||| permissionsOf mode) uid gid 1 timestamp).core)
      (Refused ufs T (∃ p name, N.Below path p name ∧ N.Fresh p name ∧
        Cramped ufs.sb T p name (ufs.sb.blocksNeeded data.length))) := by
  unfold createFile
  refine resolveCreationParent_stores hi hc hs hp (fun _ => .inl hi) fun p name hb hf => ?_
  dsimp only
  have hdir := fresh_isDirectory (fileTypeOf_land mode) mode uid gid 1 timestamp
  have h := @newInode_stores ufs T p ℕ false _ uid gid 1 timestamp _ _
    (Refused ufs T (∃ p name, N.Below path p name ∧ N.Fresh p name ∧
      Cramped ufs.sb T p name (ufs.sb.blocksNeeded data.length))) (fun _ _ h _ => .inl h)
    fun m hm hm2 hlt hroom =>
      fillFile_stores hc hs hb.dir hm hm2 (hdir.trans (decide_eq_false hmode)) rfl (hnew p name hb hf)
        hdata hroom fun _ _ h => .inr ⟨p, name, hb, hf, ⟨m, hlt, hm⟩, h⟩
  refine (h.run image hi).mono ?_ fun _ _ h => h
  rintro m t ⟨T', ht, hnew, hbody, hcore⟩
  exact ⟨T', ht, p, name, hb, hf, hnew, hbody, hcore⟩

theorem makeDirectory_stores {path : Str} {mode uid gid timestamp : ℕ}
    (hi : ufs.Stores image T) (hc : Carries T N N.links) (hs : N.Sound)
    (hp : PathInDirs image ufs (splitParent path).1) (hnew : ∀ p name, N.Below path p name →
      N.Fresh p name → NameOk name ∧ N.links p + 1 < 2 ^ 16) :
    (makeDirectory ufs path mode uid gid timestamp).wp image
      (fun m t => ∃ T', ufs.Stores t T' ∧ ∃ p name, N.Below path p name ∧ N.Fresh p name ∧
        NewDir T N p name m T' ∧ (T'.file m).inode.attrs =
          (Dinode.fresh (ufsIfdir ||| permissionsOf mode) uid gid 2 timestamp).attrs)
      (Refused ufs T (∃ p name, N.Below path p name ∧ N.Fresh p name ∧
        Cramped ufs.sb T p name (ufs.sb.blocksNeeded ufsDirblksiz))) := by
  unfold makeDirectory
  refine resolveCreationParent_stores hi hc hs hp (fun _ => .inl hi) fun p name hb hf => ?_
  obtain ⟨hname, hlinks⟩ := hnew p name hb hf
  dsimp only
  have hdir := fresh_isDirectory (show ufsIfdir &&& ufsIfmt = ufsIfdir by decide) mode uid gid 2
    timestamp
  have h := @newInode_stores ufs T p ℕ true _ uid gid 2 timestamp _ _
    (Refused ufs T (∃ p name, N.Below path p name ∧ N.Fresh p name ∧
      Cramped ufs.sb T p name (ufs.sb.blocksNeeded ufsDirblksiz))) (fun _ _ h _ => .inl h)
    fun m hm hm2 hlt hroom => fillDir_stores hc hs hb.dir hm hm2 hdir rfl hname hf hlinks hroom
      fun _ _ h => .inr ⟨p, name, hb, hf, ⟨m, hlt, hm⟩, h⟩
  refine (h.run image hi).mono ?_ fun _ _ h => h
  rintro m t ⟨T', ht, hnew, hattrs⟩
  exact ⟨T', ht, p, name, hb, hf, hnew, hattrs⟩

theorem link_stores {source target : Str} (hi : ufs.Stores image T) (hc : Carries T N N.links)
    (hs : N.Sound) (hsrc : PathInDirs image ufs source)
    (hp : PathInDirs image ufs (splitParent target).1) (hnew : ∀ n p name,
      N.Walk ufsRootInode (pathParts source) n → n ∉ N.dirs → N.Below target p name →
      N.Fresh p name → name.length ≤ 255 ∧ N.links n + 1 < 2 ^ 16) :
    (link ufs source target).wp image
      (fun n t => ∃ T', ufs.Stores t T' ∧ ∃ p name, N.Walk ufsRootInode (pathParts source) n ∧
        n ∉ N.dirs ∧ N.Below target p name ∧ N.Fresh p name ∧
        Carries T' (N.enter p ⟨name, n⟩) (N.enter p ⟨name, n⟩).links ∧ T.Keeps T')
      (Refused ufs T (∃ n p name, N.Walk ufsRootInode (pathParts source) n ∧ n ∉ N.dirs ∧
        N.Below target p name ∧ N.Fresh p name ∧ ¬Roomy ufs.sb T p name 0)) := by
  unfold link
  cases hc.resolvePath hs hi hsrc with
  | inr h => exact Act.wp_read_bind h.2 (.inl hi)
  | inl h =>
    obtain ⟨n, hw, hr⟩ := h
    have hnl := hw.live hs (hs.dirs_live hs.root)
    refine Act.wp_read_bind hr (Act.wp_ite.mpr ⟨fun _ => .inl hi, fun hd => ?_⟩)
    have hnd : n ∉ N.dirs := fun h => hd ((hc.isDir n hnl).mpr h)
    refine resolveCreationParent_stores hi hc hs hp (fun _ => .inl hi) fun p name hb hf => ?_
    obtain ⟨hname, hlinks⟩ := hnew n p name hw hnd hb hf
    have h := @enterLink_stores ufs T N p n ℕ name (pure n) (fun m T' => m = n ∧
      Carries T' (N.enter p ⟨name, n⟩) (N.enter p ⟨name, n⟩).links ∧ T.Keeps T')
      (Refused ufs T (∃ n p name, N.Walk ufsRootInode (pathParts source) n ∧ n ∉ N.dirs ∧
        N.Below target p name ∧ N.Fresh p name ∧ ¬Roomy ufs.sb T p name 0)) hc hs hb.dir hnl hnd hname
      hlinks (fun _ _ h => .inr ⟨n, p, name, hw, hnd, hb, hf, h⟩)
      fun T' h1 h2 => Act.hoare_pure ⟨rfl, h1, h2⟩
    refine (h.run image hi).mono ?_ fun _ _ h => h
    rintro m t ⟨T', ht, rfl, h1, h2⟩
    exact ⟨T', ht, p, name, hw, hnd, hb, hf, h1, h2⟩

/-! ## Removal -/

/-- Removing `name` touches the entry of that name only: decoding may make a name that is not ASCII
look like another one. -/
def NameTree.Sure (N : NameTree) (p : ℕ) (name : Str) : Prop :=
  Ascii name ∨ ∀ e ∈ N.records p, ¬e.Reads name

theorem NameTree.Sound.record_named {d : ℕ} {e : Entry} (hs : N.Sound) (hd : d ∈ N.dirs)
    (he : e ∈ N.records d) : e.name ≠ [] := by
  simp only [NameTree.records, Multiset.mem_cons] at he
  rcases he with rfl | rfl | he
  · simp
  · simp
  · exact hs.named d hd e he

theorem deleteDirectoryEntry_refuses {p : ℕ} {name : Str} {β : Type} {k : Write β}
    {Q : β → Table → Prop} (hc : Carries T N N.links) (hs : N.Sound) (hp : p ∈ N.dirs)
    (hn : ∀ e ∈ N.records p, ¬e.Reads name) :
    (deleteDirectoryEntry ufs (T.file p).inode name >>= fun _ => k).hoare ufs.Stores T Q
      (fun _ t => ufs.Stores t T) := by
  obtain ⟨es, hd, hes⟩ := hc.body p hp
  refine ((deleteDirectoryEntry_stores (hc.live ▸ hs.dirs_live hp) hd name).mono ?_
    fun _ _ h => h.1).bind (P := fun _ _ => False) fun _ _ h => h.elim
  rintro - T' ⟨es', body, he, -⟩
  rw [editFirst_of_not fun e hm => hn e (hes ▸ Multiset.mem_coe.mpr hm)] at he
  cases he

theorem dropDirectory_refuses {p n : ℕ} {name : Str} {Q : Unit → Table → Prop}
    (hc : Carries T N N.links) (hs : N.Sound) (hp : p ∈ N.dirs)
    (hn : ∀ e ∈ N.records p, ¬e.Reads name) :
    (dropDirectory ufs p (T.file p).inode n name).hoare ufs.Stores T Q
      (fun _ t => ufs.Stores t T) := by
  unfold dropDirectory
  exact deleteDirectoryEntry_refuses hc hs hp hn

/-- The parent for a removal. -/
theorem resolveRemovalParent_stores {path : Str} {p : ℕ} {k : Str × ℕ × Inode → Write α}
    (hi : ufs.Stores image T) (hc : Carries T N N.links) (hs : N.Sound)
    (hp : PathInDirs image ufs path) (hb : N.Walk ufsRootInode (pathParts path).dropLast p)
    (hk : (k ((pathParts path).getLast?.getD [], p, (T.file p).inode)).wp image Q E) :
    (resolveRemovalParent ufs path >>= k).wp image Q E := by
  obtain ⟨hparts, hlast⟩ := splitParent_parts path
  have hres := hc.resolvePath hs hi hp.parent
  rw [hparts] at hres
  rw [Act.wp_bind]
  unfold resolveRemovalParent
  dsimp only
  cases hres with
  | inr h => exact absurd hb (h.1 p)
  | inl h =>
    obtain ⟨q, hw, hr⟩ := h
    obtain rfl := hw.det hs hb
    refine Act.wp_read_bind hr ?_
    rw [hlast]
    exact hk

/-- The last step of a path that is not the root. -/
theorem NameTree.Walk.below_last {path : Str} {n : ℕ} (h : N.Walk ufsRootInode (pathParts path) n)
    (hne : pathParts path ≠ []) : ∃ p name, N.Below path p name ∧
      ∃ e ∈ N.records p, e.name = name ∧ e.inode = n := by
  have hl := List.dropLast_append_getLast hne
  rw [← hl] at h
  obtain ⟨p, hw, hp, e, he, hname, hino⟩ := h.last
  refine ⟨p, _, ⟨hp, hw, ?_⟩, e, he, hname, hino⟩
  rw [List.getLast?_eq_some_getLast hne]
  rfl

theorem unlink_stores {path : Str} (hi : ufs.Stores image T) (hc : Carries T N N.links)
    (hs : N.Sound) (hp : PathInDirs image ufs path)
    (hsure : ∀ p name, N.Below path p name → N.Sure p name) :
    (unlink ufs path).wp image
      (fun n t => ∃ T', ufs.Stores t T' ∧ ∃ p, ∃ e ∈ N.kids p, N.Below path p e.name ∧
        e.inode = n ∧ n ∉ N.dirs ∧ LeftFile T N p e T')
      (fun _ t => ufs.Stores t T) := by
  unfold unlink
  refine Act.wp_ite.mpr ⟨fun _ => hi, fun _ => ?_⟩
  cases hc.resolvePath hs hi hp with
  | inr h => exact Act.wp_read_bind h.2 hi
  | inl h =>
    obtain ⟨n, hw, hr⟩ := h
    have hnl := hw.live hs (hs.dirs_live hs.root)
    refine Act.wp_read_bind hr (Act.wp_ite.mpr ⟨fun _ => hi, fun hd => ?_⟩)
    have hnd : n ∉ N.dirs := fun h => hd ((hc.isDir n hnl).mpr h)
    have hne : pathParts path ≠ [] := by
      intro h0
      rw [h0] at hw
      cases hw
      exact hnd hs.root
    obtain ⟨p, name, hb, e, he, rfl, rfl⟩ := hw.below_last hne
    refine resolveRemovalParent_stores hi hc hs hp hb.walk ?_
    rw [← hb.last]
    dsimp only
    have hkid : e ∈ N.kids p := by
      simp only [NameTree.records, Multiset.mem_cons] at he
      rcases he with rfl | rfl | he
      · exact absurd hb.dir hnd
      · exact absurd (hs.up_mem hb.dir) hnd
      · exact he
    cases hsure p e.name hb with
    | inr hno =>
      refine ((deleteDirectoryEntry_refuses (Q := fun _ _ => False) hc hs hb.dir hno).run image
        hi).mono ?_ fun _ _ h => h
      rintro m t ⟨T', -, h⟩
      exact h.elim
    | inl ha =>
      have h := @leaveFile_stores ufs T N p e ℕ (pure e.inode) (fun m T' => m = e.inode ∧
        LeftFile T N p e T') (fun _ t => ufs.Stores t T) hc hs hb.dir hkid ha hnd
        fun T' h1 _ => Act.hoare_pure ⟨rfl, h1⟩
      refine (h.run image hi).mono ?_ fun _ _ h => h
      rintro m t ⟨T', ht, rfl, hleft⟩
      exact ⟨T', ht, p, e, hkid, hb, rfl, hnd, hleft⟩

theorem removeDirectory_stores {path : Str} (hi : ufs.Stores image T) (hc : Carries T N N.links)
    (hs : N.Sound) (hp : PathInDirs image ufs path)
    (hsure : ∀ p name, N.Below path p name → N.Sure p name)
    (hdots : ∀ n p name, N.Walk ufsRootInode (pathParts path) n → n ∈ N.dirs → N.kids n = 0 →
      N.Below path p name → name ≠ dotName ∧ name ≠ dotdotName) :
    (removeDirectory ufs path).wp image
      (fun n t => ∃ T', ufs.Stores t T' ∧ ∃ p, ∃ e ∈ N.kids p, N.Below path p e.name ∧
        e.inode = n ∧ n ∈ N.dirs ∧ N.kids n = 0 ∧ LeftDir T N p e T')
      (fun _ t => ufs.Stores t T) := by
  unfold removeDirectory
  refine Act.wp_ite.mpr ⟨fun _ => hi, fun _ => ?_⟩
  cases hc.resolvePath hs hi hp with
  | inr h => exact Act.wp_read_bind h.2 hi
  | inl h =>
    obtain ⟨n, hw, hr⟩ := h
    have hnl := hw.live hs (hs.dirs_live hs.root)
    refine Act.wp_read_bind hr (Act.wp_ite.mpr ⟨fun _ => hi, fun hd => ?_⟩)
    have hnd : n ∈ N.dirs := (hc.isDir n hnl).mp (not_not.mp hd)
    refine Act.wp_read_bind (hc.directoryIsEmpty hs hi hnd) (Act.wp_ite.mpr ⟨fun _ => hi, fun hz => ?_⟩)
    have hzero : N.kids n = 0 := of_decide_eq_true (not_not.mp hz)
    have hrefuse : ∀ p name, p ∈ N.dirs → (∀ e ∈ N.records p, ¬e.Reads name) →
        (do
          dropDirectory ufs p (T.file p).inode n name
          pure n : Write ℕ).wp image
        (fun n t => ∃ T', ufs.Stores t T' ∧ ∃ p, ∃ e ∈ N.kids p, N.Below path p e.name ∧
          e.inode = n ∧ n ∈ N.dirs ∧ N.kids n = 0 ∧ LeftDir T N p e T')
        (fun _ t => ufs.Stores t T) := by
      intro p name hpd hno
      have h := (@dropDirectory_refuses ufs T N p n name (fun _ _ => False) hc hs hpd hno).bind
        (f := fun _ => pure n) (Q := fun _ _ => False) fun _ _ h => h.elim
      refine (h.run image hi).mono ?_ fun _ _ h => h
      rintro m t ⟨T', -, h⟩
      exact h.elim
    by_cases hne : pathParts path = []
    · -- the root under another name than "/": its entry would have the empty name
      have hroot : N.Walk ufsRootInode (pathParts path).dropLast ufsRootInode := by
        rw [hne]
        exact .here _
      refine resolveRemovalParent_stores hi hc hs hp hroot ?_
      rw [hne]
      dsimp only
      have hno : ∀ e ∈ N.records ufsRootInode, ¬e.Reads [] := by
        intro e he hread
        exact hs.record_named hs.root he ((Entry.reads_iff (fun b hb => absurd hb List.not_mem_nil) e).mp hread)
      refine hrefuse ufsRootInode [] hs.root hno
    · obtain ⟨p, name, hb, e, he, rfl, rfl⟩ := hw.below_last hne
      obtain ⟨h1, h2⟩ := hdots _ p e.name hw hnd hzero hb
      have hkid := NameTree.Sound.kid_of_record he h1 h2
      refine resolveRemovalParent_stores hi hc hs hp hb.walk ?_
      rw [← hb.last]
      dsimp only
      cases hsure p e.name hb with
      | inr hno => exact hrefuse p e.name hb.dir hno
      | inl ha =>
        have h := (@dropDirectory_stores ufs T N p e (fun _ t => ufs.Stores t T) hc hs hb.dir hkid ha
          hnd hzero).bind (f := fun _ => pure e.inode) (Q := fun m T' => m = e.inode ∧
            LeftDir T N p e T') fun _ T' h => Act.hoare_pure ⟨rfl, h.1⟩
        refine (h.run image hi).mono ?_ fun _ _ h => h
        rintro m t ⟨T', ht, rfl, hleft⟩
        exact ⟨T', ht, p, e, hkid, hb, rfl, hnd, hzero, hleft⟩

end Operations
end UfsFuse
