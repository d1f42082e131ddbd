import UfsFuse.Operations

/-!
# Linking, removing, renaming

The operations that change the names of existing inodes.
-/
namespace UfsFuse

section Link
variable {ufs : Ufs} {T : Table} {N : NameTree} {p t : ℕ}

theorem NameTree.links_pos {e : Entry} (hp : p ∈ N.dirs) (he : e ∈ N.kids p) :
    0 < N.links e.inode := by
  have h := N.links_eq e.inode
  have hpos := N.entered_pos hp he
  omega

/-- Entry and link count for an existing file. -/
theorem enterLink_stores {α : Type} {name : Str} {k : Write α} {Q : α → Table → Prop}
    {E : Fault → Bytes → Prop} (hc : Carries T N N.links)
    (hs : N.Sound) (hp : p ∈ N.dirs) (ht : t ∈ N.live) (htd : t ∉ N.dirs) (hname : name.length ≤ 255)
    (hlinks : N.links t + 1 < 2 ^ 16)
    (hE : ∀ e image, ¬Roomy ufs.sb T p name 0 → E e image)
    (hk : ∀ T', Carries T' (N.enter p ⟨name, t⟩) (N.enter p ⟨name, t⟩).links → T.Keeps T' →
      k.hoare ufs.Stores T' Q E) :
    (do
      addDirectoryEntry ufs p (T.file p).inode name t
      writeInodeNlink ufs t ((T.file t).inode.nlink + 1)
      k : Write α).hoare ufs.Stores T Q E := by
  refine hoare_stored fun image hi => ?_
  have htT : t ∈ T.live := hc.live ▸ ht
  have htp : t ≠ p := fun h => htd (h ▸ hp)
  have ht0 : t ≠ 0 := by
    obtain ⟨D, own, -, hv⟩ := hi
    have := hv.live_ge htT
    omega
  refine ((addDirectoryEntry_carries hc hs.dirs_live hp hname (Finset.mem_union_right _ htT) ht0).mono
    (fun _ _ h => h) fun e image he => hE e image fun h => ?_).bind ?_
  · have := h.entry
    rw [ShortOf] at he
    omega
  rintro - T' ⟨hc', hkeep, hlive, hdirs, -, hother, -, -⟩
  have hft := hother t htp
  rw [← hft]
  refine (writeInodeNlink_stores (by rw [hlive]; exact htT)).bind ?_
  rintro - T'' rfl
  have hnl := hc.nlink t ht
  rw [hft, hnl, Nat.mod_eq_of_lt hlinks]
  have hn := hc'.setNlink ht (N.links t + 1)
  rw [hft] at hn
  have hins : insert t N.live = N.live := Finset.insert_eq_of_mem ht
  have htree : ({ N with kids := Function.update N.kids p (⟨name, t⟩ ::ₘ N.kids p) } : NameTree) =
      N.enter p ⟨name, t⟩ := by
    rw [NameTree.enter, hins]
  rw [htree] at hn
  refine hk _ (hn.congr fun n _ => ?_) ?_
  · rw [NameTree.links_enter hp]
    by_cases hnt : n = t
    · subst hnt
      rw [Function.update_self, if_pos rfl]
    · rw [Function.update_of_ne hnt, if_neg (Ne.symm hnt)]
      rfl
  · refine hkeep.trans (Table.Keeps.setFile ?_ ?_) ?_ ?_
    · rw [hft]
      exact Dinode.attrs_nlink _ _
    · intro _ _
      rfl
    · intro n hn _
      rw [hlive]
      exact hn
    · intro n _ _ hnd
      rwa [hdirs] at hnd

theorem linkInParent_stores (hc : Carries T N N.links) (hs : N.Sound) (hp : p ∈ N.dirs)
    (ht : t ∈ N.live) {name : Str} (hname : name.length ≤ 255)
    (hlinks : t ∉ N.dirs → N.links t + 1 < 2 ^ 16) :
    (linkInParent ufs p name t).hoare ufs.Stores T
      (fun _ T' => t ∉ N.dirs ∧
        Carries T' (N.enter p ⟨name, t⟩) (N.enter p ⟨name, t⟩).links ∧ T.Keeps T')
      (Refused ufs T (t ∉ N.dirs ∧ ¬Roomy ufs.sb T p name 0)) := by
  rw [linkInParent]
  refine (readInodeOr_stores (hc.live ▸ hs.dirs_live hp) _).step fun i hi => ?_
  subst hi
  refine (readInodeOr_stores (hc.live ▸ ht) _).step fun i hi => ?_
  subst hi
  refine Act.hoare_ite (fun _ => Act.hoare_fail fun image hi => .inl hi) fun hnd => ?_
  have htd : t ∉ N.dirs := fun hd => hnd ((hc.isDir t ht).mpr hd)
  rw [← Act.bind_pure_unit (writeInodeNlink ufs t _)]
  exact enterLink_stores hc hs hp ht htd hname (hlinks htd) (fun _ _ h => .inr ⟨htd, h⟩) fun T' h1 h2 =>
    Act.hoare_pure ⟨htd, h1, h2⟩

end Link

/-! ## Removing -/
section Remove
variable {ufs : Ufs} {T : Table} {N : NameTree} {p : ℕ} {e : Entry}

/-- Looking up a name: refused if there is none. -/
theorem lookupOr_stores {α : Type} {name : Str} {failure : Fault} {k : ℕ × Inode → Write α}
    {links : ℕ → ℕ} {Q : α → Table → Prop} {E : Fault → Bytes → Prop} (hc : Carries T N links)
    (hs : N.Sound) (hp : p ∈ N.dirs) (hE : ∀ e image, ufs.Stores image T → E e image)
    (hk : ∀ e ∈ N.records p, e.name = name →
      (k (e.inode, (T.file e.inode).inode.toInode)).hoare ufs.Stores T Q E) :
    (lookupOr ufs (T.file p).inode name failure >>= k).hoare ufs.Stores T Q E := by
  refine Act.hoare.bind (P := fun r T' => T' = T ∧ ∃ e ∈ N.records p, e.name = name ∧
    r = (e.inode, (T.file e.inode).inode.toInode)) ?_ ?_
  · rw [lookupOr]
    rcases N.fresh_or_record p name with hf | ⟨e, he, rfl⟩
    · refine Act.hoare_read_bind (fun image hi => hc.lookup_fresh hs hi hp hf) ?_
      exact Act.hoare_fail fun image hi => hE _ image hi
    · refine Act.hoare_read_bind (fun image hi => hc.lookup_some hs hi hp he) ?_
      exact Act.hoare_pure ⟨rfl, e, he, rfl, rfl⟩
  · rintro r T' ⟨rfl, e, he, hname, rfl⟩
    exact hk e he hname

/-- What taking a name of a file away has done. -/
structure LeftFile (T : Table) (N : NameTree) (p : ℕ) (e : Entry) (T' : Table) : Prop where
  carries : Carries T' (N.leave p e) (N.leave p e).links
  keeps : T.Keeps T'
  room_le : T.room ≤ T'.room

theorem dropLink_stores {E : Fault → Bytes → Prop} (hs : N.Sound) (hp : p ∈ N.dirs)
    (he : e ∈ N.kids p) (htd : e.inode ∉ N.dirs) {i : Inode} (hi : i.nlink = N.links e.inode)
    (hlt : i.nlink < 2 ^ 16)
    (hc : Carries T { N with kids := Function.update N.kids p ((N.kids p).erase e) } N.links) :
    (dropLink ufs e.inode i).hoare ufs.Stores T
      (fun _ T' => LeftFile T N p e T' ∧ ∀ n, n ≠ e.inode → T'.file n = T.file n) E := by
  have htl : e.inode ∈ N.live := hs.target p hp e he
  have htT : e.inode ∈ T.live := hc.live ▸ htl
  have hpos := N.links_pos hp he
  have hlinks := hs.links_file htd
  have hleave : ∀ n, (N.leave p e).links n + (if e.inode = n then 1 else 0) = N.links n := fun n =>
    NameTree.links_leave hp he
  rw [dropLink]
  refine Act.hoare_ite (fun hmany => ?_) fun hlast => ?_
  · refine (writeInodeNlink_stores htT).post ?_
    rintro - T' rfl
    have hmod : (i.nlink - 1) % 2 ^ 16 = N.links e.inode - 1 := by
      rw [Nat.mod_eq_of_lt (by omega), hi]
    rw [hmod]
    have hn := hc.setNlink htl (N.links e.inode - 1)
    have htree : ({ N with kids := Function.update N.kids p ((N.kids p).erase e) } : NameTree) =
        N.leave p e := by
      rw [NameTree.leave, if_neg (by omega)]
    rw [htree] at hn
    refine ⟨⟨hn.congr fun n _ => ?_, Table.Keeps.setFile (Dinode.attrs_nlink _ _) fun _ _ => rfl,
      le_rfl⟩, fun n hne => T.setFile_of_ne hne _ _⟩
    have hl := hleave n
    by_cases hne : n = e.inode
    · subst hne
      rw [if_pos rfl] at hl
      rw [Function.update_self]
      omega
    · rw [if_neg (Ne.symm hne)] at hl
      rw [Function.update_of_ne hne]
      omega
  · have hone : N.links e.inode = 1 := by omega
    refine (dropInode_stores htT false ?_).post ?_
    · rw [hc.dirs]
      exact iff_of_false Bool.false_ne_true htd
    rintro - T' ⟨f, room, rfl, hroom⟩
    have hn := hc.remove (n := e.inode) f room
    have htree : ({ live := N.live.erase e.inode, dirs := N.dirs.erase e.inode,
                    kids := Function.update N.kids p ((N.kids p).erase e), up := N.up } : NameTree) =
        N.leave p e := by
      rw [NameTree.leave, if_pos (hlinks ▸ hone), Finset.erase_eq_of_notMem htd]
    rw [htree] at hn
    have hfile : ∀ n, n ≠ e.inode → ((T.setFile e.inode f room).remove e.inode).file n = T.file n :=
      fun n hne => T.setFile_of_ne hne f room
    refine ⟨⟨hn.congr fun n hnl => ?_, Table.Keeps.of_file rfl rfl fun n _ hnl => hfile n ?_, hroom⟩, hfile⟩
    · have hl := hleave n
      have hne : n ≠ e.inode := by
        rintro rfl
        rw [← htree] at hnl
        exact Finset.notMem_erase _ _ hnl
      rw [if_neg (Ne.symm hne)] at hl
      exact hl.symm
    · exact Finset.ne_of_mem_erase hnl

/-- Taking away an entry of a file, known by its name. -/
theorem leaveFile_stores {α : Type} {k : Write α} {Q : α → Table → Prop} {E : Fault → Bytes → Prop}
    (hc : Carries T N N.links) (hs : N.Sound)
    (hp : p ∈ N.dirs) (he : e ∈ N.kids p) (ha : Ascii e.name) (htd : e.inode ∉ N.dirs)
    (hk : ∀ T', LeftFile T N p e T' → entryCost ufs.sb (T'.file p).body e.name = 0 →
      k.hoare ufs.Stores T' Q E) :
    (do
      deleteDirectoryEntry ufs (T.file p).inode e.name
      dropLink ufs e.inode (T.file e.inode).inode
      k : Write α).hoare ufs.Stores T Q E := by
  refine hoare_stored fun image hi => ?_
  have htl : e.inode ∈ N.live := hs.target p hp e he
  have htp : p ≠ e.inode := fun h => htd (h ▸ hp)
  refine (deleteDirectoryEntry_carries hc hs.dirs_live hp (hs.names p hp) he ha).bind ?_
  rintro - T' ⟨body, rfl, hcost, hc'⟩
  refine (dropLink_stores hs hp he htd (hc.nlink _ htl) (hi.nlink_lt (hc.live ▸ htl)) hc').bind ?_
  rintro - T' ⟨⟨h1, h2, h3⟩, hother⟩
  have hkeep : T.Keeps (T.setBody p body) :=
    Table.Keeps.setFile rfl fun _ hnd => absurd (hc.dirs ▸ hp) hnd
  refine hk T' ⟨h1, hkeep.trans h2 (fun n hn _ => hn) fun n _ _ hd => hd, h3⟩ ?_
  rw [hother p htp, Table.setBody_body, hcost]

theorem unlinkInParent_stores (hc : Carries T N N.links) (hs : N.Sound) (hp : p ∈ N.dirs)
    {name : Str} (ha : Ascii name) :
    (unlinkInParent ufs p name).hoare ufs.Stores T
      (fun t T' => ∃ e ∈ N.kids p, e.name = name ∧ e.inode = t ∧ t ∉ N.dirs ∧ LeftFile T N p e T' ∧
        entryCost ufs.sb (T'.file p).body name = 0)
      (fun _ image => ufs.Stores image T) := by
  rw [unlinkInParent]
  refine (readInodeOr_stores (hc.live ▸ hs.dirs_live hp) _).step fun i hi => ?_
  subst hi
  refine lookupOr_stores hc hs hp (fun _ _ h => h) fun e he hname => ?_
  dsimp only
  refine Act.hoare_ite (fun _ => Act.hoare_fail fun image hi => hi) fun hnd => ?_
  have hlive := hs.record_live hp he
  have htd : e.inode ∉ N.dirs := fun hd => hnd ((hc.isDir _ hlive).mpr hd)
  have hkid : e ∈ N.kids p := by
    simp only [NameTree.records, Multiset.mem_cons] at he
    rcases he with rfl | rfl | he
    · exact absurd hp htd
    · exact absurd (hs.up_mem hp) htd
    · exact he
  subst hname
  exact leaveFile_stores hc hs hp hkid ha htd fun T' hleft hcost =>
    Act.hoare_pure ⟨e, hkid, rfl, rfl, htd, hleft, hcost⟩

/-- What taking an empty directory away has done. -/
structure LeftDir (T : Table) (N : NameTree) (p : ℕ) (e : Entry) (T' : Table) : Prop where
  carries : Carries T' (N.leaveDir p e) (N.leaveDir p e).links
  keeps : T.Keeps T'
  room_le : T.room ≤ T'.room

theorem dropDirectory_stores {E : Fault → Bytes → Prop} (hc : Carries T N N.links) (hs : N.Sound)
    (hp : p ∈ N.dirs) (he : e ∈ N.kids p) (ha : Ascii e.name) (ht : e.inode ∈ N.dirs)
    (hempty : N.kids e.inode = 0) :
    (dropDirectory ufs p (T.file p).inode e.inode e.name).hoare ufs.Stores T
      (fun _ T' => LeftDir T N p e T' ∧ entryCost ufs.sb (T'.file p).body e.name = 0) E := by
  refine hoare_stored fun image hi => ?_
  have hpl := hs.dirs_live hp
  have hpT : p ∈ T.live := hc.live ▸ hpl
  have htl := hs.dirs_live ht
  have htp : p ≠ e.inode := by
    rintro rfl
    rw [hempty] at he
    exact absurd he (Multiset.notMem_zero _)
  have hpos : 0 < N.links p := by
    rw [hs.links_dir hp]
    omega
  have hnl := hc.nlink p hpl
  have hlt := hi.nlink_lt hpT
  rw [dropDirectory]
  refine (deleteDirectoryEntry_carries hc hs.dirs_live hp (hs.names p hp) he ha).bind ?_
  rintro - T₁ ⟨body, rfl, hcost, hc₁⟩
  have hnode : (((T.setBody p body).file p).inode) = (T.file p).inode := Table.setBody_inode _ _ _
  refine (writeInodeNlink_stores (show p ∈ (T.setBody p body).live from hpT)).seq ?_
  have hmod : ((T.file p).inode.nlink - 1) % 2 ^ 16 = N.links p - 1 := by
    rw [Nat.mod_eq_of_lt (by omega), hnl]
  rw [hmod]
  have hc₂ := hc₁.setNlink hpl (N.links p - 1)
  set T₂ := (T.setBody p body).setInode p
    { ((T.setBody p body).file p).inode with nlink := N.links p - 1 } with hT₂
  have hlive₂ : T₂.live = T.live := rfl
  have hdirs₂ : T₂.dirs = T.dirs := rfl
  refine (dropInode_stores (show e.inode ∈ T₂.live from hc.live ▸ htl) true ?_).post ?_
  · rw [hdirs₂, hc.dirs]
    exact iff_of_true rfl ht
  rintro - T' ⟨f, room, rfl, hroom⟩
  have hn := hc₂.remove (n := e.inode) f room
  have hfile : ∀ n, n ≠ e.inode → ((T₂.setFile e.inode f room).remove e.inode).file n = T₂.file n :=
    fun n hne => T₂.setFile_of_ne hne f room
  have hother : ∀ n, n ≠ p → T₂.file n = T.file n := by
    intro n hnp
    rw [hT₂, Table.setInode, Table.setFile_of_ne _ hnp, Table.setBody, Table.setFile_of_ne _ hnp]
  have hself : T₂.file p = ⟨{ (T.file p).inode with nlink := N.links p - 1 }, body⟩ := by
    rw [hT₂, Table.setInode, Table.setFile_self, hnode, Table.setBody_body]
  refine ⟨⟨hn.congr fun n hnl => ?_, ⟨rfl, rfl, fun n hnT hnl => ?_⟩, hroom⟩, ?_⟩
  · have hne := Finset.ne_of_mem_erase hnl
    have hl := NameTree.links_leaveDir hs hp he ht hempty hne
    by_cases hnp : n = p
    · subst hnp
      rw [if_pos rfl] at hl
      rw [Function.update_self]
      exact (Nat.eq_sub_of_add_eq hl).symm
    · rw [if_neg hnp] at hl
      rw [Function.update_of_ne hnp]
      exact hl.symm
  · have hne : n ≠ e.inode := Finset.ne_of_mem_erase hnl
    rw [hfile n hne]
    by_cases hnp : n = p
    · subst hnp
      rw [hself]
      exact ⟨Dinode.attrs_nlink _ _, fun hnd => absurd (hc.dirs ▸ hp) hnd⟩
    · rw [hother n hnp]
      exact ⟨rfl, fun _ => rfl⟩
  · rw [hfile p htp, hself]
    exact hcost

/-- A directory whose records all read as "." or ".." has no other entries. -/
theorem empty_of_all {es : List Entry} (hs : N.Sound) (hp : p ∈ N.dirs)
    (hes : (es : Multiset Entry) = N.records p) :
    (es.all fun e => decide e.IsDot) = true ↔ N.kids p = 0 := by
  have hdot : ∀ e : Entry, e.IsDot ↔ e.name = dotName ∨ e.name = dotdotName := fun e =>
    or_congr (Entry.reads_iff (by decide) e) (Entry.reads_iff (by decide) e)
  have hmem : ∀ e, e ∈ es ↔ e ∈ N.records p := fun e => by rw [← hes, Multiset.mem_coe]
  rw [List.all_eq_true]
  constructor
  · intro hall
    rw [Multiset.eq_zero_iff_forall_notMem]
    intro e he
    have h := (hdot e).mp (of_decide_eq_true (hall e ((hmem e).mpr (NameTree.kid_record he))))
    obtain ⟨h1, h2⟩ := hs.kid_name hp he
    exact h.elim h1 h2
  · intro hzero e he
    have hr := (hmem e).mp he
    rw [NameTree.records, hzero] at hr
    simp only [Multiset.mem_cons, Multiset.notMem_zero, or_false] at hr
    refine decide_eq_true ((hdot e).mpr ?_)
    rcases hr with rfl | rfl
    · exact .inl rfl
    · exact .inr rfl

theorem Carries.directoryIsEmpty {image : Bytes} {links : ℕ → ℕ} (hc : Carries T N links)
    (hs : N.Sound) (hi : ufs.Stores image T) (hp : p ∈ N.dirs) :
    directoryIsEmpty image ufs (T.file p).inode = .ok (decide (N.kids p = 0)) := by
  obtain ⟨es, hd, hes⟩ := hc.body p hp
  rw [hi.directoryIsEmpty (hc.live ▸ hs.dirs_live hp) hd]
  congr 1
  rw [Bool.eq_iff_iff, decide_eq_true_iff]
  exact empty_of_all hs hp hes

theorem rmdirInParent_stores (hc : Carries T N N.links) (hs : N.Sound) (hp : p ∈ N.dirs)
    {name : Str} (ha : Ascii name) (h1 : name ≠ dotName) (h2 : name ≠ dotdotName) :
    (rmdirInParent ufs p name).hoare ufs.Stores T
      (fun t T' => ∃ e ∈ N.kids p, e.name = name ∧ e.inode = t ∧ t ∈ N.dirs ∧ N.kids t = 0 ∧
        LeftDir T N p e T' ∧ entryCost ufs.sb (T'.file p).body name = 0)
      (fun _ image => ufs.Stores image T) := by
  rw [rmdirInParent]
  refine (readInodeOr_stores (hc.live ▸ hs.dirs_live hp) _).step fun i hi => ?_
  subst hi
  refine lookupOr_stores hc hs hp (fun _ _ h => h) fun e he hname => ?_
  subst hname
  dsimp only
  have hkid := NameTree.Sound.kid_of_record he h1 h2
  have hlive := hs.target p hp e hkid
  refine Act.hoare_ite (fun _ => Act.hoare_fail fun image hi => hi) fun hdir => ?_
  have ht : e.inode ∈ N.dirs := (hc.isDir _ hlive).mp (not_not.mp hdir)
  refine Act.hoare_read_bind (fun image hi => hc.directoryIsEmpty hs hi ht) ?_
  refine Act.hoare_ite (fun _ => Act.hoare_fail fun image hi => hi) fun hempty => ?_
  have hzero : N.kids e.inode = 0 := of_decide_eq_true (not_not.mp hempty)
  refine (dropDirectory_stores hc hs hp hkid ha ht hzero).bind ?_
  rintro - T' ⟨hleft, hcost⟩
  exact Act.hoare_pure ⟨e, hkid, rfl, rfl, ht, hzero, hleft, hcost⟩

end Remove
end UfsFuse
