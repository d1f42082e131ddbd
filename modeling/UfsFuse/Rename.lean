import UfsFuse.Removal

/-!
# Renaming

A rename enters the new name, moves ".." of a directory and takes the old name away. A target of the
same kind is removed first.
-/
namespace UfsFuse

section Rename
variable {ufs : Ufs} {T : Table} {N : NameTree} {p q : ℕ} {e : Entry} {name : Str}

/-- What a move has done. -/
structure Moved (T : Table) (N : NameTree) (p q : ℕ) (e : Entry) (name : Str) (T' : Table) : Prop where
  carries : Carries T' (N.move p q e name) (N.move p q e name).links
  keeps : T.Keeps T'

/-- The move of a file in the tree, in two steps. -/
theorem move_file_eq (hs : N.Sound) (hp : p ∈ N.dirs) (hq : q ∈ N.dirs) (he : e ∈ N.kids p)
    (hd : e.inode ∉ N.dirs) : N.move p q e name =
      { N with
        kids := Function.update (N.enter q ⟨name, e.inode⟩).kids p
          (((N.enter q ⟨name, e.inode⟩).kids p).erase e) } := by
  have hc := @NameTree.entered_update N (N.enter q ⟨name, e.inode⟩) e.inode q
    (⟨name, e.inode⟩ ::ₘ N.kids q) hq rfl rfl
  rw [naming_cons, if_pos rfl] at hc
  have hpos := N.entered_pos hp he
  have hne : (N.enter q ⟨name, e.inode⟩).entered e.inode ≠ 1 := by omega
  have hlive : insert e.inode N.live = N.live := Finset.insert_eq_of_mem (hs.target p hp e he)
  rw [NameTree.move, if_neg hd, NameTree.leave, if_neg hne]
  simp only [NameTree.enter, hlive]

/-- The move of a directory in the tree, in two steps. -/
theorem move_dir_eq (hd : e.inode ∈ N.dirs) : N.move p q e name =
      { N with
        kids := Function.update (N.enter q ⟨name, e.inode⟩).kids p
          (((N.enter q ⟨name, e.inode⟩).kids p).erase e)
        up := Function.update N.up e.inode q } := by
  rw [NameTree.move, if_pos hd]
  rfl

theorem links_move (hs : N.Sound) (hp : p ∈ N.dirs) (hq : q ∈ N.dirs) (he : e ∈ N.kids p) (n : ℕ) :
    (N.move p q e name).links n + (if e.inode ∈ N.dirs ∧ n = p then 1 else 0) =
      N.links n + if e.inode ∈ N.dirs ∧ n = q then 1 else 0 := by
  by_cases hd : e.inode ∈ N.dirs
  · have h := @NameTree.links_moveDir N n p q e ⟨name, e.inode⟩ hs hp hq he hd rfl
    simp only [hd, true_and]
    rw [NameTree.move, if_pos hd]
    exact h
  · simp only [hd, false_and, if_false, Nat.add_zero]
    rw [NameTree.move, if_neg hd]
    have hk : e ∈ (N.enter q ⟨name, e.inode⟩).kids p := by
      rw [NameTree.enter_kids]
      by_cases hpq : p = q
      · rw [hpq, Function.update_self]
        exact Multiset.mem_cons_of_mem (hpq ▸ he)
      · rw [Function.update_of_ne hpq]
        exact he
    have h1 := @NameTree.links_leave (N.enter q ⟨name, e.inode⟩) n p e hp hk
    have h2 := @NameTree.links_enter N n q ⟨name, e.inode⟩ hq
    simp only at h2
    omega

/-- The last step: the old entry goes. -/
theorem dropOld_stores {T₁ : Table} {up : ℕ → ℕ} {links : ℕ → ℕ}
    {E : Fault → Bytes → Prop} (hs : N.Sound) (hp : p ∈ N.dirs) (he : e ∈ N.kids p)
    (ha : Ascii e.name) (hf : N.Fresh q name)
    (hc : Carries T₁ { N with kids := (N.enter q ⟨name, e.inode⟩).kids, up := up } links)
    (htree : N.move p q e name =
      { N with
        kids := Function.update (N.enter q ⟨name, e.inode⟩).kids p
          (((N.enter q ⟨name, e.inode⟩).kids p).erase e)
        up := up })
    (hlinks : ∀ n ∈ N.live, links n = (N.move p q e name).links n) (hk : T.Keeps T₁)
    (hT : T.live = N.live) (hTd : T.dirs = N.dirs) :
    (do
      let srcParentInode ← readInodeUnwrap ufs p
      deleteDirectoryEntry ufs srcParentInode e.name : Write Unit).hoare ufs.Stores T₁
      (fun _ T' => Moved T N p q e name T') E := by
  have hpT : p ∈ T₁.live := hc.live ▸ hs.dirs_live hp
  refine (readInodeUnwrap_stores hpT).step fun i hi => ?_
  subst hi
  have hkid : e ∈ (N.enter q ⟨name, e.inode⟩).kids p := by
    rw [NameTree.enter_kids]
    by_cases hpq : p = q
    · rw [hpq, Function.update_self]
      exact Multiset.mem_cons_of_mem (hpq ▸ he)
    · rw [Function.update_of_ne hpq]
      exact he
  have hnames := @NameTree.Sound.enter_names N q p ⟨name, e.inode⟩ hs hf hp
  rw [NameTree.Sound.records_names] at hnames
  refine (deleteDirectoryEntry_carries hc hs.dirs_live hp
    (by rw [NameTree.Sound.records_names]; exact hnames) hkid ha).post ?_
  rintro - T' ⟨body, rfl, -, hc'⟩
  refine ⟨?_, ?_⟩
  · rw [htree] at hlinks ⊢
    exact hc'.congr hlinks
  · refine hk.trans (Table.Keeps.setFile rfl fun _ hnd => absurd (hc.dirs ▸ hp) hnd)
      (fun n hn _ => ?_) fun n _ _ hd => ?_
    · rwa [hc.live, ← hT]
    · rwa [hc.dirs, ← hTd] at hd

theorem moveEntry_stores {i : Inode} {E : Fault → Bytes → Prop} (hc : Carries T N N.links)
    (hs : N.Sound) (hp : p ∈ N.dirs) (hq : q ∈ N.dirs) (he : e ∈ N.kids p) (ha : Ascii e.name)
    (hi : i.isDirectory = true ↔ e.inode ∈ N.dirs) (hname : name.length ≤ 255)
    (hf : N.Fresh q name) (hout : e.inode ∈ N.dirs → ∀ k, N.up^[k] q ≠ e.inode)
    (hlinks : e.inode ∈ N.dirs → p ≠ q → N.links q + 1 < 2 ^ 16)
    (hE : ∀ e image, T.room q < entryCost ufs.sb (T.file q).body name → E e image) :
    (moveEntry ufs p e.name e.inode i q name).hoare ufs.Stores T
      (fun _ T' => Moved T N p q e name T') E := by
  refine hoare_stored fun image hst => ?_
  have hpl := hs.dirs_live hp
  have hql := hs.dirs_live hq
  have hqT : q ∈ T.live := hc.live ▸ hql
  have hsl := hs.target p hp e he
  have hsT : e.inode ∈ T.live := hc.live ▸ hsl
  have h2 : ∀ n ∈ T.live, 2 ≤ n := by
    obtain ⟨D, own, -, hv⟩ := hst
    exact fun n hn => hv.live_ge hn
  have hpq1 : 0 < N.links p := by
    rw [hs.links_dir hp]
    omega
  have hlt := hst.nlink_lt (hc.live ▸ hpl : p ∈ T.live)
  rw [hc.nlink p hpl] at hlt
  rw [moveEntry]
  refine (readInodeUnwrap_stores hqT).step fun j hj => ?_
  subst hj
  refine ((addDirectoryEntry_carries hc hs.dirs_live hq hname (Finset.mem_union_right _ hsT)
    (by have := h2 _ hsT; omega)).mono (fun _ _ h => h) hE).bind ?_
  rintro - T₁ ⟨hc₁, hk₁, hlive₁, hdirs₁, hused₁, hother₁, hcore₁, -⟩
  refine Act.hoare_ite (fun hmove => ?_) fun hstay => ?_
  · -- a directory goes to another parent: its "..", then both link counts
    obtain ⟨hdir, hne⟩ := hmove
    have hsd := hi.mp hdir
    have hsq : e.inode ≠ q := fun h => hout hsd 0 h.symm
    have hup := hs.up_eq p hp e he hsd
    have hsp : e.inode ≠ p := by
      intro h
      obtain ⟨k, hk⟩ := hs.reached p hp
      have hfix : ∀ j, N.up^[j] p = p := by
        intro j
        induction j with
        | zero => rfl
        | succ j ih =>
          rw [Function.iterate_succ_apply', ih]
          rw [h] at hup
          exact hup
      rw [hfix] at hk
      exact hs.kid_ne_root hp he (h.trans hk)
    refine (readInodeUnwrap_stores (by rw [hlive₁]; exact hsT)).step fun j hj => ?_
    subst hj
    have hnames := @NameTree.Sound.enter_names N q e.inode ⟨name, e.inode⟩ hs hf hsd
    have hdot := @updateDirectoryDotdot_carries ufs T₁
      { N with kids := (N.enter q ⟨name, e.inode⟩).kids } N.links e.inode E hc₁ hs.dirs_live hnames hsd q
      (by rw [hused₁]; exact Finset.mem_union_right _ hqT) (by have := h2 _ hqT; omega)
    refine hdot.bind ?_
    rintro - T₂ ⟨body, rfl, hc₂⟩
    have hlive₂ : (T₁.setBody e.inode body).live = T.live := hlive₁
    refine (readInodeUnwrap_stores (by rw [hlive₂, hc.live]; exact hpl)).step fun j hj => ?_
    subst hj
    refine (writeInodeNlink_stores (by rw [hlive₂, hc.live]; exact hpl)).seq ?_
    have hnp : ((T₁.setBody e.inode body).file p).inode.nlink = N.links p := hc₂.nlink p hpl
    have hmod : (((T₁.setBody e.inode body).file p).inode.nlink - 1) % 2 ^ 16 = N.links p - 1 := by
      rw [hnp, Nat.mod_eq_of_lt (by omega)]
    rw [hmod]
    have hc₃ := hc₂.setNlink hpl (N.links p - 1)
    set T₃ := (T₁.setBody e.inode body).setInode p
      { ((T₁.setBody e.inode body).file p).inode with nlink := N.links p - 1 } with hT₃
    have hlive₃ : T₃.live = T.live := hlive₁
    refine (readInodeUnwrap_stores (by rw [hlive₃]; exact hqT)).step fun j hj => ?_
    subst hj
    have hnq : (T₃.file q).inode.nlink = N.links q := by
      rw [hc₃.nlink q hql, Function.update_of_ne (Ne.symm hne)]
    refine (writeInodeNlink_stores (by rw [hlive₃]; exact hqT)).seq ?_
    rw [hnq, Nat.mod_eq_of_lt (hlinks hsd hne)]
    have hc₄ := hc₃.setNlink hql (N.links q + 1)
    refine dropOld_stores hs hp he ha hf hc₄ (move_dir_eq hsd) (fun n hn => ?_) ?_ hc.live hc.dirs
    · have hl := @links_move N p q e name hs hp hq he n
      simp only [hsd, true_and] at hl
      by_cases hnq' : n = q
      · subst hnq'
        rw [Function.update_self]
        rw [if_pos rfl, if_neg (Ne.symm hne)] at hl
        omega
      · rw [Function.update_of_ne hnq']
        rw [if_neg hnq'] at hl
        by_cases hnp' : n = p
        · subst hnp'
          rw [Function.update_self]
          rw [if_pos rfl] at hl
          omega
        · rw [Function.update_of_ne hnp']
          rw [if_neg hnp'] at hl
          omega
    · refine ⟨hk₁.packed, hk₁.slack, fun n hn _ => ?_⟩
      have hfile : n ≠ p → n ≠ q → n ≠ e.inode → (T₃.setInode q
          { (T₃.file q).inode with nlink := N.links q + 1 }).file n = T.file n := by
        intro hnp' hnq' hns
        rw [Table.setInode, Table.setFile_of_ne _ hnq', hT₃, Table.setInode,
          Table.setFile_of_ne _ hnp', Table.setBody, Table.setFile_of_ne _ hns, hother₁ n hnq']
      have hattrs₁ : (T₁.file n).inode.attrs = (T.file n).inode.attrs :=
        (hk₁.files n hn (hlive₁ ▸ hn)).1
      have hattrs₂ : ((T₁.setBody e.inode body).file n).inode.attrs = (T.file n).inode.attrs := by
        rw [← hattrs₁]
        by_cases hns : n = e.inode
        · rw [hns, Table.setBody_inode]
        · rw [Table.setBody, Table.setFile_of_ne _ hns]
      have hattrs₃ : (T₃.file n).inode.attrs = (T.file n).inode.attrs := by
        rw [← hattrs₂]
        by_cases hnp' : n = p
        · rw [hnp', hT₃, Table.setInode, Table.setFile_self]
          exact Dinode.attrs_nlink _ _
        · rw [hT₃, Table.setInode, Table.setFile_of_ne _ hnp']
      refine ⟨?_, fun hnd => ?_⟩
      · rw [← hattrs₃]
        by_cases hnq' : n = q
        · rw [hnq', Table.setInode, Table.setFile_self]
          exact Dinode.attrs_nlink _ _
        · rw [Table.setInode, Table.setFile_of_ne _ hnq']
      · rw [hc.dirs] at hnd
        rw [hfile (fun h => hnd (h ▸ hp)) (fun h => hnd (h ▸ hq)) fun h => hnd (h ▸ hsd)]
  · -- the parents and their link counts stay
    have hsame : e.inode ∈ N.dirs → p = q := by
      intro hd
      by_contra hne
      exact hstay ⟨hi.mpr hd, hne⟩
    refine dropOld_stores hs hp he ha hf hc₁ ?_ (fun n _ => ?_) hk₁ hc.live hc.dirs
    · by_cases hd : e.inode ∈ N.dirs
      · have hup : Function.update N.up e.inode q = N.up := by
          rw [← hsame hd, ← hs.up_eq p hp e he hd, Function.update_eq_self]
        rw [move_dir_eq hd, hup]
      · exact move_file_eq hs hp hq he hd
    · have hl := @links_move N p q e name hs hp hq he n
      by_cases hd : e.inode ∈ N.dirs
      · rw [hsame hd] at hl ⊢
        omega
      · simp only [hd, false_and, if_false] at hl
        omega

theorem move_live (hs : N.Sound) (hp : p ∈ N.dirs) (hq : q ∈ N.dirs) (he : e ∈ N.kids p) :
    (N.move p q e name).live = N.live ∧ (N.move p q e name).dirs = N.dirs := by
  by_cases hd : e.inode ∈ N.dirs
  · rw [move_dir_eq hd]
    exact ⟨rfl, rfl⟩
  · rw [move_file_eq hs hp hq he hd]
    exact ⟨rfl, rfl⟩

/-- The tree without the target of a rename. -/
def NameTree.without (N : NameTree) (q : ℕ) (x : Entry) : NameTree :=
  if x.inode ∈ N.dirs then N.leaveDir q x else N.leave q x

theorem without_kids (q : ℕ) (x : Entry) :
    (N.without q x).kids = Function.update N.kids q ((N.kids q).erase x) ∧
      (N.without q x).up = N.up := by
  rw [NameTree.without]
  split_ifs
  · exact ⟨rfl, rfl⟩
  · exact ⟨rfl, rfl⟩

/-- Once its entry is gone, a name is free. -/
theorem without_fresh {x : Entry} (hs : N.Sound) (hq : q ∈ N.dirs) (hx : x ∈ N.kids q) :
    (N.without q x).Fresh q x.name := by
  have hn := hs.names q hq
  rw [NameTree.Sound.records_names] at hn
  rw [NameTree.Fresh, NameTree.Sound.records_names, (without_kids q x).1, Function.update_self]
  rw [← Multiset.cons_erase hx, Multiset.map_cons, Multiset.cons_swap _ x.name,
    Multiset.cons_swap _ x.name, Multiset.nodup_cons] at hn
  exact hn.1

/-- The tree after a rename: unchanged where source and target are one, else moved, over the target
if there is one. -/
inductive Renamed (N : NameTree) (p q : ℕ) (e : Entry) (name : Str) : NameTree → Prop
  | same (h : p = q ∧ e.name = name ∨ ∃ x ∈ N.kids q, x.name = name ∧ x.inode = e.inode) :
      Renamed N p q e name N
  | fresh (h : N.Fresh q name) : Renamed N p q e name (N.move p q e name)
  | over (x : Entry) (hx : x ∈ N.kids q) (hn : x.name = name) (hne : x.inode ≠ e.inode)
      (hempty : x.inode ∈ N.dirs → N.kids x.inode = 0) :
      Renamed N p q e name ((N.without q x).move p q e name)

/-- When a rename of `e` to `name` in `q` can be carried out: no directory goes below itself, and
the link count of the new parent stays in range. -/
structure CanMove (N : NameTree) (p q : ℕ) (e : Entry) (name : Str) : Prop where
  out : e.inode ∈ N.dirs → ∀ k, N.up^[k] q ≠ e.inode
  links : e.inode ∈ N.dirs → p ≠ q → (∀ x ∈ N.kids q, x.name = name → x.inode ∉ N.dirs) →
    N.links q + 1 < 2 ^ 16

theorem without_facts {x : Entry} (hs : N.Sound) (hp : p ∈ N.dirs) (hq : q ∈ N.dirs)
    (he : e ∈ N.kids p) (hx : x ∈ N.kids q) (hne : x.inode ≠ e.inode)
    (hempty : x.inode ∈ N.dirs → N.kids x.inode = 0) :
    (N.without q x).Sound ∧ p ∈ (N.without q x).dirs ∧ q ∈ (N.without q x).dirs ∧
      e ∈ (N.without q x).kids p ∧ (e.inode ∈ (N.without q x).dirs ↔ e.inode ∈ N.dirs) ∧
      (N.without q x).dirs ⊆ N.dirs ∧
      (x.inode ∈ N.dirs → (N.without q x).links q + 1 = N.links q) ∧
      (x.inode ∉ N.dirs → (N.without q x).links q = N.links q) := by
  have hkid : e ∈ (N.without q x).kids p := by
    rw [(without_kids q x).1]
    by_cases hpq : p = q
    · subst hpq
      rw [Function.update_self]
      exact (Multiset.mem_erase_of_ne fun h => hne (by rw [h])).mpr he
    · rw [Function.update_of_ne hpq]
      exact he
  rw [NameTree.without] at *
  by_cases hd : x.inode ∈ N.dirs
  · have hzero := hempty hd
    have hne' : ∀ d, ∀ y ∈ N.kids d, d ≠ x.inode := by
      rintro d y hy rfl
      rw [hzero] at hy
      exact absurd hy (Multiset.notMem_zero _)
    rw [if_pos hd] at *
    refine ⟨hs.leaveDir hq hx hd hzero, Finset.mem_erase.mpr ⟨hne' p e he, hp⟩,
      Finset.mem_erase.mpr ⟨hne' q x hx, hq⟩, hkid, ?_, Finset.erase_subset _ _, fun _ => ?_,
      fun h => absurd hd h⟩
    · exact Finset.mem_erase.trans (and_iff_right (Ne.symm hne))
    · have hl := NameTree.links_leaveDir hs hq hx hd hzero (hne' q x hx)
      rwa [if_pos rfl] at hl
  · rw [if_neg hd] at *
    refine ⟨hs.leave hq hx hd, hp, hq, hkid, Iff.rfl, subset_rfl, fun h => absurd h hd, fun _ => ?_⟩
    have hl := @NameTree.links_leave N q q x hq hx
    rwa [if_neg fun h : x.inode = q => hd (h ▸ hq), Nat.add_zero] at hl

theorem renameInParent_stores {a b : Str} (hc : Carries T N N.links) (hs : N.Sound)
    (hp : p ∈ N.dirs) (hq : q ∈ N.dirs) (ha : Ascii a) (hb : Ascii b) (ha1 : a ≠ dotName)
    (ha2 : a ≠ dotdotName) (hb1 : b ≠ dotName) (hb2 : b ≠ dotdotName) (hbo : NameOk b)
    (hcan : ∀ e ∈ N.kids p, e.name = a → CanMove N p q e b) :
    (renameInParent ufs p a q b).hoare ufs.Stores T
      (fun _ T' => ∃ N', Carries T' N' N'.links ∧ N'.Sound ∧ T.Keeps T' ∧
        (p = q ∧ a = b ∧ T' = T ∧ N' = N ∨ ∃ e ∈ N.kids p, e.name = a ∧ Renamed N p q e b N'))
      (Refused ufs T (N.Fresh q b ∧ T.room q < entryCost ufs.sb (T.file q).body b ∧
        ∃ e ∈ N.kids p, e.name = a)) := by
  rw [renameInParent]
  refine Act.hoare_ite (fun h => Act.hoare_pure ?_) fun _ => ?_
  · exact ⟨N, hc, hs, .refl T, .inl ⟨h.1, h.2, rfl, rfl⟩⟩
  refine (readInodeOr_stores (hc.live ▸ hs.dirs_live hp) _).step fun i hi => ?_
  subst hi
  refine lookupOr_stores hc hs hp (fun _ _ h => .inl h) fun e he hname => ?_
  dsimp only
  subst hname
  have hkid := NameTree.Sound.kid_of_record he ha1 ha2
  have hcan := hcan e hkid rfl
  have hsl := hs.target p hp e hkid
  refine (readInodeOr_stores (hc.live ▸ hs.dirs_live hq) _).step fun i hi => ?_
  subst hi
  rcases N.fresh_or_record q b with hf | ⟨x, hx, rfl⟩
  · refine Act.hoare_read_bind (fun image hi => hc.lookup_fresh hs hi hq hf) ?_
    refine (moveEntry_stores hc hs hp hq hkid ha (hc.isDir _ hsl) hbo.le hf hcan.out
      (fun hd hne => hcan.links hd hne fun y hy hyn => ?_) fun _ _ h => .inr ⟨hf, h, e, hkid, rfl⟩).post ?_
    · exact absurd (Multiset.mem_map_of_mem Entry.name (NameTree.kid_record hy)) (hyn ▸ hf)
    · rintro - T' ⟨h1, h2⟩
      exact ⟨_, h1, hs.move hp hq hkid hf hbo.ne hcan.out, h2, .inr ⟨e, hkid, rfl, .fresh hf⟩⟩
  · have hxk := NameTree.Sound.kid_of_record hx hb1 hb2
    have hxl := hs.target q hq x hxk
    refine Act.hoare_read_bind (fun image hi => hc.lookup_some hs hi hq hx) ?_
    dsimp only
    refine Act.hoare_ite (fun h => Act.hoare_pure ?_) fun hne => ?_
    · exact ⟨N, hc, hs, .refl T, .inr ⟨e, hkid, rfl, .same (.inr ⟨x, hxk, rfl, h⟩)⟩⟩
    refine Act.hoare_ite (fun _ => Act.hoare_fail fun image hi => .inl hi) fun hkind => ?_
    refine hoare_stored fun image hst => ?_
    have hbound : N.links q < 2 ^ 16 := by
      rw [← hc.nlink q (hs.dirs_live hq)]
      exact hst.nlink_lt (hc.live ▸ hs.dirs_live hq)
    have hkind' : e.inode ∈ N.dirs ↔ x.inode ∈ N.dirs := by
      rw [← hc.isDir _ hsl, ← hc.isDir _ hxl, not_not.mp hkind]
    -- once the target is gone, the move of the remaining tree
    have hmove : ∀ T₁, Carries T₁ (N.without q x) (N.without q x).links → T.Keeps T₁ →
        (x.inode ∈ N.dirs → N.kids x.inode = 0) → entryCost ufs.sb (T₁.file q).body x.name = 0 →
        (moveEntry ufs p e.name e.inode (T.file e.inode).inode q x.name).hoare ufs.Stores T₁
          (fun _ T' => ∃ N', Carries T' N' N'.links ∧ N'.Sound ∧ T.Keeps T' ∧
            (p = q ∧ e.name = x.name ∧ T' = T ∧ N' = N ∨
              ∃ e' ∈ N.kids p, e'.name = e.name ∧ Renamed N p q e' x.name N'))
          (Refused ufs T (N.Fresh q x.name ∧ T.room q < entryCost ufs.sb (T.file q).body x.name ∧
            ∃ e' ∈ N.kids p, e'.name = e.name)) := by
      intro T₁ hc₁ hk₁ hempty hcost
      obtain ⟨hs₁, hp₁, hq₁, hkid₁, hdir₁, hsub, hlq, hlq'⟩ :=
        without_facts hs hp hq hkid hxk hne hempty
      have hf := without_fresh hs hq hxk
      have hup := (without_kids (N := N) q x).2
      have hout : e.inode ∈ (N.without q x).dirs → ∀ k, (N.without q x).up^[k] q ≠ e.inode := by
        rw [hup]
        exact fun hd => hcan.out (hdir₁.mp hd)
      refine (moveEntry_stores hc₁ hs₁ hp₁ hq₁ hkid₁ ha ((hc.isDir _ hsl).trans hdir₁.symm) hbo.le hf
        hout (fun hd hpq => ?_) fun _ _ h => absurd (hcost ▸ h) (Nat.not_lt_zero _)).post ?_
      · have hl := hlq (hkind'.mp (hdir₁.mp hd))
        omega
      · rintro - T' ⟨h1, h2⟩
        obtain ⟨hl, hd⟩ := @move_live (N.without q x) p q e x.name hs₁ hp₁ hq₁ hkid₁
        refine ⟨_, h1, hs₁.move hp₁ hq₁ hkid₁ hf hbo.ne hout, hk₁.trans h2 (fun n _ hn => ?_)
          (fun n _ _ hn => ?_), .inr ⟨e, hkid, rfl, .over x hxk rfl hne hempty⟩⟩
        · rw [h1.live, hl] at hn
          rwa [hc₁.live]
        · rw [hc₁.dirs] at hn
          rw [hc.dirs]
          exact hsub hn
    by_cases hxd : x.inode ∈ N.dirs
    · have hw : N.without q x = N.leaveDir q x := if_pos hxd
      rw [if_pos ((hc.isDir _ hxl).mpr hxd)]
      refine Act.hoare_discard_bind ((rmdirInParent_stores hc hs hq hb hb1 hb2).mono
        (fun _ _ h => h) fun _ _ h => .inl h) ?_
      rintro - T₁ ⟨y, hy, hyn, rfl, -, hempty, hleft, hcost⟩
      obtain rfl := NameTree.Sound.name_inj hs hq hx (NameTree.kid_record hy) hyn.symm
      exact hmove T₁ (hw ▸ hleft.carries) hleft.keeps (fun _ => hempty) hcost
    · have hw : N.without q x = N.leave q x := if_neg hxd
      rw [if_neg fun h => hxd ((hc.isDir _ hxl).mp h)]
      refine Act.hoare_discard_bind ((unlinkInParent_stores hc hs hq hb).mono
        (fun _ _ h => h) fun _ _ h => .inl h) ?_
      rintro t T₁ ⟨y, hy, hyn, -, -, hleft, hcost⟩
      obtain rfl := NameTree.Sound.name_inj hs hq hx (NameTree.kid_record hy) hyn.symm
      exact hmove T₁ (hw ▸ hleft.carries) hleft.keeps (fun h => absurd h hxd) hcost

end Rename
end UfsFuse
