import UfsFuse.Names

/-!
# Operations on names

What each operation on a parent directory and a name does to a table that carries a tree of names.
Every refusal leaves the table as it was, as long as there are blocks enough for the call.
-/
namespace UfsFuse

/-! ## Finding entries -/
section Find
variable {N : NameTree} {d p : ℕ} {e : Entry}

theorem NameTree.Sound.record_live (hs : N.Sound) (hd : d ∈ N.dirs) (he : e ∈ N.records d) :
    e.inode ∈ N.live := by
  simp only [NameTree.records, Multiset.mem_cons] at he
  rcases he with rfl | rfl | he
  · exact hs.dirs_live hd
  · exact hs.dirs_live (hs.up_mem hd)
  · exact hs.target d hd e he

theorem NameTree.kid_record (he : e ∈ N.kids d) : e ∈ N.records d :=
  Multiset.mem_cons_of_mem (Multiset.mem_cons_of_mem he)

/-- Entries of one directory with the same name are the same. -/
theorem NameTree.Sound.name_inj (hs : N.Sound) (hd : d ∈ N.dirs) {x y : Entry}
    (hx : x ∈ N.records d) (hy : y ∈ N.records d) (h : x.name = y.name) : x = y :=
  Multiset.inj_on_of_nodup_map (hs.names d hd) x hx y hy h

/-- An entry that is neither "." nor ".." by name. -/
theorem NameTree.Sound.kid_of_record (he : e ∈ N.records d) (h1 : e.name ≠ dotName)
    (h2 : e.name ≠ dotdotName) : e ∈ N.kids d := by
  simp only [NameTree.records, Multiset.mem_cons] at he
  rcases he with rfl | rfl | he
  · exact absurd rfl h1
  · exact absurd rfl h2
  · exact he

theorem NameTree.Sound.kid_name (hs : N.Sound) (hd : d ∈ N.dirs) (he : e ∈ N.kids d) :
    e.name ≠ dotName ∧ e.name ≠ dotdotName := by
  have hn := hs.names d hd
  rw [NameTree.Sound.records_names, Multiset.nodup_cons, Multiset.nodup_cons] at hn
  have hm : e.name ∈ (N.kids d).map Entry.name := Multiset.mem_map_of_mem _ he
  exact ⟨fun h => hn.1 (Multiset.mem_cons_of_mem (h ▸ hm)), fun h => hn.2.1 (h ▸ hm)⟩

theorem find_name {es : List Entry} {s : Multiset Entry} (hes : (es : Multiset Entry) = s)
    (hn : (s.map Entry.name).Nodup) (he : e ∈ s) : es.find? (·.name = e.name) = some e := by
  subst hes
  have hmem : e ∈ es := Multiset.mem_coe.mp he
  cases hf : es.find? (·.name = e.name) with
  | none =>
    have hno := List.find?_eq_none.mp hf e hmem
    simp at hno
  | some x =>
    have hx := List.mem_of_find?_eq_some hf
    have hp : x.name = e.name := by simpa using List.find?_some hf
    rw [Multiset.inj_on_of_nodup_map hn x (Multiset.mem_coe.mpr hx) e he hp]

theorem find_fresh {es : List Entry} {s : Multiset Entry} (hes : (es : Multiset Entry) = s)
    {name : Str} (hn : name ∉ s.map Entry.name) : es.find? (·.name = name) = none := by
  subst hes
  rw [List.find?_eq_none]
  intro x hx h
  exact hn (Multiset.mem_map.mpr ⟨x, Multiset.mem_coe.mpr hx, by simpa using h⟩)

/-- Editing by an ASCII name treats the one entry of that name. -/
theorem editFirst_name {es : List Entry} {s rest : Multiset Entry} {f : Entry → List Entry}
    (hes : (es : Multiset Entry) = s) (hs : s = e ::ₘ rest) (hn : (s.map Entry.name).Nodup)
    (ha : Ascii e.name) : ∃ es', editFirst (Entry.Reads e.name) f es = some es' ∧
      (es' : Multiset Entry) = f e + rest := by
  subst hes
  have hmem : e ∈ es := Multiset.mem_coe.mp (hs ▸ Multiset.mem_cons_self _ _)
  rcases exists_first (p := Entry.Reads e.name) es with hno | ⟨xs, a, ys, rfl, hx, hr⟩
  · exact absurd ((Entry.reads_iff ha e).mpr rfl) (hno e hmem)
  · have hae : a = e := Multiset.inj_on_of_nodup_map hn a (by simp) e (Multiset.mem_coe.mpr hmem)
      ((Entry.reads_iff ha a).mp hr)
    subst hae
    refine ⟨_, editFirst_split hx hr, ?_⟩
    have hperm : ((xs ++ a :: ys : List Entry) : Multiset Entry) = a ::ₘ ((xs ++ ys : List Entry)) := by
      rw [Multiset.cons_coe]
      exact Quot.sound List.perm_middle
    have hrest : ((xs ++ ys : List Entry) : Multiset Entry) = rest :=
      (Multiset.cons_inj_right a).mp (hperm.symm.trans hs)
    rw [← hrest, ← Multiset.coe_add, ← Multiset.coe_add, ← Multiset.coe_add]
    abel

end Find

section Lookup
variable {ufs : Ufs} {image : Bytes} {T : Table} {N : NameTree} {links : ℕ → ℕ} {p : ℕ} {e : Entry}

theorem Carries.lookup_some (hc : Carries T N links) (hs : N.Sound) (hi : ufs.Stores image T)
    (hp : p ∈ N.dirs) (he : e ∈ N.records p) :
    lookupDirectoryEntry image ufs (T.file p).inode e.name =
      .ok (some (e.inode, (T.file e.inode).inode.toInode)) := by
  obtain ⟨es, hd, hes⟩ := hc.body p hp
  have hlive : e.inode ∈ T.live := hc.live ▸ hs.record_live hp he
  rw [hi.lookupDirectoryEntry (hc.live ▸ hs.dirs_live hp) hd, find_name hes (hs.names p hp) he,
    Option.bind_some, hi.readInode hlive]
  rfl

theorem Carries.lookup_fresh (hc : Carries T N links) (hs : N.Sound) (hi : ufs.Stores image T)
    (hp : p ∈ N.dirs) {name : Str} (hf : N.Fresh p name) :
    lookupDirectoryEntry image ufs (T.file p).inode name = .ok none := by
  obtain ⟨es, hd, hes⟩ := hc.body p hp
  rw [hi.lookupDirectoryEntry (hc.live ▸ hs.dirs_live hp) hd, find_fresh hes hf]
  rfl

/-- A name is free or there is an entry of that name. -/
theorem NameTree.fresh_or_record (N : NameTree) (p : ℕ) (name : Str) :
    N.Fresh p name ∨ ∃ e ∈ N.records p, e.name = name := by
  by_cases h : name ∈ (N.records p).map Entry.name
  · exact .inr (Multiset.mem_map.mp h)
  · exact .inl h

end Lookup

/-! ## Steps -/
section Steps
variable {ufs : Ufs} {T : Table} {N : NameTree} {links : ℕ → ℕ} {p n : ℕ}
  {E : Fault → Bytes → Prop}

theorem readInodeOr_stores (hn : n ∈ T.live) (failure : Fault) :
    (readInodeOr ufs n failure).hoare ufs.Stores T
      (fun i T' => T' = T ∧ i = (T.file n).inode) E := by
  rw [readInodeOr]
  refine Act.hoare_read_bind (a := some (T.file n).inode.toInode) (fun image hi => ?_) ?_
  · rw [hi.readInode hn]
  · exact Act.hoare_pure ⟨rfl, rfl⟩

theorem readInodeUnwrap_stores (hn : n ∈ T.live) :
    (readInodeUnwrap ufs n).hoare ufs.Stores T (fun i T' => T' = T ∧ i = (T.file n).inode) E :=
  Act.hoare_read fun image hi => ⟨_, by rw [hi.readInode hn]; rfl, rfl, rfl⟩

theorem Ufs.Stores.nlink_lt {image : Bytes} (hi : ufs.Stores image T) (hn : n ∈ T.live) :
    (T.file n).inode.nlink < 2 ^ 16 := by
  obtain ⟨D, own, ⟨hf, rfl⟩, hv⟩ := hi
  rw [← hv.inode n hn]
  simp only [view, if_pos (hv.live_lt hn)]
  exact Bytes.u16_lt _ _

theorem Ufs.Stores.used_lt {image : Bytes} (hi : ufs.Stores image T) (hn : n ∈ T.used) :
    n < ufs.sb.inodes ∧ n < 2 ^ 32 := by
  have g := hi.geom
  obtain ⟨D, own, -, hv⟩ := hi
  have hlt := hv.map.inRange n hn
  have hmax := g.inodes_lt
  rw [Superblock.inodes] at hlt
  exact ⟨hlt, by omega⟩

/-- The table after `add_directory_entry`. -/
theorem Carries.entered (hc : Carries T N links) (hdirs : N.dirs ⊆ N.live) (hp : p ∈ N.dirs)
    {T' : Table} {es : List Entry} {e : Entry} (hes : (es : Multiset Entry) = N.records p)
    (h : Entered ufs T p es e T') :
    Carries T' { N with kids := Function.update N.kids p (e ::ₘ N.kids p) } links ∧ T.Keeps T' ∧
      T'.live = T.live ∧ T'.dirs = T.dirs ∧ T'.used = T.used ∧
      (∀ x, x ≠ p → T'.file x = T.file x) ∧
      (T'.file p).inode.core = (T.file p).inode.core ∧
      ∀ m, T.room m ≤ T'.room m + entryCost ufs.sb (T.file p).body e.name := by
  obtain ⟨i, body, es', room, rfl, hi, hb, hins, -, hroom⟩ := h
  have hes' : (es' : Multiset Entry) = ⟨dotName, p⟩ ::ₘ ⟨dotdotName, N.up p⟩ ::ₘ e ::ₘ N.kids p := by
    have hperm : (es' : Multiset Entry) = e ::ₘ (es : Multiset Entry) := by
      rw [Multiset.cons_coe]
      exact Quot.sound hins.subset
    rw [hperm, hes, NameTree.records, Multiset.cons_swap e, Multiset.cons_swap e]
  have hn := hc.setEntries room hdirs hp hi hb hes'
  rw [Function.update_eq_self] at hn
  refine ⟨hn, Table.Keeps.setFile (Dinode.attrs_of_core hi) fun _ hnd => absurd (hc.dirs ▸ hp) hnd,
    rfl, rfl, rfl, fun x hx => T.setFile_of_ne hx _ _, ?_, hroom⟩
  rw [Table.setFile_self]
  exact hi

/-- `add_directory_entry` fails only for want of blocks. -/
theorem addDirectoryEntry_carries (hc : Carries T N links) (hdirs : N.dirs ⊆ N.live)
    (hp : p ∈ N.dirs) {name : Str} {child : ℕ} (hname : name.length ≤ 255) (hchild : child ∈ T.used)
    (h0 : child ≠ 0) :
    (addDirectoryEntry ufs p (T.file p).inode name child).hoare ufs.Stores T
      (fun _ T' =>
        Carries T' { N with kids := Function.update N.kids p (⟨name, child⟩ ::ₘ N.kids p) } links ∧
          T.Keeps T' ∧ T'.live = T.live ∧ T'.dirs = T.dirs ∧ T'.used = T.used ∧
          (∀ x, x ≠ p → T'.file x = T.file x) ∧
          (T'.file p).inode.core = (T.file p).inode.core ∧
          ∀ m, T.room m ≤ T'.room m + entryCost ufs.sb (T.file p).body name)
      (ShortOf T p (entryCost ufs.sb (T.file p).body name)) := by
  refine hoare_stored fun image hi => ?_
  obtain ⟨es, hd, hes⟩ := hc.body p hp
  have h := @addDirectoryEntry_stores ufs T p es (hc.live ▸ hdirs hp) hd name child hname h0
    (hi.used_lt hchild).2
  exact h.post fun _ T' hT' => hc.entered hdirs hp hes hT'

/-- Taking an entry away; its name then has room. -/
theorem deleteDirectoryEntry_carries (hc : Carries T N links) (hdirs : N.dirs ⊆ N.live)
    (hp : p ∈ N.dirs) (hn : ((N.records p).map Entry.name).Nodup) {e : Entry} (he : e ∈ N.kids p)
    (ha : Ascii e.name) :
    (deleteDirectoryEntry ufs (T.file p).inode e.name).hoare ufs.Stores T
      (fun _ T' => ∃ body, T' = T.setBody p body ∧ entryCost ufs.sb body e.name = 0 ∧
        Carries T' { N with kids := Function.update N.kids p ((N.kids p).erase e) } links) E := by
  obtain ⟨es, hd, hes⟩ := hc.body p hp
  have hrest : N.records p =
      e ::ₘ ⟨dotName, p⟩ ::ₘ ⟨dotdotName, N.up p⟩ ::ₘ (N.kids p).erase e := by
    rw [Multiset.cons_swap e, Multiset.cons_swap e, Multiset.cons_erase he]
    rfl
  obtain ⟨es', he', hes'⟩ := editFirst_name (f := fun _ => []) hes hrest hn ha
  refine (deleteDirectoryEntry_stores (hc.live ▸ hdirs hp) hd e.name).mono ?_ ?_
  · rintro - T' ⟨es'', body, h1, hb, hcost, rfl⟩
    obtain rfl := Option.some.inj (h1.symm.trans he')
    rw [Multiset.coe_nil, zero_add] at hes'
    have hn := hc.setEntries T.room hdirs hp rfl hb hes'
    rw [Function.update_eq_self] at hn
    exact ⟨body, rfl, hcost ha, hn⟩
  · rintro f image ⟨-, h1⟩
    rw [he'] at h1
    cases h1

/-- Moving "..". -/
theorem updateDirectoryDotdot_carries (hc : Carries T N links) (hdirs : N.dirs ⊆ N.live)
    (hn : ((N.records n).map Entry.name).Nodup) (hnd : n ∈ N.dirs) {q : ℕ} (hq : q ∈ T.used)
    (h0 : q ≠ 0) :
    (updateDirectoryDotdot ufs (T.file n).inode q).hoare ufs.Stores T
      (fun _ T' => ∃ body, T' = T.setBody n body ∧
        Carries T' { N with up := Function.update N.up n q } links) E := by
  refine hoare_stored fun image hi => ?_
  obtain ⟨es, hd, hes⟩ := hc.body n hnd
  have hrest : N.records n = ⟨dotdotName, N.up n⟩ ::ₘ ⟨dotName, n⟩ ::ₘ N.kids n := by
    rw [NameTree.records, Multiset.cons_swap]
  obtain ⟨es', he', hes'⟩ := @editFirst_name ⟨dotdotName, N.up n⟩ es _ _ (fun e => [⟨e.name, q⟩])
    hes hrest hn (show Ascii dotdotName by decide)
  refine (updateDirectoryDotdot_stores (hc.live ▸ hdirs hnd) hd h0 (hi.used_lt hq).2).mono ?_ ?_
  · rintro - T' ⟨es'', body, h1, hb, rfl⟩
    obtain rfl := Option.some.inj (h1.symm.trans he')
    have hperm : (es'' : Multiset Entry) = ⟨dotName, n⟩ ::ₘ ⟨dotdotName, q⟩ ::ₘ N.kids n := by
      rw [hes', Multiset.coe_singleton, Multiset.singleton_add, Multiset.cons_swap]
    have hn' := hc.setEntries T.room hdirs hnd rfl hb hperm
    rw [Function.update_eq_self] at hn'
    exact ⟨body, rfl, hn'⟩
  · rintro f image ⟨-, h1⟩
    rw [he'] at h1
    cases h1

end Steps
/-! ## New inodes -/

theorem NameTree.Sound.links_fresh {N : NameTree} (hs : N.Sound) {n : ℕ} (hn : n ∉ N.live) :
    N.links n = 0 := by
  rw [hs.links_file fun hd => hn (hs.dirs_live hd)]
  by_contra h
  obtain ⟨d, hd, e, he, rfl⟩ := N.exists_of_entered (Nat.pos_of_ne_zero h)
  exact hn (hs.target d hd e he)

theorem Carries.congr {T : Table} {N : NameTree} {links links' : ℕ → ℕ} (h : Carries T N links)
    (hl : ∀ n ∈ N.live, links n = links' n) : Carries T N links' :=
  { h with nlink := fun n hn => (h.nlink n hn).trans (hl n hn) }

/-- A name that may be given to a new entry. -/
structure NameOk (name : Str) : Prop where
  ne : name ≠ []
  le : name.length ≤ 255

section Modes

theorem ufsIfmt_testBit (i : ℕ) (h : 32 ≤ i) : Nat.testBit ufsIfmt i = false :=
  Nat.testBit_lt_two_pow (lt_of_lt_of_le (by norm_num) (Nat.pow_le_pow_right (by norm_num) h))

/-- A creation mode has the type that it was given, whatever the permissions. -/
theorem fileType_or (type mode : ℕ) (ht : type &&& ufsIfmt = type) :
    ((type ||| permissionsOf mode) % 2 ^ 32) &&& ufsIfmt = type := by
  apply Nat.eq_of_testBit_eq
  intro i
  have hti := congrArg (fun t => Nat.testBit t i) ht
  simp only [Nat.testBit_land] at hti
  simp only [Nat.testBit_land, Nat.testBit_mod_two_pow, Nat.testBit_lor, permissionsOf,
    Nat.testBit_ldiff]
  by_cases hi : i < 32
  · simp only [hi, decide_true, Bool.true_and]
    cases h1 : Nat.testBit type i <;> cases h2 : Nat.testBit ufsIfmt i <;> simp_all
  · rw [ufsIfmt_testBit i (not_lt.mp hi)] at hti ⊢
    rw [Bool.and_false] at hti ⊢
    exact hti

theorem fileTypeOf_land (mode : ℕ) : fileTypeOf mode &&& ufsIfmt = fileTypeOf mode := by
  rw [fileTypeOf]
  split_ifs
  · rw [Nat.land_assoc, Nat.and_self]
  · decide

theorem fresh_isDirectory {type : ℕ} (ht : type &&& ufsIfmt = type)
    (mode uid gid nlink timestamp : ℕ) :
    (Dinode.fresh (type ||| permissionsOf mode) uid gid nlink timestamp).isDirectory =
      decide (type = ufsIfdir) := by
  have h := fileType_or type mode ht
  simp only [Inode.isDirectory, Inode.fileType, Dinode.fresh]
  rw [h, beq_eq_decide]

end Modes

/-- Refused with nothing changed, or stopped half-way because `short` holds. -/
def Refused (ufs : Ufs) (T : Table) (short : Prop) (_ : Fault) (image : Bytes) : Prop :=
  ufs.Stores image T ∨ short

/-- There are blocks for `extra` of a new file and for entering `name` in directory `p`. -/
structure Roomy (sb : Superblock) (T : Table) (p : ℕ) (name : Str) (extra : ℕ) : Prop where
  own : extra ≤ T.room 0
  entry : extra + entryCost sb (T.file p).body name ≤ T.room p

/-- An inode is free, but the blocks for a creation are not. -/
def Cramped (sb : Superblock) (T : Table) (p : ℕ) (name : Str) (extra : ℕ) : Prop :=
  (∃ m < sb.inodes, m ∉ T.used) ∧ ¬Roomy sb T p name extra

section Create
variable {ufs : Ufs} {T : Table} {N : NameTree} {p : ℕ}

/-- Allocating an inode and initialising it. -/
theorem newInode_stores {α : Type} {d : Bool} {mode uid gid nlink timestamp : ℕ}
    {k : ℕ → Write α} {Q : α → Table → Prop} {E : Fault → Bytes → Prop}
    (hE : ∀ e image, ufs.Stores image T → T.used.card = ufs.sb.inodes → E e image)
    (hk : ∀ m, m ∉ T.used → 2 ≤ m → m < ufs.sb.inodes → T.room m = T.room 0 → (k m).hoare ufs.Stores
      ((T.reserve m d).create m (Dinode.fresh mode uid gid nlink timestamp)) Q E) :
    (do
      let m ← allocateInode ufs (some p) d
      initializeInode ufs m mode uid gid nlink timestamp
      k m : Write α).hoare ufs.Stores T Q E := by
  refine hoare_stored fun image hi => ?_
  have h01 : 0 ∈ T.used ∧ 1 ∈ T.used := by
    obtain ⟨D, own, -, hv⟩ := hi
    exact ⟨Finset.mem_union_left _ hv.reserved_zero, Finset.mem_union_left _ hv.reserved_one⟩
  refine (allocateInode_stores.mono (fun _ _ h => h) fun e t ht => hE e t ht.1 ht.2).bind ?_
  rintro m T' ⟨hm, hlt, rfl⟩
  have hm2 : 2 ≤ m := by
    have h0 : m ≠ 0 := fun h => hm (h ▸ h01.1)
    have h1 : m ≠ 1 := fun h => hm (h ▸ h01.2)
    omega
  have hres : m ∈ (T.reserve m d).reserved := Finset.mem_insert_self _ _
  exact (initializeInode_stores hres hm2).seq (hk m hm hm2 hlt (hi.room_eq hm))

/-- A reserved inode that has become a file, and the files before it. -/
theorem create_facts {m : ℕ} {d : Bool} {i : Dinode} (hm : m ∉ T.used) :
    m ∈ ((T.reserve m d).create m i).live ∧ m ∈ ((T.reserve m d).create m i).used ∧
      ((T.reserve m d).create m i).room = T.room ∧
      ((T.reserve m d).create m i).file m = ⟨i, []⟩ ∧
      (∀ x ∈ T.live, ((T.reserve m d).create m i).file x = T.file x) ∧
      T.Keeps ((T.reserve m d).create m i) := by
  have hml : m ∉ T.live := fun h => hm (Finset.mem_union_right _ h)
  have hfile : ∀ x ∈ T.live, ((T.reserve m d).create m i).file x = T.file x := fun x hx =>
    Function.update_of_ne (fun h : x = m => hml (h ▸ hx)) _ _
  have hlive : m ∈ ((T.reserve m d).create m i).live := Finset.mem_insert_self _ _
  exact ⟨hlive, Finset.mem_union_right _ hlive, rfl, Function.update_self .., hfile,
    Table.Keeps.of_file rfl rfl fun x hx _ => hfile x hx⟩

/-- The link counts after a new file has been entered. -/
theorem links_newFile (hs : N.Sound) (hp : p ∈ N.dirs) {name : Str} {m : ℕ} (hm : m ∉ N.live) :
    ∀ n ∈ insert m N.live, Function.update N.links m 1 n = (N.enter p ⟨name, m⟩).links n := by
  intro n _
  rw [NameTree.links_enter hp]
  by_cases hnm : n = m
  · subst hnm
    rw [Function.update_self, hs.links_fresh hm, if_pos rfl]
  · rw [Function.update_of_ne hnm, if_neg (Ne.symm hnm)]
    rfl

/-- What a successful creation has done: the table carries the tree with the new entry, and the
other files are kept. -/
structure NewFile (T : Table) (N : NameTree) (p : ℕ) (name : Str) (m : ℕ) (T' : Table) : Prop where
  fresh : m ∉ T.used
  carries : Carries T' (N.enter p ⟨name, m⟩) (N.enter p ⟨name, m⟩).links
  keeps : T.Keeps T'

/-- The last step of a creation: entering a new file that is not a directory. -/
theorem enterNew_stores {T₁ : Table} {m : ℕ} {name : Str} {E : Fault → Bytes → Prop} (hs : N.Sound)
    (hT : T.live = N.live) (hTd : T.dirs = N.dirs) (hp : p ∈ N.dirs) (hm : m ∉ T.used) (hm2 : 2 ≤ m)
    (hc : Carries T₁ { N with live := insert m N.live } (Function.update N.links m 1))
    (hmT : m ∈ T₁.used) (hk : T.Keeps T₁) (hfile : T₁.file p = T.file p) (hname : name.length ≤ 255)
    (hE : ∀ e image, T₁.room p < entryCost ufs.sb (T.file p).body name → E e image) :
    (addDirectoryEntry ufs p (T.file p).inode name m).hoare ufs.Stores T₁
      (fun _ T' => NewFile T N p name m T' ∧ ∀ x, x ≠ p → T'.file x = T₁.file x) E := by
  have hml : m ∉ N.live := fun h => hm (Finset.mem_union_right _ (hT ▸ h))
  have h := @addDirectoryEntry_carries ufs T₁ _ _ p hc
    (hs.dirs_live.trans (Finset.subset_insert _ _)) hp name m hname hmT (by omega)
  rw [hfile] at h
  refine h.mono ?_ hE
  rintro - T' ⟨hc', hk', hlive, hdirs, hused, hother, -, -⟩
  refine ⟨⟨hm, hc'.congr (links_newFile hs hp hml), hk.trans hk' ?_ ?_⟩, hother⟩
  · intro x hx _
    rw [hc.live, ← hT]
    exact Finset.mem_insert_of_mem hx
  · intro x _ _ hxd
    rw [hc.dirs] at hxd
    exact hTd ▸ hxd

theorem createEmptyInParent_stores (hc : Carries T N N.links) (hs : N.Sound) (hp : p ∈ N.dirs)
    {name : Str} (hname : name.length ≤ 255) {mode uid gid timestamp : ℕ}
    (hmode : fileTypeOf mode ≠ ufsIfdir) :
    (createEmptyInParent ufs p name mode uid gid timestamp).hoare ufs.Stores T
      (fun m T' => NewFile T N p name m T' ∧ T'.file m =
        ⟨Dinode.fresh (fileTypeOf mode ||| permissionsOf mode) uid gid 1 timestamp, []⟩)
      (Refused ufs T (Cramped ufs.sb T p name 0)) := by
  have hpl := hs.dirs_live hp
  rw [createEmptyInParent]
  refine (readInodeOr_stores (hc.live ▸ hpl) _).step fun i hi => ?_
  subst hi
  rw [if_neg (not_not.mpr ((hc.isDir p hpl).mpr hp))]
  refine newInode_stores (fun _ _ h _ => .inl h) fun m hm hm2 hlt _ => ?_
  obtain ⟨-, hmu, hr, hfm, hfx, hk⟩ := @create_facts T m false
    (Dinode.fresh (fileTypeOf mode ||| permissionsOf mode) uid gid 1 timestamp) hm
  have hdirf := fresh_isDirectory (fileTypeOf_land mode) mode uid gid 1 timestamp
  have hc₁ := hc.newFile hs.dirs_live hm (hdirf.trans (decide_eq_false hmode))
  have hmp : m ≠ p := fun h => hm (Finset.mem_union_right _ (hc.live ▸ h ▸ hpl))
  refine (enterNew_stores hs hc.live hc.dirs hp hm hm2 hc₁ hmu hk (hfx p (hc.live ▸ hpl)) hname
    ?_).bind ?_
  · intro e image he
    refine .inr ⟨⟨m, hlt, hm⟩, fun h => ?_⟩
    have := h.entry
    rw [hr] at he
    omega
  rintro - T' ⟨hnew, hother⟩
  exact Act.hoare_pure ⟨hnew, (hother m hmp).trans hfm⟩

/-- Contents for a new file, then its entry. -/
theorem fillNew_stores {m : ℕ} {i : Dinode} {name : Str} {data : Bytes} {E : Fault → Bytes → Prop}
    (hc : Carries T N N.links) (hs : N.Sound) (hp : p ∈ N.dirs) (hm : m ∉ T.used) (hm2 : 2 ≤ m)
    (hi : i.isDirectory = false) (hl : i.nlink = 1) (hname : name.length ≤ 255)
    (hdata : data.length < 2 ^ 63) (hroom : T.room m = T.room 0)
    (hE : ∀ e image, ¬Roomy ufs.sb T p name (ufs.sb.blocksNeeded data.length) → E e image) :
    (do
      setInodeContents ufs m data
      addDirectoryEntry ufs p (T.file p).inode name m
      pure m : Write ℕ).hoare ufs.Stores ((T.reserve m false).create m i)
      (fun r T' => NewFile T N p name r T' ∧ (T'.file r).body = data ∧
        (T'.file r).inode.core = i.core) E := by
  have hpl := hs.dirs_live hp
  have hml : m ∉ N.live := fun h => hm (Finset.mem_union_right _ (hc.live ▸ h))
  have hmp : m ≠ p := fun h => hml (h ▸ hpl)
  have hmd : m ∉ N.dirs := fun h => hml (hs.dirs_live h)
  obtain ⟨hlive, hmu, hr, hfm, hfx, hk⟩ := @create_facts T m false i hm
  have hc₁ := hc.newFile hs.dirs_live hm hi
  rw [hl] at hc₁
  refine (((setInodeContents_stores hlive hdata).mono (fun _ _ h => h) fun e image he => ?_)).bind ?_
  · rw [ShortOf, hr, hroom] at he
    exact hE e image fun h => absurd h.own (not_le.mpr he)
  rintro - T₂ ⟨j, room, rfl, hj, -, -, hroom'⟩
  rw [hr] at hroom'
  rw [hfm] at hj
  have hc₂ := hc₁.setContents (Finset.mem_insert_self _ _) hmd j data room
    (by rw [hfm]; exact hj)
  refine (enterNew_stores hs hc.live hc.dirs hp hm hm2 hc₂ hmu ?_ ?_ hname ?_).bind ?_
  · refine Table.Keeps.of_file rfl rfl fun x hx _ => ?_
    have hxm : x ≠ m := fun h => hm (Finset.mem_union_right _ (h ▸ hx))
    rw [Table.setFile_of_ne _ hxm, hfx x hx]
  · rw [Table.setFile_of_ne _ (Ne.symm hmp), hfx p (hc.live ▸ hpl)]
  · refine fun e image he => hE e image fun h => ?_
    have := h.entry
    have := hroom' p
    simp only [Table.setFile] at he
    omega
  rintro - T' ⟨hnew, hother⟩
  refine Act.hoare_pure ⟨hnew, ?_, ?_⟩
  · rw [hother m hmp, Table.setFile_self]
  · rw [hother m hmp, Table.setFile_self]
    exact hj

theorem symlinkInParent_stores (hc : Carries T N N.links) (hs : N.Sound) (hp : p ∈ N.dirs)
    {name target : Str} (hname : name.length ≤ 255) (htarget : target.length < 2 ^ 63)
    {mode uid gid timestamp : ℕ} :
    (symlinkInParent ufs p name target mode uid gid timestamp).hoare ufs.Stores T
      (fun m T' => NewFile T N p name m T' ∧ (T'.file m).body = target ∧ (T'.file m).inode.core =
        (Dinode.fresh (ufsIflnk ||| permissionsOf mode) uid gid 1 timestamp).core)
      (Refused ufs T (Cramped ufs.sb T p name (ufs.sb.blocksNeeded target.length))) := by
  rw [symlinkInParent]
  refine (readInodeOr_stores (hc.live ▸ hs.dirs_live hp) _).step fun i hi => ?_
  subst hi
  refine newInode_stores (fun _ _ h _ => .inl h) fun m hm hm2 hlt hroom => ?_
  exact fillNew_stores hc hs hp hm hm2
    (fresh_isDirectory (by decide) mode uid gid 1 timestamp) rfl hname htarget hroom
    fun _ _ h => .inr ⟨⟨m, hlt, hm⟩, h⟩

theorem Bytes.le_mod (w v : ℕ) : Bytes.le w (v % 256 ^ w) = Bytes.le w v := by
  induction w generalizing v with
  | zero => rfl
  | succ w ih =>
    rw [Bytes.le, Bytes.le, Nat.pow_succ', Nat.mod_mul_right_mod, Nat.mod_mul_right_div_self, ih]

/-- Pointers are written as 32-bit words. -/
theorem writeBlockLists_mod (n : ℕ) (direct indirect : List ℕ) :
    writeBlockLists ufs n direct indirect =
      writeBlockLists ufs n (direct.map (· % 2 ^ 32)) indirect := by
  have hslots : ∀ count, pointerSlots count direct = pointerSlots count (direct.map (· % 2 ^ 32)) := by
    intro count
    refine List.flatMap_congr fun i _ => ?_
    have hget : (direct.map (· % 2 ^ 32)).getD i 0 = direct.getD i 0 % 2 ^ 32 := by
      rw [List.getD_eq_getElem?_getD, List.getD_eq_getElem?_getD, List.getElem?_map]
      cases direct[i]? with
      | none => rfl
      | some v => rfl
    rw [hget, show 2 ^ 32 = 256 ^ 4 by norm_num, Bytes.le_mod]
  rw [writeBlockLists, writeBlockLists, hslots]

theorem mknodInParent_stores (hc : Carries T N N.links) (hs : N.Sound) (hp : p ∈ N.dirs)
    {name : Str} (hname : name.length ≤ 255) {fileType major minor mode uid gid timestamp : ℕ} :
    (mknodInParent ufs p name fileType major minor mode uid gid timestamp).hoare ufs.Stores T
      (fun m T' => NewFile T N p name m T' ∧ (T'.file m).body = [] ∧ (T'.file m).inode.core =
        (Dinode.fresh (fileType ||| permissionsOf mode) uid gid 1 timestamp).core)
      (Refused ufs T ((fileType = ufsIfchr ∨ fileType = ufsIfblk) ∧
        Cramped ufs.sb T p name 0)) := by
  have hpl := hs.dirs_live hp
  rw [mknodInParent]
  refine Act.hoare_ite (fun _ => Act.hoare_fail fun image hi => .inl hi) fun htype => ?_
  have hspecial : fileType = ufsIfchr ∨ fileType = ufsIfblk :=
    (not_and_or.mp htype).imp not_not.mp not_not.mp
  have hland : fileType &&& ufsIfmt = fileType := by
    cases hspecial with
    | inl h => rw [h]; decide
    | inr h => rw [h]; decide
  have hnd : fileType ≠ ufsIfdir := by
    rintro rfl
    exact htype ⟨by decide, by decide⟩
  refine (readInodeOr_stores (hc.live ▸ hpl) _).step fun i hi => ?_
  subst hi
  rw [if_neg (not_not.mpr ((hc.isDir p hpl).mpr hp))]
  refine newInode_stores (fun _ _ h _ => .inl h) fun m hm hm2 hlt _ => ?_
  have hml : m ∉ N.live := fun h => hm (Finset.mem_union_right _ (hc.live ▸ h))
  have hmp : m ≠ p := fun h => hml (h ▸ hpl)
  have hmd : m ∉ N.dirs := fun h => hml (hs.dirs_live h)
  have hdirf := fresh_isDirectory hland mode uid gid 1 timestamp
  rw [decide_eq_false hnd] at hdirf
  obtain ⟨hlive, hmu, hr, hfm, hfx, hk⟩ := @create_facts T m false
    (Dinode.fresh (fileType ||| permissionsOf mode) uid gid 1 timestamp) hm
  have hc₁ := hc.newFile hs.dirs_live hm hdirf
  have hempty : (((T.reserve m false).create m
      (Dinode.fresh (fileType ||| permissionsOf mode) uid gid 1 timestamp)).file m).body = [] := by
    rw [hfm]
  refine (writeInodeSize_stores hlive hempty).seq ?_
  refine (writeInodeBlocks_stores hlive hempty).seq ?_
  dsimp only
  rw [writeBlockLists_mod]
  refine (writeDevice_stores hlive hempty (by simp) ?_).bind ?_
  · intro v hv
    obtain ⟨w, -, rfl⟩ := List.mem_map.mp hv
    exact Nat.mod_lt _ (Nat.two_pow_pos 32)
  rintro - T₂ ⟨j, rfl, hj, -⟩
  rw [hfm] at hj
  have hc₂ := hc₁.setContents (Finset.mem_insert_self _ _) hmd j []
    ((T.reserve m false).create m
      (Dinode.fresh (fileType ||| permissionsOf mode) uid gid 1 timestamp)).room
    (by rw [hfm]; exact hj)
  rw [Table.setInode, hfm]
  refine (enterNew_stores hs hc.live hc.dirs hp hm hm2 hc₂ hmu ?_ ?_ hname ?_).bind ?_
  · refine Table.Keeps.of_file rfl rfl fun x hx _ => ?_
    have hxm : x ≠ m := fun h => hm (Finset.mem_union_right _ (h ▸ hx))
    rw [Table.setFile_of_ne _ hxm, hfx x hx]
  · rw [Table.setFile_of_ne _ (Ne.symm hmp), hfx p (hc.live ▸ hpl)]
  · refine fun e image he => .inr ⟨hspecial, ⟨m, hlt, hm⟩, fun h => ?_⟩
    have h2 := h.entry
    simp only [Table.setFile, hr] at he
    omega
  rintro - T' ⟨hnew, hother⟩
  refine Act.hoare_pure ⟨hnew, ?_, ?_⟩
  · rw [hother m hmp, Table.setFile_self]
  · rw [hother m hmp, Table.setFile_self]
    exact hj

/-! ## New directories -/

/-- The first block of a directory. -/
theorem buildDirectoryBlock_eq {m : ℕ} (hm0 : m ≠ 0) (hm : m < 2 ^ 32) (hp0 : p ≠ 0)
    (hp : p < 2 ^ 32) : ∃ block, buildDirectoryBlock m p = .ok block ∧ block.length = ufsDirblksiz ∧
      Directory block [⟨dotName, m⟩, ⟨dotdotName, p⟩] := by
  obtain ⟨a, ha, hal, hat⟩ := @encodeEntry_eq m (ufsDirsiz 1) dotName (by decide)
  have hsize : ufsDirblksiz - a.length = 500 := by
    rw [hal]
    decide
  obtain ⟨b, hb, hbl, hbt⟩ := @encodeEntry_eq p 500 dotdotName (by decide)
  have hal' : a.length = 12 := hal
  have hlen : (a ++ b).length = ufsDirblksiz := by
    rw [List.length_append, hal', hbl]
  have hoa : Bytes.overlay (a ++ b) 0 a = a ++ b := by
    rw [Bytes.overlay, List.take_zero, Nat.zero_add, List.drop_left, List.nil_append]
  have hob : Bytes.overlay (a ++ b) 12 b = a ++ b := by
    rw [Bytes.overlay, ← hal', List.take_left, List.drop_of_length_le (by simp), List.append_nil]
  have h1 := @hat (a ++ b) 0 (by rw [hlen]; decide) hm (by decide)
  have h2 := @hbt (a ++ b) 12 (by rw [hlen]) hp (by decide)
  rw [hoa] at h1
  rw [hob] at h2
  have hblock : Block (a ++ b) [⟨m, ufsDirsiz 1, dotName⟩, ⟨p, 500, dotdotName⟩] := by
    exact ⟨hlen, liveRec_fits (by decide) (by decide) (by decide), h1, liveRec_fits (by decide) (by decide) (by decide), h2,
      rfl⟩
  refine ⟨a ++ b, ?_, hlen, _, hblock.chains, by simp, ?_⟩
  · rw [buildDirectoryBlock, ha, Outcome.ok_bind, hsize, hb]
    rfl
  · simp [entriesOf, hm0, hp0]

/-- What making a directory has done. -/
structure NewDir (T : Table) (N : NameTree) (p : ℕ) (name : Str) (m : ℕ) (T' : Table) : Prop where
  fresh : m ∉ T.used
  carries : Carries T' (N.enterDir p ⟨name, m⟩) (N.enterDir p ⟨name, m⟩).links
  keeps : T.Keeps T'

/-- First block, entry and link of a new directory. -/
theorem fillDir_stores {m : ℕ} {i : Dinode} {name : Str} {E : Fault → Bytes → Prop}
    (hc : Carries T N N.links) (hs : N.Sound) (hp : p ∈ N.dirs) (hm : m ∉ T.used) (hm2 : 2 ≤ m)
    (hi : i.isDirectory = true) (hl : i.nlink = 2) (hname : NameOk name) (hfresh : N.Fresh p name)
    (hlinks : N.links p + 1 < 2 ^ 16) (hroom : T.room m = T.room 0)
    (hE : ∀ e image, ¬Roomy ufs.sb T p name (ufs.sb.blocksNeeded ufsDirblksiz) → E e image) :
    (do
      let block ← Act.lift (buildDirectoryBlock m p)
      setInodeContents ufs m block
      addDirectoryEntry ufs p (T.file p).inode name m
      writeInodeNlink ufs p ((T.file p).inode.nlink + 1)
      pure m : Write ℕ).hoare ufs.Stores ((T.reserve m true).create m i)
      (fun r T' => NewDir T N p name r T' ∧ (T'.file r).inode.attrs = i.attrs) E := by
  have hpl := hs.dirs_live hp
  have hplT : p ∈ T.live := hc.live ▸ hpl
  have hml : m ∉ N.live := fun h => hm (Finset.mem_union_right _ (hc.live ▸ h))
  have hmp : m ≠ p := fun h => hml (h ▸ hpl)
  obtain ⟨hlive, hmu, hr, hfm, hfx, hk⟩ := @create_facts T m true i hm
  refine hoare_stored fun image hst => ?_
  have hpu : p ∈ ((T.reserve m true).create m i).used :=
    Finset.mem_union_right _ (Finset.mem_insert_of_mem hplT)
  have hp0 : p ≠ 0 := by
    obtain ⟨D, own, -, hv⟩ := hst
    have := hv.live_ge (Finset.mem_insert_of_mem hplT : p ∈ ((T.reserve m true).create m i).live)
    omega
  obtain ⟨block, hbe, hbl, hbd⟩ := buildDirectoryBlock_eq (show m ≠ 0 by omega)
    (hst.used_lt hmu).2 hp0 (hst.used_lt hpu).2
  refine Act.hoare_lift_bind hbe ?_
  refine ((setInodeContents_stores hlive (by rw [hbl]; norm_num)).mono (fun _ _ h => h)
    fun e image he => ?_).bind ?_
  · rw [ShortOf, hr, hbl, hroom] at he
    exact hE e image fun h => absurd h.own (not_le.mpr he)
  rintro - T₂ ⟨j, room, rfl, hj, -, -, hroom'⟩
  rw [hr, hbl] at hroom'
  rw [hfm] at hj
  have hc₂ := hc.newDir p room hs.dirs_live hm hi hj hbd rfl
  have hfp : (((T.reserve m true).create m i).setFile m ⟨j, block⟩ room).file p = T.file p := by
    rw [Table.setFile_of_ne _ (Ne.symm hmp), hfx p hplT]
  have hadd := @addDirectoryEntry_carries ufs _ _ _ p hc₂
    (Finset.insert_subset_insert _ hs.dirs_live) (Finset.mem_insert_of_mem hp) name m hname.le
    (show m ∈ (((T.reserve m true).create m i).setFile m ⟨j, block⟩ room).used from hmu) (by omega)
  rw [hfp] at hadd
  refine (hadd.mono (fun _ _ h => h) ?_).bind ?_
  · intro e image he
    refine hE e image fun h => ?_
    have := h.entry
    have := hroom' p
    simp only [ShortOf, Table.setFile] at he
    omega
  rintro - T₃ ⟨hc₃, hk₃, hlive₃, hdirs₃, -, hother, hcore, -⟩
  have hp₃ : p ∈ T₃.live := by
    rw [hlive₃]
    exact Finset.mem_insert_of_mem hplT
  refine (writeInodeNlink_stores hp₃).seq (Act.hoare_pure ?_)
  have hnl := hc.nlink p hpl
  have hmod : ((T.file p).inode.nlink + 1) % 2 ^ 16 = N.links p + 1 := by
    rw [hnl, Nat.mod_eq_of_lt hlinks]
  rw [hmod]
  have hpN : p ∈ insert m N.live := Finset.mem_insert_of_mem hpl
  have hc₄ := hc₃.setNlink hpN (N.links p + 1)
  have htree : (⟨insert m N.live, insert m N.dirs,
      Function.update (Function.update N.kids m 0) p (⟨name, m⟩ ::ₘ Function.update N.kids m 0 p),
      Function.update N.up m p⟩ : NameTree) = N.enterDir p ⟨name, m⟩ := by
    rw [NameTree.enterDir, Function.update_of_ne (Ne.symm hmp)]
  rw [htree] at hc₄
  refine ⟨⟨hm, hc₄.congr fun n hn => ?_, ?_⟩, ?_⟩
  · by_cases hnm : n = m
    · subst hnm
      rw [Function.update_of_ne hmp, Function.update_self, hl]
      exact (NameTree.links_enterDir_new hs hp hfresh hname.ne hml).symm
    · have hnN := Finset.mem_of_mem_insert_of_ne hn hnm
      rw [NameTree.links_enterDir hs hp hml hnN]
      by_cases hnp : n = p
      · subst hnp
        rw [Function.update_self, if_pos rfl]
      · rw [Function.update_of_ne hnp, Function.update_of_ne hnm, if_neg hnp]
        rfl
  · refine ⟨hk₃.packed, hk₃.slack, fun x hx _ => ?_⟩
    have hxm : x ≠ m := fun h => hm (Finset.mem_union_right _ (h ▸ hx))
    have hxp : x = p ∨ (T₃.setInode p { (T₃.file p).inode with nlink := N.links p + 1 }).file x =
        T.file x := by
      by_cases hxp : x = p
      · exact .inl hxp
      · right
        rw [Table.setInode, Table.setFile_of_ne _ hxp, hother x hxp, Table.setFile_of_ne _ hxm,
          hfx x hx]
    rcases hxp with rfl | hsame
    · rw [Table.setInode, Table.setFile_self]
      exact ⟨(Dinode.attrs_nlink _ _).trans (Dinode.attrs_of_core hcore),
        fun hnd => absurd (hc.dirs ▸ hp) hnd⟩
    · rw [hsame]
      exact ⟨rfl, fun _ => rfl⟩
  · rw [Table.setInode, Table.setFile_of_ne _ hmp, hother m hmp, Table.setFile_self]
    exact Dinode.attrs_of_core hj

theorem mkdirInParent_stores (hc : Carries T N N.links) (hs : N.Sound) (hp : p ∈ N.dirs)
    {name : Str} (hname : NameOk name) (hfresh : N.Fresh p name) {mode uid gid timestamp : ℕ}
    (hlinks : N.links p + 1 < 2 ^ 16) :
    (mkdirInParent ufs p name mode uid gid timestamp).hoare ufs.Stores T
      (fun m T' => NewDir T N p name m T' ∧ (T'.file m).inode.attrs =
        (Dinode.fresh (ufsIfdir ||| permissionsOf mode) uid gid 2 timestamp).attrs)
      (Refused ufs T (Cramped ufs.sb T p name (ufs.sb.blocksNeeded ufsDirblksiz))) := by
  have hpl := hs.dirs_live hp
  rw [mkdirInParent]
  refine (readInodeOr_stores (hc.live ▸ hpl) _).step fun i hi => ?_
  subst hi
  rw [if_neg (not_not.mpr ((hc.isDir p hpl).mpr hp))]
  refine newInode_stores (fun _ _ h _ => .inl h) fun m hm hm2 hlt hroom => ?_
  exact fillDir_stores hc hs hp hm hm2
    (fresh_isDirectory (by decide) mode uid gid 2 timestamp) rfl hname hfresh hlinks hroom
    fun _ _ h => .inr ⟨⟨m, hlt, hm⟩, h⟩

end Create

end UfsFuse
