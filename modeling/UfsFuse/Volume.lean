import UfsFuse.ApplyWrite
import UfsFuse.InodeMap

/-!
# Volumes

A volume is what a slice stores for its users: a table of files, each an inode and its bytes.
`Volume sb D own T` connects it to the view: `own` gives every live inode its blocks, and together
these are exactly what the bitmaps mark as allocated. The operations of the write path change
entries of the table.
-/
namespace UfsFuse

/-- An inode and its contents. -/
structure File where
  inode : Dinode
  body : Bytes

/-- Used inodes with a file, used inodes without one (0, 1 and those just allocated), inodes
allocated as directories, the files, and whether every run of fragments starts a block. `room n` is
the number of blocks that are free once file `n` has given its own back; `room 0` are the free
ones. `slack` is the stored number of free fragments outside free blocks. -/
structure Table where
  live : Finset ℕ
  reserved : Finset ℕ
  dirs : Finset ℕ
  file : ℕ → File
  room : ℕ → ℕ
  packed : Bool
  slack : ℕ

namespace Table

def used (T : Table) : Finset ℕ := T.reserved ∪ T.live

/-- Inode `n` is allocated but holds no file yet. -/
def reserve (T : Table) (n : ℕ) (directory : Bool) : Table :=
  { T with
    reserved := insert n T.reserved
    dirs := if directory then insert n T.dirs else T.dirs }

/-- The reserved inode `n` becomes an empty file. -/
def create (T : Table) (n : ℕ) (i : Dinode) : Table :=
  { T with
    reserved := T.reserved.erase n
    live := insert n T.live
    file := Function.update T.file n ⟨i, []⟩ }

def setFile (T : Table) (n : ℕ) (f : File) (room : ℕ → ℕ) : Table :=
  { T with file := Function.update T.file n f, room := room }

def setInode (T : Table) (n : ℕ) (i : Dinode) : Table := T.setFile n ⟨i, (T.file n).body⟩ T.room

def remove (T : Table) (n : ℕ) : Table :=
  { T with live := T.live.erase n, dirs := T.dirs.erase n }

end Table

/-- All runs of the inodes `ns`. -/
noncomputable def ledger (sb : Superblock) (D : Disk) (own : ℕ → Owned) (ns : Finset ℕ) : List Run :=
  ns.toList.flatMap fun n => (own n).runs sb (D.ino n)

section Ledger
variable {sb : Superblock} {D D' : Disk} {own own' : ℕ → Owned} {ns : Finset ℕ} {n : ℕ}

theorem ledger_insert (h : n ∉ ns) :
    (ledger sb D own (insert n ns)).Perm ((own n).runs sb (D.ino n) ++ ledger sb D own ns) := by
  have hp := (Finset.toList_insert h).flatMap_right fun m => (own m).runs sb (D.ino m)
  rwa [List.flatMap_cons] at hp

theorem ledger_split (h : n ∈ ns) :
    (ledger sb D own ns).Perm ((own n).runs sb (D.ino n) ++ ledger sb D own (ns.erase n)) := by
  have hp := @ledger_insert sb D own _ _ (Finset.notMem_erase n ns)
  rwa [Finset.insert_erase h] at hp

theorem ledger_congr (h : ∀ m ∈ ns, D'.ino m = D.ino m ∧ own' m = own m) :
    ledger sb D' own' ns = ledger sb D own ns := by
  refine List.flatMap_congr fun m hm => ?_
  obtain ⟨h1, h2⟩ := h m (Finset.mem_toList.mp hm)
  rw [h1, h2]

/-- A ledger depends on the runs of its inodes only. -/
theorem ledger_congr_runs (h : ∀ m ∈ ns, (own' m).runs sb (D'.ino m) = (own m).runs sb (D.ino m)) :
    ledger sb D' own' ns = ledger sb D own ns :=
  List.flatMap_congr fun m hm => h m (Finset.mem_toList.mp hm)

theorem mem_ledger {r : Run} : r ∈ ledger sb D own ns ↔ ∃ m ∈ ns, r ∈ (own m).runs sb (D.ino m) := by
  simp only [ledger, List.mem_flatMap, Finset.mem_toList]

end Ledger

/-- Groups and superblock agree on the free fragments outside free blocks, and the number fits the
signed word of the superblock. -/
structure Disk.Slack (sb : Superblock) (D : Disk) (n : ℕ) : Prop where
  total : D.total.nffree = n
  groups : ∑ c ∈ Finset.range sb.ncg, (D.cg c).counts.nffree = n
  lt : n < 2 ^ 31

section Slack
variable {sb : Superblock} {D D' : Disk} {n : ℕ}

theorem Disk.Slack.congr (h : D.Slack sb n) (ht : D'.total.nffree = D.total.nffree)
    (hc : ∀ c, (D'.cg c).counts.nffree = (D.cg c).counts.nffree) : D'.Slack sb n :=
  ⟨ht.trans h.total, (Finset.sum_congr rfl fun c _ => hc c).trans h.groups, h.lt⟩

theorem Disk.Slack.of_core (h : D.Slack sb n) (hc : ∀ c, (D'.cg c).core = (D.cg c).core)
    (ht : D'.total.core = D.total.core) : D'.Slack sb n :=
  h.congr (by simpa [Csum.core] using congrArg Csum.nffree ht) fun c =>
    by simpa [CgView.core] using congrArg (fun v => v.counts.nffree) (hc c)

theorem InodeOnly.slack (ho : InodeOnly D D') (h : D.Slack sb n) : D'.Slack sb n :=
  h.congr (by simpa [Csum.spaceCore] using congrArg Csum.nffree ho.total) fun c =>
    by simpa [CgView.spaceCore] using congrArg (fun v => v.counts.nffree) (ho.cg c)

end Slack

structure Volume (sb : Superblock) (D : Disk) (own : ℕ → Owned) (T : Table) : Prop where
  space : Space sb D (ledger sb D own T.live)
  map : InodeMap sb D T.used T.dirs
  reserved_zero : 0 ∈ T.reserved
  reserved_one : 1 ∈ T.reserved
  apart : Disjoint T.reserved T.live
  laid : ∀ n ∈ T.live, Laid sb D (D.ino n) (own n).data (own n).ptrs
  blocks : ∀ n ∈ T.live, (D.ino n).blocks = (own n).sectors sb (D.ino n)
  inode : ∀ n ∈ T.live, D.ino n = (T.file n).inode
  body : ∀ n ∈ T.live, D.contents sb (D.ino n) (own n) = (T.file n).body
  room : ∀ m, spare sb (ledger sb D own (T.live.erase m)) = T.room m
  heads : T.packed = true → Heads sb (ledger sb D own T.live)
  slack : D.Slack sb T.slack
  pointers : sb.PointersFill

/-- Apart from inode `n` and its blocks, `D'` is as `D`: the other inodes, their blocks, and all that
block allocation leaves alone in the headers. -/
structure Beside (sb : Superblock) (own : ℕ → Owned) (live : Finset ℕ) (n : ℕ) (D D' : Disk) : Prop where
  inodes : ∀ m, m ≠ n → D'.ino m = D.ino m
  core : ∀ c, (D'.cg c).core = (D.cg c).core
  keeps : ∀ a, Covered (ledger sb D own (live.erase n)) (a / 512) → D'.data a = D.data a

section Beside
variable {sb : Superblock} {own : ℕ → Owned} {live : Finset ℕ} {n : ℕ} {D D' D'' : Disk}

theorem Beside.refl : Beside sb own live n D D := ⟨fun _ _ => rfl, fun _ => rfl, fun _ _ => rfl⟩

theorem Beside.ledger_eq (h : Beside sb own live n D D') :
    ledger sb D' own (live.erase n) = ledger sb D own (live.erase n) :=
  ledger_congr fun m hm => ⟨h.inodes m (Finset.ne_of_mem_erase hm), rfl⟩

theorem Beside.trans (h : Beside sb own live n D D') (h' : Beside sb own live n D' D'') :
    Beside sb own live n D D'' where
  inodes m hm := (h'.inodes m hm).trans (h.inodes m hm)
  core c := (h'.core c).trans (h.core c)
  keeps a ha := (h'.keeps a (h.ledger_eq ▸ ha)).trans (h.keeps a ha)

theorem Replaced.beside {o : Owned} (h : Replaced sb D D' n o (ledger sb D own (live.erase n))) :
    Beside sb own live n D D' := ⟨h.inodes, h.core, h.keeps⟩

end Beside

/-! ## Layout of an inode -/

/-- The fields that say where an inode's bytes are. -/
def Inode.layout (i : Inode) : ℕ × List ℕ × List ℕ × ℕ :=
  (i.size, i.directBlocks, i.indirectBlocks, i.blocks)

section Layout
variable {i j : Inode}

theorem Inode.size_of_layout (h : i.layout = j.layout) : i.size = j.size := congrArg Prod.fst h

theorem Inode.blocks_of_layout (h : i.layout = j.layout) : i.blocks = j.blocks :=
  congrArg (fun l => l.2.2.2) h

theorem Owned.runs_of_layout {sb : Superblock} {o : Owned} (h : i.layout = j.layout) :
    o.runs sb i = o.runs sb j := by
  rw [Owned.runs_eq, Owned.runs_eq, Inode.size_of_layout h]

theorem Laid.of_layout {sb : Superblock} {D : Disk} {data ptrs : List ℕ} (h : Laid sb D j data ptrs)
    (hi : i.layout = j.layout) : Laid sb D i data ptrs := by
  have hs := Inode.size_of_layout hi
  have hd : i.directBlocks = j.directBlocks := congrArg (fun l => l.2.1) hi
  have hx : i.indirectBlocks = j.indirectBlocks := congrArg (fun l => l.2.2.1) hi
  exact ⟨hs ▸ h.size_lt, hs ▸ h.count, h.nonzero, hd ▸ h.direct_length, hd ▸ h.direct,
    hx ▸ h.indirect, h.filled⟩

theorem Laid.of_blank {sb : Superblock} {D : Disk} (h : i.layout = Dinode.blank.layout) :
    Laid sb D i [] [] := by
  refine Laid.of_layout ⟨?_, rfl, fun b hb => absurd hb List.not_mem_nil, ?_, rfl, ?_,
    sb.pointerBlocks_zero.symm⟩ h
  · exact Nat.two_pow_pos 63
  · exact List.length_replicate
  · exact ⟨Subtree.empty, Subtree.empty, Subtree.empty, rfl, Tree.empty, Tree.empty, Tree.empty, rfl,
      rfl⟩

theorem Tree.ptrs_nil {sb : Superblock} {D : Disk} {depth : ℕ} {t : Subtree}
    (h : Tree sb D (depth + 1) t) (hd : t.data = []) : t.ptrs = [] := by
  rcases h with rfl | ⟨-, kids, hne, -, hkids, -, hdata, -⟩
  · rfl
  · obtain ⟨k, hk⟩ := List.exists_mem_of_ne_nil kids hne
    rw [hd] at hdata
    exact absurd (List.flatMap_eq_nil_iff.mp hdata.symm k hk) (hkids k hk).1

theorem Laid.ptrs_nil {sb : Superblock} {D : Disk} {data ptrs : List ℕ} (h : Laid sb D i data ptrs)
    (hd : data = []) : ptrs = [] := by
  obtain ⟨t₁, t₂, t₃, -, h1, h2, h3, hdrop, rfl⟩ := h.indirect
  rw [hd, List.drop_nil] at hdrop
  obtain ⟨h12, hd3⟩ := List.append_eq_nil_iff.mp hdrop.symm
  obtain ⟨hd1, hd2⟩ := List.append_eq_nil_iff.mp h12
  rw [h1.ptrs_nil hd1, h2.ptrs_nil hd2, h3.ptrs_nil hd3]
  rfl

end Layout

/-- The image stores this table. -/
def Ufs.Stores (ufs : Ufs) (image : Bytes) (T : Table) : Prop :=
  ∃ D own, ufs.Holds image D ∧ Volume ufs.sb D own T

namespace Volume
variable {sb : Superblock} {D D' : Disk} {own : ℕ → Owned} {T : Table}

theorem live_lt (h : Volume sb D own T) {n : ℕ} (hn : n ∈ T.live) : n < sb.inodes :=
  h.map.inRange n (Finset.mem_union_right _ hn)

theorem live_ge (h : Volume sb D own T) {n : ℕ} (hn : n ∈ T.live) : 2 ≤ n := by
  by_contra hlt
  have h01 : n = 0 ∨ n = 1 := by omega
  rcases h01 with rfl | rfl
  · exact Finset.disjoint_left.mp h.apart h.reserved_zero hn
  · exact Finset.disjoint_left.mp h.apart h.reserved_one hn

/-- The ledger seen from one inode. -/
theorem space_at (h : Volume sb D own T) {n : ℕ} (hn : n ∈ T.live) :
    Space sb D ((own n).runs sb (D.ino n) ++ ledger sb D own (T.live.erase n)) :=
  h.space.perm (ledger_split hn)

theorem isRun (h : Volume sb D own T) {n : ℕ} (hn : n ∈ T.live) :
    ∀ r ∈ (own n).runs sb (D.ino n), sb.IsRun r.1 r.2 := fun r hr =>
  h.space.isRun r (mem_ledger.mpr ⟨n, hn, hr⟩)

theorem heads_at (h : Volume sb D own T) {n : ℕ} (hn : n ∈ T.live) (hp : T.packed = true) :
    Heads sb ((own n).runs sb (D.ino n)) := fun r hr => h.heads hp r (mem_ledger.mpr ⟨n, hn, hr⟩)

/-- Inodes and bytes that another inode's change leaves alone. -/
theorem untouched (g : sb.Geometry) (h : Volume sb D own T) {n m : ℕ} (hm : m ∈ T.live.erase n)
    (hino : D'.ino m = D.ino m)
    (hkeep : ∀ a, Covered (ledger sb D own (T.live.erase n)) (a / 512) → D'.data a = D.data a) :
    Laid sb D' (D'.ino m) (own m).data (own m).ptrs ∧
      D'.contents sb (D'.ino m) (own m) = D.contents sb (D.ino m) (own m) := by
  have hlive := Finset.mem_of_mem_erase hm
  have hl := h.laid m hlive
  have hb := g.bsize_eq
  have hcov : ∀ a, Covered ((own m).runs sb (D.ino m)) (a / 512) → D'.data a = D.data a := by
    rintro a ⟨r, hr, hma⟩
    exact hkeep a ⟨r, mem_ledger.mpr ⟨m, hm, hr⟩, hma⟩
  rw [hino]
  refine ⟨hl.congr fun p hp => Disk.bytes_congr fun a h1 h2 => hcov a ?_, ?_⟩
  · refine ⟨(p, sb.frag), List.mem_append_right _ (mem_blockRuns hp), ?_, ?_⟩
    · simp only
      omega
    · simp only
      omega
  · refine Disk.body_congr (hl.covers g) (hl.sizes_length g) fun a ha => hcov a ?_
    exact covered_append.mpr (.inl ha)

/-- New contents of one inode. -/
theorem replaced (g : sb.Geometry) (h : Volume sb D own T) {n : ℕ} (hn : n ∈ T.live) {o : Owned}
    (hr : Replaced sb D D' n o (ledger sb D own (T.live.erase n)))
    (hh : T.packed = true → Heads sb (o.runs sb (D'.ino n))) {body : Bytes}
    (hbody : D'.contents sb (D'.ino n) o = body) :
    Volume sb D' (Function.update own n o)
      (T.setFile n ⟨D'.ino n, body⟩ fun m =>
        spare sb (ledger sb D' (Function.update own n o) (T.live.erase m))) := by
  have hother : ∀ m ∈ T.live.erase n, D'.ino m = D.ino m ∧ Function.update own n o m = own m :=
    fun m hm => ⟨hr.inodes m (Finset.ne_of_mem_erase hm),
      Function.update_of_ne (Finset.ne_of_mem_erase hm) _ _⟩
  have hcase : ∀ {P : ℕ → Prop}, P n → (∀ m ∈ T.live.erase n, P m) → ∀ m ∈ T.live, P m := by
    intro P h1 h2 m hm
    by_cases hmn : m = n
    · rw [hmn]
      exact h1
    · exact h2 m (Finset.mem_erase.mpr ⟨hmn, hm⟩)
  refine ⟨?_, h.map.congr hr.core hr.total, h.reserved_zero, h.reserved_one, h.apart, ?_, ?_, ?_, ?_,
    fun _ => rfl, ?_, h.slack.of_core hr.core hr.total, h.pointers⟩
  · refine Space.perm ?_ (ledger_split hn).symm
    rw [Function.update_self, ledger_congr hother]
    exact hr.space
  · refine hcase ?_ fun m hm => ?_
    · rw [Function.update_self]
      exact hr.laid
    · rw [(hother m hm).2]
      exact (h.untouched g hm (hother m hm).1 hr.keeps).1
  · refine hcase ?_ fun m hm => ?_
    · rw [Function.update_self]
      exact hr.blocks
    · rw [(hother m hm).1, (hother m hm).2]
      exact h.blocks m (Finset.mem_of_mem_erase hm)
  · refine hcase ?_ fun m hm => ?_
    · simp only [Table.setFile, Function.update_self]
    · simp only [Table.setFile, Function.update_of_ne (Finset.ne_of_mem_erase hm)]
      rw [(hother m hm).1]
      exact h.inode m (Finset.mem_of_mem_erase hm)
  · refine hcase ?_ fun m hm => ?_
    · simp only [Table.setFile, Function.update_self]
      exact hbody
    · simp only [Table.setFile, Function.update_of_ne (Finset.ne_of_mem_erase hm)]
      rw [(h.untouched g hm (hother m hm).1 hr.keeps).2]
      exact h.body m (Finset.mem_of_mem_erase hm)
  · intro hp r hmem
    have hmem' := (ledger_split hn).mem_iff.mp hmem
    rw [Function.update_self, ledger_congr hother] at hmem'
    cases List.mem_append.mp hmem' with
    | inl hmem' => exact hh hp r hmem'
    | inr hmem' => exact h.heads hp r ((ledger_split hn).mem_iff.mpr (List.mem_append_right _ hmem'))

/-- New contents in the old blocks. -/
theorem replaced_same (g : sb.Geometry) (h : Volume sb D own T) {n : ℕ} (hn : n ∈ T.live) {o : Owned}
    (hr : Replaced sb D D' n o (ledger sb D own (T.live.erase n)))
    (hruns : o.runs sb (D'.ino n) = (own n).runs sb (D.ino n)) {body : Bytes}
    (hbody : D'.contents sb (D'.ino n) o = body) :
    Volume sb D' (Function.update own n o) (T.setFile n ⟨D'.ino n, body⟩ T.room) := by
  have hv := h.replaced g hn hr (fun hp => by rw [hruns]; exact h.heads_at hn hp) hbody
  have hroom : (fun m => spare sb (ledger sb D' (Function.update own n o) (T.live.erase m))) =
      T.room := by
    funext m
    rw [← h.room m, ledger_congr_runs fun x hx => ?_]
    by_cases hxn : x = n
    · rw [hxn, Function.update_self]
      exact hruns
    · rw [Function.update_of_ne hxn, hr.inodes x hxn]
  rwa [hroom] at hv

/-- The blocks that new contents leave free. -/
theorem room_replaced (g : sb.Geometry) (h : Volume sb D own T) {n : ℕ} (hn : n ∈ T.live) {o : Owned}
    (hr : Replaced sb D D' n o (ledger sb D own (T.live.erase n))) :
    spare sb (ledger sb D' (Function.update own n o) (T.live.erase n)) = T.room n ∧
      ∀ m, T.room m ≤ spare sb (ledger sb D' (Function.update own n o) (T.live.erase m)) +
        (o.runs sb (D'.ino n)).length := by
  have hother : ∀ m ≠ n, D'.ino m = D.ino m ∧ Function.update own n o m = own m :=
    fun m hm => ⟨hr.inodes m hm, Function.update_of_ne hm _ _⟩
  have hself : spare sb (ledger sb D' (Function.update own n o) (T.live.erase n)) = T.room n := by
    rw [← h.room n, ledger_congr fun m hm => hother m (Finset.ne_of_mem_erase hm)]
  refine ⟨hself, fun m => ?_⟩
  by_cases hmn : m = n
  · rw [hmn, hself]
    exact Nat.le_add_right _ _
  have hmem : n ∈ T.live.erase m := Finset.mem_erase.mpr ⟨Ne.symm hmn, hn⟩
  rw [← h.room m, spare_perm (ledger_split hmem), spare_perm (ledger_split hmem),
    Function.update_self, ledger_congr fun x hx => hother x (Finset.ne_of_mem_erase hx)]
  calc spare sb ((own n).runs sb (D.ino n) ++ ledger sb D own ((T.live.erase m).erase n))
      ≤ spare sb (ledger sb D own ((T.live.erase m).erase n)) :=
        spare_anti fun f hf => covered_append.mpr (.inr hf)
    _ ≤ _ := spare_append_le g fun r hr' => hr.space.isRun r (List.mem_append_left _ hr')

theorem nbfree_eq (g : sb.Geometry) (h : Volume sb D own T) : D.total.nbfree = T.room 0 := by
  have h0 : 0 ∉ T.live := Finset.disjoint_left.mp h.apart h.reserved_zero
  rw [h.space.total_spare g, ← h.room 0, Finset.erase_eq_of_notMem h0]

/-- New fields of one inode; its size and its blocks stay. -/
theorem setInode (g : sb.Geometry) (h : Volume sb D own T) {n : ℕ} (hn : n ∈ T.live) {i : Dinode}
    (hi : i.layout = (T.file n).inode.layout) : Volume sb (D.setIno n i) own (T.setInode n i) := by
  rw [← h.inode n hn] at hi
  have hr : Replaced sb D (D.setIno n i) n (own n) (ledger sb D own (T.live.erase n)) := by
    refine ⟨?_, ?_, ?_, ?_, fun _ => rfl, rfl, fun _ _ => rfl⟩
    · rw [Disk.setIno_at, Owned.runs_of_layout hi]
      exact (h.space_at hn).congr rfl rfl
    · rw [Disk.setIno_at]
      exact ((h.laid n hn).of_layout hi).congr fun _ _ => rfl
    · rw [Disk.setIno_at, Owned.sectors, Owned.runs_of_layout hi, Inode.blocks_of_layout hi]
      exact h.blocks n hn
    · intro m hm
      rw [Disk.setIno_ino, Function.update_of_ne hm]
  have hbody : (D.setIno n i).contents sb ((D.setIno n i).ino n) (own n) = (T.file n).body := by
    rw [Disk.setIno_at, Disk.contents, Inode.size_of_layout hi, ← h.body n hn]
    exact Disk.body_of_data (Disk.setIno_data D n i) _ _
  have hv := h.replaced_same g hn hr (by rw [Disk.setIno_at, Owned.runs_of_layout hi]) hbody
  rw [Function.update_eq_self, Disk.setIno_at] at hv
  exact hv

/-- An inode is allocated. -/
theorem reserve (h : Volume sb D own T) {n : ℕ} {directory : Bool}
    (ht : TookInode sb D D' T.used T.dirs directory n) :
    Volume sb D' own (T.reserve n directory) where
  space := by
    have hs := ht.only.space h.space
    rwa [@ledger_congr _ _ _ _ own _ fun m _ => ⟨congrFun ht.only.ino m, rfl⟩]
  map := by
    have hm := ht.map
    rwa [Table.used, ← Finset.insert_union] at hm
  reserved_zero := Finset.mem_insert_of_mem h.reserved_zero
  reserved_one := Finset.mem_insert_of_mem h.reserved_one
  apart := by
    rw [Table.reserve, Finset.disjoint_insert_left]
    exact ⟨fun hl => ht.fresh (Finset.mem_union_right _ hl), h.apart⟩
  laid m hm := by
    rw [ht.only.ino]
    exact (h.laid m hm).congr fun p _ => Disk.bytes_congr fun a _ _ => congrFun ht.only.data a
  blocks m hm := by
    rw [ht.only.ino]
    exact h.blocks m hm
  inode m hm := by
    rw [ht.only.ino]
    exact h.inode m hm
  body m hm := by
    rw [ht.only.ino]
    exact (Disk.body_of_data ht.only.data _ _).trans (h.body m hm)
  room m := by
    rw [@ledger_congr _ _ _ _ own _ fun m _ => ⟨congrFun ht.only.ino m, rfl⟩]
    exact h.room m
  heads hp := by
    rw [@ledger_congr _ _ _ _ own _ fun m _ => ⟨congrFun ht.only.ino m, rfl⟩]
    exact h.heads hp
  slack := ht.only.slack h.slack
  pointers := h.pointers

/-- A reserved inode becomes an empty file. -/
theorem create (h : Volume sb D own T) {n : ℕ} (hn : n ∈ T.reserved)
    (hn2 : 2 ≤ n) {i : Dinode} (hi : i.layout = Dinode.blank.layout) :
    Volume sb (D.setIno n i) (Function.update own n Owned.none) (T.create n i) := by
  have hnl : n ∉ T.live := Finset.disjoint_left.mp h.apart hn
  have hruns : ∀ j : Inode, Owned.none.runs sb j = [] := fun _ => rfl
  have hother : ∀ m ∈ T.live, (D.setIno n i).ino m = D.ino m ∧
      Function.update own n Owned.none m = own m := by
    intro m hm
    have hmn : m ≠ n := fun he => hnl (he ▸ hm)
    exact ⟨Function.update_of_ne hmn _ _, Function.update_of_ne hmn _ _⟩
  have hcase : ∀ {P : ℕ → Prop}, P n → (∀ m ∈ T.live, P m) → ∀ m ∈ (T.create n i).live, P m := by
    intro P h1 h2 m hm
    rcases Finset.mem_insert.mp hm with rfl | hm
    · exact h1
    · exact h2 m hm
  have hused : (T.create n i).used = T.used := by
    rw [Table.used, Table.used, Table.create, Finset.union_insert, ← Finset.insert_union,
      Finset.insert_erase hn]
  refine ⟨?_, ?_, Finset.mem_erase.mpr ⟨by omega, h.reserved_zero⟩,
    Finset.mem_erase.mpr ⟨by omega, h.reserved_one⟩, ?_, ?_, ?_, ?_, ?_, fun m => ?_, ?_,
    h.slack.congr rfl fun _ => rfl, h.pointers⟩
  · refine Space.perm ?_ (ledger_insert hnl).symm
    rw [Function.update_self, hruns, List.nil_append, ledger_congr hother]
    exact h.space.congr rfl rfl
  · rw [hused]
    exact h.map.congr (fun _ => rfl) rfl
  · rw [Table.create, Finset.disjoint_insert_right]
    exact ⟨Finset.notMem_erase _ _, h.apart.mono_left (Finset.erase_subset _ _)⟩
  · refine hcase ?_ fun m hm => ?_
    · rw [Function.update_self, Disk.setIno_at]
      exact Laid.of_blank hi
    · rw [(hother m hm).1, (hother m hm).2]
      exact (h.laid m hm).congr fun _ _ => rfl
  · refine hcase ?_ fun m hm => ?_
    · rw [Function.update_self, Disk.setIno_at, Inode.blocks_of_layout hi, Owned.sectors, hruns]
      rfl
    · rw [(hother m hm).1, (hother m hm).2]
      exact h.blocks m hm
  · refine hcase ?_ fun m hm => ?_
    · simp only [Table.create, Function.update_self, Disk.setIno_at]
    · have hmn : m ≠ n := fun he => hnl (he ▸ hm)
      simp only [Table.create, Function.update_of_ne hmn]
      rw [(hother m hm).1]
      exact h.inode m hm
  · refine hcase ?_ fun m hm => ?_
    · simp only [Table.create, Function.update_self]
      rfl
    · have hmn : m ≠ n := fun he => hnl (he ▸ hm)
      simp only [Table.create, Function.update_of_ne hmn]
      rw [(hother m hm).1]
      exact (Disk.body_of_data (Disk.setIno_data D n i) _ _).trans (h.body m hm)
  · refine Eq.trans ?_ (h.room m)
    by_cases hmn : m = n
    · rw [hmn, Table.create, Finset.erase_insert hnl, Finset.erase_eq_of_notMem hnl,
        ledger_congr hother]
    · have hnl' : n ∉ T.live.erase m := fun hh => hnl (Finset.mem_of_mem_erase hh)
      rw [Table.create, Finset.erase_insert_of_ne (Ne.symm hmn), spare_perm (ledger_insert hnl'),
        Function.update_self, hruns, List.nil_append,
        ledger_congr fun x hx => hother x (Finset.mem_of_mem_erase hx)]
  · intro hp r hmem
    have hmem' := (ledger_insert hnl).mem_iff.mp hmem
    rw [Function.update_self, hruns, List.nil_append, ledger_congr hother] at hmem'
    exact h.heads hp r hmem'

/-- An empty file owns nothing. -/
theorem own_of_empty (g : sb.Geometry) (h : Volume sb D own T) {n : ℕ} (hn : n ∈ T.live)
    (hb : (T.file n).body = []) : own n = Owned.none := by
  have hl := h.laid n hn
  have hlen := hl.contents_length g
  rw [h.body n hn, hb, List.length_nil] at hlen
  have hcount := hl.count
  rw [← hlen, Superblock.blocksFor, if_pos rfl] at hcount
  have hd := List.eq_nil_of_length_eq_zero hcount
  have hp := hl.ptrs_nil hd
  rcases ho : own n with ⟨data, ptrs⟩
  rw [ho] at hd hp
  simp only at hd hp
  rw [hd, hp]
  rfl

/-- An empty file whose direct pointers hold something else, such as a device number. -/
theorem setDevice (g : sb.Geometry) (h : Volume sb D own T) {n : ℕ} (hn : n ∈ T.live)
    (hb : (T.file n).body = []) {i : Dinode} (hs : i.size = 0) (hbl : i.blocks = 0)
    (hd : i.directBlocks.length = ufsNdaddr) (hi : i.indirectBlocks = [0, 0, 0]) :
    Volume sb (D.setIno n i) own (T.setInode n i) := by
  have hown := h.own_of_empty g hn hb
  have hlaid : Laid sb (D.setIno n i) i [] [] := by
    refine ⟨by rw [hs]; exact Nat.two_pow_pos 63, by rw [hs]; rfl,
      fun b hb => absurd hb List.not_mem_nil, hd, rfl, ?_, sb.pointerBlocks_zero.symm⟩
    exact ⟨Subtree.empty, Subtree.empty, Subtree.empty, hi, Tree.empty, Tree.empty, Tree.empty, rfl,
      rfl⟩
  have hr : Replaced sb D (D.setIno n i) n Owned.none (ledger sb D own (T.live.erase n)) := by
    refine ⟨?_, ?_, ?_, ?_, fun _ => rfl, rfl, fun _ _ => rfl⟩
    · have hsp := h.space_at hn
      rw [hown] at hsp
      exact hsp.congr rfl rfl
    · rw [Disk.setIno_at]
      exact hlaid
    · rw [Disk.setIno_at, hbl]
      rfl
    · intro m hm
      rw [Disk.setIno_ino, Function.update_of_ne hm]
  have hv := h.replaced_same g hn hr (by rw [hown]; rfl)
    (show (D.setIno n i).contents sb ((D.setIno n i).ino n) Owned.none = [] from rfl)
  rw [← hown, Function.update_eq_self, Disk.setIno_at, ← hb] at hv
  exact hv

/-- An inode without blocks is given back. -/
theorem remove (h : Volume sb D own T) {n : ℕ} (hn : n ∈ T.live) (hown : own n = Owned.none)
    (hm : InodeMap sb D' (T.used.erase n) (T.dirs.erase n)) (ho : InodeOnly D D') :
    Volume sb D' own (T.remove n) where
  space := by
    have hs := ho.space (h.space_at hn)
    rw [hown] at hs
    rwa [@ledger_congr _ _ _ _ own _ fun m _ => ⟨congrFun ho.ino m, rfl⟩]
  map := by
    have hr : n ∉ T.reserved := Finset.disjoint_right.mp h.apart hn
    rwa [Table.used, Finset.erase_union_distrib, Finset.erase_eq_of_notMem hr] at hm
  reserved_zero := h.reserved_zero
  reserved_one := h.reserved_one
  apart := h.apart.mono_right (Finset.erase_subset _ _)
  laid m hm := by
    rw [ho.ino]
    exact (h.laid m (Finset.mem_of_mem_erase hm)).congr fun p _ =>
      Disk.bytes_congr fun a _ _ => congrFun ho.data a
  blocks m hm := by
    rw [ho.ino]
    exact h.blocks m (Finset.mem_of_mem_erase hm)
  inode m hm := by
    rw [ho.ino]
    exact h.inode m (Finset.mem_of_mem_erase hm)
  body m hm := by
    rw [ho.ino]
    exact (Disk.body_of_data ho.data _ _).trans (h.body m (Finset.mem_of_mem_erase hm))
  room m := by
    rw [@ledger_congr _ _ _ _ own _ fun m _ => ⟨congrFun ho.ino m, rfl⟩]
    by_cases hmem : n ∈ T.live.erase m
    · have hperm := @ledger_split sb D own _ n hmem
      rw [hown] at hperm
      refine Eq.trans ?_ ((spare_perm hperm).symm.trans (h.room m))
      rw [Table.remove, Finset.erase_right_comm]
      rfl
    · refine Eq.trans ?_ (h.room m)
      rw [Table.remove, Finset.erase_right_comm, Finset.erase_eq_of_notMem hmem]
  heads hp r hr := by
    rw [@ledger_congr _ _ _ _ own _ fun m _ => ⟨congrFun ho.ino m, rfl⟩] at hr
    obtain ⟨m, hm, hr⟩ := mem_ledger.mp hr
    exact h.heads hp r (mem_ledger.mpr ⟨m, Finset.mem_of_mem_erase hm, hr⟩)
  slack := ho.slack h.slack
  pointers := h.pointers

end Volume
end UfsFuse
