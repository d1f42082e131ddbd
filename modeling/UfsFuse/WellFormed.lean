import UfsFuse.Directory
import Mathlib.Logic.Relation

/-!
# Well-formed directories

A directory is well formed when each of its 512-byte blocks is tiled by records with room for their
names, and no two live records have one name. Inserting, removing and rewriting an entry keep that,
and leave all other live records where they are.
-/
namespace UfsFuse

/-- The directory `body` is well formed and has the live records `live`, each with its offset. -/
def WellFormed (body : Bytes) (live : List (ℕ × Entry)) : Prop :=
  ∃ blocks, Chains body blocks ∧ blocks ≠ [] ∧ live = liveAt 0 blocks.flatten ∧
    (live.map fun x => x.2.name).Nodup

section Lists
variable {live live' : List (ℕ × Entry)} {name : Str}

/-- Without duplicates, editing the first entry of a name edits all entries of that name. -/
theorem editFirst_nodup {g : ℕ × Entry → List (ℕ × Entry)}
    (hn : (live.map fun x => x.2.name).Nodup)
    (h : editFirst (fun x : ℕ × Entry => x.2.name = name) g live = some live') :
    live' = live.flatMap fun x => if x.2.name = name then g x else [x] := by
  cases exists_first (p := fun x : ℕ × Entry => x.2.name = name) live with
  | inl hno =>
    rw [editFirst_of_not hno] at h
    cases h
  | inr hex =>
    obtain ⟨xs, a, ys, rfl, hxs, ha⟩ := hex
    rw [editFirst_split hxs ha, Option.some.injEq] at h
    rw [List.map_append, List.map_cons, List.nodup_append, List.nodup_cons] at hn
    have hys : ∀ y ∈ ys, y.2.name ≠ name := by
      intro y hy he
      exact hn.2.1.1 (ha.trans he.symm ▸ List.mem_map.mpr ⟨y, hy, rfl⟩)
    have hkeep : ∀ l : List (ℕ × Entry), (∀ x ∈ l, x.2.name ≠ name) →
        (l.flatMap fun x => if x.2.name = name then g x else [x]) = l := by
      intro l
      induction l with
      | nil => exact fun _ => rfl
      | cons x l ih =>
        intro hl
        rw [List.flatMap_cons, if_neg (hl x (List.mem_cons_self ..)),
          ih fun y hy => hl y (List.mem_cons_of_mem _ hy)]
        rfl
    rw [← h, List.flatMap_append, List.flatMap_cons, if_pos ha, hkeep xs hxs, hkeep ys hys,
      List.append_assoc]

theorem flatMap_drop : (live.flatMap fun x => if x.2.name = name then [] else [x]) =
    live.filter fun x => x.2.name ≠ name := by
  induction live with
  | nil => rfl
  | cons x live ih =>
    rw [List.flatMap_cons, ih, List.filter_cons]
    by_cases h : x.2.name = name
    · simp [h]
    · simp [h]

theorem flatMap_renumber {ino : ℕ} :
    (live.flatMap fun x => if x.2.name = name then [(x.1, (⟨x.2.name, ino⟩ : Entry))] else [x]) =
      live.map fun x => if x.2.name = name then (x.1, ⟨x.2.name, ino⟩) else x := by
  induction live with
  | nil => rfl
  | cons x live ih =>
    rw [List.flatMap_cons, ih, List.map_cons]
    by_cases h : x.2.name = name
    · rw [if_pos h, if_pos h]
      rfl
    · rw [if_neg h, if_neg h]
      rfl

/-- For an ASCII name the removal compares the stored names. -/
theorem editFirst_reads (h : Ascii name) {g : ℕ × Entry → List (ℕ × Entry)} :
    editFirst (fun x : ℕ × Entry => x.2.Reads name) g live =
      editFirst (fun x : ℕ × Entry => x.2.name = name) g live := by
  induction live with
  | nil => rfl
  | cons x live ih =>
    rw [editFirst, editFirst, ih]
    exact if_congr (Entry.reads_iff h x.2) rfl rfl

theorem editFirst_of_mem {x : ℕ × Entry} {g : ℕ × Entry → List (ℕ × Entry)} (hx : x ∈ live)
    (he : x.2.name = name) :
    ∃ l, editFirst (fun x : ℕ × Entry => x.2.name = name) g live = some l := by
  cases exists_first (p := fun x : ℕ × Entry => x.2.name = name) live with
  | inl hno => exact absurd he (hno x hx)
  | inr hex =>
    obtain ⟨xs, a, ys, rfl, hxs, ha⟩ := hex
    exact ⟨_, editFirst_split hxs ha⟩

end Lists

/-! ## What the bytes decide -/

/-- Two chains over the same bytes are the same. -/
theorem Records.unique {b : Bytes} {stop : ℕ} : ∀ {rs rs' : List Rec} {off : ℕ},
    Records b stop off rs → Records b stop off rs' → rs = rs' := by
  intro rs
  induction rs with
  | nil =>
    intro rs' off h h'
    cases rs' with
    | nil => rfl
    | cons r rs' =>
      have hstop := h'.stop_eq
      have hlen := h'.1.length_ge
      rw [chainLength_cons] at hstop
      simp only [Records] at h
      omega
  | cons r rs ih =>
    intro rs' off h h'
    cases rs' with
    | nil =>
      have hstop := h.stop_eq
      have hlen := h.1.length_ge
      rw [chainLength_cons] at hstop
      simp only [Records] at h'
      omega
    | cons r' rs' =>
      obtain ⟨-, ha, hrest⟩ := h
      obtain ⟨-, ha', hrest'⟩ := h'
      have hlen : r.length = r'.length := ha.length.symm.trans ha'.length
      have hnl : r.name.length = r'.name.length := ha.namlen.symm.trans ha'.namlen
      have hname : r.name = r'.name := by
        rw [← ha.name, ← ha'.name, hnl]
      have hr : r = r' := by
        cases r
        cases r'
        simp only [Rec.mk.injEq]
        exact ⟨ha.inode.symm.trans ha'.inode, hlen, hname⟩
      rw [← hlen] at hrest'
      rw [hr, ih hrest hrest']

theorem Chains.unique {body : Bytes} {blocks blocks' : List (List Rec)} (h : Chains body blocks)
    (h' : Chains body blocks') : blocks = blocks' := by
  have hl := h.length_eq
  have hl' := h'.length_eq
  have hlen : blocks.length = blocks'.length := by
    rw [hl] at hl'
    exact Nat.eq_of_mul_eq_mul_right (by decide) hl'
  refine List.ext_getElem hlen fun k hk hk' => ?_
  exact (h.chain k _ (List.getElem?_eq_getElem hk)).unique
    (h'.chain k _ (List.getElem?_eq_getElem hk'))

/-- The live records are read off the bytes. -/
theorem WellFormed.unique {body : Bytes} {live live' : List (ℕ × Entry)} (h : WellFormed body live)
    (h' : WellFormed body live') : live = live' := by
  obtain ⟨blocks, hc, -, rfl, -⟩ := h
  obtain ⟨blocks', hc', -, rfl, -⟩ := h'
  rw [hc.unique hc']

/-! ## Editing one block -/

theorem liveAt_shift : ∀ (rs : List Rec) (off d : ℕ),
    liveAt (d + off) rs = (liveAt off rs).map fun x => (d + x.1, x.2) := by
  intro rs
  induction rs with
  | nil => exact fun _ _ => rfl
  | cons r rs ih =>
    intro off d
    by_cases h : r.inode = 0
    · rw [liveAt_cons_dead h, liveAt_cons_dead h, Nat.add_assoc, ih]
    · rw [liveAt_cons_live h, liveAt_cons_live h, Nat.add_assoc, ih, List.map_cons]

/-- A live record lies in its chain. -/
theorem Records.live_within {b : Bytes} {stop : ℕ} : ∀ {rs : List Rec} {off : ℕ},
    Records b stop off rs → ∀ x ∈ liveAt off rs, off ≤ x.1 ∧ x.1 < stop := by
  intro rs
  induction rs with
  | nil => exact fun _ x hx => absurd hx List.not_mem_nil
  | cons r rs ih =>
    intro off h x hx
    have hlen := h.1.length_ge
    have hstop := h.stop_eq
    rw [chainLength_cons] at hstop
    rw [liveAt, List.mem_append] at hx
    cases hx with
    | inl hx =>
      split_ifs at hx with h0
      · exact absurd hx List.not_mem_nil
      · obtain rfl := List.mem_singleton.mp hx
        exact ⟨le_rfl, by dsimp only; omega⟩
    | inr hx =>
      have hin := ih h.2.2 x hx
      exact ⟨by omega, hin.2⟩

section Edit
variable {body b' : Bytes} {blocks : List (List Rec)} {k : ℕ} {rs rs' : List Rec} {name : Str}

/-- The block of a live record is that of its offset. -/
theorem Chains.live_block (h : Chains body blocks) {x : ℕ × Entry}
    (hx : x ∈ liveAt 0 blocks.flatten) :
    ∃ rs, blocks[x.1 / ufsDirblksiz]? = some rs ∧
      x ∈ liveAt (x.1 / ufsDirblksiz * ufsDirblksiz) rs := by
  have hfind : ∀ k ≤ blocks.length, x ∈ liveAt 0 (blocks.take k).flatten →
      ∃ j rs, blocks[j]? = some rs ∧ x ∈ liveAt (j * ufsDirblksiz) rs := by
    intro k
    induction k with
    | zero => exact fun _ hx => absurd hx List.not_mem_nil
    | succ k ih =>
      intro hk hx
      have hb : blocks[k]? = some blocks[k] := List.getElem?_eq_getElem hk
      rw [List.take_add_one, hb, Option.toList_some, List.flatten_append, List.flatten_singleton,
        liveAt_append, h.take_length k (by omega), Nat.zero_add, List.mem_append] at hx
      cases hx with
      | inl hx => exact ih (by omega) hx
      | inr hx => exact ⟨k, _, hb, hx⟩
  obtain ⟨j, rs, hj, hxj⟩ := hfind blocks.length le_rfl (by rwa [List.take_length])
  have hin := (h.chain j rs hj).live_within x hxj
  have hdiv : x.1 / ufsDirblksiz = j := by
    simp only [ufsDirblksiz] at hin ⊢
    omega
  rw [hdiv]
  exact ⟨rs, hj, hxj⟩

/-- An edit of the record of one name in its block, seen in the directory. -/
theorem Chains.editBlock {g : ℕ × Entry → List (ℕ × Entry)} (h : Chains body blocks)
    (hn : ((liveAt 0 blocks.flatten).map fun x => x.2.name).Nodup)
    (hg : ∀ x : ℕ × Entry, x.2.name ≠ name → g x = [x])
    (hs : ∀ d, ∀ x : ℕ × Entry, g (d + x.1, x.2) = (g x).map fun y => (d + y.1, y.2))
    (hk : blocks[k]? = some rs) (hex : ∃ x ∈ liveAt (k * ufsDirblksiz) rs, x.2.name = name)
    (hb : Block b' rs') (he : liveAt 0 rs' = (liveAt 0 rs).flatMap g) :
    Chains (body.overlay (k * ufsDirblksiz) b') (blocks.set k rs') ∧
      liveAt 0 (blocks.set k rs').flatten = (liveAt 0 blocks.flatten).flatMap g := by
  refine ⟨h.putBlock hk hb, ?_⟩
  have hsplit := liveAt_flatten_split h hk
  have hstop := hb.chain.stop_eq
  have hend : k * ufsDirblksiz + chainLength rs' = (k + 1) * ufsDirblksiz := by
    rw [Nat.succ_mul, hstop, Nat.zero_add]
  have hset := liveAt_flatten_set h (List.getElem?_eq_some_iff.mp hk).1 hend
  have hmid : liveAt (k * ufsDirblksiz) rs' = (liveAt (k * ufsDirblksiz) rs).flatMap g := by
    rw [← Nat.add_zero (k * ufsDirblksiz), liveAt_shift, liveAt_shift, he, List.map_flatMap,
      List.flatMap_map]
    exact List.flatMap_congr fun x _ => (hs _ x).symm
  obtain ⟨a, ha, hname⟩ := hex
  rw [hsplit, List.map_append, List.map_append, List.nodup_append, List.nodup_append] at hn
  have hfront : ∀ x ∈ liveAt 0 (blocks.take k).flatten, x.2.name ≠ name := fun x hx hxn =>
    hn.1.2.2 _ (List.mem_map.mpr ⟨x, hx, rfl⟩) _ (List.mem_map.mpr ⟨a, ha, rfl⟩) (hxn.trans hname.symm)
  have hback : ∀ x ∈ liveAt ((k + 1) * ufsDirblksiz) (blocks.drop (k + 1)).flatten,
      x.2.name ≠ name := fun x hx hxn =>
    hn.2.2 _ (List.mem_append_right _ (List.mem_map.mpr ⟨a, ha, rfl⟩)) _
      (List.mem_map.mpr ⟨x, hx, rfl⟩) (hname.trans hxn.symm)
  have hkeep : ∀ l : List (ℕ × Entry), (∀ x ∈ l, x.2.name ≠ name) → l.flatMap g = l := by
    intro l hl
    rw [List.flatMap_congr fun x hx => hg x (hl x hx)]
    exact List.flatMap_singleton' l
  rw [hset, hsplit, List.flatMap_append, List.flatMap_append, hkeep _ hfront, hkeep _ hback, hmid]

end Edit

/-! ## The three operations -/
namespace WellFormed
variable {body body' : Bytes} {live : List (ℕ × Entry)} {name : Str} {ino : ℕ} {x : ℕ × Entry}

/-- An absent name is inserted among the live records, in the directory or in a block behind it. -/
theorem insert (h : WellFormed body live) (hle : name.length ≤ 255) (h0 : ino ≠ 0)
    (h32 : ino < 2 ^ 32) (hfresh : ∀ x ∈ live, x.2.name ≠ name) :
    ∃ body' live' off, insertEntry body body.length ino name = .ok body' ∧ WellFormed body' live' ∧
      Inserted live (off, ⟨name, ino⟩) live' ∧
      (body'.length = body.length ∨ body'.length = body.length + ufsDirblksiz) := by
  obtain ⟨blocks, hc, hne, rfl, hn⟩ := h
  have hfits : ufsDirsiz name.length ≤ ufsDirblksiz := by
    simp only [ufsDirsiz, ufsDirentHeaderSize, ufsDirblksiz]
    omega
  cases insertEntry_eq hc hne name h0 h32 with
  | inl hlong => exact absurd hfits (not_le.mpr hlong.1)
  | inr hok =>
    obtain ⟨-, body', he, hput⟩ := hok
    have hlen : body'.length = body.length ∨ body'.length = body.length + ufsDirblksiz := by
      cases hput with
      | inl hin =>
        obtain ⟨k, hin⟩ := hin
        exact .inl hin.same.length_eq
      | inr hbehind => exact .inr hbehind.length_eq
    have henters : Enters body' blocks ⟨name, ino⟩ := by
      cases hput with
      | inl hin =>
        obtain ⟨k, hin⟩ := hin
        exact hin.enters hle
      | inr hbehind => exact hbehind.enters hle
    obtain ⟨blocks', off, hc', hins⟩ := henters
    have hpos := List.length_pos_of_ne_nil hne
    have hne' : blocks' ≠ [] := by
      have hcl := hc.length_eq
      have hcl' := hc'.length_eq
      rw [← List.length_pos_iff]
      simp only [ufsDirblksiz] at hcl hcl' hlen
      omega
    refine ⟨body', _, off, he, ⟨blocks', hc', hne', rfl, ?_⟩, hins, hlen⟩
    obtain ⟨us, vs, hold, hnew⟩ := hins
    rw [hold] at hn hfresh
    rw [hnew, List.map_append, List.map_cons, List.nodup_middle, List.nodup_cons, ← List.map_append]
    refine ⟨fun hmem => ?_, hn⟩
    obtain ⟨y, hy, hyn⟩ := List.mem_map.mp hmem
    exact hfresh y hy hyn

/-- The block of a live name, and the record in it. -/
theorem block_of (h : WellFormed body live) (hx : x ∈ live) :
    ∃ blocks rs, Chains body blocks ∧ live = liveAt 0 blocks.flatten ∧
      blocks[x.1 / ufsDirblksiz]? = some rs ∧
      Block (body.slice (x.1 / ufsDirblksiz * ufsDirblksiz) ufsDirblksiz) rs ∧
      x ∈ liveAt (x.1 / ufsDirblksiz * ufsDirblksiz) rs ∧
      ∃ y ∈ liveAt 0 rs, (x.1 / ufsDirblksiz * ufsDirblksiz + y.1, y.2) = x := by
  obtain ⟨blocks, hc, -, rfl, -⟩ := h
  obtain ⟨rs, hk, hxk⟩ := hc.live_block hx
  refine ⟨blocks, rs, hc, rfl, hk, hc.block hk, hxk, ?_⟩
  rw [← Nat.add_zero (x.1 / ufsDirblksiz * ufsDirblksiz), liveAt_shift] at hxk
  exact List.mem_map.mp hxk

/-- The names of one block are distinct. -/
theorem block_nodup {blocks : List (List Rec)} {k : ℕ} {rs : List Rec} (hc : Chains body blocks)
    (hn : ((liveAt 0 blocks.flatten).map fun x => x.2.name).Nodup) (hk : blocks[k]? = some rs) :
    ((liveAt 0 rs).map fun x => x.2.name).Nodup := by
  rw [liveAt_flatten_split hc hk, List.map_append, List.map_append, List.nodup_append,
    List.nodup_append] at hn
  have hmid := hn.1.2.1
  rw [← Nat.add_zero (k * ufsDirblksiz), liveAt_shift, List.map_map] at hmid
  exact hmid

/-- A block is a directory of its own. -/
theorem of_block {b : Bytes} {rs : List Rec} (h : Block b rs)
    (hn : ((liveAt 0 rs).map fun x => x.2.name).Nodup) : WellFormed b (liveAt 0 rs) := by
  exact ⟨[rs], h.chains, List.cons_ne_nil _ _, by rw [List.flatten_singleton], hn⟩

/-- Removing a live name leaves the other live records. -/
theorem remove (h : WellFormed body live) (ha : Ascii name) (hx : x ∈ live)
    (hname : x.2.name = name) :
    ∃ b', removeEntry (body.slice (x.1 / ufsDirblksiz * ufsDirblksiz) ufsDirblksiz) ufsDirblksiz name =
        .ok (some b') ∧ (∃ live₁, WellFormed b' live₁) ∧
      WellFormed (body.overlay (x.1 / ufsDirblksiz * ufsDirblksiz) b')
        (live.filter fun y => y.2.name ≠ name) := by
  obtain ⟨blocks, rs, hc, rfl, hk, hblock, hxk, y, hy, hyx⟩ := h.block_of hx
  obtain ⟨blocks₁, hc₁, hne, -, hn⟩ := h
  obtain rfl := hc₁.unique hc
  have hr := removeEntry_live hblock name
  rw [editFirst_reads ha] at hr
  have hnb := block_nodup hc hn hk
  obtain ⟨live₁, he⟩ := editFirst_of_mem (g := fun _ => []) hy
    ((congrArg (fun z => z.2.name) hyx).trans hname)
  rw [he] at hr
  obtain ⟨b', rs', hrun, hblock', hlive', -⟩ := hr
  rw [editFirst_nodup hnb he] at hlive'
  obtain ⟨hc', hall⟩ := hc.editBlock hn (fun _ (h : _ ≠ name) => if_neg h) (fun d x => by
    split_ifs <;> rfl) hk ⟨x, hxk, hname⟩ hblock' hlive'
  rw [flatMap_drop] at hlive' hall
  have hone : WellFormed b' (liveAt 0 rs') := by
    refine of_block hblock' ?_
    rw [hlive']
    exact hnb.sublist (List.filter_sublist.map _)
  refine ⟨b', hrun, ⟨_, hone⟩, _, hc', ?_, hall.symm, hn.sublist (List.filter_sublist.map _)⟩
  rw [← List.length_pos_iff, List.length_set]
  exact List.length_pos_of_ne_nil hne

theorem renumber_names {l : List (ℕ × Entry)} :
    (l.map fun y => if y.2.name = name then (y.1, (⟨y.2.name, ino⟩ : Entry)) else y).map
      (fun y => y.2.name) = l.map fun y => y.2.name := by
  rw [List.map_map]
  refine List.map_congr_left fun y _ => ?_
  by_cases hy : y.2.name = name
  · simp only [Function.comp_apply, if_pos hy]
  · simp only [Function.comp_apply, if_neg hy]

/-- Rewriting a live name changes the four inode bytes of its record. -/
theorem rewrite (h : WellFormed body live) (ha : Ascii name) (hx : x ∈ live)
    (hname : x.2.name = name) (h0 : ino ≠ 0) (h32 : ino < 2 ^ 32) :
    ∃ b', rewriteEntryInode (body.slice (x.1 / ufsDirblksiz * ufsDirblksiz) ufsDirblksiz) ufsDirblksiz
        name ino = .ok (some b') ∧ (∃ live₁, WellFormed b' live₁) ∧
      body.overlay (x.1 / ufsDirblksiz * ufsDirblksiz) b' = body.overlay x.1 (Bytes.le 4 ino) ∧
      WellFormed (body.overlay (x.1 / ufsDirblksiz * ufsDirblksiz) b')
        (live.map fun y => if y.2.name = name then (y.1, ⟨y.2.name, ino⟩) else y) := by
  obtain ⟨blocks, rs, hc, rfl, hk, hblock, hxk, y, hy, hyx⟩ := h.block_of hx
  obtain ⟨blocks₁, hc₁, hne, -, hn⟩ := h
  obtain rfl := hc₁.unique hc
  have hr := rewriteEntryInode_live hblock name h0 h32
  rw [editFirst_reads ha] at hr
  have hnb := block_nodup hc hn hk
  have hyname : y.2.name = name := (congrArg (fun z => z.2.name) hyx).trans hname
  obtain ⟨live₁, he⟩ := editFirst_of_mem
    (g := fun x => [(x.1, (⟨x.2.name, ino⟩ : Entry))]) hy hyname
  rw [he] at hr
  obtain ⟨off, rs', hoff, hrun, ⟨z, hz, hzname, rfl⟩, hblock', hlive'⟩ := hr
  rw [editFirst_nodup hnb he] at hlive'
  have hzy : z = y := List.inj_on_of_nodup_map hnb hz hy
    (((Entry.reads_iff ha _).mp hzname).trans hyname.symm)
  obtain ⟨hc', hall⟩ := hc.editBlock hn (fun _ (h : _ ≠ name) => if_neg h) (fun d x => by
    split_ifs <;> rfl) hk ⟨x, hxk, hname⟩ hblock' hlive'
  rw [flatMap_renumber] at hlive' hall
  have hnb' : ((liveAt 0 rs').map fun x => x.2.name).Nodup := by
    rw [hlive', renumber_names]
    exact hnb
  have hend := hc.end_le hk
  rw [Nat.succ_mul] at hend
  have hslice : (body.slice (x.1 / ufsDirblksiz * ufsDirblksiz) ufsDirblksiz).length = ufsDirblksiz :=
    Bytes.slice_length hend
  refine ⟨_, hrun, ⟨_, of_block hblock' hnb'⟩, ?_, _, hc', ?_, hall.symm, ?_⟩
  · have hx1 : x.1 / ufsDirblksiz * ufsDirblksiz + z.1 = x.1 := by
      rw [hzy]
      exact congrArg Prod.fst hyx
    rw [Bytes.overlay_slice_overlay hend (by rw [Bytes.le_length, ← hslice]; exact hoff), hx1]
  · rw [← List.length_pos_iff, List.length_set]
    exact List.length_pos_of_ne_nil hne
  · rw [renumber_names]
    exact hn

end WellFormed

/-! ## Any order of edits -/

/-- One edit of directory bytes: a new name, or one block edited by a removal or a rewrite and put
back. -/
inductive DirectoryEdit : Bytes → Bytes → Prop where
  | insert {body body' : Bytes} {name : Str} {ino : ℕ} (le : name.length ≤ 255) (inode_ne : ino ≠ 0)
      (inode_lt : ino < 2 ^ 32)
      (fresh : ∀ live, WellFormed body live → ∀ x ∈ live, x.2.name ≠ name)
      (run : insertEntry body body.length ino name = .ok body') : DirectoryEdit body body'
  | remove {body b' : Bytes} {name : Str} {k : ℕ} (ascii : Ascii name)
      (inside : (k + 1) * ufsDirblksiz ≤ body.length)
      (run : removeEntry (body.slice (k * ufsDirblksiz) ufsDirblksiz) ufsDirblksiz name =
        .ok (some b')) : DirectoryEdit body (body.overlay (k * ufsDirblksiz) b')
  | rewrite {body b' : Bytes} {name : Str} {k ino : ℕ} (ascii : Ascii name) (inode_ne : ino ≠ 0)
      (inode_lt : ino < 2 ^ 32) (inside : (k + 1) * ufsDirblksiz ≤ body.length)
      (run : rewriteEntryInode (body.slice (k * ufsDirblksiz) ufsDirblksiz) ufsDirblksiz name ino =
        .ok (some b')) : DirectoryEdit body (body.overlay (k * ufsDirblksiz) b')

section Runs
variable {body body' b' : Bytes} {live : List (ℕ × Entry)} {name : Str} {k ino : ℕ}

/-- A block that an edit changed holds the name. -/
theorem WellFormed.live_in_block {g : ℕ × Entry → List (ℕ × Entry)} {live₁ : List (ℕ × Entry)}
    {blocks : List (List Rec)} {rs : List Rec} (hc : Chains body blocks) (hk : blocks[k]? = some rs)
    (he : editFirst (fun x : ℕ × Entry => x.2.name = name) g (liveAt 0 rs) = some live₁) :
    ∃ x ∈ liveAt 0 blocks.flatten, x.1 / ufsDirblksiz = k ∧ x.2.name = name := by
  cases exists_first (p := fun x : ℕ × Entry => x.2.name = name) (liveAt 0 rs) with
  | inl hno =>
    rw [editFirst_of_not hno] at he
    cases he
  | inr hex =>
    obtain ⟨xs, a, ys, hl, -, ha⟩ := hex
    have hmem : (k * ufsDirblksiz + a.1, a.2) ∈ liveAt (k * ufsDirblksiz) rs := by
      rw [← Nat.add_zero (k * ufsDirblksiz), liveAt_shift, Nat.add_zero, hl]
      exact List.mem_map.mpr ⟨a, List.mem_append_right _ (List.mem_cons_self ..), rfl⟩
    have hin := (hc.chain k rs hk).live_within _ hmem
    refine ⟨(k * ufsDirblksiz + a.1, a.2), ?_, ?_, ha⟩
    · rw [liveAt_flatten_split hc hk]
      exact List.mem_append_left _ (List.mem_append_right _ hmem)
    · simp only [ufsDirblksiz] at hin ⊢
      omega

/-- One edit keeps a directory well formed. -/
theorem DirectoryEdit.wellFormed (h : DirectoryEdit body body') (hw : WellFormed body live) :
    ∃ live', WellFormed body' live' := by
  have hblock : ∀ {body : Bytes} {blocks : List (List Rec)} {k : ℕ}, Chains body blocks →
      (k + 1) * ufsDirblksiz ≤ body.length → ∃ rs, blocks[k]? = some rs := by
    intro body blocks k hc hin
    have hl := hc.length_eq
    have hk : k < blocks.length := by
      simp only [ufsDirblksiz] at hin hl
      omega
    exact ⟨_, List.getElem?_eq_getElem hk⟩
  cases h with
  | insert le inode_ne inode_lt fresh run =>
    obtain ⟨body₁, live', off, he, hw', -⟩ := hw.insert le inode_ne inode_lt (fresh live hw)
    rw [he] at run
    exact ⟨live', Outcome.ok.inj run ▸ hw'⟩
  | @remove b' name k ascii inside run =>
    obtain ⟨blocks, hc, -, rfl, -⟩ := id hw
    obtain ⟨rs, hk⟩ := hblock hc inside
    have hr := removeEntry_live (hc.block hk) name
    rw [editFirst_reads ascii] at hr
    cases he : editFirst (fun x : ℕ × Entry => x.2.name = name) (fun _ => []) (liveAt 0 rs) with
    | none =>
      rw [he, run] at hr
      cases hr
    | some live₁ =>
      obtain ⟨x, hx, rfl, hxn⟩ := WellFormed.live_in_block hc hk he
      obtain ⟨b₁, hrun, -, hw'⟩ := hw.remove ascii hx hxn
      rw [hrun] at run
      exact ⟨_, Option.some.inj (Outcome.ok.inj run) ▸ hw'⟩
  | @rewrite b' name k ino ascii inode_ne inode_lt inside run =>
    obtain ⟨blocks, hc, -, rfl, -⟩ := id hw
    obtain ⟨rs, hk⟩ := hblock hc inside
    have hr := rewriteEntryInode_live (hc.block hk) name inode_ne inode_lt
    rw [editFirst_reads ascii] at hr
    cases he : editFirst (fun x : ℕ × Entry => x.2.name = name)
        (fun x => [(x.1, (⟨x.2.name, ino⟩ : Entry))]) (liveAt 0 rs) with
    | none =>
      rw [he, run] at hr
      cases hr
    | some live₁ =>
      obtain ⟨x, hx, rfl, hxn⟩ := WellFormed.live_in_block hc hk he
      obtain ⟨b₁, hrun, -, -, hw'⟩ := hw.rewrite ascii hx hxn inode_ne inode_lt
      rw [hrun] at run
      exact ⟨_, Option.some.inj (Outcome.ok.inj run) ▸ hw'⟩

/-- Any sequence of edits keeps a directory well formed. -/
theorem WellFormed.run (hw : ∃ live, WellFormed body live)
    (h : Relation.ReflTransGen DirectoryEdit body body') : ∃ live', WellFormed body' live' := by
  induction h with
  | refl => exact hw
  | tail _ hstep ih =>
    obtain ⟨live', hw'⟩ := ih
    exact hstep.wellFormed hw'

/-- What the three operations do to a well-formed directory, and any sequence of them. -/
theorem directory_wellFormed (hw : WellFormed body live) (ascii : Ascii name)
    (le : name.length ≤ 255) (inode_ne : ino ≠ 0) (inode_lt : ino < 2 ^ 32) :
    ((∀ x ∈ live, x.2.name ≠ name) →
      ∃ body' live' off, insertEntry body body.length ino name = .ok body' ∧ WellFormed body' live' ∧
        Inserted live (off, ⟨name, ino⟩) live' ∧
        (body'.length = body.length ∨ body'.length = body.length + ufsDirblksiz)) ∧
    (∀ x ∈ live, x.2.name = name →
      (∃ b', removeEntry (body.slice (x.1 / ufsDirblksiz * ufsDirblksiz) ufsDirblksiz) ufsDirblksiz
          name = .ok (some b') ∧ (∃ live₁, WellFormed b' live₁) ∧
        WellFormed (body.overlay (x.1 / ufsDirblksiz * ufsDirblksiz) b')
          (live.filter fun y => y.2.name ≠ name)) ∧
      ∃ b', rewriteEntryInode (body.slice (x.1 / ufsDirblksiz * ufsDirblksiz) ufsDirblksiz)
          ufsDirblksiz name ino = .ok (some b') ∧ (∃ live₁, WellFormed b' live₁) ∧
        body.overlay (x.1 / ufsDirblksiz * ufsDirblksiz) b' = body.overlay x.1 (Bytes.le 4 ino) ∧
        WellFormed (body.overlay (x.1 / ufsDirblksiz * ufsDirblksiz) b')
          (live.map fun y => if y.2.name = name then (y.1, ⟨y.2.name, ino⟩) else y)) ∧
    ∀ body', Relation.ReflTransGen DirectoryEdit body body' → ∃ live', WellFormed body' live' :=
  ⟨hw.insert le inode_ne inode_lt,
    fun _ hx hname => ⟨hw.remove ascii hx hname, hw.rewrite ascii hx hname inode_ne inode_lt⟩,
    fun _ h => WellFormed.run ⟨live, hw⟩ h⟩

/-- The block of a root directory. -/
def rootBlock : Bytes :=
  Bytes.le 4 2 ++ Bytes.le 2 12 ++ Bytes.le 2 1 ++ [46, 0, 0, 0] ++
    (Bytes.le 4 2 ++ Bytes.le 2 500 ++ Bytes.le 2 2 ++ [46, 46] ++ Bytes.zeros 490)

theorem rootBlock_wellFormed :
    WellFormed rootBlock [(0, ⟨[46], 2⟩), (12, ⟨[46, 46], 2⟩)] := by
  have hb : Block rootBlock [⟨2, 12, [46]⟩, ⟨2, 500, [46, 46]⟩] := by
    refine ⟨by decide +kernel, ⟨by decide, by decide, by decide, by decide⟩, ?_,
      ⟨by decide, by decide, by decide, by decide⟩, ?_, rfl⟩
    · exact ⟨by decide +kernel, by decide +kernel, by decide +kernel, by decide +kernel⟩
    · exact ⟨by decide +kernel, by decide +kernel, by decide +kernel, by decide +kernel⟩
  exact WellFormed.of_block hb (by decide)

theorem directory_wellFormed_root :
    (∃ body' live' off, insertEntry rootBlock rootBlock.length 3 [97] = .ok body' ∧
      WellFormed body' live' ∧
      Inserted [(0, ⟨[46], 2⟩), (12, ⟨[46, 46], 2⟩)] (off, ⟨[97], 3⟩) live' ∧
      (body'.length = rootBlock.length ∨ body'.length = rootBlock.length + ufsDirblksiz)) ∧
    ∃ b', removeEntry (rootBlock.slice 0 ufsDirblksiz) ufsDirblksiz [46, 46] = .ok (some b') ∧
      (∃ live₁, WellFormed b' live₁) ∧
      WellFormed (rootBlock.overlay 0 b') [(0, ⟨[46], 2⟩)] := by
  constructor
  · exact (directory_wellFormed rootBlock_wellFormed (by decide) (by decide) (by decide)
      (by decide)).1 (by decide)
  · exact ((@directory_wellFormed _ _ _ 3 rootBlock_wellFormed (by decide) (by decide) (by decide)
      (by decide)).2.1 (12, ⟨[46, 46], 2⟩) (by decide) rfl).1

end Runs
end UfsFuse
