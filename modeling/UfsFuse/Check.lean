import UfsFuse.Reader

/-!
# The consistency checker

`check.rs`: four passes over an image, one entry for each problem found. Problems carry what
their messages print.
-/
namespace UfsFuse

inductive Problem where
  | unreadable (inode : ℕ)
  | blockCount (inode blocks allocations : ℕ)
  | outOfRange (inode frag : ℕ)
  | doubleReference (frag first second : ℕ)
  | diBlocks (inode stored expected size : ℕ)
  | usedButFree (frag cg owner : ℕ)
  | leak (frag cg : ℕ)
  | dotElsewhere (directory child : ℕ)
  | entryToUnused (directory : ℕ) (name : Str) (child : ℕ)
  | missingDot (directory : ℕ)
  | missingDotdot (directory : ℕ)
  | orphan (inode : ℕ)
  | nlink (inode stored refs : ℕ)
  | cstotal (field : ℕ) (stored : ℤ) (sum : ℕ)
  deriving DecidableEq, Repr

/-- The `owner` map, newest entry first, and the problems so far. -/
structure Claims where
  owner : List (ℕ × ℕ)
  problems : List Problem

/-- Claim one fragment for `inode`. -/
def claimFragment (totalFrags inode : ℕ) (c : Claims) (frag : ℕ) : Claims :=
  if frag ≥ totalFrags then { c with problems := c.problems ++ [.outOfRange inode frag] }
  else
    match c.owner.lookup frag with
    | some other => { c with problems := c.problems ++ [.doubleReference frag other inode] }
    | none => { c with owner := (frag, inode) :: c.owner }

/-- Claim `count` fragments from `start` on. -/
def claimRun (totalFrags inode : ℕ) (c : Claims) (start count : ℕ) : Claims :=
  ((List.range count).map (start + ·)).foldl (claimFragment totalFrags inode) c

/-- What pass 1 accumulates. -/
structure PassOne where
  claims : Claims
  usedInodes : List ℕ

/-- Pass 1 for one used, readable inode. -/
def checkInode (image : Bytes) (ufs : Ufs) (ino : ℕ) (inode : Inode) (c : Claims) :
    Outcome Fault Claims := do
  let sb := ufs.sb
  let dataBlocks ← inodeDataBlocks image ufs inode
  let alloc := sb.allocationByteSizes inode.size
  let c := if dataBlocks.length ≠ alloc.length then
    { c with problems := c.problems ++ [.blockCount ino dataBlocks.length alloc.length] } else c
  let runs := dataBlocks.zipIdx.map fun b => (b.1, alloc.getD b.2 sb.bsize / sb.fsize)
  let c := runs.foldl (fun c run => claimRun sb.dsize ino c run.1 run.2) c
  let pointers ← inodePointerBlocks image ufs inode
  let c := pointers.foldl (fun c pointer => claimRun sb.dsize ino c pointer sb.frag) c
  let frags := (runs.map Prod.snd).sum + pointers.length * sb.frag
  let expectedSectors := frags * (sb.fsize / sectorSize)
  if inode.blocks ≠ expectedSectors then
    pure { c with problems := c.problems ++ [.diBlocks ino inode.blocks expectedSectors inode.size] }
  else pure c

/-- Pass 1 for inode number `local` of group `cg`. -/
def passOneStep (image : Bytes) (ufs : Ufs) (cgBytes : Bytes) (cg : ℕ) (acc : PassOne) (localInode : ℕ) :
    Outcome Fault PassOne := do
  let ino := cg * ufs.sb.ipg + localInode
  if cg = 0 ∧ ino < ufsRootInode then pure acc
  else if ¬(← isInodeUsed cgBytes localInode) then pure acc
  else
    match readInode image ufs ino with
    | none =>
      let c := acc.claims
      pure { acc with claims := { c with problems := c.problems ++ [.unreadable ino] } }
    | some inode => do
      let claims ← checkInode image ufs ino inode acc.claims
      pure { claims, usedInodes := acc.usedInodes ++ [ino] }

def passOne (image : Bytes) (ufs : Ufs) (cgs : List Bytes) : Outcome Fault PassOne :=
  Outcome.foldM
    (fun acc (group : Bytes × ℕ) =>
      Outcome.foldM (passOneStep image ufs group.1 group.2) acc (List.range ufs.sb.ipg))
    ⟨⟨[], []⟩, []⟩ cgs.zipIdx

/-- Pass 2 for one fragment of the data area of group `cg`. -/
def passTwoStep (ufs : Ufs) (owner : List (ℕ × ℕ)) (cgBytes : Bytes) (cg : ℕ) (problems : List Problem)
    (localFrag : ℕ) : Outcome Fault (List Problem) := do
  let absFrag := ufs.sb.cgbase cg + localFrag
  let markedFree ← isFragFree cgBytes localFrag
  match owner.lookup absFrag with
  | some ino => pure (if markedFree then problems ++ [.usedButFree absFrag cg ino] else problems)
  | none => pure (if markedFree then problems else problems ++ [.leak absFrag cg])

def passTwo (ufs : Ufs) (owner : List (ℕ × ℕ)) (cgs : List Bytes) : Outcome Fault (List Problem) :=
  Outcome.foldM
    (fun problems (group : Bytes × ℕ) =>
      let cgNdblk := group.1.u32 CgOff.ndblk
      let dataStart := ufs.sb.cgdmin group.2 - ufs.sb.cgbase group.2
      Outcome.foldM (passTwoStep ufs owner group.1 group.2) problems
        ((List.range (cgNdblk - dataStart)).map (dataStart + ·)))
    [] cgs.zipIdx

/-- Pass 3 on the entries of one directory: the children referenced, and the problems. -/
def checkEntries (usedInodes : List ℕ) (ino : ℕ) (entries : List DirListEntry) :
    List ℕ × List Problem :=
  let problemOf (e : DirListEntry) : List Problem :=
    if e.name = dotEntry then (if e.inode ≠ ino then [.dotElsewhere ino e.inode] else [])
    else if e.name = dotdotEntry then []
    else if usedInodes.contains e.inode then [] else [.entryToUnused ino e.name e.inode]
  (entries.map (·.inode),
    entries.flatMap problemOf ++
      (if entries.any (·.name == dotEntry) then [] else [.missingDot ino]) ++
      (if entries.any (·.name == dotdotEntry) then [] else [.missingDotdot ino]))
where
  dotEntry : Str := [46]
  dotdotEntry : Str := [46, 46]

/-- The directory half of pass 3: every referenced inode number, once for each record. -/
def passThreeDirs (image : Bytes) (ufs : Ufs) (usedInodes : List ℕ) :
    Outcome Fault (List ℕ × List Problem) :=
  Outcome.foldM
    (fun (acc : List ℕ × List Problem) ino =>
      match readInode image ufs ino with
      | none => .ok acc
      | some inode =>
        if ¬inode.isDirectory then .ok acc
        else do
          let entries ← iterDirectoryEntries image ufs inode
          let found := checkEntries usedInodes ino entries
          pure (acc.1 ++ found.1, acc.2 ++ found.2))
    ([], []) usedInodes

/-- The link-count half of pass 3. -/
def passThreeLinks (image : Bytes) (ufs : Ufs) (usedInodes refs : List ℕ) : List Problem :=
  usedInodes.flatMap fun ino =>
    match readInode image ufs ino with
    | none => []
    | some inode =>
      let count := refs.count ino
      (if ino ≠ ufsRootInode ∧ count = 0 then [.orphan ino] else []) ++
        (if count ≠ inode.nlink then [.nlink ino inode.nlink count] else [])

/-- Pass 4: `cstotal` against the sums over the groups. -/
def passFour (image : Bytes) (ufs : Ufs) (cgs : List Bytes) : List Problem :=
  [(CgOff.ndir, FsOff.cstotalNdir), (CgOff.nbfree, FsOff.cstotalNbfree),
    (CgOff.nifree, FsOff.cstotalNifree), (CgOff.nffree, FsOff.cstotalNffree)].flatMap fun field =>
    let sum := (cgs.map (·.u32 field.1)).sum
    let stored := image.i32 (ufs.superOffset + field.2)
    if stored ≠ sum then [.cstotal field.2 stored sum] else []

/-- Run all consistency checks; the empty list means clean. -/
def checkFilesystem (image : Bytes) (ufs : Ufs) : Outcome Fault (List Problem) := do
  let cgs ← Outcome.foldM
    (fun cgs cg => do
      let cgBytes ← readCgBlock image ufs cg
      pure (cgs ++ [cgBytes]))
    [] (List.range ufs.sb.ncg)
  let one ← passOne image ufs cgs
  let two ← passTwo ufs one.claims.owner cgs
  let (refs, three) ← passThreeDirs image ufs one.usedInodes
  pure (one.claims.problems ++ two ++ three ++ passThreeLinks image ufs one.usedInodes refs ++
    passFour image ufs cgs)

end UfsFuse
