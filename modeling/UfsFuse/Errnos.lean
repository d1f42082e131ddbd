import UfsFuse.Daemon
import Mathlib.Data.List.Infix

/-!
# The errno in a message

`errno_from` looks for phrases in the message of a failed operation, which quotes the name it failed
on.
-/
namespace UfsFuse

/-! ## Phrases in a text -/

section Phrases
variable {α : Type}

/-- A phrase without the mark does not go across one. -/
theorem infix_mark {x : α} {phrase a b : List α} (h : x ∉ phrase) :
    phrase <:+: a ++ x :: b ↔ phrase <:+: a ∨ phrase <:+: b := by
  constructor
  · rintro ⟨s, t, heq⟩
    rw [List.append_assoc] at heq
    rcases List.append_eq_append_iff.mp heq with ⟨c, rfl, hc⟩ | ⟨c, rfl, hc⟩
    · rcases List.append_eq_append_iff.mp hc with ⟨d, rfl, -⟩ | ⟨d, rfl, hd⟩
      · exact .inl ⟨s, d, List.append_assoc _ _ _⟩
      · cases d with
        | nil => exact .inl ⟨s, [], by simp⟩
        | cons y d =>
          obtain ⟨rfl, -⟩ := List.cons.inj hd
          simp at h
    · cases c with
      | nil =>
        cases phrase with
        | nil => exact .inl (List.nil_infix)
        | cons y phrase =>
          obtain ⟨rfl, -⟩ := List.cons.inj hc
          simp at h
      | cons y c =>
        obtain ⟨-, rfl⟩ := List.cons.inj hc
        exact .inr ⟨c, t, List.append_assoc _ _ _⟩
  · rintro (h | h)
    · exact List.infix_append_of_infix_left h
    · exact List.infix_append_of_infix_right (List.infix_cons h)

/-- A quoted text inside others. -/
theorem infix_quoted {x : α} {phrase a s b : List α} (h : x ∉ phrase) :
    phrase <:+: a ++ x :: (s ++ x :: b) ↔ phrase <:+: a ∨ phrase <:+: s ∨ phrase <:+: b := by
  rw [infix_mark h, infix_mark h]

end Phrases

/-! ## Messages -/

/-- The bytes of a literal. -/
def text (s : String) : Str := s.toUTF8.data.toList

/-- The digits of a number. -/
def digits (base n : ℕ) : Str := (Nat.toDigits base n).map fun c => c.toNat.toUInt8

/-- `char::escape_unicode` -/
def escapeUnicode (c : Char) : Str := text "\\u" ++ 123 :: digits 16 c.toNat ++ [125]

/-- `char::escape_debug` as in a quoted string; which characters beyond ASCII are escaped is up to
the Unicode tables. -/
def escapeDebug (escaped : Char → Bool) (c : Char) : Str :=
  if c.toNat = 0 then text "\\0"
  else if c.toNat = 9 then text "\\t"
  else if c.toNat = 10 then text "\\n"
  else if c.toNat = 13 then text "\\r"
  else if c.toNat = 34 then [92, 34]
  else if c.toNat = 92 then [92, 92]
  else if c.toNat < 0x20 ∨ c.toNat = 0x7F then escapeUnicode c
  else if 0x80 ≤ c.toNat ∧ escaped c then escapeUnicode c
  else String.utf8EncodeChar c

/-- The characters of a name. -/
def charsOf (name : Str) : List Char := ((ByteArray.utf8Decode? ⟨name.toArray⟩).getD #[]).toList

/-- What stands between the quotes of `{name:?}`. -/
def escapeName (escaped : Char → Bool) (name : Str) : Str :=
  (charsOf name).flatMap (escapeDebug escaped)

/-- `{name:?}` -/
def debugName (escaped : Char → Bool) (name : Str) : Str := 34 :: (escapeName escaped name ++ [34])

/-- What the message of a fault says. -/
def Fault.message (escaped : Char → Bool) : Fault → Str
  | noFreeInodes => text "error: no free UFS inodes remain for allocation"
  | invalidCgFreeingInode cg inode => text "error: invalid cylinder group " ++ digits 10 cg ++
      text " while freeing UFS inode " ++ digits 10 inode
  | inodeAlreadyFree inode => text "error: UFS inode " ++ digits 10 inode ++ text " is already free"
  | noFreeBlocks => text "error: no free UFS blocks remain for allocation"
  | invalidFragmentRequest bytes => text "error: invalid UFS fragment allocation request for " ++
      digits 10 bytes ++ text " bytes"
  | noFreeFragments => text "error: no free UFS fragments remain for allocation"
  | allocationNotPositive => text "error: UFS allocation size must be positive"
  | invalidCgFreeingBlock cg block => text "error: invalid cylinder group " ++ digits 10 cg ++
      text " while freeing UFS block " ++ digits 10 block
  | invalidCgFreeingAllocation cg block => text "error: invalid cylinder group " ++ digits 10 cg ++
      text " while freeing UFS allocation at block " ++ digits 10 block
  | invalidCgNormalizing cg => text "error: invalid cylinder group " ++ digits 10 cg ++
      text " while normalizing UFS metadata"
  | unreadableForReplacement inode => text "error: could not read inode " ++ digits 10 inode ++
      text " for replacement"
  | unreadableForWrite inode => text "error: could not read inode " ++ digits 10 inode ++
      text " for write"
  | noDirectorySlot name => text "no directory slot available for " ++ debugName escaped name
  | unresolvedParent path => text "error: could not resolve parent path " ++ path ++
      text " inside the ufs filesystem"
  | parentPathNotDirectory path => text "error: parent path " ++ path ++
      text " is not a UFS directory"
  | targetExists path => text "error: target path " ++ path ++
      text " already exists inside the ufs filesystem"
  | sourcePathMissing path => text "error: source path " ++ path ++
      text " does not exist inside the ufs filesystem"
  | hardLinkToDirectory path => text "error: refusing to create a hard link to directory " ++ path
  | entryToRemoveMissing name => text "error: could not find directory entry " ++
      debugName escaped name ++ text " to remove"
  | unlinkRoot => text "error: refusing to unlink the UFS root directory"
  | targetPathMissing path => text "error: target path " ++ path ++
      text " does not exist inside the ufs filesystem"
  | targetPathIsDirectory path => text "error: target path " ++ path ++
      text " is a directory; use rmdir instead"
  | removeRoot => text "error: refusing to remove the UFS root directory"
  | targetPathNotDirectory path => text "error: target path " ++ path ++ text " is not a directory"
  | targetPathNotEmpty path => text "error: target directory " ++ path ++ text " is not empty"
  | parentUnreadable inode => text "error: parent inode " ++ digits 10 inode ++ text " is unreadable"
  | parentNotDirectory => text "error: parent inode is not a UFS directory"
  | unsupportedSpecialType fileType => text "error: unsupported special file type 0o" ++
      digits 8 fileType
  | linkTargetUnreadable inode => text "error: link target inode " ++ digits 10 inode ++
      text " is unreadable"
  | hardLinkDirectory => text "error: refusing to hard-link a directory"
  | nameMissing name => text "error: " ++ debugName escaped name ++ text " does not exist"
  | nameIsDirectory name => text "error: " ++ debugName escaped name ++
      text " is a directory; use rmdir"
  | nameNotDirectory name => text "error: " ++ debugName escaped name ++ text " is not a directory"
  | nameNotEmpty name => text "error: directory " ++ debugName escaped name ++ text " is not empty"
  | dotdotMissing => text "error: could not find '..' to rewrite"
  | sourceParentUnreadable inode => text "error: source parent inode " ++ digits 10 inode ++
      text " is unreadable"
  | sourceNameMissing name => text "error: source " ++ debugName escaped name ++
      text " does not exist"
  | targetParentUnreadable inode => text "error: target parent inode " ++ digits 10 inode ++
      text " is unreadable"
  | crossTypeRename => text "error: cannot rename across file and directory types"
  | inodeUnreadable inode => text "error: inode " ++ digits 10 inode ++ text " is unreadable"
  | formatImageSize => text "error: UFS image size must be a positive multiple of 512 bytes"
  | formatBlockSize => text "error: UFS block size must be between 4096 and 8192 bytes"
  | formatBlockMultiple =>
      text "error: UFS block size must be a whole multiple of the fragment size"
  | formatGeometryTogether =>
      text "error: tracks_per_cylinder and sectors_per_track must be specified together"
  | formatPastEnd => text "error: UFS slice extends past the end of the image"
  | formatPowerOfTwo value => text "error: expected a positive power-of-two value, got " ++
      digits 10 value
  | formatGeometryPositive =>
      text "error: tracks_per_cylinder and sectors_per_track must be positive"
  | formatWholeCylinders => text "error: UFS slice size must be an exact whole number of cylinders"
  | formatNoCylinder => text "error: UFS slice must contain at least one cylinder"
  | formatCylinderTooBig =>
      text "error: UFS cylinder-group bitmap cannot represent even one cylinder with this geometry"
  | formatBytesPerInode => text "error: bytes_per_inode must be positive"
  | formatGroupTooSmall => text "error: UFS cylinder group is too small to reserve inode blocks"
  | formatNoInodes => text "error: UFS inode layout could not reserve any usable inodes"
  | formatTooSmall size required => text "error: UFS slice is too small (" ++ digits 10 size ++
      text " bytes); need at least " ++ digits 10 required ++ text " bytes"
  | formatSummaryOverlap =>
      text "error: UFS cylinder summary area overlaps the cylinder group block"
  | formatReparse => text "error: formatter wrote a superblock that failed to re-parse"
  | formatRootInode => text "error: failed to initialize the UFS root inode"

/-! ## From the message to the errno -/

def toAsciiLowercase (b : UInt8) : UInt8 := if 65 ≤ b ∧ b ≤ 90 then b + 32 else b

/-- Map a write-path error string to the closest errno. -/
def errnoFrom (message : Str) : Errno :=
  let m := message.map toAsciiLowercase
  if text "does not exist" <:+: m ∨ text "unreadable" <:+: m then .enoent
  else if text "not empty" <:+: m then .enotempty
  else if text "already exists" <:+: m ∨ text "exists" <:+: m then .eexist
  else if text "not a" <:+: m ∧ text "directory" <:+: m then .enotdir
  else if text "is a directory" <:+: m then .eisdir
  else if text "no space" <:+: m ∨ text "full" <:+: m then .enospc
  else .eio

/-- What a refused request is answered with. -/
def Refusal.reply (escaped : Char → Bool) : Refusal → Errno
  | .errno e => e
  | .fault f => errnoFrom (f.message escaped)

/-! ## Failures of an operation on a name -/

/-- The ways in which an operation on a name fails. -/
inductive Failure where
  | missing
  | sourceMissing
  | entryToRemoveMissing
  | isDirectory
  | notDirectory
  | notEmpty
  | noSlot
  | noInodes
  | noBlocks
  | noFragments
  deriving DecidableEq, Repr

namespace Failure

/-- The fault of a failure on a name. -/
def fault : Failure → Str → Fault
  | missing, name => .nameMissing name
  | sourceMissing, name => .sourceNameMissing name
  | entryToRemoveMissing, name => .entryToRemoveMissing name
  | isDirectory, name => .nameIsDirectory name
  | notDirectory, name => .nameNotDirectory name
  | notEmpty, name => .nameNotEmpty name
  | noSlot, name => .noDirectorySlot name
  | noInodes, _ => .noFreeInodes
  | noBlocks, _ => .noFreeBlocks
  | noFragments, _ => .noFreeFragments

/-- The phrases that `errno_from` looks for before it knows the failure, with what it takes them
for. -/
def phrases : Failure → List (Str × Errno)
  | missing | sourceMissing | noInodes | noBlocks | noFragments => []
  | notEmpty => [(text "does not exist", .enoent), (text "unreadable", .enoent)]
  | notDirectory => [(text "does not exist", .enoent), (text "unreadable", .enoent),
      (text "not empty", .enotempty), (text "exists", .eexist)]
  | isDirectory => [(text "does not exist", .enoent), (text "unreadable", .enoent),
      (text "not empty", .enotempty), (text "exists", .eexist), (text "not a", .enotdir)]
  | entryToRemoveMissing | noSlot => [(text "does not exist", .enoent), (text "unreadable", .enoent),
      (text "not empty", .enotempty), (text "exists", .eexist), (text "not a", .enotdir),
      (text "is a directory", .eisdir), (text "no space", .enospc), (text "full", .enospc)]

/-- The errno of a failure on a harmless name. -/
def errno : Failure → Errno
  | missing | sourceMissing => .enoent
  | isDirectory => .eisdir
  | notDirectory => .enotdir
  | notEmpty => .enotempty
  | entryToRemoveMissing | noSlot | noInodes | noBlocks | noFragments => .eio

/-- What a failure on a name is mistaken for: the errno of the first of the phrases that the name, as
the message shows it, contains. -/
def mistaken (escaped : Char → Bool) (f : Failure) (name : Str) : Option Errno :=
  (f.phrases.find? fun p => p.1 <:+: (escapeName escaped name).map toAsciiLowercase).map (·.2)

end Failure

/-! ## What the daemon answers -/
section Answers
variable {escaped : Char → Bool} {name : Str}

theorem already_exists_or {m : Str} :
    text "already exists" <:+: m ∨ text "exists" <:+: m ↔ text "exists" <:+: m := by
  constructor
  · rintro (h | h)
    · exact (by decide : text "exists" <:+: text "already exists").trans h
    · exact h
  · exact .inr

/-- The test for a phrase in a message that quotes the name. -/
theorem infix_message {phrase a b : Str} (h : (34 : UInt8) ∉ phrase) :
    phrase <:+: (a ++ debugName escaped name ++ b).map toAsciiLowercase ↔
      phrase <:+: a.map toAsciiLowercase ∨
        phrase <:+: (escapeName escaped name).map toAsciiLowercase ∨
          phrase <:+: b.map toAsciiLowercase := by
  have hquote : toAsciiLowercase 34 = 34 := by decide
  simp only [debugName, List.map_append, List.map_cons, hquote, List.append_assoc, List.cons_append,
    List.nil_append]
  exact infix_quoted h

theorem infix_message_end {phrase a : Str} (h : (34 : UInt8) ∉ phrase) :
    phrase <:+: (a ++ debugName escaped name).map toAsciiLowercase ↔
      phrase <:+: a.map toAsciiLowercase ∨
        phrase <:+: (escapeName escaped name).map toAsciiLowercase ∨ phrase <:+: [] := by
  have hmessage := @infix_message escaped name phrase a [] h
  rwa [List.append_nil] at hmessage

/-- One phrase after the other. -/
theorem mistaken_cons (m phrase : Str) (e d : Errno) (rest : List (Str × Errno)) :
    ((((phrase, e) :: rest).find? fun p => p.1 <:+: m).map (·.2)).getD d =
      if phrase <:+: m then e else ((rest.find? fun p => p.1 <:+: m).map (·.2)).getD d := by
  by_cases h : phrase <:+: m <;> simp [h]

theorem mistaken_nil (m : Str) (d : Errno) :
    ((([] : List (Str × Errno)).find? fun p => p.1 <:+: m).map (·.2)).getD d = d := rfl

/-- The daemon answers with the errno of the failure, or with that of the first misleading phrase. -/
theorem errnoFrom_message (f : Failure) :
    errnoFrom ((f.fault name).message escaped) = (f.mistaken escaped name).getD f.errno := by
  unfold errnoFrom Failure.mistaken Failure.phrases Failure.errno Failure.fault Fault.message
  cases f with
  | missing | sourceMissing | isDirectory | notDirectory | notEmpty | entryToRemoveMissing | noSlot =>
    simp +decide only [infix_message, infix_message_end, already_exists_or, mistaken_cons,
      mistaken_nil, ite_or, true_or, or_true, false_or, or_false, and_true, if_true]
  | noInodes | noBlocks | noFragments =>
    simp +decide only [mistaken_nil, if_false, or_false, and_false]

/-- No phrase is taken for the failure itself. -/
theorem Failure.phrases_ne : ∀ f : Failure, ∀ p ∈ f.phrases, p.2 ≠ f.errno := by
  intro f
  cases f <;> decide

theorem Failure.mistaken_ne {f : Failure} {e : Errno} (h : f.mistaken escaped name = some e) :
    e ≠ f.errno := by
  obtain ⟨p, hfind, rfl⟩ := Option.map_eq_some_iff.mp h
  exact f.phrases_ne p (List.mem_of_find?_eq_some hfind)

/-- Two operations that fail in the same way on two names are answered with the same errno exactly
when the same thing is read into the two names. -/
theorem errno_same_iff (escaped : Char → Bool) (f : Failure) (n₁ n₂ : Str) :
    (Refusal.fault (f.fault n₁)).reply escaped = (Refusal.fault (f.fault n₂)).reply escaped ↔
      f.mistaken escaped n₁ = f.mistaken escaped n₂ := by
  change errnoFrom _ = errnoFrom _ ↔ _
  rw [errnoFrom_message, errnoFrom_message]
  constructor
  · intro h
    cases h₁ : f.mistaken escaped n₁ with
    | none =>
      cases h₂ : f.mistaken escaped n₂ with
      | none => rfl
      | some e =>
        rw [h₁, h₂] at h
        exact absurd h.symm (Failure.mistaken_ne h₂)
    | some e =>
      cases h₂ : f.mistaken escaped n₂ with
      | none =>
        rw [h₁, h₂] at h
        exact absurd h (Failure.mistaken_ne h₁)
      | some e' =>
        rw [h₁, h₂] at h
        exact congrArg some h
  · exact congrArg (Option.getD · f.errno)

end Answers

/-- The characters of a name in UTF-8. -/
theorem charsOf_encode (chars : List Char) : charsOf (chars.flatMap String.utf8EncodeChar) = chars := by
  unfold charsOf
  have h : (List.utf8Encode chars).utf8Decode? = some chars.toArray := List.utf8Decode?_utf8Encode
  have hbytes : (⟨(chars.flatMap String.utf8EncodeChar).toArray⟩ : ByteArray) = chars.utf8Encode :=
    ByteArray.ext List.data_toByteArray.symm
  rw [hbytes, h]
  rfl


/-- A directory called "unreadable" that is not empty is said to be missing. -/
theorem errno_of_unreadable :
    ¬∀ (escaped : Char → Bool) (f : Failure) (n₁ n₂ : Str),
      (Refusal.fault (f.fault n₁)).reply escaped = (Refusal.fault (f.fault n₂)).reply escaped := by
  intro h
  have hsame := (errno_same_iff (fun _ => false) .notEmpty (text "unreadable") (text "d")).mp
    (h _ _ _ _)
  have hchars : charsOf (text "unreadable") = ['u', 'n', 'r', 'e', 'a', 'd', 'a', 'b', 'l', 'e'] :=
    charsOf_encode ['u', 'n', 'r', 'e', 'a', 'd', 'a', 'b', 'l', 'e']
  have hchars' : charsOf (text "d") = ['d'] := charsOf_encode ['d']
  unfold Failure.mistaken escapeName at hsame
  rw [hchars, hchars'] at hsame
  exact absurd hsame (by decide)

end UfsFuse
