import Xv6.Fs.Inode

/-!
# Directories and paths

The second half of `fs.c`: directory entries, `dirlookup`, `dirlink` and path lookup. A string is
the list of its bytes before the terminating zero.
-/

namespace Xv6.Fs

open Lib

variable (sb : Superblock)

/-- `struct dirent`. -/
structure Dirent where
  inum : Nat
  /-- All `DIRSIZ` bytes. -/
  name : List UInt8
  deriving DecidableEq

/-- The entry stored in the bytes of a directory. -/
def Dirent.decode (bytes : List UInt8) : Dirent :=
  ⟨(bytes.getD 0 0).toNat + 256 * (bytes.getD 1 0).toNat, bytes.drop 2⟩

/-- The bytes of an entry; `inum` is a `ushort`. -/
def Dirent.encode (de : Dirent) : List UInt8 :=
  UInt8.ofNat de.inum :: UInt8.ofNat (de.inum / 256) :: de.name

/-- `strncmp(p, q, n)`. -/
def strncmp : List UInt8 → List UInt8 → Nat → Int
  | _, _, 0 => 0
  | p, q, n + 1 =>
    if p.headD 0 ≠ 0 ∧ p.headD 0 = q.headD 0 then strncmp p.tail q.tail n
    else (p.headD 0).toNat - (q.headD 0).toNat

/-- The bytes `strncpy(s, t, n)` leaves in `s`. -/
def strncpy (t : List UInt8) (n : Nat) : List UInt8 :=
  let copied := (t.take n).takeWhile (· ≠ 0)
  copied ++ List.replicate (n - copied.length) 0

/-- `namecmp`. -/
def namecmp (s t : List UInt8) : Int := strncmp s t dirSiz

/-- `"."`. -/
def dot : List UInt8 := [46]

/-- `".."`. -/
def dotdot : List UInt8 := [46, 46]

/-- The offsets at which a loop over the entries of a directory reads, from `start` on. -/
def direntOffsets (start size : Nat) : List Nat :=
  (List.range ((size - start + (direntSize - 1)) / direntSize)).map fun k => start + direntSize * k

/-- `readi(dp, (char*)&de, off, sizeof(de))`, with the panic of a short read. -/
def readDirent (dp off : Nat) (short : Panic) : FsProg Dirent := do
  match ← readi sb dp off direntSize none with
  | some bytes => if bytes.length = direntSize then return .decode bytes else .panic short
  | none => .panic short

/-- The loop of `dirlookup` over the offsets left; it returns the inode and the offset. -/
def dirlookupFrom (dp : Nat) (name : List UInt8) : List Nat → FsProg (Option (Nat × Nat))
  | [] => return none
  | off :: rest => do
    let de ← readDirent sb dp off .dirlookupRead
    if de.inum = 0 then dirlookupFrom dp name rest
    else if namecmp name de.name = 0 then
      let s ← get
      let ip ← iget (s.inode dp).dev de.inum
      return some (ip, off)
    else dirlookupFrom dp name rest

/-- `dirlookup`. -/
def dirlookup (dp : Nat) (name : List UInt8) : FsProg (Option (Nat × Nat)) := do
  let s ← get
  if (s.inode dp).copy.type ≠ .dir then .panic .notDir
  else dirlookupFrom sb dp name (direntOffsets 0 (s.inode dp).copy.size)

/-- The second loop of `dirlink`: the offset of the first free entry, or where it ended. -/
def dirlinkFrom (dp last : Nat) : List Nat → FsProg Nat
  | [] => return last
  | off :: rest => do
    let de ← readDirent sb dp off .dirlinkRead
    if de.inum = 0 then return off else dirlinkFrom dp last rest

/-- `dirlink`; `false` is the result `-1`. -/
def dirlink (dp : Nat) (name : List UInt8) (inum : Nat) : FsProg Bool := do
  match ← dirlookup sb dp name with
  | some (ip, _) =>
    iput sb ip
    return false
  | none =>
    let s ← get
    let offsets := direntOffsets 0 (s.inode dp).copy.size
    let off ← dirlinkFrom sb dp (direntSize * offsets.length) offsets
    match ← writei sb dp off (Dirent.encode ⟨inum, strncpy name dirSiz⟩) with
    | some written => if written = direntSize then return true else .panic .dirlink
    | none => .panic .dirlink

/-- `'/'`. -/
def slash : UInt8 := 47

/-- `skipelem`: the element and the path after it. -/
def skipelem (path : List UInt8) : Option (List UInt8 × List UInt8) :=
  match path.dropWhile (· = slash) with
  | [] => none
  | first :: rest =>
    let path := first :: rest
    some ((path.takeWhile (· ≠ slash)).take dirSiz,
      (path.dropWhile (· ≠ slash)).dropWhile (· = slash))

/-- `namex` after its loop. -/
def namexEnd (ip : Nat) (nameiparent : Bool) (name : List UInt8) :
    FsProg (Option (Nat × List UInt8)) := do
  if nameiparent then
    iput sb ip
    return none
  else return some (ip, name)

/-- The loop of `namex`, with a bound on its iterations. -/
def namexFrom (nameiparent : Bool) :
    Nat → Nat → List UInt8 → List UInt8 → FsProg (Option (Nat × List UInt8))
  | 0, ip, _, name => namexEnd sb ip nameiparent name
  | fuel + 1, ip, path, name =>
    match skipelem path with
    | none => namexEnd sb ip nameiparent name
    | some (name, rest) => do
      ilock ip
      let s ← get
      if (s.inode ip).copy.type ≠ .dir then
        iunlockput sb ip
        return none
      else if nameiparent ∧ rest = [] then
        iunlock ip
        return some (ip, name)
      else
        match ← dirlookup sb ip name with
        | none =>
          iunlockput sb ip
          return none
        | some (next, _) =>
          iunlockput sb ip
          namexFrom nameiparent fuel next rest name

/-- `namex` of process `p`; an element takes at least one byte of the path. -/
def namex (p : Nat) (path : List UInt8) (nameiparent : Bool) :
    FsProg (Option (Nat × List UInt8)) := do
  let ip ← if path.head? = some slash then (iget rootDev rootIno : FsM Nat)
    else do
      let s ← get
      idup (s.proc p).cwd
  namexFrom sb nameiparent path.length ip path []

/-- `namei`. -/
def namei (p : Nat) (path : List UInt8) : FsProg (Option Nat) := do
  match ← namex sb p path false with
  | some (ip, _) => return some ip
  | none => return none

/-- `nameiparent`. -/
def nameiparent (p : Nat) (path : List UInt8) : FsProg (Option (Nat × List UInt8)) :=
  namex sb p path true

end Xv6.Fs
