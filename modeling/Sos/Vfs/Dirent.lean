import Sos.Vfs.State

/-!
# Directory entries

`vfs_getdirent` and `getdirent_cb` with the names, which the file layer leaves out: it has their
lengths only. The special files come first, in the order of the vnode list, and then the entries of
the directory, for which the server is asked part by part; `cpos` counts the entries of the parts
that have been passed over.

The counts are `int`s: one more than the largest is the smallest.
-/

namespace Sos.Dirent

/-- The largest value of an `int`. -/
def intMax : Nat := 2147483647

/-- A number as an `int`. -/
def toInt (n : Int) : Int := n.bmod wordLimit

/-- The fields of `NFS_DirRequest` other than `buf`. -/
structure DirRequest where
  pos : Int
  nbyte : Nat
  cpos : Int

/-- A call, with the buffer of its caller: `nfs_readdir` has been called with a cookie for its
request, or it has been answered. The last case is a name looked for outside a reply. -/
inductive State
  | waiting (cookie : Int) (rq : DirRequest) (buf : Nat → UInt8)
  | replied (status : Int) (buf : Nat → UInt8)
  | outOfBounds

/-- The name is copied to the buffer and terminated. -/
def store (buf : Nat → UInt8) (name : List UInt8) : Nat → UInt8 := fun j =>
  if j < name.length then name.getD j 0 else if j = name.length then 0 else buf j

/-- The loop of `vfs_getdirent`: the name at the position, or the number of the special files. -/
def specialAt (pos : Int) : List VNode → Int → Except Path Int
  | [], pos2 => .ok pos2
  | vnode :: vnodes, pos2 =>
    if vnode.stType = stSpecial then
      if pos = pos2 then .error vnode.path else specialAt pos vnodes (pos2 + 1)
    else specialAt pos vnodes pos2

/-- `vfs_getdirent`, with the vnodes in the order of their list, and `nfsfs_getdirent` with
`rq_dir_run`. -/
def vfsGetdirent (vnodes : List VNode) (pos : Int) (nbyte : Nat) (buf : Nat → UInt8) : State :=
  if pos < 0 ∨ nbyte ≤ 0 then .replied vfsError buf
  else
    match specialAt pos vnodes 0 with
    | .error path =>
      if path.length < nbyte then .replied path.length (store buf path) else .replied vfsNomem buf
    | .ok pos2 => .waiting 0 ⟨pos - pos2, nbyte, 0⟩ buf

/-- `getdirent_cb`. -/
def getdirentCb (rq : DirRequest) (status : NfsStatus) (filenames : List (List UInt8))
    (nextCookie : Int) (buf : Nat → UInt8) : State :=
  if status ≠ .ok then .replied status.toVfs buf
  else if toInt (rq.pos + 1) ≤ toInt (rq.cpos + filenames.length) then
    if rq.pos < rq.cpos then .outOfBounds
    else
      match filenames[(rq.pos - rq.cpos).toNat]? with
      | none => .outOfBounds
      | some nfile =>
        if nfile.length + 1 ≤ rq.nbyte then .replied nfile.length (store buf nfile)
        else .replied vfsNomem buf
  else if 0 < nextCookie then
    .waiting nextCookie { rq with cpos := toInt (rq.cpos + filenames.length) } buf
  else .replied vfsEof buf

end Sos.Dirent
