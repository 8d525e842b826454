import Xv6.InodeSpec

/-!
# Orphaned inodes

`ireclaim` (`fs.c`), which at boot frees the inodes that were unlinked while still open when the machine stopped. Each of them is freed in
a transaction of its own, and what the transaction passes to `log_write` is on record.
-/

namespace Xv6.Ino

/-- `begin_op`, while no other operation is open: the transaction is empty. -/
def beginOp : M Unit := fun s => .ok ((), { s with writes := [] })

/-- `end_op`, of the only operation: what the transaction has passed to `log_write` is committed. -/
def endOp : M (List Nat) := fun s => .ok (s.writes, s)

/-- The body of the loop of `ireclaim`: the blocks its transaction passes to `log_write`, if there is one. -/
def ireclaimInode (inum : Nat) : M (List (List Nat)) := do
  let dip : Dinode ← fun s => .ok (s.dinode inum, s)
  if dip.type ≠ .free ∧ dip.nlink = 0 then do
    iget inum
    beginOp
    ilock inum
    iput inum
    let tx ← endOp
    pure [tx]
  else pure []

def ireclaimLoop : List Nat → M (List (List Nat))
  | [] => pure []
  | inum :: inums => do
    let tx ← ireclaimInode inum
    let txs ← ireclaimLoop inums
    pure (tx ++ txs)

/-- `ireclaim`, with the transactions it makes. -/
def ireclaim : M (List (List Nat)) := fun s => ireclaimLoop (List.range' 1 (s.sb.ninodes - 1)) s

/-- Inode `i` is allocated and has no links. -/
structure State.Orphan (s : State) (i : Nat) : Prop where
  range : 1 ≤ i ∧ i < s.sb.ninodes
  type : (s.dinode i).type ≠ .free
  nlink : (s.dinode i).nlink = 0

end Xv6.Ino
