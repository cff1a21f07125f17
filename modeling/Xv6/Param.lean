import Xv6.Lib.Bytes
import Xv6.Lib.Wp

/-!
# Xv6.Param

The constants of `kernel/param.h`, `kernel/fs.h` and `kernel/buf.h` that the development uses,
the type of disk blocks, the states of a process, and the ways in which kernel code can stop.
-/

namespace Xv6

abbrev NPROC : Nat := 64

/-- Open files per process. -/
abbrev NOFILE : Nat := 16

/-- Open files per system. -/
abbrev NFILE : Nat := 100

abbrev MAXARG : Nat := 32

abbrev MAXPATH : Nat := 128

/-- Max number of blocks any file-system operation writes. -/
abbrev MAXOPBLOCKS : Nat := 10

/-- Max data blocks in the on-disk log. -/
abbrev LOGSIZE : Nat := MAXOPBLOCKS * 3

abbrev NINODE : Nat := 50

abbrev NBUF : Nat := MAXOPBLOCKS * 3

instance : NeZero NPROC := ⟨by decide⟩

instance : NeZero NOFILE := ⟨by decide⟩

instance : NeZero NFILE := ⟨by decide⟩

instance : NeZero NINODE := ⟨by decide⟩

instance : NeZero NBUF := ⟨by decide⟩

theorem toNat_lt_nofile {fd : Int} (h : 0 ≤ fd ∧ fd < NOFILE) : fd.toNat < NOFILE := by omega

abbrev BSIZE : Nat := 1024

abbrev Block := Bytes.Buf BSIZE

inductive ProcState
  | unused | used | sleeping | runnable | running | zombie
  deriving DecidableEq, Repr

/-- The values of `enum procstate`. -/
def ProcState.val : ProcState → Nat
  | unused => 0
  | used => 1
  | sleeping => 2
  | runnable => 3
  | running => 4
  | zombie => 5

/-- Code that does not return: `panic` with its message, or a call that has to `sleep`. -/
inductive Stop
  | panic (msg : String)
  | sleep
  deriving DecidableEq, Repr

def panic {σ α : Type} (msg : String) : StateT σ (Except Stop) α := throw (.panic msg)

end Xv6
