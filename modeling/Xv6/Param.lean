/-!
# Xv6.Param — the kernel's configuration constants

`kernel/param.h` and the block geometry of `kernel/fs.h`, as far as the models use them.
-/

namespace Xv6

/-- Max number of blocks any FS operation writes. -/
def MAXOPBLOCKS : Nat := 10

/-- Max data blocks in the on-disk log. -/
def LOGBLOCKS : Nat := MAXOPBLOCKS * 3

/-- Size of the disk block cache. -/
def NBUF : Nat := MAXOPBLOCKS * 3

/-- Device number of the file system's root disk. -/
def ROOTDEV : Nat := 1

/-- Open files per process. -/
def NOFILE : Nat := 16

/-- Open files per system. -/
def NFILE : Nat := 100

/-- Maximum number of active i-nodes. -/
def NINODE : Nat := 50

/-- Maximum major device number. -/
def NDEV : Nat := 10

/-- Size of the file system in blocks. -/
def FSSIZE : Nat := 2000

/-- Max exec arguments. -/
def MAXARG : Nat := 32

/-- User stack pages. -/
def USERSTACK : Nat := 1

end Xv6
