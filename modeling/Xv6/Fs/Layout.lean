import Xv6.Fs.Inv

/-!
# Xv6.Fs.Layout — the file system on disk

The format of kernel/fs.h, in bytes: the superblock in block 1, inode blocks of sixteen
`struct dinode` each, and the free map with a bit for each block. `mount` is the disk as the
kernel sees it before any inode is in the table.
-/

namespace Xv6.Fs

def FSMAGIC : Nat := 0x10203040

structure Superblock where
  magic : Nat
  size : Nat
  nblocks : Nat
  ninodes : Nat
  nlog : Nat
  logstart : Nat
  inodestart : Nat
  bmapstart : Nat
  deriving DecidableEq, Repr

/-- Word `k` of the structure. -/
def Superblock.word (sb : Superblock) : Nat → BitVec 32
  | 0 => BitVec.ofNat 32 sb.magic
  | 1 => BitVec.ofNat 32 sb.size
  | 2 => BitVec.ofNat 32 sb.nblocks
  | 3 => BitVec.ofNat 32 sb.ninodes
  | 4 => BitVec.ofNat 32 sb.nlog
  | 5 => BitVec.ofNat 32 sb.logstart
  | 6 => BitVec.ofNat 32 sb.inodestart
  | 7 => BitVec.ofNat 32 sb.bmapstart
  | _ => 0

/-- A block with the structure at its start, and zeros. -/
def Superblock.encode (sb : Superblock) : Block := fun j =>
  (sb.word (j.val / 4)).extractLsb' (8 * (j.val % 4)) 8

def readsb (disk : Nat → Block) : Superblock where
  magic := ((disk 1).getWord 0).toNat
  size := ((disk 1).getWord 1).toNat
  nblocks := ((disk 1).getWord 2).toNat
  ninodes := ((disk 1).getWord 3).toNat
  nlog := ((disk 1).getWord 4).toNat
  logstart := ((disk 1).getWord 5).toNat
  inodestart := ((disk 1).getWord 6).toNat
  bmapstart := ((disk 1).getWord 7).toNat

/-- `sizeof(struct dinode)`. -/
def DISIZE : Nat := 64

/-- Inodes per block. -/
def IPB : Nat := BSIZE / DISIZE

/-- Bitmap bits per block. -/
def BPB : Nat := BSIZE * 8

/-- Block containing inode `i`. -/
def IBLOCK (i : Nat) (sb : Superblock) : Nat := i / IPB + sb.inodestart

/-- Block of the free map with the bit for block `b`. -/
def BBLOCK (b : Nat) (sb : Superblock) : Nat := b / BPB + sb.bmapstart

def FType.code : FType → BitVec 16
  | .none => 0
  | .dir => 1
  | .file => 2
  | .device => 3

/-- The type with a number. The kernel writes no others, and takes any but 0 for allocated. -/
def FType.ofCode (c : BitVec 16) : FType :=
  if c = 0 then .none else if c = 1 then .dir else if c = 3 then .device else .file

/-- Word `k` of `struct dinode`. -/
def Dinode.word (d : Dinode) : Nat → BitVec 32
  | 0 => d.major ++ d.type.code
  | 1 => d.nlink ++ d.minor
  | 2 => BitVec.ofNat 32 d.size
  | k + 3 => BitVec.ofNat 32 (d.addrs k)

/-- The inode block with its entry `k` replaced. -/
def putDinode (b : Block) (k : Nat) (d : Dinode) : Block := fun j =>
  if j.val / DISIZE = k then (d.word (j.val % DISIZE / 4)).extractLsb' (8 * (j.val % 4)) 8 else b j

/-- The inode with these sixteen words. -/
def Dinode.ofWords (w : Nat → BitVec 32) : Dinode where
  type := FType.ofCode ((w 0).extractLsb' 0 16)
  major := (w 0).extractLsb' 16 16
  minor := (w 1).extractLsb' 0 16
  nlink := (w 1).extractLsb' 16 16
  size := (w 2).toNat
  addrs k := if k ≤ NDIRECT then (w (k + 3)).toNat else 0

/-- Entry `k` of an inode block. -/
def getDinode (b : Block) (k : Nat) : Dinode := Dinode.ofWords fun w => b.getWord (16 * k + w)

/-- A disk as the kernel finds it. -/
def mount (disk : Nat → Block) : St where
  bitmap b := ((disk (BBLOCK b (readsb disk))).byte (b % BPB / 8)).getLsbD (b % 8)
  block := disk
  dinode i := getDinode (disk (IBLOCK i (readsb disk))) (i % IPB)
  inode _ := ⟨0, false, false, Dinode.zero⟩

/-! ## What is written is read back -/

/-- The numbers in the inode are those the format can hold. -/
structure Dinode.Fits (d : Dinode) : Prop where
  size : d.size < 2 ^ 32
  addrs : ∀ k, k ≤ NDIRECT → d.addrs k < 2 ^ 32
  rest : ∀ k, NDIRECT < k → d.addrs k = 0

section
variable {b : Block} {d : Dinode} {k k' w : Nat}

/-- A block that holds the bytes of `x` at word `w` has `x` there. -/
theorem getWord_of_bytes {x : BitVec 32}
    (h : ∀ e < 4, b.byte (4 * w + e) = x.extractLsb' (8 * e) 8) : b.getWord w = x := by
  rw [Block.getWord, h 3 (by decide), h 2 (by decide), h 1 (by decide)]
  have h0 := h 0 (by decide)
  rw [Nat.add_zero] at h0
  rw [h0]
  exact Block.append_bytes x

theorem Superblock.encode_getWord (sb : Superblock) (hw : w < BSIZE / 4) :
    sb.encode.getWord w = sb.word w := by
  refine getWord_of_bytes fun e he => ?_
  have hlt : 4 * w + e < BSIZE := by omega
  have hdiv : (4 * w + e) / 4 = w := by omega
  have hmod : (4 * w + e) % 4 = e := by omega
  simp only [Block.byte, Superblock.encode, dif_pos hlt, hdiv, hmod]

theorem putDinode_getWord (hk : k < IPB) (hw : w < 16) :
    (putDinode b k d).getWord (16 * k + w) = d.word w := by
  unfold IPB DISIZE BSIZE at hk
  refine getWord_of_bytes fun e he => ?_
  have hlt : 4 * (16 * k + w) + e < BSIZE := by unfold BSIZE; omega
  have hdiv : (4 * (16 * k + w) + e) / DISIZE = k := by unfold DISIZE; omega
  have hword : (4 * (16 * k + w) + e) % DISIZE / 4 = w := by unfold DISIZE; omega
  have hmod : (4 * (16 * k + w) + e) % 4 = e := by omega
  simp only [Block.byte, putDinode, dif_pos hlt, hdiv, hword, hmod, if_true]

theorem putDinode_getWord_other (hw : w / 16 ≠ k) :
    (putDinode b k d).getWord w = b.getWord w := by
  have hbyte : ∀ e < 4, (putDinode b k d).byte (4 * w + e) = b.byte (4 * w + e) := by
    intro e he
    have hdiv : (4 * w + e) / DISIZE ≠ k := by unfold DISIZE; omega
    simp only [Block.byte, putDinode, hdiv, if_false]
  have h0 := hbyte 0 (by decide)
  rw [Nat.add_zero] at h0
  rw [Block.getWord, hbyte 3 (by decide), hbyte 2 (by decide), hbyte 1 (by decide), h0]
  rfl

theorem FType.ofCode_code (t : FType) : FType.ofCode t.code = t := by
  cases t <;> rfl

theorem toNat_ofNat_word {n : Nat} (h : n < 2 ^ 32) : (BitVec.ofNat 32 n).toNat = n := by
  rw [BitVec.toNat_ofNat, Nat.mod_eq_of_lt h]

theorem Dinode.ofWords_congr {x y : Nat → BitVec 32} (h : ∀ w < 16, x w = y w) :
    Dinode.ofWords x = Dinode.ofWords y := by
  have haddrs : (Dinode.ofWords x).addrs = (Dinode.ofWords y).addrs := by
    funext k
    simp only [Dinode.ofWords]
    by_cases hk : k ≤ NDIRECT
    · rw [if_pos hk, if_pos hk, h (k + 3) (by unfold NDIRECT at hk; omega)]
    · rw [if_neg hk, if_neg hk]
  simp only [Dinode.ofWords] at haddrs ⊢
  rw [h 0 (by decide), h 1 (by decide), h 2 (by decide), haddrs]

/-- A dinode that fits in its words is read back from them. -/
theorem Dinode.ofWords_word (hd : d.Fits) : Dinode.ofWords d.word = d := by
  have haddrs : (Dinode.ofWords d.word).addrs = d.addrs := by
    funext k
    simp only [Dinode.ofWords, Dinode.word]
    by_cases hk : k ≤ NDIRECT
    · rw [if_pos hk, toNat_ofNat_word (hd.addrs k hk)]
    · rw [if_neg hk, hd.rest k (by omega)]
  simp only [Dinode.ofWords] at haddrs ⊢
  rw [haddrs]
  simp only [Dinode.word, BitVec.extractLsb'_append_eq_right,
    BitVec.extractLsb'_append_eq_left, FType.ofCode_code, toNat_ofNat_word hd.size]

theorem getDinode_putDinode (hk : k < IPB) (hd : d.Fits) : getDinode (putDinode b k d) k = d :=
  (Dinode.ofWords_congr fun _ hw => putDinode_getWord hk hw).trans (Dinode.ofWords_word hd)

/-- The other dinodes of the block stay. -/
theorem getDinode_putDinode_other (hk : k' ≠ k) :
    getDinode (putDinode b k d) k' = getDinode b k' :=
  Dinode.ofWords_congr fun w hw => putDinode_getWord_other (by omega)

theorem getDinode_fits (b : Block) (k : Nat) : (getDinode b k).Fits := by
  refine ⟨BitVec.isLt _, fun j hj => ?_, fun j hj => if_neg (by omega)⟩
  simp only [getDinode, Dinode.ofWords, if_pos hj]
  exact BitVec.isLt _

end

end Xv6.Fs
