import Xv6.Base.Param

/-!
# Disk blocks

A block is `BSIZE` bytes. The code reads blocks in three ways: as bytes (file
contents), as little-endian `uint` words (`(uint*)bp->data`, the log header, inode
records) and as bits (the free map). Words are natural numbers below `2 ^ 32`.
-/

namespace Xv6

/-- The data area of a buffer; `buf.h`, `uchar data[BSIZE]`. -/
abbrev Block : Type := Fin BSIZE → UInt8

namespace Block

/-- All bytes zero, as `memset(bp->data, 0, BSIZE)` leaves it. -/
def zero : Block := fun _ ↦ 0

/-- `bp->data[i]`; zero past the end of the block. -/
def byte (b : Block) (i : Nat) : UInt8 := if h : i < BSIZE then b ⟨i, h⟩ else 0

/-- Store one byte; nothing past the end of the block. -/
def setByte (b : Block) (i : Nat) (v : UInt8) : Block := fun j ↦ if j.val = i then v else b j

/-- `memmove(bp->data + off, src, m)`. -/
def splice (b : Block) (off m : Nat) (src : Nat → UInt8) : Block :=
  fun j ↦ if off ≤ j.val ∧ j.val < off + m then src (j.val - off) else b j

@[simp] theorem byte_zero (i : Nat) : zero.byte i = 0 := by
  unfold byte zero
  split <;> rfl

theorem byte_setByte (b : Block) (i j : Nat) (v : UInt8) (hi : i < BSIZE) :
    (b.setByte i v).byte j = if j = i then v else b.byte j := by
  unfold byte setByte
  by_cases hj : j < BSIZE
  · simp [hj]
  · have hne : j ≠ i := by omega
    simp [hj, hne]

theorem byte_splice (b : Block) (off m : Nat) (src : Nat → UInt8) (j : Nat)
    (hm : off + m ≤ BSIZE) :
    (b.splice off m src).byte j = if off ≤ j ∧ j < off + m then src (j - off) else b.byte j := by
  unfold byte splice
  by_cases hj : j < BSIZE
  · simp [hj]
  · have hn : ¬(off ≤ j ∧ j < off + m) := by omega
    simp [hj, hn]

theorem setByte_byte (b : Block) (i : Nat) : b.setByte i (b.byte i) = b := by
  funext j
  unfold setByte byte
  split
  · next he =>
    subst he
    rw [dif_pos j.isLt]
  · rfl

/-! ### Words -/

/-- `((uint*)bp->data)[k]`, little-endian. -/
def word (b : Block) (k : Nat) : Nat :=
  (b.byte (4 * k)).toNat + 256 * (b.byte (4 * k + 1)).toNat +
    65536 * (b.byte (4 * k + 2)).toNat + 16777216 * (b.byte (4 * k + 3)).toNat

/-- `((uint*)bp->data)[k] = v`, little-endian. -/
def setWord (b : Block) (k v : Nat) : Block :=
  (((b.setByte (4 * k) (UInt8.ofNat v)).setByte (4 * k + 1) (UInt8.ofNat (v / 256))).setByte
    (4 * k + 2) (UInt8.ofNat (v / 65536))).setByte (4 * k + 3) (UInt8.ofNat (v / 16777216))

theorem word_lt (b : Block) (k : Nat) : b.word k < 2 ^ 32 := by
  unfold word
  have h0 := (b.byte (4 * k)).toNat_lt
  have h1 := (b.byte (4 * k + 1)).toNat_lt
  have h2 := (b.byte (4 * k + 2)).toNat_lt
  have h3 := (b.byte (4 * k + 3)).toNat_lt
  omega

@[simp] theorem word_zero (k : Nat) : zero.word k = 0 := by simp [word]

theorem byte_setWord (b : Block) (k v j : Nat) (hk : k < NINDIRECT) (hj : j / 4 ≠ k) :
    (b.setWord k v).byte j = b.byte j := by
  have hk' : k < 128 := hk
  unfold setWord
  rw [byte_setByte _ _ _ _ (by show 4 * k + 3 < 512; omega),
    byte_setByte _ _ _ _ (by show 4 * k + 2 < 512; omega),
    byte_setByte _ _ _ _ (by show 4 * k + 1 < 512; omega),
    byte_setByte _ _ _ _ (by show 4 * k < 512; omega)]
  rw [if_neg (by omega), if_neg (by omega), if_neg (by omega), if_neg (by omega)]

/-- A stored word is read back. -/
theorem word_setWord_same (b : Block) (k v : Nat) (hk : k < NINDIRECT) (hv : v < 2 ^ 32) :
    (b.setWord k v).word k = v := by
  have hk' : k < 128 := hk
  have h0 : 4 * k < BSIZE := by show 4 * k < 512; omega
  have h1 : 4 * k + 1 < BSIZE := by show 4 * k + 1 < 512; omega
  have h2 : 4 * k + 2 < BSIZE := by show 4 * k + 2 < 512; omega
  have h3 : 4 * k + 3 < BSIZE := by show 4 * k + 3 < 512; omega
  simp only [word, setWord, byte_setByte _ _ _ _ h0, byte_setByte _ _ _ _ h1,
    byte_setByte _ _ _ _ h2, byte_setByte _ _ _ _ h3]
  simp
  omega

/-- Storing a word leaves the other words unchanged. -/
theorem word_setWord_ne (b : Block) (k v j : Nat) (hk : k < NINDIRECT) (hj : j ≠ k) :
    (b.setWord k v).word j = b.word j := by
  unfold word
  rw [byte_setWord _ _ _ _ hk (by omega), byte_setWord _ _ _ _ hk (by omega),
    byte_setWord _ _ _ _ hk (by omega), byte_setWord _ _ _ _ hk (by omega)]

theorem word_setWord (b : Block) (k v j : Nat) (hk : k < NINDIRECT) (hv : v < 2 ^ 32) :
    (b.setWord k v).word j = if j = k then v else b.word j := by
  split
  · next h => rw [h, word_setWord_same b k v hk hv]
  · next h => exact word_setWord_ne b k v j hk h

/-- Storing what is there changes nothing. -/
theorem setWord_word (b : Block) (k : Nat) : b.setWord k (b.word k) = b := by
  have h0 := (b.byte (4 * k)).toNat_lt
  have h1 := (b.byte (4 * k + 1)).toNat_lt
  have h2 := (b.byte (4 * k + 2)).toNat_lt
  have h3 := (b.byte (4 * k + 3)).toNat_lt
  have hbyte : ∀ (x : UInt8) (n : Nat), n % 256 = x.toNat → UInt8.ofNat n = x := by
    intro x n hn
    apply UInt8.toNat_inj.mp
    rw [UInt8.toNat_ofNat', hn]
  unfold setWord
  rw [hbyte (b.byte (4 * k)), hbyte (b.byte (4 * k + 1)), hbyte (b.byte (4 * k + 2)),
    hbyte (b.byte (4 * k + 3))]
  · simp only [setByte_byte]
  all_goals
    unfold word
    omega

/-! ### Bits of the free map -/

/-- `bp->data[bi/8] & (1 << (bi%8))` is non-zero. -/
def bit (b : Block) (bi : Nat) : Bool := (b.byte (bi / 8)).toNat.testBit (bi % 8)

/-- `bp->data[bi/8] |= 1 << (bi%8)`. -/
def setBit (b : Block) (bi : Nat) : Block :=
  b.setByte (bi / 8) (UInt8.ofNat ((b.byte (bi / 8)).toNat ||| 1 <<< (bi % 8)))

/-- `bp->data[bi/8] &= ~(1 << (bi%8))`. -/
def clearBit (b : Block) (bi : Nat) : Block :=
  b.setByte (bi / 8)
    (UInt8.ofNat ((b.byte (bi / 8)).toNat &&& (255 ^^^ 1 <<< (bi % 8))))

private theorem testBit_mod_256 (n i : Nat) (hi : i < 8) :
    (n % 256).testBit i = n.testBit i := by
  rw [show (256 : Nat) = 2 ^ 8 from rfl, Nat.testBit_mod_two_pow]
  simp [hi]

private theorem testBit_255 (i : Nat) (hi : i < 8) : (255 : Nat).testBit i = true := by
  rw [show (255 : Nat) = 2 ^ 8 - 1 from rfl, Nat.testBit_two_pow_sub_one]
  simp [hi]

private theorem testBit_one_shiftLeft (k i : Nat) : (1 <<< k).testBit i = decide (i = k) := by
  rw [Nat.one_shiftLeft, Nat.testBit_two_pow]
  exact decide_eq_decide.mpr eq_comm

@[simp] theorem bit_zero (bi : Nat) : zero.bit bi = false := by
  simp [bit]

theorem bit_setBit (b : Block) (i j : Nat) (hi : i < BPB) :
    (b.setBit i).bit j = (decide (j = i) || b.bit j) := by
  have hi' : i < 4096 := hi
  unfold bit setBit
  rw [byte_setByte _ _ _ _ (by show i / 8 < 512; omega)]
  by_cases hd : j / 8 = i / 8
  · have hm : j % 8 < 8 := Nat.mod_lt _ (by decide)
    rw [if_pos hd, UInt8.toNat_ofNat', testBit_mod_256 _ _ hm, Nat.testBit_or,
      testBit_one_shiftLeft, ← hd, Bool.or_comm]
    congr 1
    apply decide_eq_decide.mpr
    omega
  · have hne : j ≠ i := fun h ↦ hd (by rw [h])
    simp [hd, hne]

theorem bit_clearBit (b : Block) (i j : Nat) (hi : i < BPB) :
    (b.clearBit i).bit j = (!decide (j = i) && b.bit j) := by
  have hi' : i < 4096 := hi
  unfold bit clearBit
  rw [byte_setByte _ _ _ _ (by show i / 8 < 512; omega)]
  by_cases hd : j / 8 = i / 8
  · have hm : j % 8 < 8 := Nat.mod_lt _ (by decide)
    have he : j % 8 = i % 8 ↔ j = i := by omega
    rw [if_pos hd, UInt8.toNat_ofNat', testBit_mod_256 _ _ hm, Nat.testBit_and, Nat.testBit_xor,
      testBit_255 _ hm, testBit_one_shiftLeft, ← hd, Bool.true_xor, Bool.and_comm]
    simp only [he]
  · have hne : j ≠ i := fun h ↦ hd (by rw [h])
    simp [hd, hne]

end Block

end Xv6
