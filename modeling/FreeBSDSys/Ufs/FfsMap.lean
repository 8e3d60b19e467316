import FreeBSDSys.Lib.Runs

/-!
# The free map of a cylinder group

A model of the bitmap macros, of the block operations of `ffs_subr.c`, of the tables of
`ffs_tables.c` and of `scanc`, `ffs_fragacct` and the two loops of `ffs_mapsearch`.  A map is an
array of bytes; a set bit is a free fragment.  The lemmas say what each operation does to the single
bits, so that nothing later looks at bytes or tables.

* `isblock_iff`, `isfreeblock_iff`, `isset_clrblock`, `isset_setblock`: the block operations.
* `fragacct_eq`: `ffs_fragacct` counts the maximal runs of each size.
* `scanc_spec`, `sift_spec`, `table_iff`: the search for a maximal run of a given size.
-/

namespace FreeBSDSys.Ffs

open Function List Nat Runs

/-! ## The model -/

/-- The fragments of a block, `fs_frag` -/
inductive Frag where
  | one
  | two
  | four
  | eight
  deriving DecidableEq, Repr

/-- `fs_frag` as a number -/
def Frag.num : Frag → ℕ
  | .one => 1
  | .two => 2
  | .four => 4
  | .eight => 8

/-- `NBBY` -/
def nbby : ℕ := 8

/-- A bitmap. -/
abbrev Map : Type := ℕ → BitVec 8

/-- `isset` -/
def isset (a : Map) (i : ℕ) : Bool := a (i / nbby) &&& (1#8 <<< (i % nbby)) != 0#8

/-- `setbit` -/
def setbit (a : Map) (i : ℕ) : Map :=
  update a (i / nbby) (a (i / nbby) ||| (1#8 <<< (i % nbby)))

/-- `clrbit` -/
def clrbit (a : Map) (i : ℕ) : Map :=
  update a (i / nbby) (a (i / nbby) &&& ~~~(1#8 <<< (i % nbby)))

/-- `ffs_isblock` -/
def ffsIsblock (frag : Frag) (cp : Map) (h : ℕ) : Bool :=
  match frag with
  | .eight => cp h == 0xff#8
  | .four =>
    let mask := 0x0f#8 <<< ((h &&& 0x1) <<< 2)
    cp (h >>> 1) &&& mask == mask
  | .two =>
    let mask := 0x03#8 <<< ((h &&& 0x3) <<< 1)
    cp (h >>> 2) &&& mask == mask
  | .one =>
    let mask := 0x01#8 <<< (h &&& 0x7)
    cp (h >>> 3) &&& mask == mask

/-- `ffs_isfreeblock` -/
def ffsIsfreeblock (frag : Frag) (cp : Map) (h : ℕ) : Bool :=
  match frag with
  | .eight => cp h == 0#8
  | .four => cp (h >>> 1) &&& (0x0f#8 <<< ((h &&& 0x1) <<< 2)) == 0#8
  | .two => cp (h >>> 2) &&& (0x03#8 <<< ((h &&& 0x3) <<< 1)) == 0#8
  | .one => cp (h >>> 3) &&& (0x01#8 <<< (h &&& 0x7)) == 0#8

/-- `ffs_clrblock` -/
def ffsClrblock (frag : Frag) (cp : Map) (h : ℕ) : Map :=
  match frag with
  | .eight => update cp h 0#8
  | .four =>
    update cp (h >>> 1) (cp (h >>> 1) &&& ~~~(0x0f#8 <<< ((h &&& 0x1) <<< 2)))
  | .two =>
    update cp (h >>> 2) (cp (h >>> 2) &&& ~~~(0x03#8 <<< ((h &&& 0x3) <<< 1)))
  | .one => update cp (h >>> 3) (cp (h >>> 3) &&& ~~~(0x01#8 <<< (h &&& 0x7)))

/-- `ffs_setblock` -/
def ffsSetblock (frag : Frag) (cp : Map) (h : ℕ) : Map :=
  match frag with
  | .eight => update cp h 0xff#8
  | .four => update cp (h >>> 1) (cp (h >>> 1) ||| (0x0f#8 <<< ((h &&& 0x1) <<< 2)))
  | .two => update cp (h >>> 2) (cp (h >>> 2) ||| (0x03#8 <<< ((h &&& 0x3) <<< 1)))
  | .one => update cp (h >>> 3) (cp (h >>> 3) ||| (0x01#8 <<< (h &&& 0x7)))

/-- `blkmap` -/
def blkmap (frag : Frag) (map : Map) (loc : ℕ) : ℕ :=
  ((map (loc / nbby)).toNat >>> (loc % nbby)) &&& (0xff >>> (nbby - frag.num))

/-- `around` -/
def around (siz : ℕ) : ℕ := [0x3, 0x7, 0xf, 0x1f, 0x3f, 0x7f, 0xff, 0x1ff, 0x3ff].getD siz 0

/-- `inside` -/
def inside (siz : ℕ) : ℕ := [0x0, 0x2, 0x6, 0xe, 0x1e, 0x3e, 0x7e, 0xfe, 0x1fe].getD siz 0

/-- `fragtbl124` -/
def fragtbl124 : List ℕ := [
  0x00, 0x16, 0x16, 0x2a, 0x16, 0x16, 0x26, 0x4e,
  0x16, 0x16, 0x16, 0x3e, 0x2a, 0x3e, 0x4e, 0x8a,
  0x16, 0x16, 0x16, 0x3e, 0x16, 0x16, 0x36, 0x5e,
  0x16, 0x16, 0x16, 0x3e, 0x3e, 0x3e, 0x5e, 0x9e,
  0x16, 0x16, 0x16, 0x3e, 0x16, 0x16, 0x36, 0x5e,
  0x16, 0x16, 0x16, 0x3e, 0x3e, 0x3e, 0x5e, 0x9e,
  0x2a, 0x3e, 0x3e, 0x2a, 0x3e, 0x3e, 0x2e, 0x6e,
  0x3e, 0x3e, 0x3e, 0x3e, 0x2a, 0x3e, 0x6e, 0xaa,
  0x16, 0x16, 0x16, 0x3e, 0x16, 0x16, 0x36, 0x5e,
  0x16, 0x16, 0x16, 0x3e, 0x3e, 0x3e, 0x5e, 0x9e,
  0x16, 0x16, 0x16, 0x3e, 0x16, 0x16, 0x36, 0x5e,
  0x16, 0x16, 0x16, 0x3e, 0x3e, 0x3e, 0x5e, 0x9e,
  0x26, 0x36, 0x36, 0x2e, 0x36, 0x36, 0x26, 0x6e,
  0x36, 0x36, 0x36, 0x3e, 0x2e, 0x3e, 0x6e, 0xae,
  0x4e, 0x5e, 0x5e, 0x6e, 0x5e, 0x5e, 0x6e, 0x4e,
  0x5e, 0x5e, 0x5e, 0x7e, 0x6e, 0x7e, 0x4e, 0xce,
  0x16, 0x16, 0x16, 0x3e, 0x16, 0x16, 0x36, 0x5e,
  0x16, 0x16, 0x16, 0x3e, 0x3e, 0x3e, 0x5e, 0x9e,
  0x16, 0x16, 0x16, 0x3e, 0x16, 0x16, 0x36, 0x5e,
  0x16, 0x16, 0x16, 0x3e, 0x3e, 0x3e, 0x5e, 0x9e,
  0x16, 0x16, 0x16, 0x3e, 0x16, 0x16, 0x36, 0x5e,
  0x16, 0x16, 0x16, 0x3e, 0x3e, 0x3e, 0x5e, 0x9e,
  0x3e, 0x3e, 0x3e, 0x3e, 0x3e, 0x3e, 0x3e, 0x7e,
  0x3e, 0x3e, 0x3e, 0x3e, 0x3e, 0x3e, 0x7e, 0xbe,
  0x2a, 0x3e, 0x3e, 0x2a, 0x3e, 0x3e, 0x2e, 0x6e,
  0x3e, 0x3e, 0x3e, 0x3e, 0x2a, 0x3e, 0x6e, 0xaa,
  0x3e, 0x3e, 0x3e, 0x3e, 0x3e, 0x3e, 0x3e, 0x7e,
  0x3e, 0x3e, 0x3e, 0x3e, 0x3e, 0x3e, 0x7e, 0xbe,
  0x4e, 0x5e, 0x5e, 0x6e, 0x5e, 0x5e, 0x6e, 0x4e,
  0x5e, 0x5e, 0x5e, 0x7e, 0x6e, 0x7e, 0x4e, 0xce,
  0x8a, 0x9e, 0x9e, 0xaa, 0x9e, 0x9e, 0xae, 0xce,
  0x9e, 0x9e, 0x9e, 0xbe, 0xaa, 0xbe, 0xce, 0x8a]

/-- `fragtbl8` -/
def fragtbl8 : List ℕ := [
  0x00, 0x01, 0x01, 0x02, 0x01, 0x01, 0x02, 0x04,
  0x01, 0x01, 0x01, 0x03, 0x02, 0x03, 0x04, 0x08,
  0x01, 0x01, 0x01, 0x03, 0x01, 0x01, 0x03, 0x05,
  0x02, 0x03, 0x03, 0x02, 0x04, 0x05, 0x08, 0x10,
  0x01, 0x01, 0x01, 0x03, 0x01, 0x01, 0x03, 0x05,
  0x01, 0x01, 0x01, 0x03, 0x03, 0x03, 0x05, 0x09,
  0x02, 0x03, 0x03, 0x02, 0x03, 0x03, 0x02, 0x06,
  0x04, 0x05, 0x05, 0x06, 0x08, 0x09, 0x10, 0x20,
  0x01, 0x01, 0x01, 0x03, 0x01, 0x01, 0x03, 0x05,
  0x01, 0x01, 0x01, 0x03, 0x03, 0x03, 0x05, 0x09,
  0x01, 0x01, 0x01, 0x03, 0x01, 0x01, 0x03, 0x05,
  0x03, 0x03, 0x03, 0x03, 0x05, 0x05, 0x09, 0x11,
  0x02, 0x03, 0x03, 0x02, 0x03, 0x03, 0x02, 0x06,
  0x03, 0x03, 0x03, 0x03, 0x02, 0x03, 0x06, 0x0a,
  0x04, 0x05, 0x05, 0x06, 0x05, 0x05, 0x06, 0x04,
  0x08, 0x09, 0x09, 0x0a, 0x10, 0x11, 0x20, 0x40,
  0x01, 0x01, 0x01, 0x03, 0x01, 0x01, 0x03, 0x05,
  0x01, 0x01, 0x01, 0x03, 0x03, 0x03, 0x05, 0x09,
  0x01, 0x01, 0x01, 0x03, 0x01, 0x01, 0x03, 0x05,
  0x03, 0x03, 0x03, 0x03, 0x05, 0x05, 0x09, 0x11,
  0x01, 0x01, 0x01, 0x03, 0x01, 0x01, 0x03, 0x05,
  0x01, 0x01, 0x01, 0x03, 0x03, 0x03, 0x05, 0x09,
  0x03, 0x03, 0x03, 0x03, 0x03, 0x03, 0x03, 0x07,
  0x05, 0x05, 0x05, 0x07, 0x09, 0x09, 0x11, 0x21,
  0x02, 0x03, 0x03, 0x02, 0x03, 0x03, 0x02, 0x06,
  0x03, 0x03, 0x03, 0x03, 0x02, 0x03, 0x06, 0x0a,
  0x03, 0x03, 0x03, 0x03, 0x03, 0x03, 0x03, 0x07,
  0x02, 0x03, 0x03, 0x02, 0x06, 0x07, 0x0a, 0x12,
  0x04, 0x05, 0x05, 0x06, 0x05, 0x05, 0x06, 0x04,
  0x05, 0x05, 0x05, 0x07, 0x06, 0x07, 0x04, 0x0c,
  0x08, 0x09, 0x09, 0x0a, 0x09, 0x09, 0x0a, 0x0c,
  0x10, 0x11, 0x11, 0x12, 0x20, 0x21, 0x40, 0x80]

/-- `fragtbl[fs_frag]` -/
def fragtbl (frag : Frag) (map : ℕ) : ℕ :=
  match frag with
  | .eight => fragtbl8.getD map 0
  | _ => fragtbl124.getD map 0

/-- The inner loop of `ffs_fragacct` from a position on: what is added to `fraglist[siz]`.  The first
argument bounds the passes; each pass goes on by a position at least. -/
def fragacctPos (frag : Frag) (fragmap siz : ℕ) : ℕ → ℕ → ℕ → ℕ → ℕ
  | 0, _, _, _ => 0
  | n + 1, pos, field, subfield =>
    if pos ≤ frag.num then
      if fragmap &&& field = subfield then
        1 + fragacctPos frag fragmap siz n (pos + siz + 1) (field <<< siz <<< 1)
          (subfield <<< siz <<< 1)
      else fragacctPos frag fragmap siz n (pos + 1) (field <<< 1) (subfield <<< 1)
    else 0

/-- The pass of the outer loop of `ffs_fragacct` for one size. -/
def fragacctSize (frag : Frag) (fragmap siz : ℕ) : ℕ :=
  if (fragtbl frag fragmap <<< 1) &&& (1 <<< (siz + frag.num % nbby)) = 0 then 0
  else fragacctPos frag (fragmap <<< 1) siz (frag.num + 1) siz (around siz) (inside siz)

/-- `ffs_fragacct` -/
def ffsFragacct (frag : Frag) (fragmap : ℕ) (fraglist : ℕ → ℤ) (cnt : ℤ) (siz : ℕ) : ℤ :=
  if 1 ≤ siz ∧ siz < frag.num then fraglist siz + cnt * fragacctSize frag fragmap siz
  else fraglist siz

/-- `scanc` from a byte on, with what is left of the size when a byte is found -/
def scanc (table : ℕ → ℕ) (mask : ℕ) (map : Map) : ℕ → ℕ → ℕ
  | 0, _ => 0
  | size + 1, cp =>
    if table (map cp).toNat &&& mask ≠ 0 then size + 1 else scanc table mask map size (cp + 1)

/-- The inner loop of `ffs_mapsearch` over the positions in a block. -/
def siftPos (blk field subfield pos : ℕ) : ℕ → Option ℕ
  | 0 => none
  | n + 1 =>
    if blk &&& field = subfield then some pos
    else siftPos blk (field <<< 1) (subfield <<< 1) (pos + 1) n

/-- The outer loop of `ffs_mapsearch` over the blocks of a byte. -/
def sift (frag : Frag) (map : Map) (allocsiz bno : ℕ) : ℕ → Option ℕ
  | 0 => none
  | n + 1 =>
    match siftPos (blkmap frag map bno <<< 1) (around allocsiz) (inside allocsiz) 0
        (frag.num - allocsiz + 1) with
    | some pos => some (bno + pos)
    | none => sift frag map allocsiz (bno + frag.num) n

/-- The mask that `ffs_mapsearch` gives to `scanc` -/
def scanMask (frag : Frag) (allocsiz : ℕ) : ℕ := 1 <<< (allocsiz - 1 + frag.num % nbby)

/-! ## Single bits -/

variable {frag : Frag} {m : Map} {i h lo n j v siz pos k a : ℕ} {mask : BitVec 8}

theorem isset_eq (m : Map) (i : ℕ) : isset m i = (m (i / nbby)).getLsbD (i % nbby) := by
  rw [isset, Bool.eq_iff_iff, bne_iff_ne]
  exact BitRange.and_bit_ne_zero_iff (mod_lt i (by decide))

/-- Setting a run of bits in a byte. -/
theorem isset_update_or (hrun : BitRange.IsRun mask lo n) (m : Map)
    (b j : ℕ) : isset (update m b (m b ||| mask)) j =
      (isset m j || decide (j / nbby = b ∧ lo ≤ j % nbby ∧ j % nbby < lo + n)) := by
  rw [isset_eq, isset_eq]
  by_cases hbyte : j / nbby = b
  · rw [hbyte, update_self, hrun.getLsbD_or]
    simp
  · rw [update_of_ne hbyte, decide_eq_false fun h => hbyte h.1, Bool.or_false]

/-- Clearing a run of bits in a byte. -/
theorem isset_update_and_not (hrun : BitRange.IsRun mask lo n)
    (m : Map) (b j : ℕ) : isset (update m b (m b &&& ~~~mask)) j =
      (isset m j && !decide (j / nbby = b ∧ lo ≤ j % nbby ∧ j % nbby < lo + n)) := by
  rw [isset_eq, isset_eq]
  by_cases hbyte : j / nbby = b
  · rw [hbyte, update_self, hrun.getLsbD_and_not]
    simp
  · rw [update_of_ne hbyte, decide_eq_false fun h => hbyte h.1, Bool.not_false, Bool.and_true]

theorem isRun_bit (i : ℕ) : BitRange.IsRun (1#8 <<< (i % nbby)) (i % nbby) 1 :=
  BitRange.isRun_one (mod_lt i (by decide))

theorem byte_bit_iff (i j : ℕ) :
    (j / nbby = i / nbby ∧ i % nbby ≤ j % nbby ∧ j % nbby < i % nbby + 1) ↔ j = i := by
  simp only [nbby]
  omega

theorem isset_setbit (m : Map) (i j : ℕ) :
    isset (setbit m i) j = (isset m j || decide (j = i)) := by
  rw [setbit, isset_update_or (isRun_bit i), decide_eq_decide.mpr (byte_bit_iff i j)]

theorem isset_clrbit (m : Map) (i j : ℕ) :
    isset (clrbit m i) j = (isset m j && !decide (j = i)) := by
  rw [clrbit, isset_update_and_not (isRun_bit i), decide_eq_decide.mpr (byte_bit_iff i j)]

/-! ## Blocks -/

/-- The blocks of a byte. -/
def Frag.perByte (frag : Frag) : ℕ := nbby / frag.num

/-- The byte of a block, and where the block is in it. -/
def blkByte (frag : Frag) (h : ℕ) : ℕ := h / frag.perByte

/-- The first bit of a block in its byte. -/
def blkShift (frag : Frag) (h : ℕ) : ℕ := h % frag.perByte * frag.num

/-- The bits of a block in its byte. -/
def blkMask (frag : Frag) (h : ℕ) : BitVec 8 := BitVec.ofNat 8 (2 ^ frag.num - 1) <<< blkShift frag h

theorem Frag.num_pos (frag : Frag) : 0 < frag.num := by cases frag <;> decide

theorem Frag.num_le (frag : Frag) : frag.num ≤ nbby := by cases frag <;> decide

theorem blkShift_le (frag : Frag) (h : ℕ) : blkShift frag h + frag.num ≤ nbby := by
  cases frag <;> simp only [blkShift, Frag.perByte, Frag.num, nbby] <;> omega

theorem isRun_blkMask (frag : Frag) (h : ℕ) :
    BitRange.IsRun (blkMask frag h) (blkShift frag h) frag.num := by
  have hle := blkShift_le frag h
  have hlow : ∀ i, (BitVec.ofNat 8 (2 ^ frag.num - 1)).getLsbD i = decide (i < frag.num) := by
    intro i
    have := frag.num_le
    rw [BitVec.getLsbD_ofNat, testBit_two_pow_sub_one, Bool.eq_iff_iff]
    simp only [Bool.and_eq_true, decide_eq_true_eq, nbby] at this ⊢
    omega
  intro i
  rw [blkMask, BitVec.getLsbD_shiftLeft, hlow, Bool.eq_iff_iff]
  simp only [Bool.and_eq_true, Bool.not_eq_true', decide_eq_true_eq, decide_eq_false_iff_not, nbby]
    at hle ⊢
  omega

/-- The bits of a block among the bits of its byte. -/
theorem div_eq_iff_byte_bit (frag : Frag) (h i : ℕ) : i / frag.num = h ↔
    i / nbby = blkByte frag h ∧ blkShift frag h ≤ i % nbby ∧
      i % nbby < blkShift frag h + frag.num := by
  cases frag <;> simp only [blkByte, blkShift, Frag.perByte, Frag.num, nbby] <;> omega

theorem mod_mul_pow (h k s : ℕ) : h % 2 ^ k * 2 ^ s = (h &&& (2 ^ k - 1)) <<< s := by
  rw [and_two_pow_sub_one_eq_mod, shiftLeft_eq]

/-- The four cases of the block operations are one: a byte and a mask. -/
theorem block_switch (h : ℕ) {P : Frag → ℕ → BitVec 8 → Prop} (eight : P .eight h 0xff#8)
    (four : P .four (h >>> 1) (0x0f#8 <<< ((h &&& 0x1) <<< 2)))
    (two : P .two (h >>> 2) (0x03#8 <<< ((h &&& 0x3) <<< 1)))
    (one : P .one (h >>> 3) (0x01#8 <<< (h &&& 0x7))) (frag : Frag) :
    P frag (blkByte frag h) (blkMask frag h) := by
  rw [shiftRight_eq_div_pow] at one two four
  cases frag
  · exact (congrArg (fun i => P .one (h / 2 ^ 3) (0x01#8 <<< i)) (mod_mul_pow h 3 0)).mpr one
  · exact (congrArg (fun i => P .two (h / 2 ^ 2) (0x03#8 <<< i)) (mod_mul_pow h 2 1)).mpr two
  · exact (congrArg (fun i => P .four (h / 2 ^ 1) (0x0f#8 <<< i)) (mod_mul_pow h 1 2)).mpr four
  · rw [blkByte, blkMask, blkShift, show Frag.eight.perByte = 1 from rfl, Nat.div_one, mod_one]
    exact eight

theorem isblock_eq (frag : Frag) (m : Map) (h : ℕ) :
    ffsIsblock frag m h = (m (blkByte frag h) &&& blkMask frag h == blkMask frag h) := by
  refine block_switch (P := fun f b mask => ffsIsblock f m h = (m b &&& mask == mask)) h ?_ rfl rfl
    rfl frag
  rw [ffsIsblock, show (0xff#8) = BitVec.allOnes 8 from rfl, BitVec.and_allOnes]

theorem isfreeblock_eq (frag : Frag) (m : Map) (h : ℕ) :
    ffsIsfreeblock frag m h = (m (blkByte frag h) &&& blkMask frag h == 0#8) := by
  refine block_switch (P := fun f b mask => ffsIsfreeblock f m h = (m b &&& mask == 0#8)) h ?_ rfl
    rfl rfl frag
  rw [ffsIsfreeblock, show (0xff#8) = BitVec.allOnes 8 from rfl, BitVec.and_allOnes]

theorem clrblock_eq (frag : Frag) (m : Map) (h : ℕ) : ffsClrblock frag m h =
    update m (blkByte frag h) (m (blkByte frag h) &&& ~~~blkMask frag h) := by
  refine block_switch (P := fun f b mask => ffsClrblock f m h = update m b (m b &&& ~~~mask)) h ?_
    rfl rfl rfl frag
  rw [ffsClrblock, show ~~~(0xff#8) = 0#8 from rfl, BitVec.and_zero]

theorem setblock_eq (frag : Frag) (m : Map) (h : ℕ) : ffsSetblock frag m h =
    update m (blkByte frag h) (m (blkByte frag h) ||| blkMask frag h) := by
  refine block_switch (P := fun f b mask => ffsSetblock f m h = update m b (m b ||| mask)) h ?_ rfl
    rfl rfl frag
  rw [ffsSetblock, show (0xff#8) = BitVec.allOnes 8 from rfl, BitVec.or_allOnes]

/-- The fragments of a block, by their number in the block. -/
def blk (frag : Frag) (m : Map) (b : ℕ) (j : ℕ) : Bool :=
  decide (j < frag.num) && isset m (b * frag.num + j)

theorem blk_of_lt (m : Map) (b : ℕ) (hj : j < frag.num) :
    blk frag m b j = isset m (b * frag.num + j) := by
  rw [blk, decide_eq_true hj, Bool.true_and]

theorem blk_of_le (m : Map) (b : ℕ) (hj : frag.num ≤ j) : blk frag m b j = false := by
  rw [blk, decide_eq_false (Nat.not_lt.mpr hj), Bool.false_and]

theorem mul_div_nbby (frag : Frag) (h : ℕ) : h * frag.num / nbby = blkByte frag h := by
  cases frag <;> simp only [blkByte, Frag.perByte, Frag.num, nbby] <;> omega

theorem mul_mod_nbby (frag : Frag) (h : ℕ) : h * frag.num % nbby = blkShift frag h := by
  cases frag <;> simp only [blkShift, Frag.perByte, Frag.num, nbby] <;> omega

/-- A fragment of a block, as a bit of the byte. -/
theorem blk_eq_byte (frag : Frag) (m : Map) (h : ℕ) (hj : j < frag.num) :
    blk frag m h j = (m (blkByte frag h)).getLsbD (blkShift frag h + j) := by
  have hle := blkShift_le frag h
  have hbyte := mul_div_nbby frag h
  have hbit := mul_mod_nbby frag h
  rw [blk_of_lt m h hj, isset_eq]
  simp only [nbby] at hle hbyte hbit ⊢
  rw [show (h * frag.num + j) / 8 = blkByte frag h by omega,
    show (h * frag.num + j) % 8 = blkShift frag h + j by omega]

/-- A property of the bits of the block in its byte. -/
theorem forall_block (frag : Frag) (m : Map) (h : ℕ) (v : Bool) :
    (∀ i, blkShift frag h ≤ i → i < blkShift frag h + frag.num →
      (m (blkByte frag h)).getLsbD i = v) ↔ ∀ j < frag.num, blk frag m h j = v := by
  constructor
  · intro hall j hj
    rw [blk_eq_byte frag m h hj]
    exact hall _ (by omega) (by omega)
  · intro hall i hlo hhi
    have hj := hall (i - blkShift frag h) (by omega)
    rwa [blk_eq_byte frag m h (by omega), Nat.add_sub_cancel' hlo] at hj

/-- **`ffs_isblock`**: all fragments of the block are free. -/
theorem isblock_iff (frag : Frag) (m : Map) (h : ℕ) :
    ffsIsblock frag m h = true ↔ Full (blk frag m h) frag.num := by
  rw [isblock_eq, beq_iff_eq, (isRun_blkMask frag h).and_eq_self_iff, forall_block]
  rfl

/-- **`ffs_isfreeblock`**: all fragments of the block are in use. -/
theorem isfreeblock_iff (frag : Frag) (m : Map) (h : ℕ) :
    ffsIsfreeblock frag m h = true ↔ ∀ j < frag.num, blk frag m h j = false := by
  rw [isfreeblock_eq, beq_iff_eq, ← forall_block]
  exact (isRun_blkMask frag h).and_eq_zero_iff

theorem isset_clrblock (frag : Frag) (m : Map) (h i : ℕ) :
    isset (ffsClrblock frag m h) i = (isset m i && !decide (i / frag.num = h)) := by
  rw [clrblock_eq, isset_update_and_not (isRun_blkMask frag h),
    decide_eq_decide.mpr (div_eq_iff_byte_bit frag h i)]

theorem isset_setblock (frag : Frag) (m : Map) (h i : ℕ) :
    isset (ffsSetblock frag m h) i = (isset m i || decide (i / frag.num = h)) := by
  rw [setblock_eq, isset_update_or (isRun_blkMask frag h),
    decide_eq_decide.mpr (div_eq_iff_byte_bit frag h i)]

/-- `blkmap` has the fragments of a block. -/
theorem testBit_blkmap (frag : Frag) (m : Map) (b : ℕ) :
    (blkmap frag m (b * frag.num)).testBit = blk frag m b := by
  have hmask : 0xff >>> (nbby - frag.num) = 2 ^ frag.num - 1 := by cases frag <;> rfl
  funext j
  rw [blkmap, hmask, testBit_and, testBit_shiftRight, testBit_two_pow_sub_one,
    mul_div_nbby, mul_mod_nbby, Bool.and_comm]
  by_cases hj : j < frag.num
  · rw [blk_eq_byte frag m b hj, decide_eq_true hj]
    rfl
  · rw [blk_of_le m b (Nat.not_lt.mp hj), decide_eq_false hj, Bool.false_and]

/-! ## Patterns -/

/-- The test for a fragment of a size at a position. -/
def Fits (blk siz pos : ℕ) : Prop := blk &&& (around siz <<< pos) = inside siz <<< pos

theorem around_eq : ∀ siz ≤ 8, around siz = 2 ^ (siz + 2) - 1 := by decide

theorem inside_eq : ∀ siz ≤ 8, inside siz = (2 ^ siz - 1) <<< 1 := by decide

/-- The pattern, bit by bit. -/
theorem fits_iff_testBit (hsiz : siz ≤ 8) : Fits (v <<< 1) siz pos ↔
    ∀ i, pos ≤ i → i < pos + siz + 2 →
      ((1 ≤ i ∧ v.testBit (i - 1) = true) ↔ pos + 1 ≤ i ∧ i < pos + 1 + siz) := by
  have hbits : ∀ i, ((v <<< 1 &&& (2 ^ (siz + 2) - 1) <<< pos).testBit i =
      ((2 ^ siz - 1) <<< 1 <<< pos).testBit i) ↔ (pos ≤ i → i < pos + siz + 2 →
        ((1 ≤ i ∧ v.testBit (i - 1) = true) ↔ pos + 1 ≤ i ∧ i < pos + 1 + siz)) := by
    intro i
    rw [Bool.eq_iff_iff]
    simp only [testBit_and, testBit_shiftLeft, testBit_two_pow_sub_one, Bool.and_eq_true,
      decide_eq_true_eq]
    constructor
    · intro heq hlo hhi
      constructor
      · intro hset
        have := heq.mp ⟨hset, hlo, by omega⟩
        omega
      · intro hin
        exact (heq.mpr ⟨hlo, by omega, by omega⟩).1
    · intro heq
      constructor
      · rintro ⟨hset, hlo, hhi⟩
        have := (heq hlo (by omega)).mp hset
        omega
      · rintro ⟨hlo, hone, hhi⟩
        exact ⟨(heq hlo (by omega)).mpr (by omega), hlo, by omega⟩
  rw [Fits, around_eq siz hsiz, inside_eq siz hsiz]
  constructor
  · intro heq i
    exact (hbits i).mp (by rw [heq])
  · intro hall
    exact eq_of_testBit_eq fun i => (hbits i).mpr (hall i)

/-- **The patterns test for maximal runs.** -/
theorem fits_iff (hsiz : 0 < siz) (hle : pos + siz ≤ frag.num)
    (hv : ∀ j, frag.num ≤ j → v.testBit j = false) :
    Fits (v <<< 1) siz pos ↔ MaxRun v.testBit frag.num pos siz := by
  have hnum : frag.num ≤ 8 := frag.num_le
  rw [fits_iff_testBit (by omega)]
  constructor
  · intro hfits
    refine ⟨hsiz, hle, fun j hj => ?_, ?_, .inr ?_⟩
    · have := ((hfits (pos + j + 1) (by omega) (by omega)).mpr (by omega)).2
      rwa [Nat.add_sub_cancel] at this
    · by_contra hcon
      rw [not_or, Bool.not_eq_false] at hcon
      have := (hfits pos (Nat.le_refl _) (by omega)).mp ⟨by omega, hcon.2⟩
      omega
    · by_contra hset
      rw [Bool.not_eq_false] at hset
      have := (hfits (pos + siz + 1) (by omega) (by omega)).mp ⟨by omega, hset⟩
      omega
  · intro hrun i hlo hhi
    obtain ⟨-, -, -, hleft, hright⟩ := id hrun
    constructor
    · rintro ⟨hone, hset⟩
      refine ⟨?_, ?_⟩
      · by_contra hcon
        rcases hleft with hzero | hclear
        · omega
        · rw [show i - 1 = pos - 1 by omega, hclear] at hset
          cases hset
      · by_contra hcon
        have hclear : v.testBit (i - 1) = false := by
          rcases hright with hend | hclear
          · exact hv _ (by omega)
          · rwa [show i - 1 = pos + siz by omega]
        rw [hclear] at hset
        cases hset
    · rintro ⟨hlo', hhi'⟩
      exact ⟨by omega, hrun.set (by omega) (by omega)⟩

/-! ## The tables -/

/-- The lengths of the runs in the blocks of a byte. -/
def byteRuns (frag : Frag) (v : ℕ) : ℕ :=
  (List.range frag.perByte).foldr
    (fun c acc => lenMask (fun j => v.testBit (c * frag.num + j)) frag.num 0 0 ||| acc) 0

theorem fragtbl8_eq : fragtbl8 = (List.range 256).map (byteRuns .eight) := by decide +kernel

theorem fragtbl124_eq : fragtbl124 = (List.range 256).map fun v =>
    byteRuns .one v <<< 1 ||| byteRuns .two v <<< 2 ||| byteRuns .four v <<< 4 := by
  decide +kernel

theorem testBit_foldr_or (f : ℕ → ℕ) (k : ℕ) : ∀ l : List ℕ,
    (l.foldr (fun c acc => f c ||| acc) 0).testBit k = true ↔ ∃ c ∈ l, (f c).testBit k = true := by
  intro l
  induction l with
  | nil => simp only [foldr_nil, zero_testBit, not_mem_nil, false_and, exists_false,
      Bool.false_eq_true]
  | cons c l ih => rw [foldr_cons, testBit_or, Bool.or_eq_true, ih, exists_mem_cons_iff]

theorem testBit_byteRuns (frag : Frag) (v k : ℕ) : (byteRuns frag v).testBit k = true ↔
    ∃ c < frag.perByte, ∃ p, MaxRun (fun j => v.testBit (c * frag.num + j)) frag.num p (k + 1) := by
  rw [byteRuns, testBit_foldr_or]
  refine exists_congr fun c => and_congr mem_range ?_
  rw [testBit_lenMask _ 0 0 (Nat.zero_add _) (Nat.le_refl _) (fun _ _ h => absurd h (Nat.not_lt_zero _))
    (.inl rfl)]
  exact exists_congr fun p => and_iff_right (Nat.zero_le _)

theorem testBit_byteRuns_high (frag : Frag) (v k : ℕ) (hk : frag.num ≤ k) :
    (byteRuns frag v).testBit k = false := by
  by_contra hset
  rw [Bool.not_eq_false, testBit_byteRuns] at hset
  obtain ⟨c, -, p, hrun⟩ := hset
  have := hrun.2.1
  omega

/-- **The tables hold the sizes of the maximal runs.** -/
theorem testBit_fragtbl (frag : Frag) (hv : v < 256) (hk : k < frag.num) :
    (fragtbl frag v).testBit (k + frag.num % nbby) = (byteRuns frag v).testBit k := by
  have hget : ∀ f : ℕ → ℕ, ((List.range 256).map f).getD v 0 = f v := by
    intro f
    rw [getD_eq_getElem?_getD, getElem?_map, getElem?_range hv]
    rfl
  have h1 := testBit_byteRuns_high .one v
  have h2 := testBit_byteRuns_high .two v
  cases frag
  · change ((fragtbl124.getD v 0).testBit (k + 1)) = _
    rw [fragtbl124_eq, hget, testBit_or, testBit_or, testBit_shiftLeft]
    change k < 1 at hk
    simp [show ¬k + 1 ≥ 2 by omega, show ¬k + 1 ≥ 4 by omega]
  · change ((fragtbl124.getD v 0).testBit (k + 2)) = _
    rw [fragtbl124_eq, hget, testBit_or, testBit_or, testBit_shiftLeft]
    change k < 2 at hk
    simp [show ¬k + 2 ≥ 4 by omega, h1 (k + 1) (Nat.le_add_left 1 k)]
  · change ((fragtbl124.getD v 0).testBit (k + 4)) = _
    rw [fragtbl124_eq, hget, testBit_or, testBit_or, testBit_shiftLeft]
    simp [h1 (k + 3) (Nat.le_add_left 1 _), h2 (k + 2) (Nat.le_add_left 2 k)]
  · change ((fragtbl8.getD v 0).testBit (k + 0)) = _
    rw [fragtbl8_eq, hget, Nat.add_zero]

theorem and_one_shiftLeft_ne_zero (x n : ℕ) : x &&& (1 <<< n) ≠ 0 ↔ x.testBit n = true := by
  rw [one_shiftLeft, and_two_pow]
  cases x.testBit n
  · simp
  · simp

/-- The byte that holds a block with a maximal run of a size. -/
theorem table_iff (frag : Frag) (m : Map) (cp : ℕ) (ha : 0 < a) (hle : a ≤ frag.num) :
    fragtbl frag (m cp).toNat &&& scanMask frag a ≠ 0 ↔
      ∃ b, blkByte frag b = cp ∧ ∃ pos, MaxRun (blk frag m b) frag.num pos a := by
  obtain ⟨k, rfl⟩ := exists_eq_succ_of_ne_zero (Nat.pos_iff_ne_zero.mp ha)
  rw [scanMask, and_one_shiftLeft_ne_zero, succ_sub_one,
    testBit_fragtbl frag (m cp).isLt hle, testBit_byteRuns]
  have hper : 0 < frag.perByte := by cases frag <;> decide
  have hbyte : ∀ c < frag.perByte, blkByte frag (cp * frag.perByte + c) = cp := by
    intro c hc
    rw [blkByte, Nat.mul_comm, mul_add_div hper, div_eq_of_lt hc, Nat.add_zero]
  have hrun : ∀ c < frag.perByte, ∀ p,
      MaxRun (fun j => (m cp).toNat.testBit (c * frag.num + j)) frag.num p (k + 1) ↔
        MaxRun (blk frag m (cp * frag.perByte + c)) frag.num p (k + 1) := by
    intro c hc p
    have hshift : blkShift frag (cp * frag.perByte + c) = c * frag.num := by
      rw [blkShift, Nat.mul_comm cp, mul_add_mod, mod_eq_of_lt hc]
    refine MaxRun.congr_below fun j hj => ?_
    rw [blk_eq_byte frag m _ hj, hbyte c hc, hshift]
    rfl
  constructor
  · rintro ⟨c, hc, p, hp⟩
    exact ⟨cp * frag.perByte + c, hbyte c hc, p, (hrun c hc p).mp hp⟩
  · rintro ⟨b, rfl, p, hp⟩
    refine ⟨b % frag.perByte, mod_lt b hper, p, (hrun _ (mod_lt b hper) p).mpr ?_⟩
    rwa [blkByte, Nat.mul_comm, div_add_mod]

/-! ## The search -/

/-- **`scanc`** finds a byte, or there is none. -/
theorem scanc_spec (table : ℕ → ℕ) (mask : ℕ) (m : Map) : ∀ size cp,
    (scanc table mask m size cp = 0 ∧
      ∀ i, cp ≤ i → i < cp + size → table (m i).toNat &&& mask = 0) ∨
    (0 < scanc table mask m size cp ∧ scanc table mask m size cp ≤ size ∧
      table (m (cp + size - scanc table mask m size cp)).toNat &&& mask ≠ 0) := by
  intro size
  induction size with
  | zero => exact fun cp => .inl ⟨rfl, fun i hlo hhi => absurd hhi (Nat.not_lt.mpr hlo)⟩
  | succ size ih =>
    intro cp
    rw [scanc]
    split_ifs with hmiss
    · refine .inr ⟨succ_pos _, Nat.le_refl _, ?_⟩
      rwa [Nat.add_sub_cancel]
    · rw [not_not] at hmiss
      rcases ih (cp + 1) with ⟨hzero, hnone⟩ | ⟨hpos, hle, hhit⟩
      · refine .inl ⟨hzero, fun i hlo hhi => ?_⟩
        by_cases hi : i = cp
        · exact hi ▸ hmiss
        · exact hnone i (by omega) (by omega)
      · refine .inr ⟨hpos, by omega, ?_⟩
        rwa [show cp + (size + 1) = cp + 1 + size by omega]

theorem siftPos_spec (w a : ℕ) : ∀ n pos,
    (siftPos w (around a <<< pos) (inside a <<< pos) pos n = none ∧
      ∀ r, pos ≤ r → r < pos + n → ¬Fits w a r) ∨
    ∃ r, siftPos w (around a <<< pos) (inside a <<< pos) pos n = some r ∧ pos ≤ r ∧ r < pos + n ∧
      Fits w a r := by
  intro n
  induction n with
  | zero => exact fun pos => .inl ⟨rfl, fun r hlo hhi => absurd hhi (Nat.not_lt.mpr hlo)⟩
  | succ n ih =>
    intro pos
    rw [siftPos]
    split_ifs with hmiss
    · exact .inr ⟨pos, rfl, Nat.le_refl _, by omega, ‹_›⟩
    · rw [← shiftLeft_add, ← shiftLeft_add]
      rcases ih (pos + 1) with ⟨hnone, hall⟩ | ⟨r, hsome, hlo, hhi, hfits⟩
      · refine .inl ⟨hnone, fun r hlo hhi => ?_⟩
        by_cases hr : r = pos
        · exact hr ▸ hmiss
        · exact hall r (by omega) (by omega)
      · exact .inr ⟨r, hsome, by omega, by omega, hfits⟩

/-- The patterns on a block of the map. -/
theorem fits_blkmap (frag : Frag) (m : Map) (b : ℕ) (ha : 0 < a) (hle : pos + a ≤ frag.num) :
    Fits (blkmap frag m (b * frag.num) <<< 1) a pos ↔ MaxRun (blk frag m b) frag.num pos a := by
  rw [← testBit_blkmap]
  refine fits_iff ha hle fun j hj => ?_
  rw [testBit_blkmap, blk_of_le m b hj]

/-- **The sift through the blocks** finds a maximal run of the size, or there is none. -/
theorem sift_spec (frag : Frag) (m : Map) (ha : 0 < a) (hle : a ≤ frag.num) : ∀ n b,
    (sift frag m a (b * frag.num) n = none ∧
      ∀ c, b ≤ c → c < b + n → ∀ pos, ¬MaxRun (blk frag m c) frag.num pos a) ∨
    ∃ c pos, sift frag m a (b * frag.num) n = some (c * frag.num + pos) ∧ b ≤ c ∧ c < b + n ∧
      MaxRun (blk frag m c) frag.num pos a := by
  intro n
  induction n with
  | zero => exact fun b => .inl ⟨rfl, fun c hlo hhi => absurd hhi (Nat.not_lt.mpr hlo)⟩
  | succ n ih =>
    intro b
    rw [sift]
    rcases siftPos_spec (blkmap frag m (b * frag.num) <<< 1) a (frag.num - a + 1) 0 with
      ⟨hnone, hall⟩ | ⟨pos, hsome, -, hpos, hfits⟩
    · rw [shiftLeft_zero, shiftLeft_zero] at hnone
      rw [hnone]
      rw [show b * frag.num + frag.num = (b + 1) * frag.num from (succ_mul b _).symm]
      rcases ih (b + 1) with ⟨hnone', hall'⟩ | ⟨c, pos, hsome, hlo, hhi, hrun⟩
      · refine .inl ⟨hnone', fun c hlo hhi pos hrun => ?_⟩
        by_cases hc : c = b
        · subst hc
          have := hrun.2.1
          exact hall pos (Nat.zero_le _) (by omega) ((fits_blkmap frag m c ha this).mpr hrun)
        · exact hall' c (by omega) (by omega) pos hrun
      · exact .inr ⟨c, pos, hsome, by omega, by omega, hrun⟩
    · rw [shiftLeft_zero, shiftLeft_zero] at hsome
      rw [hsome]
      exact .inr ⟨b, pos, rfl, Nat.le_refl _, by omega,
        (fits_blkmap frag m b ha (by omega)).mp hfits⟩

/-! ## `ffs_fragacct` -/

theorem fragacctPos_eq (hsiz : 0 < siz) (hv : ∀ j, frag.num ≤ j → v.testBit j = false) :
    ∀ n s, frag.num + 1 ≤ s + siz + n →
      fragacctPos frag (v <<< 1) siz n (s + siz) (around siz <<< s) (inside siz <<< s) =
        runsFrom v.testBit frag.num siz s := by
  intro n
  induction n with
  | zero => exact fun s hn => (runsFrom_end (by omega)).symm
  | succ n ih =>
    intro s hn
    rw [fragacctPos]
    split
    · rename_i hle
      split_ifs with hfits
      · rw [runsFrom_of_run ((fits_iff hsiz hle hv).mp hfits), ← ih (s + siz + 1) (by omega)]
        simp only [← shiftLeft_add, Nat.add_assoc]
        rw [show s + (siz + (siz + 1)) = s + (siz + (1 + siz)) by omega]
      · have hrun : ¬MaxRun v.testBit frag.num s siz := fun hrun =>
          hfits ((fits_iff hsiz hle hv).mpr hrun)
        rw [runsFrom_of_not hrun, ← ih (s + 1) (by omega), ← shiftLeft_add, ← shiftLeft_add,
          show s + siz + 1 = s + 1 + siz by omega]
    · exact (runsFrom_end (by omega)).symm

theorem fragacctSize_eq (hsiz : 0 < siz) (hlt : siz < frag.num)
    (hv : ∀ j, frag.num ≤ j → v.testBit j = false) :
    fragacctSize frag v siz = runs v.testBit frag.num siz := by
  have hnum : frag.num ≤ 8 := frag.num_le
  have hpos := fragacctPos_eq hsiz hv (frag.num + 1) 0 (by omega)
  rw [Nat.zero_add, shiftLeft_zero, runsFrom_zero] at hpos
  rw [fragacctSize]
  split_ifs with htable
  · -- the table has no run of this size
    refine (Nat.count_iff_forall_not.mpr fun p _ hrun => ?_).symm
    have hv256 : v < 2 ^ 8 := lt_pow_two_of_testBit v fun j hj => hv j (by omega)
    have hbyte : (byteRuns frag v).testBit (siz - 1) = true := by
      rw [testBit_byteRuns]
      refine ⟨0, by cases frag <;> decide, p, ?_⟩
      simp only [Nat.zero_mul, Nat.zero_add, Nat.sub_add_cancel hsiz]
      exact hrun
    rw [← testBit_fragtbl frag hv256 (by omega)] at hbyte
    refine (and_one_shiftLeft_ne_zero _ _).mpr ?_ htable
    rw [testBit_shiftLeft, decide_eq_true (by omega : siz + frag.num % nbby ≥ 1),
      show siz + frag.num % nbby - 1 = siz - 1 + frag.num % nbby by omega]
    exact hbyte
  · exact hpos

/-- **`ffs_fragacct`** counts the maximal runs of the block. -/
theorem fragacct_eq (frag : Frag) (m : Map) (b : ℕ) (fraglist : ℕ → ℤ) (cnt : ℤ) (hk : 0 < k)
    (hlt : k < frag.num) :
    ffsFragacct frag (blkmap frag m (b * frag.num)) fraglist cnt k =
      fraglist k + cnt * runs (blk frag m b) frag.num k := by
  have hv : ∀ j, frag.num ≤ j → (blkmap frag m (b * frag.num)).testBit j = false := by
    intro j hj
    rw [testBit_blkmap, blk_of_le m b hj]
  rw [ffsFragacct, if_pos ⟨hk, hlt⟩, fragacctSize_eq hk hlt hv, testBit_blkmap]

end FreeBSDSys.Ffs
