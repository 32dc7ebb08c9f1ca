import CordRs.Cord.Buffer
import Mathlib.Data.Nat.Log

/-!
# The sizes of the flats behind buffers

A flat stores its allocation size as a tag of one byte, so only some sizes can be allocated: the
size for a request is rounded up to the next one that has a tag. A buffer with a block size is
first given a size that is a power of two, or that fits the request where it is small.

Every addition, subtraction and multiplication on the way is checked here and panics where the
machine's would wrap.

## Main definitions

* `CordRs.Checked.add`, `CordRs.Checked.sub`, `CordRs.Checked.mul`, and the size classes with them.
* `CordRs.FlatAlloc`, `CordRs.newImpl`: the allocation of a flat.
* `CordRs.CordBuffer.maxCapacityFor`, `CordRs.CordBuffer.withCapacityAndBlockSize`.

## Main results

* `CordRs.newImpl_eq`: the size and the tag of an allocation; no step wraps.
* `CordRs.CordBuffer.block_size_exact`: the capacity of a buffer with a block size.
-/

namespace CordRs

open RefHeap

section Target

variable [Target]

namespace Checked

/-- Addition that panics where it would wrap. -/
def add (a b : ℕ) : Except Fault ℕ :=
  if a + b ≤ usizeMax then .ok (a + b) else .error (.panic "attempt to add with overflow")

/-- Subtraction that panics where it would wrap. -/
def sub (a b : ℕ) : Except Fault ℕ :=
  if b ≤ a then .ok (a - b) else .error (.panic "attempt to subtract with overflow")

/-- Multiplication that panics where it would wrap. -/
def mul (a b : ℕ) : Except Fault ℕ :=
  if a * b ≤ usizeMax then .ok (a * b) else .error (.panic "attempt to multiply with overflow")

/-- A number that must fit a byte. -/
def smallU8 (n : ℕ) : Except Fault ℕ :=
  if n ≤ 255 then .ok n else .error (.panic "assertion failed: value <= u8::MAX as usize")

/-- The least power of two that is not less than a number. -/
def nextPowerOfTwo (n : ℕ) : Except Fault ℕ :=
  if 2 ^ Nat.clog 2 n ≤ usizeMax then .ok (2 ^ Nat.clog 2 n)
  else .error (.panic "attempt to add with overflow")

/-- The binary logarithm, rounded down. -/
def ilog2 (n : ℕ) : Except Fault ℕ :=
  if n = 0 then .error (.panic "argument of integer logarithm must be positive")
  else .ok (Nat.log 2 n)

/-- The tag of an allocation size. -/
def allocatedSizeToTag (size : ℕ) : Except Fault ℕ := do
  let tag ←
    if size ≤ 512 then
      add tagBase (size / 8)
    else if size ≤ 8192 then do
      let tag ← add (tagBase + 512 / 8) (size / 64)
      sub tag (512 / 64)
    else do
      let tag ← add (tagBase + 512 / 8 + (8192 - 512) / 64) (size / 4096)
      sub tag (8192 / 4096)
  smallU8 tag

/-- The allocation size of a tag. -/
def tagToAllocatedSize (tag : ℕ) : Except Fault ℕ := do
  if tag ≤ tagBase + 512 / 8 then
    let size ← mul tag 8
    sub size (tagBase * 8)
  else if tag ≤ tagBase + 512 / 8 + (8192 - 512) / 64 then
    let scaled ← mul tag 64
    let size ← add 512 scaled
    let size ← sub size (tagBase * 64)
    sub size (512 / 8 * 64)
  else
    let scaled ← mul tag 4096
    let size ← add 8192 scaled
    let size ← sub size (tagBase * 4096)
    sub size ((512 / 8 + (8192 - 512) / 64) * 4096)

/-- Round up to a multiple of `m`, a power of two. -/
def roundUp (n m : ℕ) : Except Fault ℕ := do
  let size ← add n m
  let size ← sub size 1
  pure (size &&& (2 ^ Target.bits - m))

/-- Round an allocation size up to one that has a tag. -/
def roundUpForTag (size : ℕ) : Except Fault ℕ :=
  roundUp size (if size ≤ 512 then 8 else if size ≤ 8192 then 64 else 4096)

end Checked

/-- The size of the block allocated for a flat, and the tag stored in it. -/
structure FlatAlloc where
  size : ℕ
  tag : ℕ
  deriving Repr, DecidableEq

/-- The allocation of a flat for `len` bytes in a block of at most `maxSize`. -/
def newImpl (maxSize len : ℕ) : Except Fault FlatAlloc := do
  let limit ← Checked.sub maxSize flatOverhead
  let len := if len ≤ minFlatLength then minFlatLength else if limit < len then limit else len
  let size ← Checked.add len flatOverhead
  let size ← Checked.roundUpForTag size
  let tag ← Checked.allocatedSizeToTag size
  pure ⟨size, tag⟩

namespace CordBuffer

/-- The largest block a buffer is given. -/
def maxBlockSize : ℕ := 64 * 1024

/-- The bytes that rounding up to a power of two may waste. -/
def maxPageSlop : ℕ := 128

/-- The largest capacity of a buffer with a block size. -/
def maxCapacityFor (blockSize : ℕ) : Except Fault ℕ := do
  if blockSize.isPowerOfTwo ∧ flatOverhead < blockSize then
    let limit := if blockSize < maxBlockSize then blockSize else maxBlockSize
    let payload ← Checked.sub limit flatOverhead
    pure (if payload < minFlatLength then minFlatLength else payload)
  else
    throw (.panic "block_size must be a power of two greater than FLAT_OVERHEAD")

/-- The number of bytes that the flat of a buffer with a block size is requested for. -/
def blockLength (capacity blockSize : ℕ) : Except Fault ℕ := do
  if blockSize.isPowerOfTwo ∧ flatOverhead < blockSize then
    let capacity := min capacity maxBlockSize
    let blockSize := min blockSize maxBlockSize
    let needed ← Checked.add capacity flatOverhead
    let capacity ←
      if blockSize ≤ needed then
        pure blockSize
      else if capacity ≤ defaultMaxCapacity then
        Checked.add capacity flatOverhead
      else if ¬capacity.isPowerOfTwo then do
        let roundedUp ← Checked.nextPowerOfTwo capacity
        let slop ← Checked.sub roundedUp capacity
        if flatOverhead ≤ slop ∧ slop ≤ maxPageSlop + flatOverhead then
          pure roundedUp
        else
          -- Round down to the highest power of two that is not greater.
          let log ← Checked.ilog2 capacity
          pure (2 ^ log)
      else
        pure capacity
    Checked.sub capacity flatOverhead
  else
    throw (.panic s!"block_size must be a power of two greater than FLAT_OVERHEAD ({flatOverhead}), got {blockSize}")

/-- The capacity of a buffer with a block size. -/
def blockCapacity (capacity blockSize : ℕ) : ℕ :=
  match blockLength capacity blockSize with
  | .ok length => tagToLength (newTag maxLargeFlatSize length)
  | .error _ => 0

/-- A buffer for `capacity` bytes in a block of at most `blockSize` bytes. -/
def withCapacityAndBlockSize (capacity blockSize : ℕ) : HeapM CordBuffer := do
  let length ← liftM (blockLength capacity blockSize)
  let block ← liftM (newImpl maxLargeFlatSize length)
  let rep ← alloc (.payload (.flat block.tag []))
  pure (.long rep)

end CordBuffer

/-! ### The allocation of a flat -/

section Checks

variable {a b n size tag maxSize len : ℕ}

theorem le_usizeMax : 2 ^ 32 - 1 ≤ usizeMax := by
  rw [usizeMax]
  obtain hb | hb := Target.bits_eq
  · rw [hb]
  · rw [hb]
    decide

namespace Checked

theorem add_eq (h : a + b ≤ usizeMax) : add a b = .ok (a + b) := if_pos h

omit [Target] in
theorem sub_eq (h : b ≤ a) : sub a b = .ok (a - b) := if_pos h

theorem mul_eq (h : a * b ≤ usizeMax) : mul a b = .ok (a * b) := if_pos h

omit [Target] in
theorem smallU8_eq (h : n ≤ 255) : smallU8 n = .ok n := if_pos h

omit [Target] in
/-- Clearing the low bits rounds down to a multiple. -/
private theorem and_two_pow_sub {w k : ℕ} (hk : k ≤ w) (hn : n < 2 ^ w) :
    n &&& (2 ^ w - 2 ^ k) = n / 2 ^ k * 2 ^ k := by
  have hpow : 2 ^ w - 2 ^ k = 2 ^ w - ((2 ^ k - 1) + 1) := by
    rw [Nat.sub_add_cancel Nat.one_le_two_pow]
  have hlt : 2 ^ k - 1 < 2 ^ w :=
    lt_of_lt_of_le (Nat.sub_one_lt (Nat.two_pow_pos k).ne') (Nat.pow_le_pow_right two_pos hk)
  apply Nat.eq_of_testBit_eq
  intro i
  rw [hpow, Nat.testBit_and, Nat.testBit_two_pow_sub_succ hlt, Nat.testBit_two_pow_sub_one,
    ← Nat.shiftRight_eq_div_pow, ← Nat.shiftLeft_eq, Nat.testBit_shiftLeft, Nat.testBit_shiftRight]
  by_cases hik : k ≤ i
  · rw [Nat.add_sub_cancel' hik]
    by_cases hiw : i < w
    · simp [hik, hiw, hik.not_gt]
    · have hbit : n.testBit i = false :=
        Nat.testBit_lt_two_pow (lt_of_lt_of_le hn (Nat.pow_le_pow_right two_pos (not_lt.mp hiw)))
      simp [hbit]
  · simp [hik, not_le.mp hik]

theorem roundUp_eq {k : ℕ} (hk : k ≤ 12) (hsize : size ≤ maxLargeFlatSize) :
    roundUp size (2 ^ k) = .ok (CordRs.roundUp size (2 ^ k)) := by
  have hbits : 32 ≤ Target.bits := by
    obtain hb | hb := Target.bits_eq <;> rw [hb]
    decide
  have hpow : 2 ^ k ≤ 2 ^ 12 := Nat.pow_le_pow_right two_pos hk
  have hword : 2 ^ 32 ≤ 2 ^ Target.bits := Nat.pow_le_pow_right two_pos hbits
  have hpos := Nat.two_pow_pos k
  have hmax := le_usizeMax
  rw [maxLargeFlatSize] at hsize
  rw [roundUp, add_eq (by omega), ok_bind, sub_eq (by omega), ok_bind,
    and_two_pow_sub (by omega) (by omega)]
  rfl

theorem roundUpForTag_eq (hsize : size ≤ maxLargeFlatSize) :
    roundUpForTag size = .ok (CordRs.roundUpForTag size) := by
  rw [roundUpForTag, CordRs.roundUpForTag]
  split_ifs
  · exact @roundUp_eq _ _ 3 (by decide) hsize
  · exact @roundUp_eq _ _ 6 (by decide) hsize
  · exact @roundUp_eq _ _ 12 (by decide) hsize

theorem allocatedSizeToTag_eq (hsize : size ≤ maxLargeFlatSize)
    (htag : CordRs.allocatedSizeToTag size ≤ maxFlatTag) :
    allocatedSizeToTag size = .ok (CordRs.allocatedSizeToTag size) := by
  have hmax := le_usizeMax
  rw [maxLargeFlatSize] at hsize
  have hbase : tagBase = 2 := rfl
  rw [CordRs.allocatedSizeToTag, maxFlatTag] at htag
  rw [allocatedSizeToTag, CordRs.allocatedSizeToTag]
  split_ifs at htag ⊢
  · rw [add_eq (by omega), ok_bind]
    exact smallU8_eq (by omega)
  · rw [add_eq (by omega), ok_bind, sub_eq (by omega), ok_bind]
    exact smallU8_eq (by omega)
  · rw [add_eq (by omega), ok_bind, sub_eq (by omega), ok_bind]
    exact smallU8_eq (by omega)

theorem tagToAllocatedSize_eq (hmin : flatTag ≤ tag) (hmax : tag ≤ maxFlatTag) :
    tagToAllocatedSize tag = .ok (CordRs.tagToAllocatedSize tag) := by
  have hword := le_usizeMax
  have hbase : tagBase = 2 := rfl
  rw [flatTag] at hmin
  rw [maxFlatTag] at hmax
  rw [tagToAllocatedSize, CordRs.tagToAllocatedSize]
  generalize tagBase = base at hbase ⊢
  split_ifs
  · rw [mul_eq (by omega), ok_bind, sub_eq (by omega)]
  · rw [mul_eq (by omega), ok_bind, add_eq (by omega), ok_bind, sub_eq (by omega), ok_bind,
      sub_eq (by omega)]
  · rw [mul_eq (by omega), ok_bind, add_eq (by omega), ok_bind, sub_eq (by omega), ok_bind,
      sub_eq (by omega)]

end Checked

/-- The size that a flat for `len` bytes is rounded up from. -/
def requestedSize (maxSize len : ℕ) : ℕ :=
  max minFlatSize (min (len + flatOverhead) maxSize)

/-- An allocation is of the requested size, rounded up, and its tag decodes to it. No step of it
wraps. -/
theorem newImpl_eq (hmin : minFlatSize ≤ maxSize) (hmax : maxSize ≤ maxLargeFlatSize) :
    newImpl maxSize len =
        .ok ⟨roundUpForTag (requestedSize maxSize len), newTag maxSize len⟩ ∧
      Checked.tagToAllocatedSize (newTag maxSize len) =
        .ok (roundUpForTag (requestedSize maxSize len)) ∧
      tagToAllocatedSize (newTag maxSize len) = roundUpForTag (requestedSize maxSize len) ∧
      flatTag ≤ newTag maxSize len ∧ newTag maxSize len ≤ maxFlatTag := by
  have hword := le_usizeMax
  have ho := flatOverhead_eq
  have hsize : (if len ≤ minFlatLength then minFlatLength
      else if maxSize - flatOverhead < len then maxSize - flatOverhead else len) + flatOverhead =
      requestedSize maxSize len := by
    have hmin' : minFlatLength = 32 - flatOverhead := rfl
    rw [minFlatSize] at hmin
    rw [requestedSize, minFlatSize]
    split_ifs <;> omega
  have hlo : minFlatSize ≤ requestedSize maxSize len := le_max_left _ _
  have hhi : requestedSize maxSize len ≤ maxLargeFlatSize :=
    max_le (hmin.trans hmax) ((min_le_right _ _).trans hmax)
  obtain ⟨hdecode, htag, htag'⟩ := tagToAllocatedSize_allocatedSizeToTag hlo hhi
  have hnew : newTag maxSize len =
      allocatedSizeToTag (roundUpForTag (requestedSize maxSize len)) := by
    rw [← hsize]
    rfl
  have hup : roundUpForTag (requestedSize maxSize len) ≤ maxLargeFlatSize := by
    simp only [maxLargeFlatSize, roundUpForTag, roundUp] at hhi ⊢
    split_ifs <;> omega
  rw [hnew]
  refine ⟨?_, ?_, hdecode, htag, htag'⟩
  · rw [minFlatSize] at hmin
    rw [maxLargeFlatSize] at hhi
    rw [newImpl, Checked.sub_eq (by omega), ok_bind]
    dsimp only
    rw [Checked.add_eq (by omega), ok_bind, hsize, Checked.roundUpForTag_eq hhi, ok_bind,
      Checked.allocatedSizeToTag_eq hup htag', ok_bind]
    rfl
  · rw [Checked.tagToAllocatedSize_eq htag htag', hdecode]

end Checks

/-! ### The block of a buffer -/

section Blocks

variable {a b k capacity blockSize : ℕ}

omit [Target] in
theorem roundUpForTag_mono (hab : a ≤ b) : roundUpForTag a ≤ roundUpForTag b := by
  simp only [roundUpForTag, roundUp]
  split_ifs <;> omega

omit [Target] in
private theorem roundUp_of_dvd {m n : ℕ} (hm : 0 < m) (hdvd : m ∣ n) : roundUp n m = n := by
  obtain ⟨q, rfl⟩ := hdvd
  rw [roundUp, Nat.add_sub_assoc hm, Nat.mul_add_div hm,
    Nat.div_eq_of_lt (Nat.sub_one_lt hm.ne'), Nat.add_zero, Nat.mul_comm]

omit [Target] in
/-- A power of two can be allocated exactly. -/
theorem roundUpForTag_two_pow (hk : 3 ≤ k) : roundUpForTag (2 ^ k) = 2 ^ k := by
  rw [roundUpForTag]
  split_ifs with h₁ h₂
  · exact roundUp_of_dvd (by decide) (pow_dvd_pow 2 hk)
  · have hk' : 6 ≤ k := by
      by_contra hlt
      exact h₁ ((Nat.pow_le_pow_right two_pos (by omega : k ≤ 9)).trans (by decide))
    exact roundUp_of_dvd (by decide) (pow_dvd_pow 2 hk')
  · have hk' : 12 ≤ k := by
      by_contra hlt
      exact h₂ ((Nat.pow_le_pow_right two_pos (by omega : k ≤ 13)).trans (by decide))
    exact roundUp_of_dvd (by decide) (pow_dvd_pow 2 hk')

namespace CordBuffer

/-- The size chosen for a block before it is rounded up to one that has a tag. -/
private theorem blockLength_spec (hpow : blockSize.isPowerOfTwo) (hover : flatOverhead < blockSize) :
    ∃ size, blockLength capacity blockSize = .ok (size - flatOverhead) ∧ flatOverhead ≤ size ∧
      size ≤ min blockSize maxBlockSize ∧
      (min blockSize maxBlockSize ≤ min capacity maxBlockSize + flatOverhead →
        size = min blockSize maxBlockSize) ∧
      (min capacity maxBlockSize + flatOverhead < min blockSize maxBlockSize →
        (capacity ≤ defaultMaxCapacity → size = capacity + flatOverhead) ∧
        (defaultMaxCapacity < capacity →
          size.isPowerOfTwo ∧ minFlatSize ≤ size ∧ capacity < 2 * size)) := by
  have hword := le_usizeMax
  have ho := flatOverhead_eq
  have hdefault : defaultMaxCapacity = 4096 - flatOverhead := rfl
  have hmax : maxBlockSize = 65536 := rfl
  have hslop : maxPageSlop = 128 := rfl
  rw [blockLength, if_pos ⟨hpow, hover⟩]
  dsimp only
  rw [Checked.add_eq (by omega), ok_bind]
  by_cases hfull : min blockSize maxBlockSize ≤ min capacity maxBlockSize + flatOverhead
  · rw [if_pos hfull, pure_bind, Checked.sub_eq (by omega)]
    exact ⟨_, rfl, by omega, le_rfl, fun _ ↦ rfl, fun hlt ↦ absurd hfull hlt.not_ge⟩
  · rw [if_neg hfull]
    have hcap : min capacity maxBlockSize = capacity := by omega
    rw [hcap] at hfull ⊢
    by_cases hsmall : capacity ≤ defaultMaxCapacity
    · rw [if_pos hsmall, ok_bind, Checked.sub_eq (by omega)]
      exact ⟨_, rfl, by omega, by omega, fun h ↦ absurd h hfull,
        fun _ ↦ ⟨fun _ ↦ rfl, fun h ↦ absurd hsmall h.not_ge⟩⟩
    · rw [if_neg hsmall]
      by_cases htwo : capacity.isPowerOfTwo
      · rw [if_neg (not_not.mpr htwo), pure_bind, Checked.sub_eq (by omega)]
        exact ⟨_, rfl, by omega, by omega, fun h ↦ absurd h hfull,
          fun _ ↦ ⟨fun h ↦ absurd h hsmall, fun _ ↦ ⟨htwo, by rw [minFlatSize]; omega, by omega⟩⟩⟩
      · rw [if_pos htwo]
        have hup : capacity ≤ 2 ^ Nat.clog 2 capacity := Nat.le_pow_clog (by decide) _
        -- The next power of two is not behind the block size, which is one.
        have hblock : 2 ^ Nat.clog 2 capacity ≤ min blockSize maxBlockSize := by
          obtain ⟨k, rfl⟩ := hpow
          have hmaxpow : maxBlockSize = 2 ^ 16 := rfl
          rw [hmaxpow] at hfull ⊢
          refine le_min ?_ ?_ <;> refine Nat.pow_le_pow_right two_pos (Nat.clog_le_of_le_pow ?_) <;>
            omega
        rw [Checked.nextPowerOfTwo, if_pos (by omega), ok_bind, Checked.sub_eq hup, ok_bind]
        split_ifs with hslop
        · rw [pure_bind, Checked.sub_eq (by omega)]
          exact ⟨_, rfl, by omega, hblock, fun h ↦ absurd h hfull,
            fun _ ↦ ⟨fun h ↦ absurd h hsmall, fun _ ↦
              ⟨⟨_, rfl⟩, by rw [minFlatSize]; omega, by omega⟩⟩⟩
        · have hdown : 2 ^ Nat.log 2 capacity ≤ capacity := Nat.pow_log_le_self 2 (by omega)
          have hlt : capacity < 2 ^ (Nat.log 2 capacity + 1) := Nat.lt_pow_succ_log_self (by decide) _
          rw [Nat.pow_succ] at hlt
          rw [Checked.ilog2, if_neg (by omega), ok_bind, pure_bind, Checked.sub_eq (by omega)]
          exact ⟨_, rfl, by omega, by omega, fun h ↦ absurd h hfull,
            fun _ ↦ ⟨fun h ↦ absurd h hsmall, fun _ ↦
              ⟨⟨_, rfl⟩, by rw [minFlatSize]; omega, by omega⟩⟩⟩

/-- The largest capacity of a buffer with a block size. -/
private theorem maxCapacityFor_eq (hpow : blockSize.isPowerOfTwo)
    (hover : flatOverhead < blockSize) :
    maxCapacityFor blockSize =
      .ok (max (min blockSize maxBlockSize) minFlatSize - flatOverhead) := by
  have ho := flatOverhead_eq
  have hmax : maxBlockSize = 65536 := rfl
  have hmin : minFlatLength = minFlatSize - flatOverhead := rfl
  have hlimit : (if blockSize < maxBlockSize then blockSize else maxBlockSize) =
      min blockSize maxBlockSize := by
    split_ifs <;> omega
  rw [maxCapacityFor, if_pos ⟨hpow, hover⟩]
  dsimp only
  rw [hlimit, Checked.sub_eq (by omega), ok_bind]
  refine congrArg Except.ok ?_
  rw [minFlatSize] at hmin ⊢
  split_ifs <;> omega

/-- A buffer with a block size has room for what a cord stores inline. -/
theorem minFlatLength_le_blockCapacity (hpow : blockSize.isPowerOfTwo)
    (hover : flatOverhead < blockSize) : minFlatLength ≤ blockCapacity capacity blockSize := by
  obtain ⟨size, hrun, -⟩ := @blockLength_spec _ capacity _ hpow hover
  obtain ⟨-, -, hsize, -⟩ :=
    @newImpl_eq _ maxLargeFlatSize (size - flatOverhead) (by decide) le_rfl
  have hround := le_roundUpForTag (requestedSize maxLargeFlatSize (size - flatOverhead))
  have hmin : minFlatSize ≤ requestedSize maxLargeFlatSize (size - flatOverhead) := le_max_left _ _
  rw [blockCapacity, hrun]
  dsimp only
  rw [tagToLength, hsize, minFlatLength]
  omega

/-- A new buffer with a block size is empty. -/
theorem wp_withCapacityAndBlockSize {h : Heap Node} {Z : List Addr} {R : Multiset Addr}
    (hpow : blockSize.isPowerOfTwo) (hover : flatOverhead < blockSize) (ho : Owned h Z R)
    {Q : CordBuffer → Heap Node → Prop}
    (hQ : ∀ b h', b.Holds h' [] (blockCapacity capacity blockSize) → Owned h' (b.cells ++ Z) R →
      Grows h h' → Q b h') :
    wp (withCapacityAndBlockSize capacity blockSize) Q h := by
  obtain ⟨size, hrun, -⟩ := @blockLength_spec _ capacity _ hpow hover
  obtain ⟨hnew, -, -, htag, htag'⟩ :=
    @newImpl_eq _ maxLargeFlatSize (size - flatOverhead) (by decide) le_rfl
  rw [withCapacityAndBlockSize, wp_bind, wp_liftM]
  refine ⟨_, hrun, ?_⟩
  rw [wp_bind, wp_liftM]
  refine ⟨_, hnew, ?_⟩
  rw [wp_bind]
  refine wp_alloc ho fun a h' ho' hg ha ↦ ?_
  rw [wp_pure]
  refine hQ (.long a) h' ⟨Nat.zero_le _, _, ha, htag, htag', ?_⟩ ho' hg
  rw [blockCapacity, hrun]

/-- The capacity of a buffer with a block size: it is within the bounds that are announced, it
suffices for small requests, and the block for the others is a power of two that is more than half
as large. No step wraps, and the tag of the flat of any buffer decodes to the size allocated. -/
theorem block_size_exact (capacity blockSize : ℕ) (hpow : blockSize.isPowerOfTwo)
    (hover : flatOverhead < blockSize) (h : Heap Node) :
    (∃ (length limit : ℕ) (block : FlatAlloc),
      let h' := h.push ⟨1, .payload (.flat block.tag [])⟩
      blockLength capacity blockSize = .ok length ∧
      newImpl maxLargeFlatSize length = .ok block ∧
      withCapacityAndBlockSize capacity blockSize h = .ok (.long h.size, h') ∧
      (long h.size).capacity h' = .ok (block.size - flatOverhead, h') ∧
      maxCapacityFor blockSize = .ok limit ∧
      minFlatLength ≤ block.size - flatOverhead ∧ block.size - flatOverhead ≤ limit ∧
      (min blockSize maxBlockSize ≤ min capacity maxBlockSize + flatOverhead →
        block.size - flatOverhead = limit) ∧
      (capacity ≤ defaultMaxCapacity → capacity + flatOverhead ≤ blockSize →
        capacity ≤ block.size - flatOverhead) ∧
      (min capacity maxBlockSize + flatOverhead < min blockSize maxBlockSize →
        defaultMaxCapacity < capacity →
        block.size.isPowerOfTwo ∧ block.size ≤ blockSize ∧ capacity < 2 * block.size) ∧
      Checked.tagToAllocatedSize block.tag = .ok block.size) ∧
    (maxInline < capacity → ∃ block : FlatAlloc, newImpl maxFlatSize capacity = .ok block ∧
      withCapacity capacity h =
        .ok (.long h.size, h.push ⟨1, .payload (.flat block.tag [])⟩) ∧
      Checked.tagToAllocatedSize block.tag = .ok block.size) := by
  have ho := flatOverhead_eq
  have hmax : maxBlockSize = 65536 := rfl
  have hmin : minFlatSize = 32 := rfl
  have hlarge : maxLargeFlatSize = 262144 := rfl
  have hminLength : minFlatLength = minFlatSize - flatOverhead := rfl
  have hdefault : defaultMaxCapacity = 4096 - flatOverhead := rfl
  constructor
  · obtain ⟨size, hrun, hlo, hhi, hfull, hrest⟩ := @blockLength_spec _ capacity _ hpow hover
    obtain ⟨hnew, hdecode, hsize, htag, htag'⟩ :=
      @newImpl_eq _ maxLargeFlatSize (size - flatOverhead) (by decide) le_rfl
    have hrequest : requestedSize maxLargeFlatSize (size - flatOverhead) = max minFlatSize size := by
      rw [requestedSize, Nat.sub_add_cancel hlo,
        min_eq_left (hhi.trans ((min_le_right _ _).trans (by decide)))]
    rw [hrequest] at hnew hdecode hsize
    -- The block is not rounded up behind the block size, which has a tag of its own.
    have hexact : roundUpForTag (max minFlatSize (min blockSize maxBlockSize)) =
        max minFlatSize (min blockSize maxBlockSize) := by
      obtain ⟨k, rfl⟩ := hpow
      have hpow : max minFlatSize (min (2 ^ k) maxBlockSize) = 2 ^ max 5 (min k 16) := by
        have hmono : Monotone fun i : ℕ ↦ 2 ^ i := pow_right_mono₀ one_le_two
        exact ((@Monotone.map_max _ _ _ _ _ 5 (min k 16) hmono).trans
          (congrArg _ hmono.map_min)).symm
      rw [hpow]
      exact roundUpForTag_two_pow (by omega)
    have hle := le_roundUpForTag (max minFlatSize size)
    have hround : roundUpForTag (max minFlatSize size) ≤
        max minFlatSize (min blockSize maxBlockSize) :=
      hexact ▸ roundUpForTag_mono (by omega)
    refine ⟨_, _, _, hrun, hnew, ?_, ?_, maxCapacityFor_eq hpow hover, ?_, ?_, ?_, ?_, ?_, hdecode⟩
    · obtain ⟨b, h', hrun', rfl, rfl⟩ : wp (withCapacityAndBlockSize capacity blockSize)
          (fun b h' ↦ b = long h.size ∧ h' = h.push ⟨1, .payload (.flat _ [])⟩) h := by
        rw [withCapacityAndBlockSize, wp_bind, wp_liftM]
        refine ⟨_, hrun, ?_⟩
        rw [wp_bind, wp_liftM]
        exact ⟨_, hnew, _, _, rfl, rfl, rfl⟩
      exact hrun'
    · have hholds : (long h.size).Holds
          (h.push ⟨1, .payload (.flat (newTag maxLargeFlatSize (size - flatOverhead)) [])⟩) []
          (roundUpForTag (max minFlatSize size) - flatOverhead) :=
        ⟨Nat.zero_le _, _, Heap.node?_of_get? (Heap.get?_push_self _), htag, htag', by
          rw [tagToLength, hsize]⟩
      obtain ⟨c, h', hrun', rfl, rfl⟩ : wp (long h.size).capacity
          (fun c h' ↦ c = roundUpForTag (max minFlatSize size) - flatOverhead ∧
            h' = h.push ⟨1, .payload (.flat _ [])⟩) _ := wp_capacity hholds ⟨rfl, rfl⟩
      exact hrun'
    · dsimp only
      omega
    · dsimp only
      omega
    · intro h
      rw [hfull h, hexact]
      dsimp only
      omega
    · intro hcap hle'
      dsimp only
      by_cases h : min blockSize maxBlockSize ≤ min capacity maxBlockSize + flatOverhead
      · rw [hfull h, hexact]
        omega
      · have := (hrest (not_le.mp h)).1 hcap
        omega
    · intro hlt hcap
      obtain ⟨htwo, hmin', hlt'⟩ := (hrest hlt).2 hcap
      obtain ⟨k, rfl⟩ := htwo
      have hk : 3 ≤ k := by
        by_contra hk
        have hpow : 2 ^ k ≤ 2 ^ 2 := Nat.pow_le_pow_right two_pos (by omega)
        omega
      dsimp only
      rw [max_eq_right hmin', roundUpForTag_two_pow hk]
      exact ⟨⟨k, rfl⟩, by omega, hlt'⟩
  · intro hcap
    obtain ⟨hnew, hdecode, -⟩ := @newImpl_eq _ maxFlatSize capacity (by decide) (by decide)
    refine ⟨_, hnew, ?_, hdecode⟩
    rw [withCapacity, if_pos hcap]
    rfl

end CordBuffer

end Blocks

end Target

/-- A request that is rounded down to a smaller block. -/
theorem CordBuffer.block_size_exact_rounded_down :
    letI : Target := ⟨64, .inr rfl⟩
    ∃ (length : ℕ) (block : FlatAlloc), CordBuffer.blockLength 19586 65536 = .ok length ∧
      newImpl maxLargeFlatSize length = .ok block ∧ block.size.isPowerOfTwo ∧
      block.size ≤ 65536 ∧ 19586 < 2 * block.size := by
  let _ : Target := ⟨64, .inr rfl⟩
  obtain ⟨⟨length, limit, block, hlength, hblock, -, -, -, -, -, -, -, hround, -⟩, -⟩ :=
    CordBuffer.block_size_exact 19586 65536 ⟨16, rfl⟩ (by decide) .empty
  exact ⟨length, block, hlength, hblock, hround (by decide) (by decide)⟩

end CordRs
