import CordRs.Iter.Forward

/-!
# Sequences of inline operations

However an inline value came about, it is its byte string padded with zeros. Every operation
restores the zeros by a way of its own, and gathering relies on those of a new value.

The source and the destination of a short move may overlap: `CordRs.smallMemmoveWithin` moves
inside one memory, from which all loads are made before the first store.

## Main definitions

* `CordRs.smallMemmoveWithin`.
* `CordRs.InlineOp`, `CordRs.InlineOp.run`: sequences of operations.
* `CordRs.InlineOp.bytes`, `CordRs.InlineOp.Within`: the byte string they describe, and the limit
  of fifteen bytes.

## Main results

* `CordRs.smallMemmoveWithin_eq`: what a short move writes, for every overlap.
* `CordRs.InlineOp.runs_exact`: the values that sequences of operations give, and how they compare.
-/

namespace CordRs

/-! ### Overlapping moves -/

/-- Move `n` bytes, at most fifteen, from offset `src` of a memory to offset `dst`, and zero up to
fifteen bytes from `dst` on on request. -/
def smallMemmoveWithin (nullifyTail : Bool) (mem : Bytes) (dst src n : ℕ) : Bytes :=
  let zeros := List.replicate 8 (0 : UInt8)
  if 8 ≤ n then
    let buf1 := (mem.drop src).take 8
    let buf2 := (mem.drop (src + (n - 8))).take 8
    let mem := if nullifyTail then writeAt mem (dst + 7) zeros else mem
    writeAt (writeAt mem dst buf1) (dst + (n - 8)) buf2
  else if 4 ≤ n then
    let buf1 := (mem.drop src).take 4
    let buf2 := (mem.drop (src + (n - 4))).take 4
    let mem :=
      if nullifyTail then writeAt (writeAt mem (dst + 4) (zeros.take 4)) (dst + 7) zeros else mem
    writeAt (writeAt mem dst buf1) (dst + (n - 4)) buf2
  else
    let mem :=
      if n ≠ 0 then
        let b0 := (mem.drop src).take 1
        let bm := (mem.drop (src + n / 2)).take 1
        let bl := (mem.drop (src + (n - 1))).take 1
        writeAt (writeAt (writeAt mem dst b0) (dst + n / 2) bm) (dst + (n - 1)) bl
      else
        mem
    if nullifyTail then writeAt (writeAt mem (dst + 7) zeros) (dst + n) zeros else mem

section Memmove

variable {mem : Bytes} {nullifyTail : Bool} {dst src n : ℕ}

/-- Writing behind the first bytes of a memory. -/
private theorem writeAt_length_add_append (low high : Bytes) (i : ℕ) (bs : Bytes) :
    writeAt (low ++ high) (low.length + i) bs = low ++ writeAt high i bs := by
  simp only [writeAt, List.take_length_add_append, List.append_assoc, Nat.add_assoc,
    List.drop_length_add_append]

private theorem writeAt_length_append (low high bs : Bytes) :
    writeAt (low ++ high) low.length bs = low ++ writeAt high 0 bs :=
  writeAt_length_add_append low high 0 bs

/-- A move inside a memory is a move from what the memory held before. -/
private theorem smallMemmoveWithin_eq_smallMemmove (hdst : dst ≤ mem.length) :
    smallMemmoveWithin nullifyTail mem dst src n =
      mem.take dst ++ smallMemmove nullifyTail (mem.drop dst) (mem.drop src) n := by
  simp only [smallMemmoveWithin, smallMemmove, ← List.drop_drop]
  -- What is loaded stays as it was; what is stored to is split at the destination.
  generalize mem.drop src = loads
  obtain ⟨low, high, rfl, rfl⟩ : ∃ low high : Bytes, mem = low ++ high ∧ low.length = dst :=
    ⟨_, _, (List.take_append_drop dst mem).symm, by rw [List.length_take, Nat.min_eq_left hdst]⟩
  rw [List.take_left, List.drop_left]
  cases nullifyTail with
  | false =>
    simp only [Bool.false_eq_true, if_false]
    split_ifs <;> simp only [writeAt_length_add_append, writeAt_length_append]
  | true =>
    simp only [if_true]
    split_ifs <;> simp only [writeAt_length_add_append, writeAt_length_append]

/-- A short move writes the bytes moved, and zeros up to fifteen bytes on request, and nothing
else, however the source and the destination overlap. -/
theorem smallMemmoveWithin_eq (hn : n ≤ maxInline) (hsrc : src + n ≤ mem.length)
    (hdst : dst + (if nullifyTail then maxInline else n) ≤ mem.length) :
    smallMemmoveWithin nullifyTail mem dst src n =
      writeAt mem dst ((mem.drop src).take n ++
        if nullifyTail then List.replicate (maxInline - n) 0 else []) := by
  have hmoved : ((mem.drop src).take n).length = n := by
    rw [List.length_take, List.length_drop]
    omega
  cases nullifyTail with
  | false =>
    simp only [Bool.false_eq_true, if_false] at hdst ⊢
    rw [smallMemmoveWithin_eq_smallMemmove (by omega),
      smallMemmove_false hn (by rw [List.length_drop]; omega) (by rw [List.length_drop]; omega),
      List.append_nil, writeAt, hmoved, List.drop_drop, List.append_assoc]
  | true =>
    simp only [if_true] at hdst ⊢
    rw [smallMemmoveWithin_eq_smallMemmove (by omega),
      smallMemmove_true hn (by rw [List.length_drop]; omega) (by rw [List.length_drop]; omega),
      writeAt, List.length_append, hmoved, List.length_replicate, Nat.add_sub_cancel' hn,
      List.drop_drop]
    simp only [List.append_assoc]

end Memmove

/-! ### Sequences of operations -/

/-- An operation that changes or makes an inline value; gathering takes it from an iteration that
is at the byte `pos` of a source. -/
inductive InlineOp where
  | inlineFrom (data : Bytes)
  | pushBackInline (src : Bytes)
  | pushFrontInline (src : Bytes)
  | concatInline (a b : Bytes)
  | truncateInline (newLen : ℕ)
  | dropFrontInline (n : ℕ)
  | gatherInline (maintain : Bool) (src : Source) (pos : ℕ) (it : ForwardChunks) (n : ℕ)

namespace InlineOp

/-- The value after an operation. -/
def apply (d : InlineData) : InlineOp → Except Fault InlineData
  | inlineFrom data => .ok (InlineData.inlineFrom data)
  | pushBackInline src => .ok (d.pushBackInline src)
  | pushFrontInline src => .ok (d.pushFrontInline src)
  | concatInline a b => .ok (InlineData.concatInline a b)
  | truncateInline newLen => .ok (d.truncateInline newLen)
  | dropFrontInline n => .ok (d.dropFrontInline n)
  | gatherInline maintain _ _ it n => do
    let (_, out) ← it.gatherInline maintain n
    pure out

/-- The value after a sequence of operations. -/
def run : List InlineOp → InlineData → Except Fault InlineData
  | [], d => .ok d
  | op :: ops, d => do run ops (← apply d op)

/-- The bytes an operation describes, from those before it. -/
def bytes (bs : Bytes) : InlineOp → Bytes
  | inlineFrom data => data
  | pushBackInline src => bs ++ src
  | pushFrontInline src => src ++ bs
  | concatInline a b => a ++ b
  | truncateInline newLen => bs.take newLen
  | dropFrontInline n => bs.drop n
  | gatherInline _ src pos _ n => (src.bytes.drop pos).take n

/-- The operation is used as its assertions demand: the bytes fit, and those to go are there. -/
def Within [Target] (bs : Bytes) : InlineOp → Prop
  | inlineFrom data => data.length ≤ maxInline
  | pushBackInline src => bs.length + src.length ≤ maxInline
  | pushFrontInline src => src.length + bs.length ≤ maxInline
  | concatInline a b => a.length + b.length ≤ maxInline
  | truncateInline newLen => newLen ≤ bs.length
  | dropFrontInline n => n ≤ bs.length
  | gatherInline _ src pos it n =>
    src.Valid ∧ it.Inv src pos 0 ∧ n ≤ it.bytesRemaining ∧ n ≤ maxInline

/-- All operations of a sequence are used as their assertions demand. -/
def AllWithin [Target] : List InlineOp → Bytes → Prop
  | [], _ => True
  | op :: ops, bs => op.Within bs ∧ AllWithin ops (op.bytes bs)

section Runs

variable [Target] {ops ops' : List InlineOp} {op : InlineOp} {bs : Bytes}

/-- An operation gives the padded form of the bytes it describes, from that of the bytes before. -/
theorem apply_spec (hlen : bs.length ≤ maxInline) (hop : op.Within bs) :
    apply (.ofBytes bs) op = .ok (.ofBytes (op.bytes bs)) ∧ (op.bytes bs).length ≤ maxInline := by
  cases op with
  | inlineFrom data => exact ⟨congrArg Except.ok (InlineData.inlineFrom_eq hop), hop⟩
  | pushBackInline src =>
    exact ⟨congrArg Except.ok (InlineData.pushBackInline_eq _ _), List.length_append.trans_le hop⟩
  | pushFrontInline src =>
    exact ⟨congrArg Except.ok (InlineData.pushFrontInline_eq _ _), List.length_append.trans_le hop⟩
  | concatInline a b =>
    exact ⟨congrArg Except.ok (InlineData.concatInline_eq _ _), List.length_append.trans_le hop⟩
  | truncateInline newLen =>
    exact ⟨congrArg Except.ok (InlineData.truncateInline_eq hop hlen),
      (List.length_take_le _ _).trans (le_trans hop hlen)⟩
  | dropFrontInline n =>
    refine ⟨congrArg Except.ok (InlineData.dropFrontInline_eq hop hlen), ?_⟩
    rw [bytes, List.length_drop]
    omega
  | gatherInline maintain src pos it n =>
    obtain ⟨hs, hi, hle, hmax⟩ := hop
    obtain ⟨it', hrun, -⟩ := ForwardChunks.gatherInline_spec maintain hi hs hle hmax
    refine ⟨?_, (List.length_take_le _ _).trans hmax⟩
    rw [apply, hrun]
    rfl

/-- The value after a sequence is the padded form of the bytes the sequence describes. -/
theorem run_spec (hlen : bs.length ≤ maxInline) (hops : AllWithin ops bs) :
    run ops (.ofBytes bs) = .ok (.ofBytes (ops.foldl bytes bs)) ∧
      (ops.foldl bytes bs).length ≤ maxInline := by
  induction ops generalizing bs with
  | nil => exact ⟨rfl, hlen⟩
  | cons op ops ih =>
    obtain ⟨happly, hlen'⟩ := apply_spec hlen hops.1
    obtain ⟨hrun, hle⟩ := ih hlen' hops.2
    refine ⟨?_, hle⟩
    rw [run, happly]
    exact hrun

/-- A sequence of operations gives the bytes it describes, followed by zeros. The values that two
sequences give are the same exactly if the bytes are, and the wide comparison orders them as byte
strings. A short move writes what it should for every overlap. -/
theorem runs_exact (hops : AllWithin ops []) (hops' : AllWithin ops' []) :
    (∃ d e, run ops .new = .ok d ∧ run ops' .new = .ok e ∧
      d.inlineSlice = ops.foldl bytes [] ∧ d.size = (ops.foldl bytes []).length ∧
      d.size ≤ maxInline ∧ d.tail.length = maxInline ∧
      (∀ i, d.size ≤ i → i < maxInline → d.tail[i]? = some 0) ∧
      (d.isSame e ↔ ops.foldl bytes [] = ops'.foldl bytes []) ∧
      d.compare e = compareBytes (ops.foldl bytes []) (ops'.foldl bytes []) ∧
      (d.compare e = .lt ↔ List.Lex (fun x y : UInt8 ↦ x.toNat < y.toNat) (ops.foldl bytes [])
        (ops'.foldl bytes []))) ∧
    ∀ nullifyTail mem dst src n, n ≤ maxInline → src + n ≤ List.length mem →
      dst + (if nullifyTail then maxInline else n) ≤ mem.length →
      smallMemmoveWithin nullifyTail mem dst src n =
        writeAt mem dst ((mem.drop src).take n ++
          if nullifyTail then List.replicate (maxInline - n) 0 else []) := by
  obtain ⟨hrun, hlen⟩ := run_spec (Nat.zero_le _) hops
  obtain ⟨hrun', hlen'⟩ := run_spec (Nat.zero_le _) hops'
  refine ⟨⟨_, _, hrun, hrun', InlineData.inlineSlice_ofBytes _, rfl, hlen, ?_, fun i hlo hhi ↦ ?_,
    InlineData.isSame_ofBytes, InlineData.compare_ofBytes hlen hlen', ?_⟩,
    fun _ _ _ _ _ hn hsrc hdst ↦ smallMemmoveWithin_eq hn hsrc hdst⟩
  · rw [InlineData.ofBytes, List.length_append, List.length_replicate, Nat.add_sub_cancel' hlen]
  · rw [InlineData.ofBytes, List.getElem?_append_right hlo, List.getElem?_replicate, if_pos]
    rw [InlineData.size_ofBytes] at hlo
    omega
  · rw [InlineData.compare_ofBytes hlen hlen', compareBytes_eq_lt_iff]

end Runs

/-- A value that held more bytes before comes before the one with a zero more. -/
theorem runs_exact_truncated :
    ∃ d e, run [inlineFrom [1, 2, 3], truncateInline 1] .new = .ok d ∧
      run [inlineFrom [1, 0]] .new = .ok e ∧ d.compare e = .lt := by
  let _ : Target := ⟨64, .inr rfl⟩
  have hops : AllWithin [inlineFrom [1, 2, 3], truncateInline 1] [] :=
    ⟨Nat.le_of_ble_eq_true rfl, Nat.le_of_ble_eq_true rfl, trivial⟩
  have hops' : AllWithin [inlineFrom [1, 0]] [] := ⟨Nat.le_of_ble_eq_true rfl, trivial⟩
  obtain ⟨⟨d, e, hrun, hrun', -, -, -, -, -, -, hcompare, -⟩, -⟩ := runs_exact hops hops'
  exact ⟨d, e, hrun, hrun', hcompare.trans (by decide)⟩

end InlineOp

end CordRs
