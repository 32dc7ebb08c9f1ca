import CordRs.Cord.Read
import CordRs.Btree.Append

/-!
# The bytes of a cord from both ends

The iterator over the bytes of a cord keeps the bytes not yet yielded in three places: the rest of
the last chunk from the front, the chunks between the ends, and the rest of the last chunk from the
back. Each end goes on with the slice of the other once the chunks are used up. `nth` skips over
all three.

`DequeOp.onList` says what a call does on a double-ended iterator over a list. The calls of the
iterator do the same on the bytes it denotes, for every interleaving of calls on a pool of
iterators that were cloned from one.

## Main definitions

* `CordRs.BytesIter.nextBack`, `CordRs.BytesIter.nth`, `CordRs.BytesIter.sizeHint`,
  `CordRs.BytesIter.len`, `CordRs.BytesIter.count`.
* `CordRs.DequeOp`, `CordRs.DequeOp.onList`, `CordRs.PoolCall`.
* `CordRs.BytesIter.runCalls`, `CordRs.PoolCall.runLists`: interleavings of calls on iterators and
  on lists.

## Main results

* `CordRs.BytesIter.nextBack_spec`, `CordRs.BytesIter.nth_spec`.
* `CordRs.BytesIter.apply_spec`: a call of the iterator is the call on its bytes.
* `CordRs.BytesIter.calls_exact`: so is every interleaving of calls.
-/

namespace CordRs

open RefHeap

/-! ### Calls on a list -/

/-- A call of a double-ended iterator. -/
inductive DequeOp where
  | next
  | nextBack
  | nth (n : ℕ)
  deriving DecidableEq

/-- A call on one of a pool of iterators, or a clone of it, which joins the pool. -/
inductive PoolCall where
  | on (i : ℕ) (op : DequeOp)
  | clone (i : ℕ)

/-- What a call leaves of a list, and its answer. -/
def DequeOp.onList {α : Type} (bs : List α) : DequeOp → List α × Option α
  | next => (bs.tail, bs.head?)
  | nextBack => (bs.dropLast, bs.getLast?)
  | nth n => (bs.drop (n + 1), bs[n]?)

namespace PoolCall

/-- A call on one of a pool of lists; one on a list that does not exist does nothing. -/
def onLists {α : Type} (pool : List (List α)) : PoolCall → List (List α) × Option α
  | on i op =>
    match pool[i]? with
    | some bs => (pool.set i (op.onList bs).1, (op.onList bs).2)
    | none => (pool, none)
  | clone i =>
    match pool[i]? with
    | some bs => (pool ++ [bs], none)
    | none => (pool, none)

/-- Calls in order, with their answers. -/
def runLists {α : Type} : List PoolCall → List (List α) → List (List α) × List (Option α)
  | [], pool => (pool, [])
  | c :: cs, pool =>
    let (pool, answer) := c.onLists pool
    let (pool, answers) := runLists cs pool
    (pool, answer :: answers)

end PoolCall

/-! ### The iterator -/

namespace BytesIter

/-- The next byte from the back. -/
def nextBack (it : BytesIter) : Except Fault (BytesIter × Option UInt8) := do
  match it.backCurrent.getLast? with
  | some byte => pure ({ it with backCurrent := it.backCurrent.dropLast }, some byte)
  | none =>
    match ← it.chunks.nextBack with
    | (chunks, some chunk) =>
      pure ({ it with chunks := chunks, backCurrent := chunk.dropLast }, chunk.getLast?)
    | (chunks, none) =>
      pure ({ it with chunks := chunks, current := it.current.dropLast }, it.current.getLast?)

/-- Skip all chunks left. -/
def skipChunks (cs : Chunks) : Except Fault Chunks :=
  if cs.front.bytesRemaining ≠ 0 then cs.advanceBytes cs.front.bytesRemaining else pure cs

/-- Skip `n` bytes from the front and take the next. -/
def nth (it : BytesIter) (n : ℕ) : Except Fault (BytesIter × Option UInt8) := do
  if n < it.current.length then
    pure ({ it with current := (it.current.drop n).tail }, (it.current.drop n).head?)
  else
    let skip := n - it.current.length
    if skip < it.chunks.front.bytesRemaining then
      match ← (← it.chunks.advanceBytes skip).next with
      | (chunks, none) => pure (⟨chunks, [], it.backCurrent⟩, none)
      | (chunks, some chunk) => pure (⟨chunks, chunk.tail, it.backCurrent⟩, chunk.head?)
    else
      let skip := skip - it.chunks.front.bytesRemaining
      let chunks ← skipChunks it.chunks
      if it.backCurrent.length ≤ skip then
        pure (⟨chunks, [], []⟩, none)
      else
        pure (⟨chunks, [], (it.backCurrent.drop skip).tail⟩, (it.backCurrent.drop skip).head?)

/-- Bounds on the number of bytes left. -/
def sizeHint (it : BytesIter) : ℕ × Option ℕ := (it.remaining, some it.remaining)

/-- The number of bytes left, if its bounds are the same. -/
def len (it : BytesIter) : Except Fault ℕ :=
  if it.sizeHint.2 = some it.sizeHint.1 then
    .ok it.sizeHint.1
  else
    .error (.panic "assertion `left == right` failed")

/-- The number of bytes left. -/
def count (it : BytesIter) : ℕ := it.remaining

/-- Perform a call. -/
def apply (it : BytesIter) : DequeOp → Except Fault (BytesIter × Option UInt8)
  | .next => it.next
  | .nextBack => it.nextBack
  | .nth n => it.nth n

/-- A call on one of a pool of iterators; one on an iterator that does not exist does nothing. -/
def call (pool : List BytesIter) : PoolCall → Except Fault (List BytesIter × Option UInt8)
  | .on i op =>
    match pool[i]? with
    | some it => do
      let (it, byte) ← it.apply op
      pure (pool.set i it, byte)
    | none => pure (pool, none)
  | .clone i =>
    match pool[i]? with
    | some it => pure (pool ++ [it], none)
    | none => pure (pool, none)

/-- Calls in order, with their answers. -/
def runCalls : List PoolCall → List BytesIter →
    Except Fault (List BytesIter × List (Option UInt8))
  | [], pool => pure (pool, [])
  | c :: cs, pool => do
    let (pool, answer) ← call pool c
    let (pool, answers) ← runCalls cs pool
    pure (pool, answer :: answers)

section Spec

variable [Target] {it : BytesIter} {bs : Bytes}

/-- The next byte from the back is the last of those left. -/
theorem nextBack_spec (hd : it.Denotes bs) :
    ∃ it', it.nextBack = .ok (it', bs.getLast?) ∧ it'.Denotes bs.dropLast := by
  obtain ⟨mid, hm, rfl⟩ := hd
  rcases List.eq_nil_or_concat' it.backCurrent with hback | ⟨rest, b, hback⟩
  · rcases Chunks.nextBack_spec hm with ⟨rfl, hrun⟩ | ⟨cs', chunk, rest, hrun, hne, rfl, hd'⟩
    · refine ⟨{ it with current := it.current.dropLast }, ?_, [], hm, by simp [hback]⟩
      simp only [nextBack, hback, List.getLast?_nil, hrun, ok_bind, List.append_nil]
      rfl
    · obtain ⟨init, b, rfl⟩ := (List.eq_nil_or_concat' chunk).resolve_left hne
      have hlast : it.current ++ (rest ++ (init ++ [b])) ++ it.backCurrent =
          (it.current ++ rest ++ init) ++ [b] := by simp [hback]
      refine ⟨⟨cs', it.current, init⟩, ?_, rest, hd', by rw [hlast, List.dropLast_concat]⟩
      rw [hlast, List.getLast?_concat]
      simp only [nextBack, hback, List.getLast?_nil, hrun, ok_bind, List.dropLast_concat,
        List.getLast?_concat]
      rfl
  · have hlast : it.current ++ mid ++ it.backCurrent = (it.current ++ mid ++ rest) ++ [b] := by
      simp [hback]
    refine ⟨{ it with backCurrent := rest }, ?_, mid, hm, by rw [hlast, List.dropLast_concat]⟩
    rw [hlast, List.getLast?_concat]
    simp only [nextBack, hback, List.getLast?_concat, List.dropLast_concat]
    rfl

omit [Target] in
/-- Dropping beyond the front of an append. -/
private theorem drop_append_of_le {as cs : Bytes} {n : ℕ} (h : as.length ≤ n) :
    (as ++ cs).drop n = cs.drop (n - as.length) := by
  rw [List.drop_append, List.drop_eq_nil_of_le h, List.nil_append]

private theorem skipChunks_spec {cs : Chunks} (hd : cs.Denotes bs) :
    ∃ cs', skipChunks cs = .ok cs' ∧ cs'.Denotes [] := by
  have hlen := hd.length_eq
  by_cases hz : cs.front.bytesRemaining ≠ 0
  · obtain ⟨cs', hrun, hd'⟩ := Chunks.advanceBytes_spec hd hlen.ge
    rw [← hlen, List.drop_length] at hd'
    exact ⟨cs', by rw [skipChunks, if_pos hz, hrun], hd'⟩
  · obtain rfl : bs = [] := List.eq_nil_of_length_eq_zero (by omega)
    exact ⟨cs, by rw [skipChunks, if_neg hz]; rfl, hd⟩

/-- The byte at an index, with everything up to it gone. -/
theorem nth_spec (n : ℕ) (hd : it.Denotes bs) :
    ∃ it', it.nth n = .ok (it', bs[n]?) ∧ it'.Denotes (bs.drop (n + 1)) := by
  obtain ⟨mid, hm, rfl⟩ := hd
  have hmid := hm.length_eq
  rw [← List.head?_drop, ← List.tail_drop]
  by_cases hcur : n < it.current.length
  · have hdrop : (it.current ++ mid ++ it.backCurrent).drop n =
        it.current.drop n ++ (mid ++ it.backCurrent) := by
      rw [List.append_assoc, List.drop_append_of_le_length hcur.le]
    obtain ⟨b, rest, hb⟩ := List.exists_cons_of_ne_nil
      (mt List.drop_eq_nil_iff.mp (Nat.not_le_of_lt hcur))
    rw [hdrop, hb]
    refine ⟨{ it with current := rest }, ?_, mid, hm, by simp⟩
    simp only [nth, if_pos hcur, hb]
    rfl
  · rw [List.append_assoc, drop_append_of_le (Nat.le_of_not_lt hcur)]
    by_cases hskip : n - it.current.length < it.chunks.front.bytesRemaining
    · obtain ⟨cs₁, hadv, hd₁⟩ := Chunks.advanceBytes_spec hm (hmid ▸ hskip.le)
      rw [List.drop_append_of_le_length (hmid ▸ hskip.le)]
      rcases Chunks.next_spec hd₁ with ⟨hnil, -⟩ | ⟨cs₂, chunk, rest, hrun, hne, heq, hd₂⟩
      · rw [List.drop_eq_nil_iff] at hnil
        omega
      · obtain ⟨b, chunk, rfl⟩ := List.exists_cons_of_ne_nil hne
        rw [heq]
        refine ⟨⟨cs₂, chunk, it.backCurrent⟩, ?_, rest, hd₂, by simp⟩
        simp only [nth, if_neg hcur, if_pos hskip, hadv, hrun, ok_bind]
        rfl
    · -- the chunks are used up, and the rest of the skip is from the back
      obtain ⟨cs₁, hrun, hd₁⟩ := skipChunks_spec hm
      rw [drop_append_of_le (by omega), hmid]
      by_cases hback : it.backCurrent.length ≤
          n - it.current.length - it.chunks.front.bytesRemaining
      · rw [List.drop_eq_nil_of_le hback]
        refine ⟨⟨cs₁, [], []⟩, ?_, [], hd₁, rfl⟩
        simp only [nth, if_neg hcur, if_neg hskip, hrun, ok_bind, if_pos hback]
        rfl
      · refine ⟨⟨cs₁, [], (it.backCurrent.drop _).tail⟩, ?_, [], hd₁, rfl⟩
        simp only [nth, if_neg hcur, if_neg hskip, hrun, ok_bind, if_neg hback]
        rfl

/-- A call of the iterator is the call on its bytes. -/
theorem apply_spec (op : DequeOp) (hd : it.Denotes bs) :
    ∃ it', it.apply op = .ok (it', (op.onList bs).2) ∧ it'.Denotes (op.onList bs).1 := by
  cases op with
  | next => exact next_spec hd
  | nextBack => exact nextBack_spec hd
  | nth n => exact nth_spec n hd

theorem Denotes.counts (hd : it.Denotes bs) :
    it.sizeHint = (bs.length, some bs.length) ∧ it.len = .ok bs.length ∧ it.count = bs.length := by
  have hhint : it.sizeHint = (bs.length, some bs.length) := by rw [sizeHint, hd.remaining_eq]
  refine ⟨hhint, ?_, hd.remaining_eq⟩
  rw [len, hhint, if_pos rfl]

/-! ### Interleavings -/

omit [Target] in
private theorem forall₂_getElem? {α β : Type} {R : α → β → Prop} {xs : List α} {ys : List β}
    (h : List.Forall₂ R xs ys) (i : ℕ) :
    (xs[i]? = none ∧ ys[i]? = none) ∨ ∃ x y, xs[i]? = some x ∧ ys[i]? = some y ∧ R x y := by
  induction h generalizing i with
  | nil => exact .inl ⟨rfl, rfl⟩
  | cons hxy _ ih =>
    cases i with
    | zero => exact .inr ⟨_, _, rfl, rfl, hxy⟩
    | succ i => exact ih i

omit [Target] in
private theorem forall₂_set {α β : Type} {R : α → β → Prop} {xs : List α} {ys : List β} {x : α}
    {y : β} (h : List.Forall₂ R xs ys) (i : ℕ) (hxy : R x y) :
    List.Forall₂ R (xs.set i x) (ys.set i y) := by
  induction h generalizing i with
  | nil => exact .nil
  | cons hab htail ih =>
    cases i with
    | zero => exact .cons hxy htail
    | succ i => exact .cons hab (ih i)

/-- A call on a pool of iterators is the call on the pool of their bytes. -/
theorem call_spec {pool : List BytesIter} {lists : List Bytes} (c : PoolCall)
    (h : List.Forall₂ Denotes pool lists) :
    ∃ pool', call pool c = .ok (pool', (c.onLists lists).2) ∧
      List.Forall₂ Denotes pool' (c.onLists lists).1 := by
  cases c with
  | on i op =>
    rcases forall₂_getElem? h i with ⟨hi, hi'⟩ | ⟨it, bs, hi, hi', hd⟩
    · refine ⟨pool, ?_, ?_⟩ <;> simp only [call, PoolCall.onLists, hi, hi']
      · rfl
      · exact h
    · obtain ⟨it', hrun, hd'⟩ := apply_spec op hd
      refine ⟨pool.set i it', ?_, ?_⟩ <;> simp only [call, PoolCall.onLists, hi, hi']
      · rw [hrun]
        rfl
      · exact forall₂_set h i hd'
  | clone i =>
    rcases forall₂_getElem? h i with ⟨hi, hi'⟩ | ⟨it, bs, hi, hi', hd⟩
    · refine ⟨pool, ?_, ?_⟩ <;> simp only [call, PoolCall.onLists, hi, hi']
      · rfl
      · exact h
    · refine ⟨pool ++ [it], ?_, ?_⟩ <;> simp only [call, PoolCall.onLists, hi, hi']
      · rfl
      · exact List.rel_append h (.cons hd .nil)

theorem runCalls_spec {pool : List BytesIter} {lists : List Bytes} (calls : List PoolCall)
    (h : List.Forall₂ Denotes pool lists) :
    ∃ pool', runCalls calls pool = .ok (pool', (PoolCall.runLists calls lists).2) ∧
      List.Forall₂ Denotes pool' (PoolCall.runLists calls lists).1 := by
  induction calls generalizing pool lists with
  | nil => exact ⟨pool, rfl, h⟩
  | cons c calls ih =>
    obtain ⟨pool₁, hcall, h₁⟩ := call_spec c h
    obtain ⟨pool₂, hrun, h₂⟩ := ih h₁
    refine ⟨pool₂, ?_, h₂⟩
    simp only [runCalls, hcall, ok_bind, hrun]
    rfl

/-- Every interleaving of calls and clones on the iterator over the bytes of a valid cord answers as
it does on the list of the bytes. At every point the counts of every iterator are the number of
bytes its list has left, and one without bytes left answers every call with nothing and stays so. -/
theorem calls_exact {c : Cord Rep} (hc : c.Valid) (calls : List PoolCall) :
    ∃ it pool, new c = .ok it ∧
      runCalls calls [it] = .ok (pool, (PoolCall.runLists calls [c.bytes]).2) ∧
      List.Forall₂ (fun it bs ↦ it.sizeHint = (bs.length, some bs.length) ∧
        it.len = .ok bs.length ∧ it.count = bs.length ∧
        (bs = [] → ∀ op, ∃ it', it.apply op = .ok (it', none) ∧ it'.count = 0))
        pool (PoolCall.runLists calls [c.bytes]).1 := by
  obtain ⟨it, hnew, hd⟩ := new_spec hc.source
  obtain ⟨pool, hrun, hpool⟩ := runCalls_spec calls (.cons hd .nil)
  refine ⟨it, pool, hnew, hrun, hpool.imp fun it bs hd ↦ ?_⟩
  obtain ⟨hhint, hlen, hcount⟩ := hd.counts
  refine ⟨hhint, hlen, hcount, ?_⟩
  rintro rfl op
  obtain ⟨it', hrun', hd'⟩ := apply_spec op hd
  have hop : op.onList ([] : Bytes) = ([], none) := by cases op <;> rfl
  rw [hop] at hrun' hd'
  exact ⟨it', hrun', hd'.counts.2.2⟩

end Spec

/-- Calls on the tree of two flats, with a clone made when both ends had moved. -/
theorem calls_exact_pair :
    ∃ it pool, new (.tree pairTree) = .ok it ∧
      runCalls [.on 0 .nextBack, .clone 0, .on 1 (.nth 1), .on 0 .next, .on 1 .next, .on 0 (.nth 7)]
        [it] = .ok (pool, [some 3, none, some 2, some 1, none, none]) := by
  let _ : Target := ⟨64, .inr rfl⟩
  have hc : Cord.Valid (.tree pairTree) := ⟨1, by decide, holding_sharedPair.valid⟩
  obtain ⟨it, pool, hnew, hrun, -⟩ := calls_exact hc
    [.on 0 .nextBack, .clone 0, .on 1 (.nth 1), .on 0 .next, .on 1 .next, .on 0 (.nth 7)]
  exact ⟨it, pool, hnew, hrun.trans rfl⟩

end BytesIter

end CordRs
