import CordRs.Btree.Local
import CordRs.Cord.AppendSlice
import CordRs.Cord.TakeAppendBuffer

/-!
# The operations of buffers and cords are local

What a buffer or a cord does with its references it does beside other cells as well, as the tree
operations do (`CordRs.Btree.Local`). A cord of which others hold nothing, and a buffer, are nobody
else's in their part of the heap.

## Main results

* `CordRs.Cord.Owns.within`, `CordRs.CordBuffer.Holds.within`: the part of a cord or a buffer.
-/

namespace CordRs

open RefHeap

/-! ### Buffers -/

section Buffer

variable [Target]

instance (capacity : ℕ) : Local (CordBuffer.withCapacity capacity) := by
  unfold CordBuffer.withCapacity
  infer_instance

instance (capacity blockSize : ℕ) :
    Local (CordBuffer.withCapacityAndBlockSize capacity blockSize) := by
  unfold CordBuffer.withCapacityAndBlockSize
  infer_instance

instance (rep : Addr) : Local (CordBuffer.flat rep) := by
  unfold CordBuffer.flat
  exact .andThen fun node ↦ by rcases node with (_ | _) | _ | _ <;> infer_instance

instance (b : CordBuffer) : Local b.asSlice := by
  cases b <;>
  · unfold CordBuffer.asSlice
    infer_instance

instance (b : CordBuffer) : Local b.capacity := by
  cases b <;>
  · unfold CordBuffer.capacity
    infer_instance

instance (b : CordBuffer) : Local b.len := by
  unfold CordBuffer.len
  infer_instance

instance (b : CordBuffer) : Local b.available := by
  unfold CordBuffer.available
  infer_instance

instance (b : CordBuffer) (written : Bytes) : Local (b.setLen written) := by
  unfold CordBuffer.setLen
  cases b <;> infer_instance

instance (b : CordBuffer) (src : Bytes) : Local (b.putSlice src) := by
  unfold CordBuffer.putSlice
  infer_instance

instance (b : CordBuffer) : Local b.drop := by
  cases b <;>
  · unfold CordBuffer.drop
    infer_instance

end Buffer

/-! ### Cords -/

namespace Cord

variable [Target]

instance (data : Bytes) (extra : ℕ) : Local (createFlat data extra) := by
  unfold createFlat
  infer_instance

instance (rep : Addr) : Local (createBtree rep) := by
  unfold createBtree
  refine .andThen fun data ↦ ?_
  split
  · infer_instance
  · exact .andThen fun node ↦ by cases node <;> infer_instance

instance (rep : Addr) : Local (forceBtree rep) := by
  unfold forceBtree
  exact .andThen fun node ↦ by cases node <;> infer_instance

instance (d : InlineData) (extra : ℕ) : Local (makeFlatWithExtraCapacity d extra) := by
  unfold makeFlatWithExtraCapacity
  infer_instance

instance (c : Cord Addr) (tree : Addr) : Local (c.appendTree tree) := by
  unfold appendTree
  cases c <;> infer_instance

instance (c : Cord Addr) (src : Bytes) : Local (c.appendPrecise src) := by
  unfold appendPrecise
  cases c <;> infer_instance

instance (c : Cord Addr) : Local c.loadLen := by
  cases c <;>
  · unfold loadLen
    infer_instance

instance (c : Cord Addr) (buffer : CordBuffer) : Local (c.appendBuffer buffer) := by
  unfold appendBuffer
  cases buffer <;> infer_instance

instance (root : Addr) (src : Bytes) : Local (prepareAppendRegion root src) := by
  unfold prepareAppendRegion
  exact .andThen fun node ↦ by rcases node with (_ | _) | _ | _ <;> infer_instance

instance (root : Addr) (src : Bytes) : Local (appendRegion root src) := by
  unfold appendRegion
  infer_instance

instance (root : Addr) (src : Bytes) : Local (appendRest root src) := by
  unfold appendRest
  infer_instance

instance (root : Addr) (src : Bytes) : Local (appendUnlessEmpty root src) := by
  unfold appendUnlessEmpty
  infer_instance

instance (c : Cord Addr) (src : Bytes) : Local (c.appendSlice src) := by
  unfold appendSlice
  cases c <;> infer_instance

instance (rep : Addr) (minCapacity : ℕ) : Local (extractAppendBuffer rep minCapacity) := by
  unfold extractAppendBuffer
  refine .andThen fun node ↦ ?_
  split
  · infer_instance
  · refine .andThen fun unique ↦ ?_
    cases unique <;> rcases node with (_ | _) | _ | _ <;> infer_instance

instance (blockSize capacity : ℕ) : Local (newAppendBuffer blockSize capacity) := by
  unfold newAppendBuffer
  infer_instance

instance (c : Cord Addr) (blockSize capacity minCapacity : ℕ) :
    Local (c.takeAppendBufferSlowPath blockSize capacity minCapacity) := by
  unfold takeAppendBufferSlowPath
  cases c with
  | inline d => infer_instance
  | tree rep =>
    refine .andThen fun result ↦ ?_
    cases result.extracted <;> infer_instance

instance (c : Cord Addr) (capacity : ℕ) : Local (c.takeAppendBuffer capacity) := by
  unfold takeAppendBuffer
  infer_instance

/-- A cord of which others hold nothing is owned by nobody else in its part of the heap. -/
theorem Owns.within {h : Heap Node} {Y Z : List Addr} {R : Multiset Addr} {c : Cord Rep}
    (hc : c.Owns h (Y ++ Z) R) (hapart : Apart h c.refs R) :
    c.Owns (h.within (partOf h Y c.refs)) Y 0 where
  owned := (hc.owned.within hapart).congr (add_zero _).symm
  held t ht := by
    have hroot : Reach h c.refs t.addr := by
      rw [ht]
      exact .root (Multiset.mem_singleton_self _)
    have hf : Frame [] c.refs h (h.within (partOf h Y c.refs)) :=
      ⟨by simp, fun a ha ↦ Heap.node?_within_of_mem h _ (.inl ha)⟩
    exact (hc.held t ht).frame hf hroot
  valid := hc.valid

end Cord

/-- A buffer that is opened holds its bytes in the part of the heap that it belongs to. -/
theorem CordBuffer.Holds.within [Target] {h : Heap Node} {A : Multiset Addr} {b : CordBuffer}
    {bs : Bytes} {cap : ℕ} (hb : b.Holds h bs cap) :
    b.Holds (h.within (partOf h b.cells A)) bs cap := by
  refine ⟨hb.1, ?_⟩
  cases b with
  | short data => exact hb.2
  | long rep =>
    obtain ⟨tag, hn, hrest⟩ := hb.2
    refine ⟨tag, ?_, hrest⟩
    exact (Heap.node?_within_of_mem h _ (.inr (List.mem_singleton_self rep))).trans hn

end CordRs
