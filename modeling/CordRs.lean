import CordRs.Rep.Linearize
import CordRs.Rep.Analysis
import CordRs.Cord.Read
import CordRs.Btree.AddData
import CordRs.Btree.ReaderRead
import CordRs.Btree.Lookup
import CordRs.Btree.NodeOps
import CordRs.Cord.Hash
import CordRs.Cord.Compare
import CordRs.Cord.Cursor
import CordRs.Cord.Deserialize
import CordRs.Cord.BlockSize
import CordRs.Iter.InlineOps
import CordRs.Rep.NavigatorMoves
import CordRs.Cord.BytesDeque
import CordRs.Cord.Contiguous
import CordRs.Cord.TakeAppendBuffer
import CordRs.Cord.AppendSlice
import CordRs.Cord.BufferOps
import CordRs.Cord.Debug
import CordRs.Cord.Serialize
import CordRs.Cord.WriterApart
import CordRs.Store.Buf
import CordRs.Store.Handout
import CordRs.Store.Independent
import CordRs.Store.Overflow
