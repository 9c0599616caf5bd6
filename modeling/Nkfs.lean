import Nkfs.Lib.Bytes
import Nkfs.Lib.Loop
import Nkfs.Lib.Gf256
import Nkfs.Lib.Elimination
import Nkfs.Lib.Program
import Nkfs.Lib.Assoc
import Nkfs.Lib.Slots
import Nkfs.Lib.Interleaving
import Nkfs.Lib.SearchTree
import Nkfs.Errno
import Nkfs.Image.Const
import Nkfs.Image.NodeFormat
import Nkfs.Crt.Nk8
import Nkfs.Crt.Nk8Recover
import Nkfs.Core.State
import Nkfs.Core.Balloc
import Nkfs.Btree.Node
import Nkfs.Btree.Ops
import Nkfs.Btree.Tree
import Nkfs.Btree.Find
import Nkfs.Btree.Split
import Nkfs.Btree.Insert
import Nkfs.Btree.Delete
import Nkfs.Btree.Size
import Nkfs.Btree.Map
import Nkfs.Btree.Erase
import Nkfs.Core.Inode
import Nkfs.Core.Super
import Nkfs.Object.Layout
import Nkfs.Object.Block
import Nkfs.Object.Write
import Nkfs.Object.Io
import Nkfs.Object.Request
import Nkfs.Object.System
import Nkfs.Object.Lifecycle
import Nkfs.Object.Array
import Nkfs.Object.History
import Nkfs.Object.Isolation
import Nkfs.Concurrent.Delete
import Nkfs.Route.Host
import Nkfs.Route.Invariant
import Nkfs.Route.Neighs
import Nkfs.Route.Table
import Nkfs.Route.Handshake
import Nkfs.Net.Packet
import Nkfs.Net.Server
import Nkfs.Net.Framing
import Nkfs.Dio.WaitRead
import Nkfs.Dio.Sync
import Nkfs.Dio.Cache
import Nkfs.Dio.CacheInvariant
import Nkfs.Dio.Evict
import Nkfs.Dio.Transparent
import Nkfs.Balloc.Bitmap
import Nkfs.Balloc.Scan
import Nkfs.Balloc.Alloc
import Nkfs.Balloc.Errors
import Nkfs.Locks.Inode
import Nkfs.Locks.Balance
import Nkfs.Locks.Calls
import Nkfs.Btree.Traverse
import Nkfs.Btree.Check
import Nkfs.Image.Lookup
import Nkfs.Object.Rollback
import Nkfs.Route.Release
import Nkfs.Object.Remount
import Nkfs.Btree.NodeCache
import Nkfs.Btree.Heap
import Nkfs.Btree.HeapOk
import Nkfs.Btree.HeapInsert
import Nkfs.Crt.Nk8Inverse
import Nkfs.Crt.Nk8Bounds
import Nkfs.Dio.Shrink
import Nkfs.Object.Placement
import Nkfs.Object.Geometry
import Nkfs.Image.Records
import Nkfs.Object.Offsets
import Nkfs.Route.Heartbeat
import Nkfs.Btree.Crash
import Nkfs.Btree.HeapTrees
import Nkfs.Btree.Search
import Nkfs.Client.Object
import Nkfs.Crt.Hex
import Nkfs.Crt.MallocChecker
import Nkfs.Crt.ObjId
import Nkfs.Crt.Random
import Nkfs.Dio.Pages
import Nkfs.Object.Creation
import Nkfs.Route.Reply
import Nkfs.Crt.Xxhash
import Nkfs.Object.Store
