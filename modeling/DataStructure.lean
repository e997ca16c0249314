import DataStructure.Lib.Program
import DataStructure.Lib.Heap
import DataStructure.Lib.Zipper
import DataStructure.Lib.LinkedTree
import DataStructure.Lib.KeyedTree
import DataStructure.Lib.RedBlack
import DataStructure.Lib.StableOrder
import DataStructure.Lib.Framing
import DataStructure.Lib.Go
import DataStructure.Lib.Buffer
import DataStructure.Lib.Base64
import DataStructure.Lib.BlockHash
import DataStructure.Lib.Sine
import DataStructure.Lib.Md5
import DataStructure.Lib.System
import DataStructure.Lib.Monitor
import DataStructure.Lib.Chain
import DataStructure.Lib.Channel
import DataStructure.Lib.FileBytes
import DataStructure.Lib.RefCount
import DataStructure.Lib.Ring
import DataStructure.Lib.EndAround
import DataStructure.Lib.Partial
import DataStructure.Lib.CInt
import DataStructure.Lib.CharArray
import DataStructure.Lib.CText
import DataStructure.Lib.Regex
import DataStructure.Lib.Scanf
import DataStructure.Lib.InPlace
import DataStructure.Lib.HalvingHeap
import DataStructure.Lib.Tally
import DataStructure.Tree.RbTree
import DataStructure.Tree.RbInsert
import DataStructure.Tree.RbErase
import DataStructure.Tree.RbUnlink
import DataStructure.Tree.RbWalk
import DataStructure.Tree.CommQueue
import DataStructure.Tree.CommTraverse
import DataStructure.Tree.TimerQueue
import DataStructure.Tree.Avl
import DataStructure.Tree.AvlBalance
import DataStructure.Tree.AvlRun
import DataStructure.Tree.AvlDuplicate
import DataStructure.Tree.Splay
import DataStructure.Tree.SplayOps
import DataStructure.Tree.SplayErase
import DataStructure.Tree.SplayRun
import DataStructure.Tree.SplayEmpty
import DataStructure.Proto.Packet
import DataStructure.Proto.Frames
import DataStructure.Proto.Lemon
import DataStructure.Proto.Receive
import DataStructure.Crypt.Base64
import DataStructure.Crypt.DecodeBound
import DataStructure.Crypt.Md5
import DataStructure.Crypt.FileDigest
import DataStructure.Thread.Pool
import DataStructure.Thread.PoolQueue
import DataStructure.Thread.PoolWake
import DataStructure.Thread.PoolTeardown
import DataStructure.Thread.CThreadPool
import DataStructure.Go.Fibb
import DataStructure.Go.AppendToFile
import DataStructure.Go.List
import DataStructure.Go.ListRun
import DataStructure.Go.ListInit
import DataStructure.Go.Stack
import DataStructure.Go.ReverseCalc
import DataStructure.Go.Slices
import DataStructure.Go.Echo
import DataStructure.Go.Ping
import DataStructure.Download.Queue
import DataStructure.Download.Transfer
import DataStructure.Download.Completion
import DataStructure.Download.RangeSplit
import DataStructure.Kernel.Refcnt
import DataStructure.Kernel.RefcntFresh
import DataStructure.Log.ClientLog
import DataStructure.Net.Checksum
import DataStructure.Net.Dhcpinfo
import DataStructure.Net.DhcpLeases
import DataStructure.Net.Proxy
import DataStructure.Net.Gateway
import DataStructure.File.Hosts
import DataStructure.File.HostsText
import DataStructure.File.HostsBindings
import DataStructure.File.HostsSize
import DataStructure.Sorting.ArraySort
import DataStructure.Problem.SortOn
import DataStructure.Download.ParseUrl
import DataStructure.Net.DnsPacket
import DataStructure.Net.LibevServer
import DataStructure.Log.SingleLog
import DataStructure.Log.Retarget
import DataStructure.Text.MemCasestr
import DataStructure.Text.Walkips
import DataStructure.Text.WebUrl
import DataStructure.Lib.Binary64
import DataStructure.Json.Item
import DataStructure.Json.Print
import DataStructure.Json.PrintText
import DataStructure.Json.Parse
import DataStructure.Json.ParseStore
import DataStructure.Json.RoundTrip
import DataStructure.Json.Minify
import DataStructure.Json.Duplicate
import DataStructure.List.ListHead
import DataStructure.List.ListHeadRun
import DataStructure.Lib.Ends
import DataStructure.File.Copywrite
import DataStructure.Download.Threads
import DataStructure.Lib.Ownership
import DataStructure.Kernel.RefcntAtomic
