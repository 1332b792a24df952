import Lcthw.Ternary.Basic
import Lcthw.Ternary.Route
import Lcthw.Ternary.Entries
import Lcthw.Ternary.Grow
import Lcthw.Base
import Lcthw.Moments
import Lcthw.Stats
import Lcthw.TSTree.Defs
import Lcthw.TSTree.Walk
import Lcthw.Run
import Lcthw.TSTree.Map
import Lcthw.Ring
import Lcthw.RingBuffer.Defs
import Lcthw.RingBuffer.Fifo
import Lcthw.RingBuffer.Gets
import Lcthw.RingBuffer.Mirror
import Lcthw.RingBuffer.Transfer
import Lcthw.RingBuffer.Bounds
import Lcthw.RingBuffer.Netclient
import Lcthw.Traced
import Lcthw.Server.Defs
import Lcthw.TSTree.Delim
import Lcthw.TSTree.Trace
import Lcthw.TSTree.Agreement
import Lcthw.TSTree.Uninitialised
import Lcthw.Server.Spec
import Lcthw.Server.Packets
import Lcthw.Server.Divisions
import Lcthw.Server.Deletes
import Lcthw.Server.Updates
import Lcthw.Server.Words
import Lcthw.Paths
import Lcthw.TSTree.Dirs
import Lcthw.TSTree.Retrace
import Lcthw.TSTree.Children
import Lcthw.TSTree.Counts
import Lcthw.TSTree.Means
import Lcthw.Server.Rollup
import Lcthw.Server.Listing
import Lcthw.Locked
import Lcthw.Server.Connection
import Lcthw.Server.Clients
import Lcthw.Server.Creates
import Lcthw.Bstr
import Lcthw.Comparator
import Lcthw.DArray
import Lcthw.DArray.Stack
import Lcthw.DArray.Setting
import Lcthw.DArray.Slots
import Lcthw.DArray.Failures
import Lcthw.DArray.Quicksort
import Lcthw.DArray.Heapsort
import Lcthw.DArray.Mergesort
import Lcthw.DArray.Merging
import Lcthw.DArray.Usable
import Lcthw.DArray.BinSearch
import Lcthw.DArray.PushSort
import Lcthw.TSTree.Prefix
import Lcthw.TSTree.Leftovers
import Lcthw.TSTree.Traversal
import Lcthw.TSTree.Completions
import Lcthw.CountingSort
import Lcthw.RadixMap.Defs
import Lcthw.RadixMap.Sorting
import Lcthw.RadixMap.Search
import Lcthw.RadixMap.Multimap
import Lcthw.RadixMap.PartialSort
import Lcthw.RadixMap.Capacity
import Lcthw.Horspool
import Lcthw.StringAlgos
import Lcthw.StringScanner
import Lcthw.StringSearch
import Lcthw.Binstr
import Lcthw.Devpkg.Db
import Lcthw.Devpkg.Commands
import Lcthw.Heap
import Lcthw.Chain
import Lcthw.LinkedList
import Lcthw.ListAlgos
import Lcthw.ListMerge
import Lcthw.Bst
import Lcthw.LinkedTree
import Lcthw.BSTree.Defs
import Lcthw.BSTree.Links
import Lcthw.BSTree.Traverse
import Lcthw.BSTree.Rotations
import Lcthw.BSTree.Map
import Lcthw.BSTree.Destroy
import Lcthw.BSTree.Overwrite
import Lcthw.BSTree.Balance
import Lcthw.BSTree.Depth
import Lcthw.BSTree.Check
import Lcthw.SuffixTree.Defs
import Lcthw.SuffixTree.Unsplit
import Lcthw.SuffixTree.Depths
import Lcthw.SuffixTree.Split
import Lcthw.Hashmap.Defs
import Lcthw.Hashmap.Search
import Lcthw.Hashmap.Map
import Lcthw.Hashmap.Finite
import Lcthw.Hashmap.WellFormed
import Lcthw.Hashmap.Comparators
import Lcthw.HashmapAlgos
import Lcthw.Replace
import Lcthw.Bstrlib.Find
import Lcthw.Bstrlib.Memory
import Lcthw.Bstrlib.Findreplace
import Lcthw.RingBuffer.Relay
import Lcthw.Bstrlib.Growing
import Lcthw.Bstrlib.Reading
import Lcthw.Bstrlib.Trimming
import Lcthw.Bstrlib.Edits
import Lcthw.ListDestroy
import Lcthw.Devpkg.Main
