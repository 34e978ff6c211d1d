import Cs342.Library.Outcome
import Cs342.Library.ByteBuffer
import Cs342.Library.CString
import Cs342.Library.Qsort
import Cs342.Library.System
import Cs342.Library.Tally
import Cs342.Library.Interleaving
import Cs342.Library.Argmin
import Cs342.Library.Replacement
import Cs342.Library.Threads
import Cs342.Library.Loop
import Cs342.Library.Scanf
import Cs342.Library.Strtol
import Cs342.Library.Numerals
import Cs342.Library.LeastFirst
import Cs342.Library.Chain
import Cs342.Library.Scaling
import Cs342.Library.Calls
import Cs342.Library.SearchTree
import Cs342.Library.LinkedTree
import Cs342.Library.Intervals
import Cs342.Library.Competitive
import Cs342.Library.PrintedText
import Cs342.Library.Heap
import Cs342.Library.ObjectList
import Cs342.Library.Bounded
import Cs342.Library.FirstOccurrences
import Cs342.WordCount.Table
import Cs342.WordCount.Input
import Cs342.WordCount.Output
import Cs342.WordCount.Tables
import Cs342.WordCount.Arguments
import Cs342.WordCount.CommandLine
import Cs342.WordCount.Tword
import Cs342.WordCount.Message
import Cs342.WordCount.Child
import Cs342.WordCount.Sending
import Cs342.WordCount.Codec
import Cs342.WordCount.Delivery
import Cs342.WordCount.Progress
import Cs342.WordCount.Parent
import Cs342.WordCount.Pword
import Cs342.WordCount.PwordProgress
import Cs342.WordCount.Agreement
import Cs342.Paging.Address
import Cs342.Paging.Simulation
import Cs342.Paging.Invariant
import Cs342.Paging.Runs
import Cs342.Paging.Refinement
import Cs342.Paging.Consistency
import Cs342.Paging.Victims
import Cs342.Paging.Relations
import Cs342.Paging.Params
import Cs342.Paging.Bounds
import Cs342.Paging.RandomAddresses
import Cs342.Paging.Regions
import Cs342.Paging.Competitive
import Cs342.Paging.Pagesim
import Cs342.Paging.Replay
import Cs342.Cfs.Runqueue
import Cs342.Cfs.Machine
import Cs342.Cfs.Cpu
import Cs342.Cfs.Locks
import Cs342.Cfs.Places
import Cs342.Cfs.OneCpu
import Cs342.Cfs.Selection
import Cs342.Cfs.Creation
import Cs342.Cfs.Arrivals
import Cs342.Cfs.Accounting
import Cs342.Cfs.Publishing
import Cs342.Cfs.Shutdown
import Cs342.Cfs.Wakeups
import Cs342.Cfs.Deadlock
import Cs342.Cfs.QueueLength
import Cs342.Cfs.Params
import Cs342.Cfs.Iterator
import Cs342.Cfs.Slots
import Cs342.Cfs.Return
import Cs342.Cfs.Timeslice
import Cs342.Cfs.Fairness
import Cs342.Cfs.CpuTime
import Cs342.Cfs.WorkloadFile
import Cs342.ParsedLists
import Cs342.FreedLists
import Cs342.RandomRange
import Cs342.Bst
import Cs342.BstMain
import Cs342.Cfs.WorkloadBounds
import Cs342.Cfs.Weights
import Cs342.Cfs.Priorities
import Cs342.Cfs.Potential
import Cs342.Cfs.Termination
import Cs342.Cfs.Timeline
import Cs342.Cfs.Lines
import Cs342.Cfs.Completion
import Cs342.Cfs.Commandline
import Cs342.Cfs.Lifetime
import Cs342.Cfs.Nodes
import Cs342.Cfs.Table
import Cs342.Ext2.Device
import Cs342.Ext2.DirEntry
import Cs342.Ext2.Directory
import Cs342.Ext2.Listing
import Cs342.Ext2.Reads
import Cs342.Ext2.Termination
import Cs342.Ext2.Copies
import Cs342.Ext2.InodeTable
import Cs342.Ext2.InodeSize
import Cs342.Ext2.Groups
import Cs342.Ext2.Printing
import Cs342.Ext2.Report
import Cs342.Ext2.EntryList
import Cs342.Ext2.Program
