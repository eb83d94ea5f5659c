import SystemProgramming.Lib.Transition
import SystemProgramming.Lib.Fifo
import SystemProgramming.Lib.Custody
import SystemProgramming.Lib.Bytes
import SystemProgramming.Lib.Cursor
import SystemProgramming.Lib.Indexed
import SystemProgramming.Lib.Path
import SystemProgramming.Lib.Descriptors
import SystemProgramming.Lib.Scan
import SystemProgramming.Lib.Links
import SystemProgramming.Lib.Sorting
import SystemProgramming.Lib.Insertion
import SystemProgramming.Lib.Tally
import SystemProgramming.Lib.CInt
import SystemProgramming.Lib.Growth
import SystemProgramming.Lib.FileWrite
import SystemProgramming.Lib.Monitor.Basic
import SystemProgramming.Lib.Monitor.Invariant
import SystemProgramming.Lib.Monitor.Wakeup
import SystemProgramming.Lib.Monitor.Progress
import SystemProgramming.Lib.Monitor.Rank
import SystemProgramming.Spooler.Ring
import SystemProgramming.Spooler.Procedures
import SystemProgramming.Spooler.Unsafe
import SystemProgramming.Spooler.Overwriting
import SystemProgramming.Spooler.Wakeups
import SystemProgramming.Spooler.Program
import SystemProgramming.Spooler.Delivery
import SystemProgramming.Spooler.Progress
import SystemProgramming.Spooler.Shutdown
import SystemProgramming.Spooler.Completion
import SystemProgramming.Spooler.Strings
import SystemProgramming.Spooler.Counter
import SystemProgramming.Spooler.Livelock
import SystemProgramming.Spooler.Endless
import SystemProgramming.Words.ListSort
import SystemProgramming.Words.Stream
import SystemProgramming.Words.WordCount
import SystemProgramming.Words.CountWords
import SystemProgramming.Words.LinkedSort
import SystemProgramming.Words.ListElem
import SystemProgramming.Words.InPlaceSort
import SystemProgramming.Words.Deque
import SystemProgramming.Words.OrderedLists
import SystemProgramming.Words.Confined
import SystemProgramming.Words.ListRuns
import SystemProgramming.Words.BuiltList
import SystemProgramming.Words.Main
import SystemProgramming.Words.Counts
import SystemProgramming.Words.CountReader
import SystemProgramming.Words.Fwords
import SystemProgramming.Words.Pipes
import SystemProgramming.Words.Processes
import SystemProgramming.Words.ProcessRuns
import SystemProgramming.Words.Pwords
import SystemProgramming.Words.Schedule
import SystemProgramming.Words.InMemory
import SystemProgramming.Words.PwordsMemory
import SystemProgramming.HttpServer.Request
import SystemProgramming.HttpServer.RequestBuffer
import SystemProgramming.HttpServer.Response
import SystemProgramming.HttpServer.Files
import SystemProgramming.HttpServer.Answers
import SystemProgramming.HttpServer.Listing
import SystemProgramming.HttpServer.ListingSize
import SystemProgramming.HttpServer.Utlist
import SystemProgramming.HttpServer.WorkQueue
import SystemProgramming.HttpServer.QueueHistory
import SystemProgramming.HttpServer.Contract
import SystemProgramming.HttpServer.Dispatch
import SystemProgramming.HttpServer.Reaping
import SystemProgramming.HttpServer.Pool
import SystemProgramming.HttpServer.WorkItems
import SystemProgramming.HttpServer.PoolCompletion
import SystemProgramming.HttpServer.Dispatchers
import SystemProgramming.HttpServer.Streams
import SystemProgramming.HttpServer.Reading
import SystemProgramming.HttpServer.Options
import SystemProgramming.Shell.Tokenizer
import SystemProgramming.Shell.QuotedWords
import SystemProgramming.Shell.TokenBuffer
import SystemProgramming.Shell.CommandLine
import SystemProgramming.Shell.Arguments
import SystemProgramming.Shell.ArgumentArray
import SystemProgramming.Shell.GetCmd
import SystemProgramming.Shell.MissingWords
import SystemProgramming.Shell.Redirection
import SystemProgramming.Shell.Session
import SystemProgramming.Shell.OutputFile
import SystemProgramming.Shell.Pwd
import SystemProgramming.Shell.JobControl
import SystemProgramming.Shell.ThreadsCompletion
