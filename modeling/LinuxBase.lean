import LinuxBase.Lib.Run
import LinuxBase.Lib.Trace
import LinuxBase.Lib.Walk
import LinuxBase.Lib.Layout
import LinuxBase.Lib.KeySort
import LinuxBase.Lib.CString
import LinuxBase.Lib.DList
import LinuxBase.Lib.Monitor
import LinuxBase.ConnectionPool.EmptyQueue
import LinuxBase.ConnectionPool.Idle
import LinuxBase.ConnectionPool.Budget
import LinuxBase.ConnectionPool.Connected
import LinuxBase.ConnectionPool.Clients
import LinuxBase.ConnectionPool.Order
import LinuxBase.ConnectionPool.Statements
import LinuxBase.ThreadPool.WakeUp
import LinuxBase.ThreadPool.Shutdown
import LinuxBase.ThreadPool.Creation
import LinuxBase.ThreadPool.Stack
import LinuxBase.ThreadPool.Completion
import LinuxBase.BloomFilter.Filter
import LinuxBase.AddressBook.Basic
import LinuxBase.AddressBook.Simulation
import LinuxBase.AddressBook.Links
import LinuxBase.AddressBook.RoundTrip
import LinuxBase.Dns.Wire
import LinuxBase.Dns.Request
import LinuxBase.Dns.Bounds
import LinuxBase.Dns.Free
import LinuxBase.Dns.Blocks
import LinuxBase.Dns.Question
import LinuxBase.Dns.Exchange
import LinuxBase.Lock
import LinuxBase.Lock.FinalCounts
import LinuxBase.TcpServer.Wakes
import LinuxBase.TcpServer.Printed
import LinuxBase.AddressBook.Fields
import LinuxBase.AddressBook.Main
import LinuxBase.AddressBook.Reads
import LinuxBase.AddressBook.Compare
import LinuxBase.AddressBook.Ownership
import LinuxBase.AddressBook.Directory
import LinuxBase.AddressBook.Console
import LinuxBase.BloomFilter.Summary
import LinuxBase.BloomFilter.Bits
import LinuxBase.BloomFilter.Recurrences
import LinuxBase.HttpConnect.Basic
import LinuxBase.HttpConnect.Request
import LinuxBase.HttpConnect.Response
import LinuxBase.HttpConnect.Save
import LinuxBase.HttpConnect.Collect
import LinuxBase.HttpConnect.Main
import LinuxBase.Mysql
import LinuxBase.Mysql.Copy
import LinuxBase.TcpConnect
import LinuxBase.TcpServer.Counter
import LinuxBase.TcpServer.Setup
import LinuxBase.TcpConnect.Ledger
import LinuxBase.TcpConnect.Ports
