import TcpLearn.Sessions
import TcpLearn.Ownership
import TcpLearn.Accounting
import TcpLearn.Isolation
import TcpLearn.Reuse
import TcpLearn.Announcements
import TcpLearn.Delivery
import TcpLearn.Shutdown
import TcpLearn.Descriptors
import TcpLearn.Layout
import TcpLearn.ConInfo
import TcpLearn.Reading
import TcpLearn.Writing
import TcpLearn.Headers
import TcpLearn.Backlog
import TcpLearn.EventLoop
import TcpLearn.BbrServer
import TcpLearn.OtherClocks
import TcpLearn.TimePasses
import TcpLearn.PlainTimers
import TcpLearn.FileEvents
import TcpLearn.Polling
import TcpLearn.LinkedPools
import TcpLearn.Peaks
import TcpLearn.Transfers
import TcpLearn.EchoServer
import TcpLearn.Sockets
import TcpLearn.Footprint
import TcpLearn.LinkedContexts
import TcpLearn.Addresses
import TcpLearn.MainLoop
