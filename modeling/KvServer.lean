import KvServer.Base.Machine
import KvServer.Store.Process
import KvServer.Store.History
import KvServer.Store.Sharing
import KvServer.Store.LifeCycle
import KvServer.Base.Transfer
import KvServer.Mtcp.Handler
import KvServer.Mtcp.Stream
import KvServer.Mtcp.Closing
import KvServer.Mtcp.Survival
import KvServer.Base.Memory
import KvServer.Base.Fifo
import KvServer.Server5204.Buffer
import KvServer.Server5204.Link
import KvServer.Server5204.Fdevents
import KvServer.Server5204.Server
import KvServer.Server5204.Steps
import KvServer.Server5204.Framing
import KvServer.Server5204.Responses
import KvServer.Server5204.Failures
import KvServer.Server5204.Subscription
import KvServer.FrontEnds
import KvServer.Server5204.Errors
import KvServer.Server5204.Sockets
import KvServer.Server5204.Ownership
import KvServer.Server5204.Severed
import KvServer.Server5204.ByteFifo
import KvServer.Mtcp.Registration
import KvServer.Mtcp.Keepalive
import KvServer.Base.Words
import KvServer.Base.Draws
import KvServer.Util.Strings
import KvServer.Util.Config
import KvServer.Util.ConfigFile
import KvServer.Testclient.CreateTest
import KvServer.Testclient.ParseLine
import KvServer.Testclient.Moduli
import KvServer.Testclient.Replay
import KvServer.Testclient.CheckOutput
import KvServer.Testclient.Strace
import KvServer.Testclient.TokenEnd
import KvServer.Testclient.RedoOutput
import KvServer.Testclient.SendRequests
import KvServer.Testclient.Workload
import KvServer.Testclient.Pyclient
import KvServer.Testclient.Evclient
import KvServer.Client.Benchmark
import KvServer.Client.Results
import KvServer.Printing
import KvServer.Base.StreamDecoder
import KvServer.Server5204.Packets
import KvServer.Server5204.PacketStream
import KvServer.Server5204.Exchange
import KvServer.Server5204.Request
import KvServer.Server5204.SelectBackend
import KvServer.Base.Threads
import KvServer.Util.WorkerPool
import KvServer.Mtcp.MainThread
import KvServer.Mtcp.Shutdown
