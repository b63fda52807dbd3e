import MemMapIPC.Library.ByteMemory
import MemMapIPC.Library.Interleaving
import MemMapIPC.Library.Cyclic
import MemMapIPC.CircularBuffer
import MemMapIPC.Call
import MemMapIPC.Ring
import MemMapIPC.Proofs.Cursor
import MemMapIPC.Proofs.Sharing
import MemMapIPC.Proofs.Fifo
import MemMapIPC.Proofs.Torn
import MemMapIPC.Proofs.Tear
import MemMapIPC.Library.BoundedQueue
import MemMapIPC.Queue
import MemMapIPC.Proofs.Effect
import MemMapIPC.Proofs.Queue
import MemMapIPC.Library.Region
import MemMapIPC.Entity
import MemMapIPC.Layout
import MemMapIPC.Proofs.Layout
import MemMapIPC.Transfer
import MemMapIPC.Stream
import MemMapIPC.Proofs.Stream
import MemMapIPC.Library.Halting
import MemMapIPC.Peer
import MemMapIPC.Proofs.Peer
import MemMapIPC.Startup
import MemMapIPC.Proofs.Startup
import MemMapIPC.Succession
import MemMapIPC.Proofs.Succession
import MemMapIPC.Proofs.Reattach
import MemMapIPC.Waiting
import MemMapIPC.Proofs.Waiting
import MemMapIPC.Proofs.Split
import MemMapIPC.TwoRings
import MemMapIPC.Proofs.TwoRings
import MemMapIPC.Sizes
import MemMapIPC.Proofs.Sizes
import MemMapIPC.Attachment
import MemMapIPC.Proofs.Attachment
import MemMapIPC.Names
import MemMapIPC.Proofs.Names
import MemMapIPC.Library.Fair
import MemMapIPC.Checked
import MemMapIPC.Proofs.Checked
import MemMapIPC.Duplex
import MemMapIPC.Proofs.Duplex
import MemMapIPC.Library.Simulation
import MemMapIPC.Atomic
import MemMapIPC.Proofs.Atomic
import MemMapIPC.Library.Commuting
import MemMapIPC.Program
import MemMapIPC.Proofs.Program
import MemMapIPC.Proofs.Settle
import MemMapIPC.Proofs.Outcome
import MemMapIPC.Conversation
import MemMapIPC.TestThreads
import MemMapIPC.Notices
import MemMapIPC.Pipes
import MemMapIPC.Proofs.Pipes
import MemMapIPC.Proofs.Conversation
import MemMapIPC.Proofs.TestThreads
import MemMapIPC.Proofs.Notices
import MemMapIPC.TwoWay
import MemMapIPC.Proofs.TwoWay
import MemMapIPC.Proofs.Rounds
import MemMapIPC.Launch
import MemMapIPC.Proofs.Launch
