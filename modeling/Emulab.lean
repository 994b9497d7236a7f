import Emulab.Frisbee.BlockMapSets
import Emulab.Frisbee.ServerAddress
import Emulab.Frisbee.Session
import Emulab.Imagezip.SigDelta
import Emulab.Imagezip.Overlay
import Emulab.Sched.LocalAgent
import Emulab.Sched.GroupAgent
import Emulab.Sched.QueueReturns
import Emulab.Sched.SequenceRuns
import Emulab.Syncd.Accounting
import Emulab.Ipassign.Prefixes
import Emulab.Ipassign.Partition
import Emulab.Ipassign.ConservativeAssigner
import Emulab.Dijkstra.Delivery
import Emulab.Dijkstra.Bitmath
import Emulab.Dijkstra.Compression
import Emulab.Dijkstra.Optimal
import Emulab.Assign.VclassRuns
import Emulab.Assign.PlinkRuns
import Emulab.Assign.FeatureRuns
import Emulab.Assign.PclassGen
import Emulab.Assign.LinkPaths
import Emulab.Assign.PclassRuns
import Emulab.Assign.AnnealRuns
import Emulab.Evproxy.Subscriptions
import Emulab.Event.Hmac
import Emulab.Event.Arguments
import Emulab.Dre.HeapRuns
import Emulab.Dre.FirstHops
import Emulab.Dre.MinTree
import Emulab.Routecalc.Routes
import Emulab.Magent.Replay
import Emulab.Db.IPBuddyRuns
import Emulab.Db.ExtendSlice
import Emulab.Db.Lease
import Emulab.Protogeni.Equality
import Emulab.Ns.Distinct
import Emulab.Stated.Containment
import Emulab.Stated.TimeoutRuns
import Emulab.Stated.QueueRuns
import Emulab.Stated.RebootFilter
import Emulab.Stated.EventPipe
import Emulab.Stated.StateWait
import Emulab.Stated.MainLoop
import Emulab.Shd.BlockAlloc
import Emulab.Capture.Clients
import Emulab.Capture.Context
import Emulab.Db.VlanTag
import Emulab.Frisbee.MasterChildren
import Emulab.Imagezip.FatSlice
import Emulab.Imagezip.ExtSlice
import Emulab.Imagezip.ChunkNumbers
import Emulab.Frisbee.Framing
import Emulab.Imagezip.SigFile
import Emulab.Imagezip.RangeHistory
import Emulab.Imagezip.RangeIterate
import Emulab.Imagezip.ReadHistory
