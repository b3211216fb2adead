import Montygo.Wire.UnknownFields
import Montygo.Wire.RequestDepth
import Montygo.Wire.DecodedTwice
import Montygo.Wire.Render
import Montygo.TurnEngine.TimeBound
import Montygo.TurnEngine.WorkingDir
import Montygo.Pool.LeavesOnce
import Montygo.MountFs.Routing
import Montygo.MountFs.Direct
import Montygo.Lifecycle.Snapshots
import Montygo.Lifecycle.StopOnce
import Montygo.Lifecycle.Shutdown
import Montygo.Value.TimeDelta
import Montygo.Worker.Framing
import Montygo.OsAccess.Build
import Montygo.Lifecycle.StopDeadline
import Montygo.Worker.QueueOrder
import Montygo.TurnEngine.PreSend
import Montygo.Lifecycle.RotationPolicy
import Montygo.Sandbox.Lines
import Montygo.Lifecycle.Recovery
import Montygo.Sandbox.InstanceStore
import Montygo.TurnEngine.Futures
import Montygo.TurnEngine.RustDuration
import Montygo.Server.Admission
import Montygo.Server.DumpFrames
import Montygo.Server.RequestOrder
import Montygo.Pool.Drained
import Montygo.Server.Timeouts
import Montygo.Pool.Overshoot
import Montygo.Lifecycle.Serial
import Montygo.Wire.ReadValue
