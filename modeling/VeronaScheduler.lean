import VeronaScheduler.Basic
import VeronaScheduler.StubList
import VeronaScheduler.Registry
import VeronaScheduler.Worker
import VeronaScheduler.Step
import VeronaScheduler.Move
import VeronaScheduler.Frame
import VeronaScheduler.Token
import VeronaScheduler.Epoch
import VeronaScheduler.Victim
import VeronaScheduler.SweepStubs
import VeronaScheduler.Conservation
import VeronaScheduler.Checkpoint
import VeronaScheduler.Teardown
import VeronaScheduler.Dispatch
import VeronaScheduler.Registries
import VeronaScheduler.Continuations
import VeronaScheduler.ScanFlag
