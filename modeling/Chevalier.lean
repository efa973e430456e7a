import Chevalier.ControlBus.Completed
import Chevalier.ControlBus.Delivered
import Chevalier.ControlBus.ExecEvents
import Chevalier.ControlBus.ExecInput
import Chevalier.ControlBus.ExecStream
import Chevalier.Distributed.Admission
import Chevalier.Distributed.Fenced
import Chevalier.Distributed.Outbox
import Chevalier.Distributed.Reconcile
import Chevalier.Gateway.Revision
import Chevalier.Gateway.Watch
import Chevalier.LocalView.Publish.Chain
import Chevalier.LocalView.Publish.Conflicts
import Chevalier.LocalView.Publish.IsolateNamespace
import Chevalier.LocalView.Wal.Discipline
import Chevalier.LocalView.Wal.Reopen
import Chevalier.LocalView.Wal.SegmentNames
import Chevalier.ObjectStore.Batches
import Chevalier.ObjectStore.Version
import Chevalier.Portproxy.Daemon
import Chevalier.Providers.Anthropic
import Chevalier.Providers.Responses
import Chevalier.Schema.Normalized
import Chevalier.Schema.Strict
import Chevalier.Vfs.NamePattern
import Chevalier.Vfs.Progress
import Chevalier.Vfs.Replay
