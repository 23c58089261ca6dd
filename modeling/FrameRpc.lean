import FrameRpc.Action
import FrameRpc.Binary64
import FrameRpc.Bytes
import FrameRpc.Decimal.Layout
import FrameRpc.Decimal.Shortest
import FrameRpc.Error
import FrameRpc.Frame.Basic
import FrameRpc.Frame.Header
import FrameRpc.Handler.Issue
import FrameRpc.Handler.Registry
import FrameRpc.Handler.Validator
import FrameRpc.MessagePack.Dynamic
import FrameRpc.MessagePack.Marker
import FrameRpc.MessagePack.Scan
import FrameRpc.MessagePack.Token
import FrameRpc.MessagePack.Write
import FrameRpc.Mismatch
import FrameRpc.Reply.Basic
import FrameRpc.Reply.Convergence
import FrameRpc.Reply.Subscription
import FrameRpc.Schedule
import FrameRpc.Schema.Basic
import FrameRpc.Schema.Error
import FrameRpc.Schema.Typed
import FrameRpc.Service.Basic
import FrameRpc.Service.Lock
import FrameRpc.Service.Session
import FrameRpc.SingleFlight.Basic
import FrameRpc.SingleFlight.Session
import FrameRpc.Stream.Buffer
import FrameRpc.Stream.Decoder
import FrameRpc.Stream.Pull
import FrameRpc.Stream.Source
import FrameRpc.Table
import FrameRpc.Text.Order
import FrameRpc.Text.Quoted
import FrameRpc.Text.Unmarked
import FrameRpc.Text.Utf8
import FrameRpc.Typed.Convert
import FrameRpc.Typed.Read
import FrameRpc.Typed.Shape
import FrameRpc.Value.Basic
import FrameRpc.Value.Text
import FrameRpc.Proofs.Attempts
import FrameRpc.Proofs.Chunking
import FrameRpc.Proofs.Extent
import FrameRpc.Proofs.Scanning
import FrameRpc.Proofs.Tokens
import FrameRpc.Proofs.ReadBack
import FrameRpc.Proofs.Records
import FrameRpc.Proofs.FrameStream
import FrameRpc.Proofs.LeaseCount
import FrameRpc.Proofs.LookupBook
import FrameRpc.Proofs.SharedOutcome
import FrameRpc.Proofs.Objects
import FrameRpc.Proofs.Domain
import FrameRpc.Proofs.SchemaRoundTrip
import FrameRpc.Proofs.Conservation
import FrameRpc.Proofs.Sufficiency
import FrameRpc.Proofs.ReleaseHook
import FrameRpc.Proofs.Standing
import FrameRpc.Proofs.RunControl
import FrameRpc.Proofs.Entrances
import FrameRpc.Proofs.SizeLimit
import FrameRpc.Proofs.Refusal
import FrameRpc.Proofs.Finalizers
import FrameRpc.Proofs.Abandonment
import FrameRpc.Proofs.Truncation
import FrameRpc.Proofs.Failures
import FrameRpc.Proofs.Confirmation
import FrameRpc.Proofs.WireForms
import FrameRpc.Proofs.Parts
import FrameRpc.Proofs.Evolution
import FrameRpc.Proofs.Culprits
import FrameRpc.Proofs.Clearing
import FrameRpc.Proofs.Resending
import FrameRpc.Proofs.Settling
import FrameRpc.Proofs.Progress
import FrameRpc.Proofs.Handover
import FrameRpc.Proofs.Takeover
import FrameRpc.Proofs.Views
import FrameRpc.Proofs.OtherKeys
import FrameRpc.Proofs.LateStops
import FrameRpc.Proofs.LockLine
import FrameRpc.Proofs.Concluding
import FrameRpc.Proofs.Completion
import FrameRpc.Proofs.ShortReads
import FrameRpc.Proofs.Normalising
import FrameRpc.Proofs.Converting
import FrameRpc.Proofs.TypedAgreement
import FrameRpc.Proofs.Recognition
import FrameRpc.Proofs.Resuming
import FrameRpc.Proofs.Boundaries
import FrameRpc.Proofs.Promptness
import FrameRpc.Proofs.ItemStream
import FrameRpc.Proofs.Layouts
import FrameRpc.Proofs.Nesting
import FrameRpc.Proofs.Overtaking
import FrameRpc.Proofs.Trimming
import FrameRpc.Proofs.Registration
import FrameRpc.Proofs.Revalidation
import FrameRpc.Proofs.Indices
import FrameRpc.Proofs.Untyped
import FrameRpc.Proofs.FrameBuilding
