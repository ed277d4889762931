import Chronicle.Codec.Field
import Chronicle.Config.Load
import Chronicle.Divergence
import Chronicle.Loop.File
import Chronicle.Replay.Playback
import Chronicle.Replay.Recorder
import Chronicle.Sample
import Chronicle.Walk.Numbering
import Chronicle.Proofs.Codec.Consumption
import Chronicle.Proofs.Walk.Grammar
import Chronicle.Proofs.Walk.Writing
import Chronicle.Proofs.Walk.Faithful
import Chronicle.Proofs.Walk.ReadSteps
import Chronicle.Proofs.Walk.Reading
import Chronicle.Proofs.Walk.RoundTrip
import Chronicle.Proofs.Registry.Built
import Chronicle.Proofs.Walk.Accepting
import Chronicle.Proofs.Walk.Canonical
import Chronicle.Proofs.Loop.Fields
import Chronicle.Proofs.Loop.Record
import Chronicle.Proofs.Loop.Stream
import Chronicle.Proofs.Loop.Finality
import Chronicle.Proofs.Loop.FullSink
import Chronicle.Proofs.Loop.Window
import Chronicle.Proofs.Replay.RecordPlayback
import Chronicle.Proofs.Replay.Agreement
import Chronicle.Proofs.Walk.Peers
import Chronicle.Proofs.Walk.Limits
import Chronicle.Proofs.Walk.Refusing
import Chronicle.Proofs.Registry.Search
import Chronicle.Proofs.Registry.Honest
import Chronicle.Proofs.Walk.ReadConfigured
import Chronicle.Proofs.Walk.WriteConfigured
import Chronicle.Proofs.Walk.Validated
import Chronicle.Proofs.Replay.Finality
import Chronicle.Proofs.Loop.History
import Chronicle.Proofs.Replay.Accounting
import Chronicle.Proofs.Registry.Commuting
import Chronicle.Proofs.Registry.Canonical
import Chronicle.Proofs.Plain.KeyOrder
import Chronicle.Proofs.Plain.Arrangement
import Chronicle.Proofs.Plain.FirstOffence
import Chronicle.Proofs.Plain.Schema
import Chronicle.Proofs.Plain.DerivedOrder
import Chronicle.Proofs.Plain.TotalOrder
import Chronicle.Proofs.Plain.FloatOrder
import Chronicle.Proofs.Registry.Fed
import Chronicle.Proofs.Registry.WellFormed
import Chronicle.Proofs.Registry.Atomic
import Chronicle.Proofs.Walk.Advancing
import Chronicle.Proofs.Walk.Ascending
import Chronicle.Proofs.Walk.Unfolding
import Chronicle.Proofs.Walk.Delimiting
import Chronicle.Proofs.Walk.Turns
import Chronicle.Proofs.Walk.Moments
import Chronicle.Proofs.Walk.ReadTurns
import Chronicle.Proofs.Walk.ReadLedger
import Chronicle.Proofs.Walk.Restoring
import Chronicle.Proofs.Walk.WriteTurns
import Chronicle.Proofs.Walk.Ending
import Chronicle.Proofs.Walk.Refilling
import Chronicle.Proofs.Walk.Reporting
import Chronicle.Proofs.Walk.Seating
import Chronicle.Proofs.Walk.References
import Chronicle.Proofs.Loop.Bounded
import Chronicle.Proofs.Loop.CommentWindow
import Chronicle.Proofs.Walk.Steady
import Chronicle.Proofs.Ranges
import Chronicle.Proofs.Registry.Names
import Chronicle.Proofs.Digest
import Chronicle.Proofs.Registry.Operations
import Chronicle.Proofs.Codec.Cursor
import Chronicle.Proofs.Codec.Fields
import Chronicle.Proofs.Divergence
import Chronicle.Proofs.Config.Discovery
