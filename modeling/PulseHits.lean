import PulseHits.Bytes.RoundTrip
import PulseHits.Frame.Encode
import PulseHits.Readout.Encode
import PulseHits.Storage.Tree
import PulseHits.Main
import PulseHits.Proofs.Bytes.Field
import PulseHits.Proofs.Hit.Record
import PulseHits.Proofs.Hit.Truncation
import PulseHits.Proofs.Frame.Stream
import PulseHits.Proofs.Run.Frames
import PulseHits.Proofs.Storage.Tree
import PulseHits.Proofs.Text.ByteOrder
import PulseHits.Proofs.Run.Output
import PulseHits.Proofs.Run.HitFile
import PulseHits.Proofs.Storage.Agreement
import PulseHits.Proofs.Storage.Yields
import PulseHits.Proofs.Config.Names
import PulseHits.Proofs.Share
import PulseHits.Proofs.Run.Shares
import PulseHits.Proofs.Run.Jobs
import PulseHits.Proofs.Run.Workers
import PulseHits.Proofs.Run.Independence
import PulseHits.Proofs.Readout.Attribution
import PulseHits.Proofs.Readout.Hits
import PulseHits.Proofs.Readout.Channelwise
import PulseHits.Proofs.Bits.Load
import PulseHits.Proofs.Readout.Words
import PulseHits.Proofs.Readout.Formats
import PulseHits.Proofs.Frame.Layout
import PulseHits.Proofs.Frame.Exhaustion
import PulseHits.Proofs.Run.FileLoop
import PulseHits.Proofs.Hit.Reading
import PulseHits.Proofs.Number.Rounding
import PulseHits.Proofs.Run.Progress
import PulseHits.Proofs.Readout.ItemSizes
import PulseHits.Proofs.Run.Effect
import PulseHits.Proofs.Frame.Encode
import PulseHits.Proofs.Readout.Packing
import PulseHits.Proofs.Readout.HeaderFields
import PulseHits.Proofs.Pulse.Exact
import PulseHits.Proofs.Pulse.Centroid
import PulseHits.Proofs.Number.Exactness
import PulseHits.Proofs.Pulse.Parabola
import PulseHits.Proofs.Pulse.Interpolation
import PulseHits.Proofs.Pulse.Maximum
import PulseHits.Proofs.Pulse.PeakBounds
import PulseHits.Proofs.Readout.Peaks
import PulseHits.Proofs.Pulse.Sums
import PulseHits.Proofs.Readout.PartialDecoding
import PulseHits.Proofs.Readout.Sums
import PulseHits.Proofs.Number.Saturation
import PulseHits.Proofs.Pulse.Flat
import PulseHits.Proofs.Hit.Extraction
import PulseHits.Proofs.Pulse.Shift
import PulseHits.Proofs.Readout.FullDecoding
import PulseHits.Proofs.Hit.Block
import PulseHits.Proofs.Hit.Capacity
import PulseHits.Proofs.Channel.History
import PulseHits.Proofs.Bits.Strings
import PulseHits.Proofs.Run.Steps
import PulseHits.Proofs.Run.Statuses
import PulseHits.Proofs.Run.Places
import PulseHits.Proofs.Config.RoundTrip
