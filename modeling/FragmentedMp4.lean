import FragmentedMp4.CommandLine.Folder
import FragmentedMp4.Main
import FragmentedMp4.Proofs.Box.Exact
import FragmentedMp4.Proofs.Box.Framing
import FragmentedMp4.Proofs.Box.Fields
import FragmentedMp4.Proofs.Box.RoundTrip
import FragmentedMp4.Proofs.Box.Run
import FragmentedMp4.Proofs.Fragment.RoundTrip
import FragmentedMp4.Proofs.Box.Writing
import FragmentedMp4.Proofs.Segment.Steps
import FragmentedMp4.Proofs.Segment.Traversal
import FragmentedMp4.Proofs.Segment.WriterAgreement
import FragmentedMp4.Proofs.Segment.RoundTrip
import FragmentedMp4.Proofs.Fragment.Meaning
import FragmentedMp4.Proofs.Fragment.Compaction
import FragmentedMp4.Proofs.Fragment.Appending
import FragmentedMp4.Proofs.Fragment.SingleRun
import FragmentedMp4.Proofs.Segment.Grouping
import FragmentedMp4.Proofs.Segment.Recut
import FragmentedMp4.Proofs.Segment.GreedyCut
import FragmentedMp4.Proofs.Fragment.TrackLayout
import FragmentedMp4.Proofs.Fragment.Building
import FragmentedMp4.Proofs.Fragment.Additions
import FragmentedMp4.Proofs.Fragment.FileBytes
import FragmentedMp4.Proofs.Segment.NormalForm
import FragmentedMp4.Proofs.Fragment.Reading
import FragmentedMp4.Proofs.Fragment.ReadBack
import FragmentedMp4.Proofs.Segment.Timeline
import FragmentedMp4.Proofs.Fragment.Words
import FragmentedMp4.Proofs.Fragment.Growth
import FragmentedMp4.Proofs.Segment.Words
import FragmentedMp4.Segment.Buckets
import FragmentedMp4.Proofs.Segment.Buckets
import FragmentedMp4.Proofs.Segment.TopLevel
import FragmentedMp4.Proofs.Segment.Composition
import FragmentedMp4.Proofs.Segment.WrittenBoxes
import FragmentedMp4.Proofs.Segment.Truncation
import FragmentedMp4.Proofs.Fragment.CompactSize
import FragmentedMp4.Proofs.Fragment.AnyLayout
import FragmentedMp4.Proofs.Segment.RecutOutput
import FragmentedMp4.Proofs.CommandLine.Refragment
import FragmentedMp4.Proofs.Box.Counts
import FragmentedMp4.Proofs.Segment.FullOutput
import FragmentedMp4.Proofs.Fragment.Capacity
import FragmentedMp4.Proofs.Segment.Feasibility
import FragmentedMp4.Proofs.Segment.RecutAgain
import FragmentedMp4.Proofs.Fragment.Undisturbed
import FragmentedMp4.Proofs.Box.Buffer
import FragmentedMp4.Proofs.Decoding.Segment
import FragmentedMp4.Proofs.Segment.FirstBox
import FragmentedMp4.Proofs.Segment.CommonDuration
import FragmentedMp4.Proofs.Fragment.CompactForm
import FragmentedMp4.Proofs.Segment.Description
import FragmentedMp4.Proofs.DetailLevels
import FragmentedMp4.Proofs.Box.SizeLimit
