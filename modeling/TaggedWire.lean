import TaggedWire.Command
import TaggedWire.Host.Message
import TaggedWire.Host.Samples
import TaggedWire.Main
import TaggedWire.Schema.Conformance
import TaggedWire.Value.Outline
import TaggedWire.Proofs.Codec.Spelling
import TaggedWire.Proofs.Codec.Encoding
import TaggedWire.Proofs.Codec.Acceptance
import TaggedWire.Proofs.Codec.Decoding
import TaggedWire.Proofs.Codec.RoundTrip
import TaggedWire.Proofs.Schema.Expansion
import TaggedWire.Proofs.Schema.Linking
import TaggedWire.Proofs.Schema.Soundness
import TaggedWire.Proofs.Schema.Rejection
import TaggedWire.Proofs.Schema.Validation
import TaggedWire.Proofs.Host.Reading
import TaggedWire.Proofs.Host.Mirroring
import TaggedWire.Proofs.Codec.DepthLimit
import TaggedWire.Proofs.Host.Typing
import TaggedWire.Proofs.Host.Writing
import TaggedWire.Proofs.Host.RoundTrip
import TaggedWire.Proofs.Codec.Continuation
import TaggedWire.Proofs.Decimal
import TaggedWire.Proofs.Text.Word
import TaggedWire.Proofs.Text.Literal
import TaggedWire.Proofs.Text.Unambiguous
import TaggedWire.Proofs.Value.Size
import TaggedWire.Proofs.Host.Normalising
import TaggedWire.Proofs.Codec.PlainCounts
import TaggedWire.Proofs.Codec.Truthfulness
import TaggedWire.Proofs.Schema.ReferenceChain
import TaggedWire.Proofs.Value.Editing
import TaggedWire.Proofs.Schema.Blindness
import TaggedWire.Proofs.Host.Blindness
import TaggedWire.Proofs.Host.Building
import TaggedWire.Proofs.Schema.Diagnosis
import TaggedWire.Proofs.Schema.AliasChain
import TaggedWire.Proofs.Schema.History
import TaggedWire.Text.Printer
import TaggedWire.Proofs.Text.Plain
import TaggedWire.Proofs.Text.Indentation
import TaggedWire.Proofs.Text.Lines
import TaggedWire.Proofs.Host.Gathering
import TaggedWire.Schema.Visit
import TaggedWire.Proofs.Schema.Visiting
import TaggedWire.Codec.Cursor
import TaggedWire.Proofs.Codec.Slices
