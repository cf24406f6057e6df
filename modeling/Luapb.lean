import Luapb.Library.Fallible
import Luapb.Library.Ieee754
import Luapb.Library.Labels
import Luapb.Library.Links
import Luapb.Library.Records
import Luapb.Library.Scatter
import Luapb.Library.Traversal
import Luapb.Library.Varint
import Luapb.Library.Wire
import Luapb.Model.Decoder
import Luapb.Model.Descriptor
import Luapb.Model.Encoder
import Luapb.Model.Ltable
import Luapb.Model.Lua
import Luapb.Model.LuaRef
import Luapb.Model.Protobuf
import Luapb.Model.Reference
import Luapb.Model.Registry
import Luapb.Model.Runtime
import Luapb.Model.Schemas
import Luapb.Model.Stream
import Luapb.Model.Table
import Luapb.Model.Tutorial
import Luapb.Verification.Decoder.Contents
import Luapb.Verification.Decoder.Derivation
import Luapb.Verification.Decoder.Extent
import Luapb.Verification.Decoder.Insertion
import Luapb.Verification.Decoder.Limits
import Luapb.Verification.Decoder.Losing
import Luapb.Verification.Decoder.Malformed
import Luapb.Verification.Decoder.Meaning
import Luapb.Verification.Decoder.Mismatch
import Luapb.Verification.Decoder.Misread
import Luapb.Verification.Decoder.Packed
import Luapb.Verification.Decoder.Reading
import Luapb.Verification.Decoder.Shift
import Luapb.Verification.Decoder.Shown
import Luapb.Verification.Decoder.Soundness
import Luapb.Verification.Decoder.Split
import Luapb.Verification.Decoder.Termination
import Luapb.Verification.Decoder.Unknown
import Luapb.Verification.Encoder.Agreement
import Luapb.Verification.Encoder.Course
import Luapb.Verification.Encoder.Enums
import Luapb.Verification.Encoder.Layout
import Luapb.Verification.Encoder.Overflow
import Luapb.Verification.Encoder.Parts
import Luapb.Verification.Encoder.Safety
import Luapb.Verification.Encoder.Size
import Luapb.Verification.Encoder.Unnamed
import Luapb.Verification.Encoder.ValueSize
import Luapb.Verification.Integers
import Luapb.Verification.Ltable.Assignment
import Luapb.Verification.Ltable.Borders
import Luapb.Verification.Ltable.Insertion
import Luapb.Verification.Ltable.Layout
import Luapb.Verification.Ltable.Lists
import Luapb.Verification.Ltable.LuaRef
import Luapb.Verification.Ltable.Nodes
import Luapb.Verification.Ltable.References
import Luapb.Verification.Ltable.Rehash
import Luapb.Verification.Ltable.Runs
import Luapb.Verification.Ltable.Sizes
import Luapb.Verification.Ltable.Traversal
import Luapb.Verification.Registration
import Luapb.Verification.Registry
import Luapb.Verification.RoundTrip.Conforming
import Luapb.Verification.RoundTrip.Correctness
import Luapb.Verification.RoundTrip.Decoded
import Luapb.Verification.RoundTrip.Equality
import Luapb.Verification.RoundTrip.Records
import Luapb.Verification.RoundTrip.Strings
import Luapb.Verification.Scalar
import Luapb.Verification.Table
import Luapb.Verification.Tutorial.Encoded
import Luapb.Verification.Tutorial.Interop
import Luapb.Verification.Tutorial.Messages
import Luapb.Verification.Tutorial.Parsing
import Luapb.Verification.Tutorial.RoundTrip
import Luapb.Verification.Tutorial.Runtime
import Luapb.Verification.Tutorial.Serialization
import Luapb.Verification.Tutorial.Shown
