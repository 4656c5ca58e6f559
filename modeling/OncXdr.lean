import OncXdr.Wire.Word
import OncXdr.Reflect.Type
import OncXdr.Tags.Tag
import OncXdr.Tags.Text
import OncXdr.Wire.Error
import OncXdr.Wire.Stream
import OncXdr.Wire.Reads
import OncXdr.Wire.OpaqueReader
import OncXdr.Reflect.Universe
import OncXdr.Reflect.Access
import OncXdr.Tags.Parse
import OncXdr.Codec.Node
import OncXdr.Codec.Build
import OncXdr.Tags.Entries
import OncXdr.Tags.Layers
import OncXdr.Codec.Env
import OncXdr.Codec.Encode
import OncXdr.Codec.Decode
import OncXdr.Codec.Run
import OncXdr.Codec.Truncation
import OncXdr.Registry.State
import OncXdr.Registry.Coherence
import OncXdr.Codec.ReadOnly
import OncXdr.Codec.OpaqueBytes
import OncXdr.Codec.TagAgreement
import OncXdr.Codec.Marshaler
import OncXdr.Registry.Failures
import OncXdr.Registry.EncoderCache
import OncXdr.Registry.Termination
import OncXdr.Registry.WaitFree
import OncXdr.Registry.Release
import OncXdr.Registry.Construct
import OncXdr.Registry.Eager
import OncXdr.Codec.Conform
import OncXdr.Codec.RoundTrip
import OncXdr.Codec.Encoding
import OncXdr.Codec.Framing
import OncXdr.Codec.DecodeUnsafe
import OncXdr.Codec.OptLayers
import OncXdr.Codec.Unreachable
import OncXdr.Codec.Delimit
import OncXdr.Codec.Lengths
import OncXdr.Codec.InPlace
