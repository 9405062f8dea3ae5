import CborCodec.Command.Memory
import CborCodec.Input.Schedule
import CborCodec.Main
import CborCodec.Options.Json
import CborCodec.Output.Schedule
import CborCodec.Program
import CborCodec.Transcriber
import CborCodec.Proofs.Heads
import CborCodec.Proofs.Grammar
import CborCodec.Proofs.Reading
import CborCodec.Proofs.Walking
import CborCodec.Proofs.Recognition
import CborCodec.Proofs.Decoding
import CborCodec.Proofs.Agreement
import CborCodec.Proofs.Emission
import CborCodec.Proofs.Writing
import CborCodec.Proofs.RoundTrip
import CborCodec.Proofs.Containment
import CborCodec.Proofs.Canonical
import CborCodec.Proofs.Limiting
import CborCodec.Proofs.Simulation
import CborCodec.Proofs.Copying
import CborCodec.Proofs.Supply
import CborCodec.Proofs.Following
import CborCodec.Proofs.Abreast
import CborCodec.Proofs.Streaming
import CborCodec.Proofs.Flushing
import CborCodec.Proofs.Leaves
import CborCodec.Proofs.Programs
import CborCodec.Proofs.Describing
import CborCodec.Proofs.Rejecting
import CborCodec.Proofs.Pairing
import CborCodec.Proofs.Counting
import CborCodec.Proofs.Refilling
import CborCodec.Proofs.Scripting
import CborCodec.Proofs.Delivering
import CborCodec.Proofs.Extending
import CborCodec.Proofs.Splitting
import CborCodec.Proofs.Tightening
import CborCodec.Proofs.Typing
import CborCodec.Proofs.Concatenation
import CborCodec.Proofs.Shortening
import CborCodec.Proofs.Integers
import CborCodec.Proofs.Calling
import CborCodec.Proofs.Chunking
import CborCodec.Proofs.Bounding
import CborCodec.Proofs.Respelling
import CborCodec.Proofs.Peeking
import CborCodec.Proofs.Printing
import CborCodec.Proofs.Metering
import CborCodec.Proofs.Sparing
import CborCodec.Proofs.Watching
