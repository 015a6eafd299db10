import LeanDson.Cells
import LeanDson.Binary64
import LeanDson.KeyMap
import LeanDson.Channels
import LeanDson.Header
import LeanDson.Converters
import LeanDson.Payload
import LeanDson.Values
import LeanDson.Doubles
import LeanDson.Object
import LeanDson.Conversion
import LeanDson.Anchors
import LeanDson.Inverse
import LeanDson.Frame
import LeanDson.Parse
import LeanDson.Records
import LeanDson.Load
import LeanDson.Copy
import LeanDson.Inversion
import LeanDson.Extract
import LeanDson.Encoding
import LeanDson.Views
import LeanDson.Widths
import LeanDson.Parsing
import LeanDson.Malformed
import LeanDson.Loading
import LeanDson.Decoding
import LeanDson.Building
import LeanDson.Pending
import LeanDson.Leaves
import LeanDson.Emission
import LeanDson.Streaming
import LeanDson.History
import LeanDson.Failure
import LeanDson.Rewind
import LeanDson.Arrival
import LeanDson.Loaders
import LeanDson.Shadows
import LeanDson.Truncation
import LeanDson.Safety
import LeanDson.Interrupted
import LeanDson.Abandon
import LeanDson.Arithmetic
import LeanDson.Senders
import LeanDson.Handover
import LeanDson.Consignment
import LeanDson.Dispatch
import LeanDson.Lockstep
import LeanDson.Reloading
import LeanDson.Reuse
import LeanDson.Inclusion
import LeanDson.Numbers
import LeanDson.Reading
import LeanDson.Contents
import LeanDson.Transfer
import LeanDson.Entries
import LeanDson.Keys
import LeanDson.Strings
import LeanDson.Outgoing
import LeanDson.Lengths
import LeanDson.Programs
import LeanDson.Twins
import LeanDson.TwinEmission
import LeanDson.Uninitialised
import LeanDson.Promotion
import LeanDson.Agreement
import LeanDson.Hosts
import LeanDson.Portability
import LeanDson.Marks
import LeanDson.Handling
import LeanDson.Settling
import LeanDson.Opened
import LeanDson.Unopened
import LeanDson.Sending
import LeanDson.Answers
import LeanDson.Outcomes
import LeanDson.Endurance
import LeanDson.Insertion
import LeanDson.Move
import LeanDson.Soundness
import LeanDson.Reachable
import LeanDson.Dialogue
import LeanDson.Ipc
import LeanDson.Relay
import LeanDson.Letters
import LeanDson.Forwarding
import LeanDson.StarRouting
import LeanDson.Rounds
import LeanDson.Completion
import LeanDson.Nesting
import LeanDson.Reactions
import LeanDson.Conversation
import LeanDson.Ending
