import EthCall.Abi.Payload
import EthCall.Json.Descriptors
import EthCall.Json.Settings
import EthCall.Log
import EthCall.Query
import EthCall.Report
import EthCall.Proofs.Bytes
import EthCall.Proofs.Word
import EthCall.Proofs.Text
import EthCall.Proofs.Hex
import EthCall.Proofs.Hex.Scanning
import EthCall.Proofs.Abi.Decoding
import EthCall.Proofs.Abi.Buffer
import EthCall.Proofs.Abi.Encoding
import EthCall.Proofs.Abi.Reading
import EthCall.Proofs.Abi.Budget
import EthCall.Proofs.Abi.RoundTrip
import EthCall.Proofs.Abi.Conformance
import EthCall.Proofs.Abi.Acceptance
import EthCall.Proofs.Abi.Closed
import EthCall.Proofs.Abi.Soundness
import EthCall.Proofs.Abi.Overlap
import EthCall.Proofs.Abi.Static
import EthCall.Proofs.Abi.Agreement
import EthCall.Proofs.Abi.Context
import EthCall.Proofs.Abi.Overrun
import EthCall.Proofs.Abi.Padding
import EthCall.Proofs.Abi.Truncation
import EthCall.Proofs.Abi.Cut
import EthCall.Proofs.Abi.Spelling
import EthCall.Proofs.Abi.Name
import EthCall.Proofs.Abi.Signature
import EthCall.Proofs.Evm.Change
import EthCall.Proofs.Evm.Course
import EthCall.Proofs.Evm.InstructionStart
import EthCall.Proofs.Evm.Bounds
import EthCall.Proofs.Evm.Operands
import EthCall.Proofs.Evm.Jump
import EthCall.Proofs.Evm.Row
import EthCall.Proofs.Evm.MemoryRow
import EthCall.Proofs.Evm.Limits
import EthCall.Proofs.Evm.Accounting
import EthCall.Proofs.Evm.History
import EthCall.Proofs.Evm.Number
import EthCall.Proofs.Evm.Passage
import EthCall.Proofs.Evm.Layout
import EthCall.Proofs.Evm.Labels
import EthCall.Proofs.Evm.Emission
import EthCall.Proofs.Evm.Assembled
import EthCall.Proofs.Evm.Pushing
import EthCall.Proofs.Evm.ImplicitStop
import EthCall.Proofs.Json.Token
import EthCall.Proofs.Json.Reader
import EthCall.Proofs.Json.Record
import EthCall.Proofs.Json.Descriptors
import EthCall.Proofs.Json.Settings
import EthCall.Proofs.Evm.Noninterference
import EthCall.Proofs.Abi.Event
import EthCall.Proofs.Abi.Trapping
import EthCall.Proofs.Abi.Untrapped
import EthCall.Proofs.Abi.TrappingEncode
import EthCall.Proofs.Abi.UntrappedEncode
import EthCall.Proofs.Evm.Trapping
import EthCall.Proofs.Evm.Untrapped
import EthCall.Proofs.Query.Classification
import EthCall.Proofs.Query.Answers
import EthCall.Proofs.Query.SumOrFail
import EthCall.Proofs.Query.Stored
import EthCall.Proofs.Evm.Computation
import EthCall.Proofs.Evm.SignedDivision
import EthCall.Proofs.Evm.Bitwise
import EthCall.Proofs.Evm.HighWater
import EthCall.Proofs.Evm.Calldata
import EthCall.Proofs.Word.Conversion
import EthCall.Proofs.Word.Views
import EthCall.Proofs.Abi.HeadSize
import EthCall.Proofs.Abi.Cursor
import EthCall.Proofs.Log
