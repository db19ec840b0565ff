import Ebpfkit.Bpf.Machine
import Ebpfkit.Bpf.Rules
import Ebpfkit.Bpf.ControlFlow
import Ebpfkit.Bpf.Steps
import Ebpfkit.Bpf.Layout
import Ebpfkit.Bpf.Buffer
import Ebpfkit.GrowingVec
import Ebpfkit.Rust
import Ebpfkit.Assembler
import Ebpfkit.Compiler.Verify
import Ebpfkit.Compiler.Codegen
import Ebpfkit.Compiler.Layout
import Ebpfkit.Compiler.Blocks
import Ebpfkit.Compiler.LiteralSearch
import Ebpfkit.Compiler.Alternation
import Ebpfkit.Compiler.CharClass
import Ebpfkit.Compiler.ControlFlow
import Ebpfkit.Compiler.Registers
import Ebpfkit.Compiler.ClassGrammar
import Ebpfkit.Utf8
import Ebpfkit.Compiler.ClassText
import Ebpfkit.Compiler.ClassFaults
import Ebpfkit.Compiler.ClassMemory
import Ebpfkit.Compiler.ClassJoin
import Ebpfkit.Lts
import Ebpfkit.Ring
import Ebpfkit.Loader.Ringbuf
import Ebpfkit.Loader.RingbufSafety
import Ebpfkit.Loader.RingbufOverrun
import Ebpfkit.Loader.RingbufProtocol
import Ebpfkit.Loader.RingbufRecords
import Ebpfkit.Loader.RingbufDelivery
import Ebpfkit.Mailbox
import Ebpfkit.Loader.RingbufMailbox
import Ebpfkit.Loader.RingbufProgress
import Ebpfkit.Loader.RingbufWakeup
import Ebpfkit.Resource
import Ebpfkit.Interaction
import Ebpfkit.Loader.Prog
import Ebpfkit.Compiler.Limits
import Ebpfkit.Attach
import Ebpfkit.Loader.PollRingbuf
import Ebpfkit.Loader.RingbufMapping
import Ebpfkit.Process
import Ebpfkit.SocketFilters
import Ebpfkit.Loader.CoreDetect
import Ebpfkit.Once
import Ebpfkit.Fmt
import Ebpfkit.Loader.Detection
import Ebpfkit.Assembler.Format
import Ebpfkit.Compiler.Listing
import Ebpfkit.Compiler.Steps
