import Mips.Instruction.Mnemonic
import Mips.Instruction.Printer
import Mips.Text.Blank
import Mips.Text.Lines
import Mips.Text.Quoted
import Mips.Text.Utf8
import Mips.Cpu
import Mips.Block
import Mips.Host.Error
import Mips.Memory
import Mips.Trap
import Mips.Hart
import Mips.Host
import Mips.Json
import Mips.Machine
import Mips.Program.Listing
import Mips.Assembly
import Mips.Command
import Mips.Main
import Mips.Proofs.Assembly.Rendering
import Mips.Proofs.Assembly.Branches
import Mips.Proofs.Machine.Jumps
import Mips.Proofs.Hart.Traps
import Mips.Proofs.Host.Lines
import Mips.Proofs.Process.Stops
import Mips.Proofs.Machine.Faults
import Mips.Proofs.Memory.History
import Mips.Proofs.Assembly.Peeling
import Mips.Proofs.Assembly.Slots
import Mips.Proofs.Machine.Limits
import Mips.Proofs.Instruction.Registers
import Mips.Proofs.Machine.Registers
import Mips.Proofs.Hart.Stores
import Mips.Proofs.Machine.Stores
import Mips.Proofs.Hart.Alignment
import Mips.Proofs.Machine.Fetch
import Mips.Proofs.Program.Placement
import Mips.Proofs.Machine.Loading
import Mips.Proofs.Memory.Pages
import Mips.Proofs.Host.Agreement
import Mips.Proofs.Process.Agreement
import Mips.Proofs.Machine.Restart
import Mips.Proofs.Machine.Heap
import Mips.Proofs.Assembly.Data
import Mips.Proofs.Assembly.Comments
import Mips.Proofs.Assembly.Sources
import Mips.Proofs.Assembly.StringTable
import Mips.Proofs.Assembly.LabelLines
import Mips.Proofs.Assembly.Edits
import Mips.Proofs.Program.Listing
import Mips.Proofs.Process.Descriptors
import Mips.Proofs.Assembly.Positions
import Mips.Proofs.Command.Pipelines
import Mips.Proofs.Assembly.Jumps
import Mips.Proofs.Hart.Updates
import Mips.Proofs.Hart.Unaligned
import Mips.Proofs.Hart.Arithmetic
import Mips.Proofs.Hart.Products
import Mips.Proofs.Hart.Accesses
import Mips.Proofs.Host.Streams
import Mips.Proofs.Process.Streams
import Mips.Proofs.Machine.Streams
import Mips.Proofs.Hart.Comparisons
import Mips.Proofs.Hart.Calls
import Mips.Proofs.Process.Frame
import Mips.Proofs.Process.Lines
import Mips.Proofs.Program.Reading
import Mips.Proofs.Assembly.Definitions
import Mips.Proofs.Numeral.Int32
import Mips.Proofs.Process.Numbers
import Mips.Proofs.Process.Storage
import Mips.Proofs.Numeral.Meaning
import Mips.Proofs.Assembly.StringLiterals
import Mips.Proofs.Assembly.Integers
import Mips.Proofs.Assembly.RegisterTokens
import Mips.Proofs.Assembly.Prefixes
