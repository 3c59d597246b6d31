import MipsImage.Main
import MipsImage.Proofs.Assembler.ByteOrder
import MipsImage.Proofs.Assembler.Gates
import MipsImage.Proofs.Assembler.Labels
import MipsImage.Proofs.Assembler.Limit
import MipsImage.Proofs.Assembler.Occupancy
import MipsImage.Proofs.Assembler.StringLiteral
import MipsImage.Proofs.Fixup
import MipsImage.Proofs.Instruction.Disassembly
import MipsImage.Proofs.Instruction.Expansion
import MipsImage.Proofs.Listing
import MipsImage.Proofs.Memory.Heap
import MipsImage.Proofs.Memory.History
import MipsImage.Proofs.Memory.Ledger
import MipsImage.Proofs.Memory.Notice
import MipsImage.Proofs.Memory.Watch
import MipsImage.Proofs.Source.Coverage
import MipsImage.Proofs.Source.Extent
import MipsImage.Proofs.Source.Numerals
import MipsImage.Proofs.Source.Slices
import MipsImage.Proofs.Symbol.History
