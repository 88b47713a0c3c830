import DBTranslator.Lib.LittleEndian
import DBTranslator.Lib.BitField
import DBTranslator.Lib.RiscvFormat
import DBTranslator.Lib.Rv32i
import DBTranslator.Lib.Rv32iMachine
import DBTranslator.Lib.WriteHistory
import DBTranslator.Lib.FirstMatch
import DBTranslator.Lib.CodeCache
import DBTranslator.Lib.Memo
import DBTranslator.Lib.Ssa
import DBTranslator.Lib.SsaBuilder
import DBTranslator.Lib.SsaFunc
import DBTranslator.Lib.SsaLink
import DBTranslator.Lib.SsaSimulation
import DBTranslator.Lib.SsaGuard
import DBTranslator.Lib.StructLayout
import DBTranslator.Lib.ByteMemory
import DBTranslator.Riscv.Memory
import DBTranslator.Riscv.FlatMemory
import DBTranslator.Riscv.Coherence
import DBTranslator.Riscv.GuestBytes
import DBTranslator.Riscv.AddressMap
import DBTranslator.Riscv.Elf
import DBTranslator.Riscv.Image
import DBTranslator.Riscv.Alignment
import DBTranslator.Riscv.Host
import DBTranslator.Riscv.MemoryLl
import DBTranslator.Riscv.Decode
import DBTranslator.Riscv.Encoding
import DBTranslator.Riscv.BuildIr
import DBTranslator.Riscv.Effect
import DBTranslator.Riscv.Immediate
import DBTranslator.Riscv.Alu
import DBTranslator.Riscv.RegisterShift
import DBTranslator.Riscv.Branch
import DBTranslator.Riscv.JumpAndLink
import DBTranslator.Riscv.SetLess
import DBTranslator.Riscv.LoadStore
import DBTranslator.Riscv.Constants
import DBTranslator.Riscv.Translator
import DBTranslator.Riscv.Fetch
import DBTranslator.Riscv.BlockPC
import DBTranslator.Riscv.SingleStep
import DBTranslator.Riscv.HostAlignment
import DBTranslator.Riscv.Faults
import DBTranslator.Riscv.Dispatch
import DBTranslator.Riscv.Translations
import DBTranslator.Riscv.Idle
import DBTranslator.Riscv.Link
import DBTranslator.Riscv.Reading
import DBTranslator.Riscv.Reference
import DBTranslator.Riscv.ReferenceRun
import DBTranslator.Riscv.Program
import DBTranslator.Riscv.Bytes
import DBTranslator.Riscv.BytesRun
import DBTranslator.Riscv.ZeroRegister
