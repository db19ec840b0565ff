-- SUMMARY: The instruction format of the crate: packed fields, opcode constants, and the assembling macros.
import Ebpfkit.Bpf.Machine

/-!
# Assembler

`src/assembler.rs`: the 64-bit instruction record, the opcode constants, and the
macros the compiler assembles instructions with. The constants keep their eBPF
names. `BpfInsn.decode` gives a record its meaning on the machine of
`Ebpfkit/Bpf/Machine.lean`.
-/

namespace Ebpfkit

/-- A single eBPF instruction. `regs` packs the destination register into the
    low four bits and the source register into the high four. -/
structure BpfInsn where
  code : UInt8
  regs : UInt8
  off : Int16
  imm : Int32
  deriving DecidableEq, Repr

namespace BpfInsn

def new (code dst src : UInt8) (off : Int16) (imm : Int32) : BpfInsn :=
  { code, regs := (src <<< 4) ||| (dst &&& 0x0F), off, imm }

def dstReg (insn : BpfInsn) : UInt8 := insn.regs &&& 0x0F

def srcReg (insn : BpfInsn) : UInt8 := insn.regs >>> 4

end BpfInsn

/-! ## Opcodes -/

-- Instruction classes
def BPF_LDX : UInt8 := 0x01
def BPF_ST : UInt8 := 0x02
def BPF_STX : UInt8 := 0x03
def BPF_JMP : UInt8 := 0x05
def BPF_ALU64 : UInt8 := 0x07

-- Memory sizes and modes
def BPF_B : UInt8 := 0x10
def BPF_W : UInt8 := 0x00
def BPF_MEM : UInt8 := 0x60

-- ALU operations
def BPF_ADD : UInt8 := 0x00
def BPF_MOV : UInt8 := 0xb0

-- Jump operations
def BPF_JA : UInt8 := 0x00
def BPF_JEQ : UInt8 := 0x10
def BPF_JGT : UInt8 := 0x20
def BPF_JNE : UInt8 := 0x50
def BPF_CALL : UInt8 := 0x80
def BPF_EXIT : UInt8 := 0x90
def BPF_JLT : UInt8 := 0xa0
def BPF_JLE : UInt8 := 0xb0

-- Source of the second operand
def BPF_K : UInt8 := 0x00
def BPF_X : UInt8 := 0x08

-- Registers
def R0 : UInt8 := 0
def R1 : UInt8 := 1
def R2 : UInt8 := 2
def R3 : UInt8 := 3
def R4 : UInt8 := 4
def R5 : UInt8 := 5
def R6 : UInt8 := 6
def R7 : UInt8 := 7

/-! ## Assembling macros -/

def alu64Imm (op dst : UInt8) (imm : Int32) : BpfInsn :=
  .new (BPF_ALU64 ||| op ||| BPF_K) dst 0 0 imm

def alu64Reg (op dst src : UInt8) : BpfInsn :=
  .new (BPF_ALU64 ||| op ||| BPF_X) dst src 0 0

def ldxMem (size dst src : UInt8) (off : Int16) : BpfInsn :=
  .new (BPF_LDX ||| BPF_MEM ||| size) dst src off 0

def jmpImm (op dst : UInt8) (imm : Int32) (off : Int16) : BpfInsn :=
  .new (BPF_JMP ||| op ||| BPF_K) dst 0 off imm

def jmpReg (op dst src : UInt8) (off : Int16) : BpfInsn :=
  .new (BPF_JMP ||| op ||| BPF_X) dst src off 0

def exit : BpfInsn :=
  .new (BPF_JMP ||| BPF_EXIT) 0 0 0 0

/-! ## Meaning -/

namespace BpfInsn

/-- What an instruction record does. Only the opcodes the compiler emits, and
    `JEQ`, have a meaning here; the machine is stuck at any other. -/
def decode (insn : BpfInsn) : Bpf.Instr :=
  let dst := insn.dstReg.toNat
  let src := insn.srcReg.toNat
  let off := insn.off.toInt
  let imm := insn.imm.toInt
  if insn.code = BPF_JMP ||| BPF_EXIT then .exit
  else if insn.code = BPF_LDX ||| BPF_MEM ||| BPF_B then .ldx .byte dst src off
  else if insn.code = BPF_LDX ||| BPF_MEM ||| BPF_W then .ldx .word dst src off
  else if insn.code = BPF_ALU64 ||| BPF_MOV ||| BPF_K then .mov dst (.imm imm)
  else if insn.code = BPF_ALU64 ||| BPF_MOV ||| BPF_X then .mov dst (.reg src)
  else if insn.code = BPF_ALU64 ||| BPF_ADD ||| BPF_K then .add dst (.imm imm)
  else if insn.code = BPF_ALU64 ||| BPF_ADD ||| BPF_X then .add dst (.reg src)
  else if insn.code = BPF_JMP ||| BPF_JA then .ja off
  else if insn.code = BPF_JMP ||| BPF_JEQ ||| BPF_K then .jcc .eq dst (.imm imm) off
  else if insn.code = BPF_JMP ||| BPF_JNE ||| BPF_K then .jcc .ne dst (.imm imm) off
  else if insn.code = BPF_JMP ||| BPF_JGT ||| BPF_X then .jcc .gt dst (.reg src) off
  else if insn.code = BPF_JMP ||| BPF_JLT ||| BPF_K then .jcc .lt dst (.imm imm) off
  else if insn.code = BPF_JMP ||| BPF_JLE ||| BPF_K then .jcc .le dst (.imm imm) off
  else .unknown

/-- A jump instruction other than `EXIT` and `CALL`, by its opcode. -/
def isJump (insn : BpfInsn) : Bool :=
  insn.code &&& 0x07 == BPF_JMP && insn.code &&& 0xF0 != BPF_EXIT && insn.code &&& 0xF0 != BPF_CALL

end BpfInsn

/-- A compiled program as the machine sees it. -/
def decodeProgram (prog : List BpfInsn) : Bpf.Program := prog.map BpfInsn.decode

end Ebpfkit
