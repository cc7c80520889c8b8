import Vimgdb.Common.Strings

/-!
# Peripherals

The objects of a peripheral file, as in `pertypes.h`.  Lists are the chains of their elements, and
memory is what `gdb_memory_t` holds of it.
-/

namespace Vimgdb.Per

/-- `per_endian_t` -/
inductive Endian
  | big | little
  deriving DecidableEq, Repr

/-- `per_prop_t` -/
structure Props where
  endian : Endian := .big
  deriving DecidableEq, Repr

/-- `per_reg_opt_t`: the flags that are set. -/
structure RegOpt where
  endBig : Bool := false
  endLittle : Bool := false
  deriving DecidableEq, Repr

/-- `per_bits_t` -/
structure Bits where
  name : CStr
  idx : BitVec 32
  nbits : BitVec 32
  deriving DecidableEq, Repr

/-- `per_register_t`; a headline has no bytes. -/
structure Register where
  name : Option CStr
  desc : Option CStr
  offset : BitVec 32
  nbytes : BitVec 32
  opt : RegOpt
  bits : List Bits
  deriving DecidableEq, Repr

/-- `per_section_t` -/
structure Section where
  name : CStr
  regs : List Register
  expanded : Bool := false
  deriving DecidableEq, Repr

/-- `per_range_t`; `mem` is what the memory object holds. -/
structure Range where
  base : BitVec 64
  size : BitVec 32
  sections : List Section
  mem : Option CStr := none
  deriving DecidableEq, Repr

/-- `BYTE_SWAP_COND` -/
def byteSwapCond (opt : RegOpt) (endian : Endian) : Bool :=
  opt.endLittle || (endian == .little && !opt.endBig)

/-- The check of `cmd_per_exec` that a register is inside of its range, with the sum in 32 bits. -/
def Register.inside (reg : Register) (size : BitVec 32) : Bool :=
  !(size < reg.offset + reg.nbytes)

end Vimgdb.Per
