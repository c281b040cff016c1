import Mathlib.Data.Nat.Basic

/-!
# Targets and options

The parts of a target and of the command line that the ELF passes depend on.
-/

namespace Mold.Elf

inductive WordSize where
  | word32
  | word64
deriving DecidableEq, Repr

namespace WordSize

def bytes : WordSize → ℕ
  | word32 => 4
  | word64 => 8

def bits (word : WordSize) : ℕ := word.bytes * 8

end WordSize

/-- The options of a link that decide over dynamic relocations. -/
structure Args where
  shared : Bool
  pie : Bool
  packDynRelocsRelr : Bool
  applyDynamicRelocs : Bool
  zText : Bool
  zCopyreloc : Bool
  warnTextrel : Bool
deriving DecidableEq, Repr

def Args.pic (args : Args) : Bool := args.pie || args.shared

end Mold.Elf
