import ClassAssembly.Opcode.Basic

/-! The table of supported opcodes, and names for those that the library tells apart or that its
runs use. -/
namespace ClassAssembly

namespace OpcodeTraits

/-- Row `n` describes the opcode of byte `n`; the bytes without a row are not supported. -/
def table : Array (Option OpcodeTraits) := #[
  some (.mk "NOP" .plain (some 0) .normal (.fixed [] none)),
  some (.mk "ACONST_NULL" .plain (some 1) .normal .null),
  some (.mk "ICONST_M1" .plain (some 1) .normal (.fixed [] (some .int))),
  some (.mk "ICONST_0" .plain (some 1) .normal (.fixed [] (some .int))),
  some (.mk "ICONST_1" .plain (some 1) .normal (.fixed [] (some .int))),
  some (.mk "ICONST_2" .plain (some 1) .normal (.fixed [] (some .int))),
  some (.mk "ICONST_3" .plain (some 1) .normal (.fixed [] (some .int))),
  some (.mk "ICONST_4" .plain (some 1) .normal (.fixed [] (some .int))),
  some (.mk "ICONST_5" .plain (some 1) .normal (.fixed [] (some .int))),
  some (.mk "LCONST_0" .plain (some 2) .normal (.fixed [] (some .long))),
  some (.mk "LCONST_1" .plain (some 2) .normal (.fixed [] (some .long))),
  some (.mk "FCONST_0" .plain (some 1) .normal (.fixed [] (some .float))),
  some (.mk "FCONST_1" .plain (some 1) .normal (.fixed [] (some .float))),
  some (.mk "FCONST_2" .plain (some 1) .normal (.fixed [] (some .float))),
  some (.mk "DCONST_0" .plain (some 2) .normal (.fixed [] (some .double))),
  some (.mk "DCONST_1" .plain (some 2) .normal (.fixed [] (some .double))),
  some (.mk "BIPUSH" .signedByte (some 1) .normal (.fixed [] (some .int))),
  some (.mk "SIPUSH" .signedShort (some 1) .normal (.fixed [] (some .int))),
  some (.mk "LDC" .smallConstant (some 1) .normal .constant),
  some (.mk "LDC_W" .constant (some 1) .normal .constant),
  some (.mk "LDC2_W" .constant (some 2) .normal .wideConstant),
  some (.mk "ILOAD" .localIndex (some 1) .normal (.load .int none)),
  some (.mk "LLOAD" .localIndex (some 2) .normal (.load .long none)),
  some (.mk "FLOAD" .localIndex (some 1) .normal (.load .float none)),
  some (.mk "DLOAD" .localIndex (some 2) .normal (.load .double none)),
  some (.mk "ALOAD" .localIndex (some 1) .normal (.load .reference none)),
  some (.mk "ILOAD_0" .plain (some 1) .normal (.load .int (some 0))),
  some (.mk "ILOAD_1" .plain (some 1) .normal (.load .int (some 1))),
  some (.mk "ILOAD_2" .plain (some 1) .normal (.load .int (some 2))),
  some (.mk "ILOAD_3" .plain (some 1) .normal (.load .int (some 3))),
  some (.mk "LLOAD_0" .plain (some 2) .normal (.load .long (some 0))),
  some (.mk "LLOAD_1" .plain (some 2) .normal (.load .long (some 1))),
  some (.mk "LLOAD_2" .plain (some 2) .normal (.load .long (some 2))),
  some (.mk "LLOAD_3" .plain (some 2) .normal (.load .long (some 3))),
  some (.mk "FLOAD_0" .plain (some 1) .normal (.load .float (some 0))),
  some (.mk "FLOAD_1" .plain (some 1) .normal (.load .float (some 1))),
  some (.mk "FLOAD_2" .plain (some 1) .normal (.load .float (some 2))),
  some (.mk "FLOAD_3" .plain (some 1) .normal (.load .float (some 3))),
  some (.mk "DLOAD_0" .plain (some 2) .normal (.load .double (some 0))),
  some (.mk "DLOAD_1" .plain (some 2) .normal (.load .double (some 1))),
  some (.mk "DLOAD_2" .plain (some 2) .normal (.load .double (some 2))),
  some (.mk "DLOAD_3" .plain (some 2) .normal (.load .double (some 3))),
  some (.mk "ALOAD_0" .plain (some 1) .normal (.load .reference (some 0))),
  some (.mk "ALOAD_1" .plain (some 1) .normal (.load .reference (some 1))),
  some (.mk "ALOAD_2" .plain (some 1) .normal (.load .reference (some 2))),
  some (.mk "ALOAD_3" .plain (some 1) .normal (.load .reference (some 3))),
  some (.mk "IALOAD" .plain (some (-1)) .normal (.fixed [.reference, .int] (some .int))),
  some (.mk "LALOAD" .plain (some 0) .normal (.fixed [.reference, .int] (some .long))),
  some (.mk "FALOAD" .plain (some (-1)) .normal (.fixed [.reference, .int] (some .float))),
  some (.mk "DALOAD" .plain (some 0) .normal (.fixed [.reference, .int] (some .double))),
  some (.mk "AALOAD" .plain (some (-1)) .normal .element),
  some (.mk "BALOAD" .plain (some (-1)) .normal (.fixed [.reference, .int] (some .int))),
  some (.mk "CALOAD" .plain (some (-1)) .normal (.fixed [.reference, .int] (some .int))),
  some (.mk "SALOAD" .plain (some (-1)) .normal (.fixed [.reference, .int] (some .int))),
  some (.mk "ISTORE" .localIndex (some (-1)) .normal (.store .int none)),
  some (.mk "LSTORE" .localIndex (some (-2)) .normal (.store .long none)),
  some (.mk "FSTORE" .localIndex (some (-1)) .normal (.store .float none)),
  some (.mk "DSTORE" .localIndex (some (-2)) .normal (.store .double none)),
  some (.mk "ASTORE" .localIndex (some (-1)) .normal (.store .reference none)),
  some (.mk "ISTORE_0" .plain (some (-1)) .normal (.store .int (some 0))),
  some (.mk "ISTORE_1" .plain (some (-1)) .normal (.store .int (some 1))),
  some (.mk "ISTORE_2" .plain (some (-1)) .normal (.store .int (some 2))),
  some (.mk "ISTORE_3" .plain (some (-1)) .normal (.store .int (some 3))),
  some (.mk "LSTORE_0" .plain (some (-2)) .normal (.store .long (some 0))),
  some (.mk "LSTORE_1" .plain (some (-2)) .normal (.store .long (some 1))),
  some (.mk "LSTORE_2" .plain (some (-2)) .normal (.store .long (some 2))),
  some (.mk "LSTORE_3" .plain (some (-2)) .normal (.store .long (some 3))),
  some (.mk "FSTORE_0" .plain (some (-1)) .normal (.store .float (some 0))),
  some (.mk "FSTORE_1" .plain (some (-1)) .normal (.store .float (some 1))),
  some (.mk "FSTORE_2" .plain (some (-1)) .normal (.store .float (some 2))),
  some (.mk "FSTORE_3" .plain (some (-1)) .normal (.store .float (some 3))),
  some (.mk "DSTORE_0" .plain (some (-2)) .normal (.store .double (some 0))),
  some (.mk "DSTORE_1" .plain (some (-2)) .normal (.store .double (some 1))),
  some (.mk "DSTORE_2" .plain (some (-2)) .normal (.store .double (some 2))),
  some (.mk "DSTORE_3" .plain (some (-2)) .normal (.store .double (some 3))),
  some (.mk "ASTORE_0" .plain (some (-1)) .normal (.store .reference (some 0))),
  some (.mk "ASTORE_1" .plain (some (-1)) .normal (.store .reference (some 1))),
  some (.mk "ASTORE_2" .plain (some (-1)) .normal (.store .reference (some 2))),
  some (.mk "ASTORE_3" .plain (some (-1)) .normal (.store .reference (some 3))),
  some (.mk "IASTORE" .plain (some (-3)) .normal (.fixed [.reference, .int, .int] none)),
  some (.mk "LASTORE" .plain (some (-4)) .normal (.fixed [.reference, .int, .long] none)),
  some (.mk "FASTORE" .plain (some (-3)) .normal (.fixed [.reference, .int, .float] none)),
  some (.mk "DASTORE" .plain (some (-4)) .normal (.fixed [.reference, .int, .double] none)),
  some (.mk "AASTORE" .plain (some (-3)) .normal (.fixed [.reference, .int, .reference] none)),
  some (.mk "BASTORE" .plain (some (-3)) .normal (.fixed [.reference, .int, .int] none)),
  some (.mk "CASTORE" .plain (some (-3)) .normal (.fixed [.reference, .int, .int] none)),
  some (.mk "SASTORE" .plain (some (-3)) .normal (.fixed [.reference, .int, .int] none)),
  some (.mk "POP" .plain (some (-1)) .normal .pop),
  some (.mk "POP2" .plain (some (-2)) .normal .pop2),
  some (.mk "DUP" .plain (some 1) .normal .dup),
  some (.mk "DUP_X1" .plain (some 1) .normal .dupX1),
  some (.mk "DUP_X2" .plain (some 1) .normal .dupX2),
  some (.mk "DUP2" .plain (some 2) .normal .dup2),
  some (.mk "DUP2_X1" .plain (some 2) .normal .dup2X1),
  some (.mk "DUP2_X2" .plain (some 2) .normal .dup2X2),
  some (.mk "SWAP" .plain (some 0) .normal .swap),
  some (.mk "IADD" .plain (some (-1)) .normal (.fixed [.int, .int] (some .int))),
  some (.mk "LADD" .plain (some (-2)) .normal (.fixed [.long, .long] (some .long))),
  some (.mk "FADD" .plain (some (-1)) .normal (.fixed [.float, .float] (some .float))),
  some (.mk "DADD" .plain (some (-2)) .normal (.fixed [.double, .double] (some .double))),
  some (.mk "ISUB" .plain (some (-1)) .normal (.fixed [.int, .int] (some .int))),
  some (.mk "LSUB" .plain (some (-2)) .normal (.fixed [.long, .long] (some .long))),
  some (.mk "FSUB" .plain (some (-1)) .normal (.fixed [.float, .float] (some .float))),
  some (.mk "DSUB" .plain (some (-2)) .normal (.fixed [.double, .double] (some .double))),
  some (.mk "IMUL" .plain (some (-1)) .normal (.fixed [.int, .int] (some .int))),
  some (.mk "LMUL" .plain (some (-2)) .normal (.fixed [.long, .long] (some .long))),
  some (.mk "FMUL" .plain (some (-1)) .normal (.fixed [.float, .float] (some .float))),
  some (.mk "DMUL" .plain (some (-2)) .normal (.fixed [.double, .double] (some .double))),
  some (.mk "IDIV" .plain (some (-1)) .normal (.fixed [.int, .int] (some .int))),
  some (.mk "LDIV" .plain (some (-2)) .normal (.fixed [.long, .long] (some .long))),
  some (.mk "FDIV" .plain (some (-1)) .normal (.fixed [.float, .float] (some .float))),
  some (.mk "DDIV" .plain (some (-2)) .normal (.fixed [.double, .double] (some .double))),
  some (.mk "IREM" .plain (some (-1)) .normal (.fixed [.int, .int] (some .int))),
  some (.mk "LREM" .plain (some (-2)) .normal (.fixed [.long, .long] (some .long))),
  some (.mk "FREM" .plain (some (-1)) .normal (.fixed [.float, .float] (some .float))),
  some (.mk "DREM" .plain (some (-2)) .normal (.fixed [.double, .double] (some .double))),
  some (.mk "INEG" .plain (some 0) .normal (.fixed [.int] (some .int))),
  some (.mk "LNEG" .plain (some 0) .normal (.fixed [.long] (some .long))),
  some (.mk "FNEG" .plain (some 0) .normal (.fixed [.float] (some .float))),
  some (.mk "DNEG" .plain (some 0) .normal (.fixed [.double] (some .double))),
  some (.mk "ISHL" .plain (some (-1)) .normal (.fixed [.int, .int] (some .int))),
  some (.mk "LSHL" .plain (some (-1)) .normal (.fixed [.long, .int] (some .long))),
  some (.mk "ISHR" .plain (some (-1)) .normal (.fixed [.int, .int] (some .int))),
  some (.mk "LSHR" .plain (some (-1)) .normal (.fixed [.long, .int] (some .long))),
  some (.mk "IUSHR" .plain (some (-1)) .normal (.fixed [.int, .int] (some .int))),
  some (.mk "LUSHR" .plain (some (-1)) .normal (.fixed [.long, .int] (some .long))),
  some (.mk "IAND" .plain (some (-1)) .normal (.fixed [.int, .int] (some .int))),
  some (.mk "LAND" .plain (some (-2)) .normal (.fixed [.long, .long] (some .long))),
  some (.mk "IOR" .plain (some (-1)) .normal (.fixed [.int, .int] (some .int))),
  some (.mk "LOR" .plain (some (-2)) .normal (.fixed [.long, .long] (some .long))),
  some (.mk "IXOR" .plain (some (-1)) .normal (.fixed [.int, .int] (some .int))),
  some (.mk "LXOR" .plain (some (-2)) .normal (.fixed [.long, .long] (some .long))),
  some (.mk "IINC" .increment (some 0) .normal .increment),
  some (.mk "I2L" .plain (some 1) .normal (.fixed [.int] (some .long))),
  some (.mk "I2F" .plain (some 0) .normal (.fixed [.int] (some .float))),
  some (.mk "I2D" .plain (some 1) .normal (.fixed [.int] (some .double))),
  some (.mk "L2I" .plain (some (-1)) .normal (.fixed [.long] (some .int))),
  some (.mk "L2F" .plain (some (-1)) .normal (.fixed [.long] (some .float))),
  some (.mk "L2D" .plain (some 0) .normal (.fixed [.long] (some .double))),
  some (.mk "F2I" .plain (some 0) .normal (.fixed [.float] (some .int))),
  some (.mk "F2L" .plain (some 1) .normal (.fixed [.float] (some .long))),
  some (.mk "F2D" .plain (some 1) .normal (.fixed [.float] (some .double))),
  some (.mk "D2I" .plain (some (-1)) .normal (.fixed [.double] (some .int))),
  some (.mk "D2L" .plain (some 0) .normal (.fixed [.double] (some .long))),
  some (.mk "D2F" .plain (some (-1)) .normal (.fixed [.double] (some .float))),
  some (.mk "I2B" .plain (some 0) .normal (.fixed [.int] (some .int))),
  some (.mk "I2C" .plain (some 0) .normal (.fixed [.int] (some .int))),
  some (.mk "I2S" .plain (some 0) .normal (.fixed [.int] (some .int))),
  some (.mk "LCMP" .plain (some (-3)) .normal (.fixed [.long, .long] (some .int))),
  some (.mk "FCMPL" .plain (some (-1)) .normal (.fixed [.float, .float] (some .int))),
  some (.mk "FCMPG" .plain (some (-1)) .normal (.fixed [.float, .float] (some .int))),
  some (.mk "DCMPL" .plain (some (-3)) .normal (.fixed [.double, .double] (some .int))),
  some (.mk "DCMPG" .plain (some (-3)) .normal (.fixed [.double, .double] (some .int))),
  some (.mk "IFEQ" .branch (some (-1)) .branch (.fixed [.int] none)),
  some (.mk "IFNE" .branch (some (-1)) .branch (.fixed [.int] none)),
  some (.mk "IFLT" .branch (some (-1)) .branch (.fixed [.int] none)),
  some (.mk "IFGE" .branch (some (-1)) .branch (.fixed [.int] none)),
  some (.mk "IFGT" .branch (some (-1)) .branch (.fixed [.int] none)),
  some (.mk "IFLE" .branch (some (-1)) .branch (.fixed [.int] none)),
  some (.mk "IF_ICMPEQ" .branch (some (-2)) .branch (.fixed [.int, .int] none)),
  some (.mk "IF_ICMPNE" .branch (some (-2)) .branch (.fixed [.int, .int] none)),
  some (.mk "IF_ICMPLT" .branch (some (-2)) .branch (.fixed [.int, .int] none)),
  some (.mk "IF_ICMPGE" .branch (some (-2)) .branch (.fixed [.int, .int] none)),
  some (.mk "IF_ICMPGT" .branch (some (-2)) .branch (.fixed [.int, .int] none)),
  some (.mk "IF_ICMPLE" .branch (some (-2)) .branch (.fixed [.int, .int] none)),
  some (.mk "IF_ACMPEQ" .branch (some (-2)) .branch (.fixed [.reference, .reference] none)),
  some (.mk "IF_ACMPNE" .branch (some (-2)) .branch (.fixed [.reference, .reference] none)),
  some (.mk "GOTO" .branch (some 0) .jump (.fixed [] none)),
  none,
  none,
  some (.mk "TABLESWITCH" .switch (some (-1)) .switch (.fixed [.int] none)),
  none,
  some (.mk "IRETURN" .plain (some (-1)) .returns (.fixed [.int] none)),
  some (.mk "LRETURN" .plain (some (-2)) .returns (.fixed [.long] none)),
  some (.mk "FRETURN" .plain (some (-1)) .returns (.fixed [.float] none)),
  some (.mk "DRETURN" .plain (some (-2)) .returns (.fixed [.double] none)),
  some (.mk "ARETURN" .plain (some (-1)) .returns (.fixed [.reference] none)),
  some (.mk "RETURN" .plain (some 0) .returns (.fixed [] none)),
  some (.mk "GETSTATIC" .constant none .normal .getStatic),
  some (.mk "PUTSTATIC" .constant none .normal .putStatic),
  some (.mk "GETFIELD" .constant none .normal .getField),
  some (.mk "PUTFIELD" .constant none .normal .putField),
  some (.mk "INVOKEVIRTUAL" .constant none .normal .invoke),
  some (.mk "INVOKESPECIAL" .constant none .normal .invoke),
  some (.mk "INVOKESTATIC" .constant none .normal .invokeStatic),
  some (.mk "INVOKEINTERFACE" .interfaceCall none .normal .invoke),
  none,
  some (.mk "NEW" .constant (some 1) .normal .new),
  some (.mk "NEWARRAY" .arrayCode (some 0) .normal .newArray),
  some (.mk "ANEWARRAY" .constant (some 0) .normal .newObjectArray),
  some (.mk "ARRAYLENGTH" .plain (some 0) .normal (.fixed [.reference] (some .int))),
  some (.mk "ATHROW" .plain (some (-1)) .throws (.fixed [.reference] none)),
  some (.mk "CHECKCAST" .constant (some 0) .normal .cast),
  some (.mk "INSTANCEOF" .constant (some 0) .normal (.fixed [.reference] (some .int))),
  some (.mk "MONITORENTER" .plain (some (-1)) .normal (.fixed [.reference] none)),
  some (.mk "MONITOREXIT" .plain (some (-1)) .normal (.fixed [.reference] none)),
  some (.mk "WIDE" .wide (some 0) .normal .wide),
  some (.mk "MULTIANEWARRAY" .dimensions none .normal .newMultiArray),
  some (.mk "IFNULL" .branch (some (-1)) .branch (.fixed [.reference] none)),
  some (.mk "IFNONNULL" .branch (some (-1)) .branch (.fixed [.reference] none))]

end OpcodeTraits

namespace Opcode

def traits? (op : Opcode) : Option OpcodeTraits := OpcodeTraits.table[op.byte.toNat]?.join

def mnemonic (op : Opcode) : String := (op.traits?.map (·.mnemonic)).getD "<unknown>"

/-- The mnemonic as messages write it. -/
def name (op : Opcode) : String := op.mnemonic.toLower

def ofMnemonic? (mnemonic : String) : Option Opcode :=
  (OpcodeTraits.table.findIdx? fun row => (row.map (·.mnemonic)) == some mnemonic).map fun i =>
    ⟨UInt8.ofNat i⟩

def nop : Opcode := ⟨0x00⟩
def aconstNull : Opcode := ⟨0x01⟩
def iconst0 : Opcode := ⟨0x03⟩
def lconst0 : Opcode := ⟨0x09⟩
def lconst1 : Opcode := ⟨0x0a⟩
def fconst0 : Opcode := ⟨0x0b⟩
def fconst1 : Opcode := ⟨0x0c⟩
def fconst2 : Opcode := ⟨0x0d⟩
def dconst0 : Opcode := ⟨0x0e⟩
def dconst1 : Opcode := ⟨0x0f⟩
def bipush : Opcode := ⟨0x10⟩
def sipush : Opcode := ⟨0x11⟩
def ldc : Opcode := ⟨0x12⟩
def ldcWide : Opcode := ⟨0x13⟩
def ldc2Wide : Opcode := ⟨0x14⟩
def pop : Opcode := ⟨0x57⟩
def pop2 : Opcode := ⟨0x58⟩
def dup : Opcode := ⟨0x59⟩
def iinc : Opcode := ⟨0x84⟩
def ifeq : Opcode := ⟨0x99⟩
def ifne : Opcode := ⟨0x9a⟩
def goto : Opcode := ⟨0xa7⟩
def tableswitch : Opcode := ⟨0xaa⟩
def returnVoid : Opcode := ⟨0xb1⟩
def getstatic : Opcode := ⟨0xb2⟩
def putstatic : Opcode := ⟨0xb3⟩
def getfield : Opcode := ⟨0xb4⟩
def putfield : Opcode := ⟨0xb5⟩
def invokevirtual : Opcode := ⟨0xb6⟩
def invokespecial : Opcode := ⟨0xb7⟩
def invokestatic : Opcode := ⟨0xb8⟩
def invokeinterface : Opcode := ⟨0xb9⟩
def new : Opcode := ⟨0xbb⟩
def anewarray : Opcode := ⟨0xbd⟩
def athrow : Opcode := ⟨0xbf⟩
def checkcast : Opcode := ⟨0xc0⟩
def instanceof : Opcode := ⟨0xc1⟩
def wide : Opcode := ⟨0xc4⟩
def multianewarray : Opcode := ⟨0xc5⟩

/-- The opcode that loads a local variable of a category, given by its index. -/
def load : Slot → Opcode
  | .int => ⟨0x15⟩
  | .long => ⟨0x16⟩
  | .float => ⟨0x17⟩
  | .double => ⟨0x18⟩
  | .reference => ⟨0x19⟩

/-- The opcode that loads local variable 0; the next three opcodes load variables 1 to 3. -/
def load0 : Slot → Opcode
  | .int => ⟨0x1a⟩
  | .long => ⟨0x1e⟩
  | .float => ⟨0x22⟩
  | .double => ⟨0x26⟩
  | .reference => ⟨0x2a⟩

/-- The opcode that stores into a local variable of a category, given by its index. -/
def store : Slot → Opcode
  | .int => ⟨0x36⟩
  | .long => ⟨0x37⟩
  | .float => ⟨0x38⟩
  | .double => ⟨0x39⟩
  | .reference => ⟨0x3a⟩

/-- The opcode that stores into local variable 0; the next three store into variables 1 to 3. -/
def store0 : Slot → Opcode
  | .int => ⟨0x3b⟩
  | .long => ⟨0x3f⟩
  | .float => ⟨0x43⟩
  | .double => ⟨0x47⟩
  | .reference => ⟨0x4b⟩

end Opcode
end ClassAssembly
