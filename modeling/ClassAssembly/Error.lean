import ClassAssembly.Bytes
import ClassAssembly.Opcode.Table
import ClassAssembly.Text.Quoted

/-! Why assembling fails, and the wording of each cause. -/
namespace ClassAssembly

abbrev Label := Nat

namespace Label

def name (label : Label) : String := s!"l{label}"

end Label

/-- Tables of a method that are counted in sixteen bits. -/
inductive MethodTable where
  | exceptions | lineNumbers | localVariables | stackMap
deriving DecidableEq

namespace MethodTable

def name : MethodTable → String
  | exceptions => "exception table"
  | lineNumbers => "line number table"
  | localVariables => "local variable table"
  | stackMap => "stack map table"

end MethodTable

/-- A limit of the class file format that the assembled program exceeds. -/
inductive FormatLimit where
  | constantPoolFull (next : Nat)
  | textTooLong (bytes : Nat)
  | codeTooLarge (length : Nat)
  | branchTooFar (source target : Nat)
  | tooManyLocals (index : Nat)
  | switchTooLarge (low high : Int)
  | tooManyEntries (table : MethodTable) (count : Nat)
deriving DecidableEq

namespace FormatLimit

/-- Short name of the limit. -/
def kind : FormatLimit → String
  | constantPoolFull _ => "ConstantPoolOverflow"
  | textTooLong _ => "Utf8TooLong"
  | codeTooLarge _ => "MethodCodeTooLarge"
  | branchTooFar _ _ => "BranchOffsetOutOfRange"
  | tooManyLocals _ => "TooManyLocals"
  | switchTooLarge _ _ => "TableSwitchTooLarge"
  | tooManyEntries _ _ => "TooManyEntries"

def message : FormatLimit → String
  | constantPoolFull next => s!"constant pool is full (next index {next})"
  | textTooLong bytes => s!"string constant is {bytes} bytes long"
  | codeTooLarge length => s!"method code is {length} bytes long"
  | branchTooFar source target => s!"branch from {source} to {target} is too far"
  | tooManyLocals index => s!"local variable {index} is too large"
  | switchTooLarge low high => s!"table switch over [{low}, {high}] is too large"
  | tooManyEntries table count => s!"{table.name} has {count} entries"

end FormatLimit

/-- Why an instruction is not accepted by the abstract interpreter. -/
inductive Fault where
  | emptyStack
  | invalidWidth
  | invalidType
  | invalidIndex
  | missingConstant (index : UInt16)
  | notLoadable (index : UInt16)
  | stackHeight (expected found : Nat)
  | fallsOffEnd
  | notUninitialized
deriving DecidableEq

namespace Fault

/-- Short name of the fault. -/
def kind : Fault → String
  | emptyStack => "EmptyStack"
  | invalidWidth => "InvalidWidth"
  | invalidType => "InvalidType"
  | invalidIndex => "InvalidIndex"
  | missingConstant _ => "MissingConstant"
  | notLoadable _ => "NotLoadableConstant"
  | stackHeight _ _ => "InconsistentStackHeight"
  | fallsOffEnd => "FallsOffEnd"
  | notUninitialized => "NotUninitialized"

/-- The name with what it is about. -/
def message (fault : Fault) : String :=
  fault.kind ++
    match fault with
    | missingConstant index | notLoadable index => s!"({index.toNat})"
    | stackHeight expected found => s!" \x7b expected: {expected}, found: {found} \x7d"
    | _ => ""

end Fault

inductive Error where
  | encoding (cause : TableOverflow)
  | limit (cause : FormatLimit)
  | wrongOperandCount (op : Opcode) (expected found : Nat)
  | operandOutOfRange (op : Opcode) (operand : Int)
  | unsupportedOpcode (byte : UInt8)
  | notABranch (op : Opcode)
  /-- The stack effect of the opcode hangs on a descriptor that was not given. -/
  | needsDescriptor (op : Opcode)
  | stackUnderflow (offset : Nat) (op : Opcode)
  | stackOverflow (offset : Nat)
  | unknownLabel (label : Label)
  | labelAlreadyBound (label : Label)
  | unboundLabel (label : Label)
  | inconsistentDepth (label : Label) (expected found : Nat)
  | unpatchedSwitch (offset : Nat)
  | unknownSwitch (offset : Nat)
  | invalidJumpTarget (source : Nat) (target : Int)
  | invalidExceptionRange (start stop : Nat)
  | noOpenMethod
  | methodAlreadyOpen (name : String)
  | badDescriptor (text : String)
  | verification (offset : Nat) (fault : Fault)
  /-- The entry frames of the blocks did not settle within the bound on the number of rounds. -/
  | unsettled
  /-- An index past the end of what it points into. -/
  | outOfBounds (index size : Nat)
deriving DecidableEq

namespace Error

/-- Short name of the cause, for reports that programs read. -/
def kind : Error → String
  | encoding _ => "IoError"
  | limit cause => "FormatLimit." ++ cause.kind
  | wrongOperandCount _ _ _ => "WrongOperandCount"
  | operandOutOfRange _ _ => "OperandOutOfRange"
  | unsupportedOpcode _ => "UnsupportedOpcode"
  | notABranch _ => "NotABranch"
  | needsDescriptor _ => "RequiresTypedEmit"
  | stackUnderflow _ _ => "StackUnderflow"
  | stackOverflow _ => "StackOverflow"
  | unknownLabel _ => "UnknownLabel"
  | labelAlreadyBound _ => "LabelAlreadyBound"
  | unboundLabel _ => "UnboundLabel"
  | inconsistentDepth _ _ _ => "InconsistentStackDepth"
  | unpatchedSwitch _ => "UnpatchedSwitch"
  | unknownSwitch _ => "UnknownSwitch"
  | invalidJumpTarget _ _ => "InvalidJumpTarget"
  | invalidExceptionRange _ _ => "InvalidExceptionRange"
  | noOpenMethod => "NoOpenMethod"
  | methodAlreadyOpen _ => "MethodAlreadyOpen"
  | badDescriptor _ => "BadDescriptor"
  | verification _ fault => "VerifierError." ++ fault.kind
  | unsettled => "Unsettled"
  | outOfBounds _ _ => "OutOfBounds"

def message : Error → String
  | encoding cause => s!"I/O error: {cause.message}"
  | limit cause => s!"class file format limit exceeded: {cause.message}"
  | wrongOperandCount op expected found =>
    s!"{op.name} expects {expected} operand(s) but got {found}"
  | operandOutOfRange op operand => s!"operand {operand} is out of range for {op.name}"
  | unsupportedOpcode byte =>
    let digits := Nat.toDigits 16 byte.toNat
    "unsupported opcode 0x" ++ String.ofList (List.replicate (2 - digits.length) '0' ++ digits)
  | notABranch op => s!"{op.name} is not a branch instruction"
  | needsDescriptor op => s!"{op.name} must be emitted with its descriptor"
  | stackUnderflow offset op => s!"stack underflow at {offset} ({op.name})"
  | stackOverflow offset => s!"stack overflow at {offset}"
  | unknownLabel label => s!"label {label.name} was never acquired"
  | labelAlreadyBound label => s!"label {label.name} is already bound"
  | unboundLabel label => s!"label {label.name} was never bound"
  | inconsistentDepth label expected found =>
    s!"label {label.name} reached with stack depth {found} (expected {expected})"
  | unpatchedSwitch offset => s!"table switch at {offset} has unpatched targets"
  | unknownSwitch offset => s!"no table switch at {offset}"
  | invalidJumpTarget source target => s!"jump from {source} to invalid target {target}"
  | invalidExceptionRange start stop => s!"invalid exception range [{start}, {stop})"
  | noOpenMethod => "no method is open"
  | methodAlreadyOpen name => s!"method {name} is still open"
  | badDescriptor text => s!"malformed descriptor {Quoted.encode text}"
  | verification offset fault => s!"verification failed at {offset}: {fault.message}"
  | unsettled => "stack map frames did not settle"
  | outOfBounds index size => s!"index {index} is out of bounds (size {size})"

/-- The program being assembled is too large, rather than wrong. -/
def isLimit : Error → Bool
  | limit _ => true
  | _ => false

end Error
end ClassAssembly
