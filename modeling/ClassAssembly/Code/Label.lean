import ClassAssembly.Code.Draft

/-! Labels, and the branches to them. A branch to a label that is not bound yet is patched when it
is. -/
namespace ClassAssembly

inductive BranchTarget where
  | label (label : Label)
  /-- Distance from the branch itself. -/
  | distance (distance : Int)
deriving DecidableEq

namespace CodeDraft

/-- Distance of a branch, which must fit in sixteen bits. -/
def branchDistance (source target : Nat) : Except Error Int :=
  let distance := (target : Int) - source
  if -32768 ≤ distance ∧ distance ≤ 32767 then .ok distance
  else .error (.limit (.branchTooFar source target))

/-- A new label, bound nowhere yet. -/
def newLabel : Step CodeDraft Label :=
  .ofOutcome fun b => (.ok b.labels.size, { b with labels := b.labels.push ⟨none, none, []⟩ })

def labelStatus (label : Label) : Step CodeDraft LabelStatus := do
  match (← get).labels[label]? with
  | some state => return state
  | none => throw (.unknownLabel label)

def boundAt (label : Label) : Step CodeDraft (Option Nat) := do
  return (← labelStatus label).offset

def setLabel (label : Label) (state : LabelStatus) : Step CodeDraft Unit :=
  modify fun b => { b with labels := b.labels.setIfInBounds label state }

/-- All ways to a label must agree on the depth of the stack. -/
def agreeOnDepth (label : Label) (depth : Nat) : Step CodeDraft Unit := do
  let state ← labelStatus label
  match state.depth with
  | some expected =>
    if expected ≠ depth then throw (.inconsistentDepth label expected depth)
  | none => setLabel label { state with depth := some depth }

/-- The distance to write for a branch at `source`; zero stands for one that is patched later. -/
def resolve (source depth : Nat) : BranchTarget → Step CodeDraft Int
  | .distance distance => do
    recordJump source (source + distance)
    return distance
  | .label label => do
    agreeOnDepth label depth
    let state ← labelStatus label
    match state.offset with
    | some target =>
      recordJump source target
      Step.ofExcept (branchDistance source target)
    | none =>
      setLabel label { state with pending := source :: state.pending }
      return 0

/-- Emits a conditional or unconditional branch. -/
def jump (op : Opcode) (target : BranchTarget) : Step CodeDraft Unit := do
  let traits ← Step.ofExcept op.traits
  if !traits.flow.isJump then throw (.notABranch op)
  let b ← get
  let source := b.code.size
  let depth := b.depth
  if depth < traits.popped then throw (.stackUnderflow source op)
  let distance ← resolve source (depth - traits.popped) target
  append op (op.byte :: Bytes.signed 2 distance) traits.popped 0 traits.flow

/-- Writes the distances of branches to a label that has just been bound. -/
def patch (target : Nat) : List Nat → Step CodeDraft Unit
  | [] => pure ()
  | source :: rest => do
    let distance ← Step.ofExcept (branchDistance source target)
    overwrite (source + 1) (Bytes.signed 2 distance)
    recordJump source target
    patch target rest

/-- Binds a label to the end of the code. If control reaches it from the instruction before, the
depth must be that of the branches to the label, and else it becomes that. -/
def bindLabel (label : Label) : Step CodeDraft Unit := do
  let state ← labelStatus label
  if state.offset.isSome then throw (.labelAlreadyBound label)
  let b ← get
  let target := b.code.size
  let depth := b.depth
  if b.reachable then
    if let some expected := state.depth then
      if expected ≠ depth then throw (.inconsistentDepth label expected depth)
  let depth := if b.reachable then depth else state.depth.getD depth
  modify fun b => { b with depth, reachable := true }
  setLabel label ⟨some target, some depth, []⟩
  patch target state.pending.reverse

/-- Binds a label at which an exception handler starts, with the exception alone on the stack.
Control does not fall through to it from an instruction that never goes on, even if a label is
bound between. -/
def bindHandler (label : Label) : Step CodeDraft Unit := do
  modify fun b =>
    if !b.reachable || b.facts.blockStarts.back? == some b.code.size then
      { b with reachable := false, depth := 1 }
    else b
  let state ← labelStatus label
  if state.depth.isNone then setLabel label { state with depth := some 1 }
  bindLabel label
  setDepthAt (← get).code.size 1

end CodeDraft
end ClassAssembly
