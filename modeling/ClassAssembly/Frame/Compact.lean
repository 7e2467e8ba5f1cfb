import ClassAssembly.Frame.Basic
import ClassAssembly.StackMap.Entry

/-! Frames as a stack map table lists them: one type for a wide local variable, and no unusable
variables at the end. -/
namespace ClassAssembly

structure CompactFrame where
  locals : List VerificationType
  /-- From the bottom up. -/
  stack : List VerificationType
deriving DecidableEq

namespace Frame

/-- Types of the local variables, latest first, without the second slots of wide values. -/
def narrowOnto (before : List VerificationType) : List VerificationType → List VerificationType
  | [] => before
  | [t] => t :: before
  | t :: next :: rest =>
    if width t = 2 then narrowOnto (t :: before) rest else narrowOnto (t :: before) (next :: rest)

theorem narrowOnto_eq_append : ∀ before types : List VerificationType,
    narrowOnto before types = narrowOnto [] types ++ before
  | _, [] => rfl
  | _, [_] => rfl
  | before, t :: next :: rest => by
    simp only [narrowOnto]
    split
    · rw [narrowOnto_eq_append (t :: before), narrowOnto_eq_append [t]]
      simp
    · rw [narrowOnto_eq_append (t :: before), narrowOnto_eq_append [t]]
      simp

def compactLocals (frame : Frame) : List VerificationType :=
  ((narrowOnto [] frame.locals.toList).dropWhile (· = .top)).reverse

def compact (frame : Frame) : CompactFrame := ⟨frame.compactLocals, frame.stack.reverse⟩

end Frame

namespace CompactFrame

def fullEntry (frame : CompactFrame) (delta : UInt16) : StackMapEntry :=
  .full delta frame.locals frame.stack

/-- The entry for a frame that follows `previous`: the shortest that can describe it. -/
def entry (frame previous : CompactFrame) (delta : UInt16) : StackMapEntry :=
  match frame.stack with
  | [] =>
    if frame.locals.length ≤ previous.locals.length then
      let gone := previous.locals.length - frame.locals.length
      if gone < 4 && frame.locals.isPrefixOf previous.locals then
        if gone = 0 then .same delta else .chop delta (UInt8.ofNat gone)
      else frame.fullEntry delta
    else if frame.locals.length - previous.locals.length < 4 &&
        previous.locals.isPrefixOf frame.locals then
      .append delta (frame.locals.drop previous.locals.length)
    else frame.fullEntry delta
  | [value] =>
    if frame.locals == previous.locals then .oneStack delta value else frame.fullEntry delta
  | _ => frame.fullEntry delta

end CompactFrame
end ClassAssembly
