import ClassAssembly.ClassName
import ClassAssembly.Constant.Basic
import ClassAssembly.Step

/-! The constant pool. It only grows: asking for a constant gives the index of an equal one that is
already there, or else appends it. -/
namespace ClassAssembly

structure ConstantPool where
  entries : OffsetTable Constant
  /-- Where each constant stands. -/
  index : Std.TreeMap Constant PoolIndex Constant.order
  first_eq : entries.first = 1
  extent_le : entries.extent ≤ 65535
  text_le : ∀ entry ∈ entries.entries, entry.2.textLength ≤ 65535
  index_iff : ∀ (c : Constant) (i : PoolIndex),
    index[c]? = some i ↔ (i.toUInt64, c) ∈ entries.entries

/-- A reference to a field or method, with the texts it stands for. -/
structure MemberRef where
  owner : PoolIndex
  ownerName : ClassName
  name : String
  descriptor : String
  interface : Bool
deriving DecidableEq

namespace ConstantPool

def empty : ConstantPool where
  entries := .empty 1
  index := {}
  first_eq := rfl
  extent_le := by decide
  text_le := by simp [OffsetTable.empty]
  index_iff := by simp [OffsetTable.empty]

instance : Inhabited ConstantPool := ⟨empty⟩

/-- Number of constants. -/
def size (pool : ConstantPool) : Nat := pool.entries.size

def isEmpty (pool : ConstantPool) : Bool := pool.entries.isEmpty

/-- Index that the next new constant will get. -/
def next (pool : ConstantPool) : Nat := pool.entries.next.toNat

/-- No index wraps around. -/
theorem fits (pool : ConstantPool) : pool.entries.extent < UInt64.size :=
  Nat.lt_of_le_of_lt pool.extent_le (by decide)

theorem next_eq (pool : ConstantPool) : pool.next = pool.entries.extent :=
  OffsetTable.toNat_next pool.fits

theorem next_le (pool : ConstantPool) : pool.next ≤ 65535 := pool.next_eq ▸ pool.extent_le

/-- An index is that of the next constant exactly if it stands for the offset of the next entry. -/
theorem toUInt64_eq_next (pool : ConstantPool) (i : PoolIndex) :
    i.toUInt64 = pool.entries.next ↔ UInt16.ofNat pool.next = i := by
  have hnext : (UInt16.ofNat pool.next).toNat = pool.next :=
    UInt16.toNat_ofNat_of_lt' (Nat.lt_succ_of_le pool.next_le)
  rw [← UInt64.toNat_inj, ← UInt16.toNat_inj, UInt16.toNat_toUInt64, hnext, eq_comm]
  rfl

/-- Appends a constant that is not there yet. -/
def push (pool : ConstantPool) (c : Constant) (fresh : pool.index[c]? = none)
    (text : c.textLength ≤ 65535) (room : pool.next + width c ≤ 65535) : ConstantPool where
  entries := pool.entries.push c
  index := pool.index.insert c (UInt16.ofNat pool.next)
  first_eq := pool.first_eq
  extent_le := by rwa [OffsetTable.extent_push, ← pool.next_eq]
  text_le entry h := by
    rcases Array.mem_push.1 h with h | rfl
    · exact pool.text_le entry h
    · exact text
  index_iff d i := by
    simp only [Std.TreeMap.getElem?_insert, Std.LawfulEqCmp.compare_eq_iff_eq, OffsetTable.push,
      Array.mem_push, Prod.mk.injEq]
    by_cases hc : c = d
    · subst hc
      have absent : (i.toUInt64, c) ∉ pool.entries.entries := by
        rw [← pool.index_iff, fresh]
        simp
      simp only [if_true, Option.some.injEq, absent, false_or, and_true]
      exact (pool.toUInt64_eq_next i).symm
    · simp [hc, Ne.symm hc, pool.index_iff]

/-- Index of a constant, appended if it is not there yet. -/
def intern (c : Constant) : Step ConstantPool PoolIndex :=
  .ofOutcome fun pool =>
    match fresh : pool.index[c]? with
    | some i => (.ok i, pool)
    | none =>
      if text : 65535 < c.textLength then (.error (.limit (.textTooLong c.textLength)), pool)
      else if room : 65535 < pool.next + width c then
        (.error (.limit (.constantPoolFull pool.next)), pool)
      else
        (.ok (UInt16.ofNat pool.next),
          pool.push c fresh (Nat.le_of_not_lt text) (Nat.le_of_not_lt room))

def utf8 (text : String) : Step ConstantPool PoolIndex := intern (.utf8 text)

/-- The name may be given with dots or with slashes. -/
def classRef (name : String) : Step ConstantPool PoolIndex := do
  intern (.classRef (← utf8 (ClassName.canonical name)))

def stringRef (text : String) : Step ConstantPool PoolIndex := do
  intern (.stringRef (← utf8 text))

def nameAndType (name descriptor : String) : Step ConstantPool PoolIndex := do
  let name ← utf8 name
  let descriptor ← utf8 descriptor
  intern (.nameAndType name descriptor)

def fieldRef (owner name descriptor : String) : Step ConstantPool PoolIndex := do
  let owner ← classRef owner
  let nameAndType ← nameAndType name descriptor
  intern (.fieldRef owner nameAndType)

def methodRef (owner name descriptor : String) (interface : Bool) :
    Step ConstantPool PoolIndex := do
  let owner ← classRef owner
  let nameAndType ← nameAndType name descriptor
  intern (.methodRef owner nameAndType interface)

def get? (pool : ConstantPool) (i : PoolIndex) : Option Constant := pool.entries.get? i.toUInt64

def text? (pool : ConstantPool) (i : PoolIndex) : Option String :=
  match pool.get? i with
  | some (.utf8 text) => some text
  | _ => none

def className? (pool : ConstantPool) (i : PoolIndex) : Option ClassName :=
  match pool.get? i with
  | some (.classRef name) => pool.text? name
  | _ => none

def memberRef? (pool : ConstantPool) (i : PoolIndex) : Option MemberRef := do
  let (owner, nameAndType, interface) ←
    match ← pool.get? i with
    | .fieldRef owner nameAndType => some (owner, nameAndType, false)
    | .methodRef owner nameAndType interface => some (owner, nameAndType, interface)
    | _ => none
  match ← pool.get? nameAndType with
  | .nameAndType name descriptor =>
    return {
      owner
      ownerName := ← pool.className? owner
      name := ← pool.text? name
      descriptor := ← pool.text? descriptor
      interface }
  | _ => none

/-- The number in front of the constants counts the indices from zero on, used or not. -/
def encode (constants : OffsetTable Constant) : Except TableOverflow Bytes := do
  let size ← Bytes.count constants.next.toNat
  return size ++ constants.toList.flatMap Constant.encode

end ConstantPool
end ClassAssembly
