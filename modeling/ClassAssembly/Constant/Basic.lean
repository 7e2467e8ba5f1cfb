import ClassAssembly.OffsetTable
import ClassAssembly.Text.ModifiedUtf8
import Std.Data.TreeMap

/-! Constants of a class file. Numbers of the floating kinds are kept as their bits, so that two
constants are equal exactly if they are written alike. -/
namespace ClassAssembly

/-- Index of a constant; zero is never one. -/
abbrev PoolIndex := UInt16

inductive Constant where
  | utf8 (text : String)
  | integer (value : Int32)
  | float (bits : UInt32)
  | long (value : Int64)
  | double (bits : UInt64)
  | classRef (name : PoolIndex)
  | stringRef (text : PoolIndex)
  | fieldRef (owner nameAndType : PoolIndex)
  | methodRef (owner nameAndType : PoolIndex) (interface : Bool)
  | nameAndType (name descriptor : PoolIndex)
deriving DecidableEq

namespace Constant

def tag : Constant → UInt8
  | utf8 _ => 1
  | integer _ => 3
  | float _ => 4
  | long _ => 5
  | double _ => 6
  | classRef _ => 7
  | stringRef _ => 8
  | fieldRef _ _ => 9
  | methodRef _ _ false => 10
  | methodRef _ _ true => 11
  | nameAndType _ _ => 12

/-- The eight-byte kinds take two indices, of which the second is never used. -/
instance : Width Constant where
  width
    | long _ | double _ => 2
    | _ => 1

def encodeBody : Constant → Bytes
  | utf8 text =>
    let bytes := ModifiedUtf8.encode text
    Bytes.bigEndian 2 bytes.length ++ bytes
  | integer value => Bytes.u4 value.toUInt32
  | float bits => Bytes.u4 bits
  | long value => Bytes.u8 value.toUInt64
  | double bits => Bytes.u8 bits
  | classRef index | stringRef index => Bytes.u2 index
  | fieldRef first second | methodRef first second _ | nameAndType first second =>
    Bytes.u2 first ++ Bytes.u2 second

def encode (c : Constant) : Bytes := Bytes.u1 c.tag ++ c.encodeBody

/-- What a constant holds beside its text, as one number. -/
def code : Constant → Nat
  | utf8 _ => 1
  | integer value => 3 + 16 * value.toUInt32.toNat
  | float bits => 4 + 16 * bits.toNat
  | long value => 5 + 16 * value.toUInt64.toNat
  | double bits => 6 + 16 * bits.toNat
  | classRef index => 7 + 16 * index.toNat
  | stringRef index => 8 + 16 * index.toNat
  | fieldRef first second => 9 + 16 * (first.toNat * 65536 + second.toNat)
  | methodRef first second false => 10 + 16 * (first.toNat * 65536 + second.toNat)
  | methodRef first second true => 11 + 16 * (first.toNat * 65536 + second.toNat)
  | nameAndType first second => 12 + 16 * (first.toNat * 65536 + second.toNat)

def textOrEmpty : Constant → String
  | utf8 text => text
  | _ => ""

/-- Number of bytes of the text that a constant holds. -/
def textLength (c : Constant) : Nat := ModifiedUtf8.length c.textOrEmpty

theorem pair_injective {a b c d : UInt16}
    (h : a.toNat * 65536 + b.toNat = c.toNat * 65536 + d.toNat) : a = c ∧ b = d := by
  have := b.toNat_lt
  have := d.toNat_lt
  constructor
  · apply UInt16.toNat_inj.1
    omega
  · apply UInt16.toNat_inj.1
    omega

theorem eq_of_code_eq {a b : Constant} (h : a.code = b.code)
    (text : a.textOrEmpty = b.textOrEmpty) : a = b := by
  unfold code at h
  split at h <;> split at h <;> try omega
  all_goals simp_all [textOrEmpty]
  case h_2 => exact congrArg Int32.ofUInt32 (UInt32.toNat_inj.1 (by omega))
  case h_3 => exact UInt32.toNat_inj.1 (by omega)
  case h_4 => exact congrArg Int64.ofUInt64 (UInt64.toNat_inj.1 (by omega))
  case h_5 => exact UInt64.toNat_inj.1 (by omega)
  case h_6 => exact UInt16.toNat_inj.1 (by omega)
  case h_7 => exact UInt16.toNat_inj.1 (by omega)
  all_goals exact pair_injective (by omega)

/-- The order in which constants are looked up. -/
def order : Constant → Constant → Ordering :=
  compareLex (compareOn code) (compareOn textOrEmpty)

instance : Std.TransCmp order :=
  inferInstanceAs (Std.TransCmp (compareLex (compareOn code) (compareOn textOrEmpty)))

instance : Std.LawfulEqCmp order where
  eq_of_compare {a b} h := by
    simp only [order, compareLex, compareOn, Ordering.then_eq_eq] at h
    exact eq_of_code_eq (Std.LawfulEqOrd.eq_of_compare h.1) (Std.LawfulEqOrd.eq_of_compare h.2)

end Constant
end ClassAssembly
