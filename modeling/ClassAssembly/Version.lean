import ClassAssembly.Bytes

/-! Class file versions, ordered by major then minor number. -/
namespace ClassAssembly

structure Version where
  major : UInt16
  minor : UInt16 := 0
deriving DecidableEq

namespace Version

def java5 : Version := ⟨49, 0⟩
def java6 : Version := ⟨50, 0⟩
def java7 : Version := ⟨51, 0⟩
def java8 : Version := ⟨52, 0⟩
def java11 : Version := ⟨55, 0⟩
def java17 : Version := ⟨61, 0⟩

def compare (v w : Version) : Ordering :=
  (Ord.compare v.major.toNat w.major.toNat).then (Ord.compare v.minor.toNat w.minor.toNat)

/-- Methods of such a class carry stack map tables. -/
def hasStackMaps (v : Version) : Bool := (v.compare java6).isGE

/-- The minor number comes first. -/
def encode (v : Version) : Bytes := Bytes.u2 v.minor ++ Bytes.u2 v.major

end Version
end ClassAssembly
