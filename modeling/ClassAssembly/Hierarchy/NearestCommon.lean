import ClassAssembly.Hierarchy.Assignable

/-! The nearest class that two classes are both assignable to, as seen from a class that is still
being assembled. -/
namespace ClassAssembly

/-- The class being assembled, its superclass, and what is known about other classes. -/
structure ClassScope where
  thisClass : ClassName
  superClass : ClassName
  hierarchy : Hierarchy

namespace ClassScope

/-- The class being assembled is not in the hierarchy yet; its superclass stands in for it. -/
def resolve (c : ClassScope) (name : ClassName) : ClassName :=
  if name = c.thisClass then c.superClass else name

/-- Nearest common class of two classes that are not arrays: one of them if the other is
assignable to it, `java/lang/Object` if an interface is involved, or a superclass. -/
def nearestOfPlain (c : ClassScope) (a b : ClassName) : ClassName :=
  if c.hierarchy.isAssignable a b then b
  else if c.hierarchy.isAssignable b a then a
  else if c.hierarchy.isInterface a || c.hierarchy.isInterface b then .object
  else ((c.hierarchy.superclasses a).find? (c.hierarchy.isAssignable b ·)).getD .object

/-- Nearest common class within a number of array dimensions. -/
def nearestWithin (c : ClassScope) : Nat → ClassName → ClassName → ClassName
  | 0, _, _ => .object
  | n + 1, a, b =>
    let a := c.resolve a
    let b := c.resolve b
    if a = b then a
    else if a.isArray || b.isArray then
      match a.element?, b.element? with
      | some x, some y => if x = y then .object else .arrayOf (c.nearestWithin n x y)
      | _, _ => .object
    else c.nearestOfPlain a b

/-- The nearest class both classes are assignable to. Each dimension takes at least one character,
and the names to compare come from `a`, `b` and the superclass. -/
def nearestCommon (c : ClassScope) (a b : ClassName) : ClassName :=
  c.nearestWithin (a.length + b.length + c.superClass.length + 1) a b

end ClassScope
end ClassAssembly
