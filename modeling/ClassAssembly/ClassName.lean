/-! Names of classes. Internally the parts of a name are divided by slashes; a name that starts with
a bracket is that of an array class. -/
namespace ClassAssembly

abbrev ClassName := String

namespace ClassName

def object : ClassName := "java/lang/Object"
def throwable : ClassName := "java/lang/Throwable"
def string : ClassName := "java/lang/String"
def classObject : ClassName := "java/lang/Class"
def stringBuilder : ClassName := "java/lang/StringBuilder"
def cloneable : ClassName := "java/lang/Cloneable"
def serializable : ClassName := "java/io/Serializable"

/-- Name of every constructor. -/
def constructor : String := "<init>"

/-- Internal form: dots become slashes. -/
def canonical (name : String) : ClassName :=
  String.ofList (name.toList.map fun c => if c = '.' then '/' else c)

def isArray (name : ClassName) : Bool := name.toList.head? == some '['

/-- Name of the class of arrays whose elements are of class `name`. -/
def arrayOf (name : ClassName) : ClassName :=
  if isArray name then "[" ++ name else "[L" ++ name ++ ";"

end ClassName
end ClassAssembly
