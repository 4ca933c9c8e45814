/-!
# Types

The type of an expression is a class with the name of a type of the API, where one is known, and
the pointers and array length that surround it.
-/

namespace ValidUsage

/-- What kind of value an expression has. -/
inductive TyClass where
  /-- No value, or any value. -/
  | void
  /-- A truth value. -/
  | bool
  /-- A number. -/
  | num
  /-- A set of flags. -/
  | bitmask
  /-- A value of an enumeration, or a single flag. -/
  | enum
  /-- A structure. -/
  | struct
  /-- A handle. -/
  | handle
  /-- The name of a structure. -/
  | structName
  /-- The name of an extension. -/
  | extensionName
  /-- The name of a feature. -/
  | featureName
  deriving DecidableEq, Repr

namespace TyClass

/-- The words for a class. -/
def words : TyClass → String
  | .void => "void"
  | .bool => "bool"
  | .num => "number"
  | .bitmask => "bitmask"
  | .enum => "enum"
  | .struct => "struct"
  | .handle => "handle"
  | .structName => "struct name"
  | .extensionName => "extension name"
  | .featureName => "feature name"

end TyClass

/-- The type of an expression. -/
structure Ty where
  /-- What kind of value it is. -/
  cls : TyClass
  /-- The name of the type of the API; empty if any of the class will do. -/
  name : String
  /-- The number of pointers to follow, of any size. -/
  pointer : Nat := 0
  /-- The length of the array. -/
  len : Option String := none
  deriving DecidableEq, Repr

namespace Ty

/-- The type of what has no value. -/
def void : Ty := ⟨.void, "void", 0, none⟩

/-- The type of truth values. -/
def bool : Ty := ⟨.bool, "bool", 0, none⟩

/-- The type of numbers. -/
def num : Ty := ⟨.num, "", 0, none⟩

/-- The type of indices of arrays. -/
def index : Ty := ⟨.num, "uint32_t", 0, none⟩

/-- The type of sets of flags. -/
def bitmask : Ty := ⟨.bitmask, "", 0, none⟩

/-- The type of values of enumerations. -/
def anyEnum : Ty := ⟨.enum, "", 0, none⟩

/-- The type of handles. -/
def handle : Ty := ⟨.handle, "", 0, none⟩

/-- The type of names of structures. -/
def structName : Ty := ⟨.structName, "", 0, none⟩

/-- The type of names of extensions. -/
def extensionName : Ty := ⟨.extensionName, "", 0, none⟩

/-- The type of names of features. -/
def featureName : Ty := ⟨.featureName, "", 0, none⟩

/-- The type of structures of a name. -/
def struct (name : String) : Ty := ⟨.struct, name, 0, none⟩

/-- The type of `NULL`, a pointer to anything. -/
def null : Ty := ⟨.void, "void", 1, none⟩

/-- The type of an expression that could not be typed. No check that follows fails on it, so that
a mistake is reported once. -/
def unknown : Ty := ⟨.void, "", 0, none⟩

/-- Whether a value is a pointer. -/
def isPointer (t : Ty) : Bool := t.pointer > 0

/-- Whether a value has elements. -/
def isArray (t : Ty) : Bool := t.isPointer && t.len.isSome

/-- Whether a type stands for an expression that could not be typed. -/
def isUnknown (t : Ty) : Bool := t.cls == .void && t.name.isEmpty && !t.isPointer

/-- The length of an element that is an array itself. -/
def unspecifiedLength : String := "UNSPECIFIED"

/-- The type of an element of an array. -/
def indexed (t : Ty) : Ty :=
  { t with pointer := t.pointer - 1, len := if t.pointer > 1 then some unspecifiedLength else none }

/-- The type of what a pointer leads to, however many there are to follow. -/
def dereferenced (t : Ty) : Ty := { t with pointer := 0, len := none }

/-- A type as it is shown. -/
def display (t : Ty) : String :=
  let base := if t.name.isEmpty then t.cls.words else t.name
  let stars := String.ofList (List.replicate t.pointer '*')
  base ++ stars ++ (match t.len with
    | some len => "[" ++ len ++ "]"
    | none => "")

end Ty
end ValidUsage
