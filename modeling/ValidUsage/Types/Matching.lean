import ValidUsage.Types.Subject

/-!
# Which types go together

Two values may be compared, or one given for the other, when they are equally many pointers away
and of one kind. `NULL` is as many pointers away as the other side, and `void` is of any kind.
-/

namespace ValidUsage.Registry

/-- Flags go together when they belong to one enumeration, or either side takes any flags. -/
def enumsMatch (r : Registry) (a b : Ty) : Bool :=
  a.name == b.name || (r.enumFamily a).isEmpty || (r.enumFamily b).isEmpty ||
    r.enumFamily a == r.enumFamily b

/-- Handles go together when they are of one type, or either side is any handle or the null
handle. -/
def handlesMatch (a b : Ty) : Bool :=
  a.name == b.name || a.name.isEmpty || b.name.isEmpty || a.name == "VK_NULL_HANDLE" ||
    b.name == "VK_NULL_HANDLE"

/-- Whether a class is one of flags: an enumeration or a set of its values. -/
def isFlags (c : TyClass) : Bool := c == .enum || c == .bitmask

/-- Whether two types go together, pointers aside. Names of structures count only if `exact`. -/
def basesMatch (r : Registry) (exact : Bool) (a b : Ty) : Bool :=
  if isFlags a.cls && isFlags b.cls then r.enumsMatch a b
  else if a.cls ≠ b.cls then false
  else match a.cls with
    | .struct => !exact || a.name == b.name
    | .handle => handlesMatch a b
    | _ => true

/-- Whether a type is that of `NULL`. -/
def isNull (t : Ty) : Bool := t.cls == .void && t.isPointer

/-- Whether two types go together. -/
def typesMatch (r : Registry) (exact : Bool) (a b : Ty) : Bool :=
  let level := if isNull a then b.pointer else a.pointer
  let level' := if isNull b then a.pointer else b.pointer
  level == level' && (a.cls == .void || b.cls == .void || r.basesMatch exact a b)

/-- Whether a value may be given where a predicate declares a type. -/
def accepts (r : Registry) (declared given : Ty) : Bool :=
  declared.cls == .void || r.typesMatch false declared given

end ValidUsage.Registry
