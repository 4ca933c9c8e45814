import ValidUsage.Registry.Basic
import ValidUsage.Types.Basic

/-!
# The types of names

A statement documents a structure or a command, its subject. A name of the statement is `NULL` or
`VK_NULL_HANDLE`, a member or parameter of the subject, or a name of the API; its type is read from
the registry in this order.
-/

namespace ValidUsage

/-- Scalar types that count as numbers. -/
def numericTypes : List String :=
  ["char", "float", "double", "int8_t", "uint8_t", "int16_t", "uint16_t", "int32_t", "uint32_t",
   "int64_t", "uint64_t", "size_t", "int", "VkBool32", "VkDeviceSize", "VkDeviceAddress"]

/-- Sets of flags whose flags belong to no enumeration. -/
def genericBitmasks : List String := ["VkSampleMask", "VkFlags", "VkFlags64"]

/-- The class of the names of a category, if they can occur in a statement. -/
def Category.cls? : Category → Option TyClass
  | .bitmask => some .bitmask
  | .enum => some .enum
  | .handle | .basetype => some .handle
  | .struct | .union => some .structName
  | .command => some .void
  | .define | .funcpointer => none

namespace Registry

/-- The type of a name of the API. -/
def tokenType? (r : Registry) (name : String) : Option Ty :=
  if name = "void" then some .void
  else if numericTypes.contains name then some ⟨.num, name, 0, none⟩
  else if genericBitmasks.contains name then some ⟨.bitmask, name, 0, none⟩
  else if r.enumValues.contains name then some ⟨.enum, name, 0, none⟩
  else match r.constants.get? name with
    | some typeName => some ⟨.num, typeName, 0, none⟩
    | none => match r.resolve? name with
      | some e => e.category.cls?.map fun cls => ⟨cls, e.name, 0, none⟩
      | none =>
        if r.isExtension name then some ⟨.extensionName, name, 0, none⟩
        else if r.isFeature name then some ⟨.featureName, name, 0, none⟩
        else none

/-- The structure whose members count as those of another, for a member of it: the members that all
pipelines share are declared with the graphics pipelines. -/
def memberOwner (entity member : String) : String :=
  if entity = "VkPipelineCreateInfo" ∧ member = "flags" then "VkGraphicsPipelineCreateInfo"
  else entity

/-- The declaration of a member: of the entity itself, or of the one it is another name of. -/
def findMember? (r : Registry) (entity member : String) : Option Member :=
  let owner := memberOwner entity member
  match (r.lookup? owner).bind (·.member? member) with
  | some m => some m
  | none => (r.resolve? owner).bind (·.member? member)

/-- The type of a member. A type of the API that is the name of a structure is a structure here; one
that the API does not classify is `void` under its own name.

An array is one pointer more. Numbers of pointers are not bounded here. Kept in 32 bits, the sum of
an array whose declaration has `2 ^ 32 - 1` pointers would not fit, and no other would. -/
def memberType? (r : Registry) (entity member : String) : Option Ty :=
  (r.findMember? entity member).map fun m =>
    let base := match r.tokenType? m.typeName with
      | some ⟨.structName, name, _, _⟩ => Ty.struct name
      | some t => t
      | none => ⟨.void, m.typeName, 0, none⟩
    match m.fixedLen with
    | some size => { base with pointer := m.pointer + 1, len := some size }
    | none => { base with pointer := m.pointer, len := m.len }

/-- The name that the alias of an entity stands for, and any other name itself. -/
def resolvedName (r : Registry) (name : String) : String :=
  match r.resolve? name with
  | some e => e.name
  | none => name

/-- The enumeration whose values belong to a type: that of the flags of a bitmask, that of an
enumeration value, or the enumeration itself. Types that take flags of any kind have none. -/
def enumFamily (r : Registry) (t : Ty) : String :=
  if t.name.isEmpty || genericBitmasks.contains t.name then ""
  else match t.cls with
    | .bitmask => r.resolvedName (((r.resolve? t.name).bind (·.requires)).getD t.name)
    | .enum => r.resolvedName ((r.enumValues.get? t.name).getD t.name)
    | _ => t.name

end Registry

/-- The API that a statement documents, within its registry. -/
structure Subject where
  /-- The tables of the API. -/
  registry : Registry
  /-- The structure or command that is documented. -/
  api : String

namespace Subject

/-- Whether a name is `NULL` or the null handle. -/
def isNullName (name : String) : Bool := name == "NULL" || name == "VK_NULL_HANDLE"

/-- Whether a name is a member or parameter of the subject. -/
def isParameter (s : Subject) (name : String) : Bool := (s.registry.findMember? s.api name).isSome

/-- Whether a name is that of the API, or null. -/
def isToken (s : Subject) (name : String) : Bool :=
  isNullName name || (s.registry.tokenType? name).isSome

/-- The type of a name that the statement does not bind. -/
def nameType? (s : Subject) (name : String) : Option Ty :=
  if name = "NULL" then some .null
  else if name = "VK_NULL_HANDLE" then some ⟨.handle, "VK_NULL_HANDLE", 0, none⟩
  else match s.registry.memberType? s.api name with
    | some t => some t
    | none => s.registry.tokenType? name

end Subject
end ValidUsage
