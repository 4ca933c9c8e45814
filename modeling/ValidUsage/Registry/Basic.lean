import ValidUsage.Table

/-!
# The registry of an API

A registry lists the entities of an API with their members, the enumeration that each enumeration
value belongs to, the types of constants, and the versions and extensions that introduce all these.
-/

namespace ValidUsage

/-- What an entity is. -/
inductive Category where
  /-- A structure. -/
  | struct
  /-- A union. -/
  | union
  /-- A handle. -/
  | handle
  /-- An enumeration, the bits of a bitmask included. -/
  | enum
  /-- A bitmask. -/
  | bitmask
  /-- A type with another name. -/
  | basetype
  /-- A preprocessor definition. -/
  | define
  /-- A pointer to a function. -/
  | funcpointer
  /-- A command. -/
  | command
  deriving DecidableEq, Repr

namespace Category

/-- The word for a category. -/
def word : Category → String
  | .struct => "struct"
  | .union => "union"
  | .handle => "handle"
  | .enum => "enum"
  | .bitmask => "bitmask"
  | .basetype => "basetype"
  | .define => "define"
  | .funcpointer => "funcpointer"
  | .command => "command"

/-- Every category. -/
def all : List Category :=
  [.struct, .union, .handle, .enum, .bitmask, .basetype, .define, .funcpointer, .command]

/-- The markup that links to an entity of a category. -/
def link : Category → String
  | .struct | .union | .handle => "slink"
  | .enum => "elink"
  | .bitmask | .funcpointer => "tlink"
  | .basetype => "basetype"
  | .define => "dlink"
  | .command => "flink"

end Category

/-- A member of a structure, or a parameter of a command. -/
structure Member where
  /-- Its name. -/
  name : String
  /-- The name of its type, without pointers. -/
  typeName : String
  /-- How many pointers its declaration has. -/
  pointer : Nat := 0
  /-- The length of the array that it points to. -/
  len : Option String := none
  /-- The size of the array that it is. -/
  fixedLen : Option String := none
  deriving DecidableEq, Repr

/-- A named part of an API. -/
structure Entity where
  /-- Its name. -/
  name : String
  /-- What it is. -/
  category : Category
  /-- Its members or parameters. -/
  members : List Member := []
  /-- The entity that it is another name of. -/
  aliasOf : Option String := none
  /-- The enumeration of the bits of a bitmask. -/
  requires : Option String := none
  /-- The structures whose chain it may extend. -/
  extended : List String := []
  deriving DecidableEq, Repr

/-- The member of a name. -/
def Entity.member? (e : Entity) (name : String) : Option Member :=
  e.members.find? (·.name == name)

/-- Symbols that are introduced together. -/
structure RequireBlock where
  /-- The versions and extensions that are needed besides: `+` joins them, `,` separates
  alternatives. -/
  depends : Option String := none
  /-- The types. -/
  types : List String := []
  /-- The enumeration values. -/
  enums : List String := []
  deriving DecidableEq, Repr

/-- What introduces symbols. -/
inductive InterfaceKind where
  /-- A version of the API. -/
  | version
  /-- An extension. -/
  | extension
  deriving DecidableEq, Repr

/-- The word for a kind of interface. -/
def InterfaceKind.word : InterfaceKind → String
  | .version => "version"
  | .extension => "extension"

/-- Every kind of interface. -/
def InterfaceKind.all : List InterfaceKind := [.version, .extension]

/-- A version or an extension. -/
structure Interface where
  /-- Its name. -/
  name : String
  /-- What it is. -/
  kind : InterfaceKind
  /-- The symbols that it introduces. -/
  require : List RequireBlock := []
  deriving DecidableEq, Repr

/-- The version of the format in which registries are exchanged. -/
def registryFormat : String := "0.1.0"

/-- The tables of an API. -/
structure Registry where
  /-- The version of the format. -/
  format : String := registryFormat
  /-- The entities. Of several under one name the last counts. -/
  entities : List Entity
  /-- The enumeration of each enumeration value. -/
  enumValues : Table String := .empty
  /-- The type of each constant. -/
  constants : Table String := .empty
  /-- The versions and extensions. -/
  interfaces : List Interface := []
  deriving DecidableEq, Repr

/-- The structure whose members are the features of the first version. -/
def coreFeatures : String := "VkPhysicalDeviceFeatures"

/-- The structure whose chain the other structures of features extend. -/
def chainedFeatures : String := "VkPhysicalDeviceFeatures2"

/-- Whether a member is a switch: a boolean, not a pointer to one. -/
def Member.isSwitch (m : Member) : Bool := m.typeName == "VkBool32" && m.pointer == 0

namespace Registry

/-- The entity of a name. -/
def lookup? (r : Registry) (name : String) : Option Entity :=
  r.entities.reverse.find? (·.name == name)

/-- The entity that a name is another name of. -/
def aliasOf? (r : Registry) (name : String) : Option String :=
  (r.lookup? name).bind (·.aliasOf)

/-- The entity of a name, or the one that it is another name of. Only one step is followed. -/
def resolve? (r : Registry) (name : String) : Option Entity := do
  let e ← r.lookup? name
  match e.aliasOf with
  | some target => r.lookup? target
  | none => some e

/-- The version or extension of a name. -/
def interface? (r : Registry) (name : String) : Option Interface :=
  r.interfaces.find? (·.name == name)

/-- Whether a name is that of an extension. -/
def isExtension (r : Registry) (name : String) : Bool :=
  (r.interface? name).any (·.kind == .extension)

/-- Whether the switches of an entity are features. -/
def holdsFeatures (e : Entity) : Bool :=
  e.category == .struct && e.aliasOf.isNone &&
    (e.name == coreFeatures || e.extended.contains chainedFeatures)

/-- The structures whose switches are features. -/
def featureStructs (r : Registry) : List Entity := r.entities.filter holdsFeatures

/-- The features, in ascending order. -/
def features (r : Registry) : List String :=
  NameSet.ofList ((r.featureStructs.flatMap (·.members)).filterMap fun m =>
    if m.isSwitch then some m.name else none)

/-- Whether a name is that of a feature. -/
def isFeature (r : Registry) (name : String) : Bool :=
  r.featureStructs.any fun e => e.members.any fun m => m.isSwitch && m.name == name

/-- The markup that links to a name of the API, if there is one. -/
def link? (r : Registry) (name : String) : Option String :=
  if name = "VK_NULL_HANDLE" then some "dlink"
  else if r.enumValues.contains name then some "ename"
  else match r.lookup? name with
    | some e => some e.category.link
    | none =>
      if r.isExtension name then some "apiext"
      else if r.constants.contains name then some "dlink"
      else none

end Registry
end ValidUsage
