import ValidUsage.Json.Parser
import ValidUsage.Json.Record
import ValidUsage.Number.Width
import ValidUsage.Registry.Basic

/-!
# Registries in JSON

A registry is read from a record; fields that its schema does not have are ignored. A registry in
another version of the format is refused after it was read.
-/

namespace ValidUsage

/-- The member that a value describes. -/
def Member.ofJson? (j : Json) : Option Member := do
  match ← j.record? [.required "name", .required "type", .optional "pointer", .optional "len",
      .optional "fixedLen"] with
  | [name, typeName, pointer, len, fixedLen] =>
    return {
      name := ← Json.given Json.str? name
      typeName := ← Json.given Json.str? typeName
      pointer := ← Json.orElse 0 (Json.natBelow? limit32) pointer
      len := ← Json.orElse none (Json.option? Json.str?) len
      fixedLen := ← Json.orElse none (Json.option? Json.str?) fixedLen }
  | _ => none

/-- A member in JSON. -/
def Member.toJson (m : Member) : Json :=
  .obj ([("name", .str m.name), ("type", .str m.typeName), ("pointer", .nat m.pointer)] ++
    Json.field? "len" Json.str m.len ++ Json.field? "fixedLen" Json.str m.fixedLen)

/-- The entity that a value describes. Its members may be called parameters. -/
def Entity.ofJson? (j : Json) : Option Entity := do
  match ← j.record? [.required "name", .required "category", ⟨"members", some "params", true⟩,
      .optional "aliasOf", .optional "requires", .optional "extends"] with
  | [name, category, members, aliasOf, requires, extended] =>
    return {
      name := ← Json.given Json.str? name
      category := ← Json.given (Json.oneOf? Category.all Category.word) category
      members := ← Json.orElse [] (Json.list? Member.ofJson?) members
      aliasOf := ← Json.orElse none (Json.option? Json.str?) aliasOf
      requires := ← Json.orElse none (Json.option? Json.str?) requires
      extended := ← Json.orElse [] (Json.list? Json.str?) extended }
  | _ => none

/-- An entity in JSON. -/
def Entity.toJson (e : Entity) : Json :=
  .obj ([("name", .str e.name), ("category", .str e.category.word),
      ("members", .arr (e.members.map Member.toJson))] ++
    Json.field? "aliasOf" Json.str e.aliasOf ++ Json.field? "requires" Json.str e.requires ++
    (if e.extended.isEmpty then [] else [("extends", Json.strings e.extended)]))

/-- The block that a value describes. -/
def RequireBlock.ofJson? (j : Json) : Option RequireBlock := do
  match ← j.record? [.optional "depends", .optional "types", .optional "enums"] with
  | [depends, types, enums] =>
    return {
      depends := ← Json.orElse none (Json.option? Json.str?) depends
      types := ← Json.orElse [] (Json.list? Json.str?) types
      enums := ← Json.orElse [] (Json.list? Json.str?) enums }
  | _ => none

/-- A block in JSON. -/
def RequireBlock.toJson (b : RequireBlock) : Json :=
  .obj (Json.field? "depends" Json.str b.depends ++
    [("types", Json.strings b.types), ("enums", Json.strings b.enums)])

/-- The version or extension that a value describes. -/
def Interface.ofJson? (j : Json) : Option Interface := do
  match ← j.record? [.required "name", .required "kind", .optional "require"] with
  | [name, kind, require] =>
    return {
      name := ← Json.given Json.str? name
      kind := ← Json.given (Json.oneOf? InterfaceKind.all InterfaceKind.word) kind
      require := ← Json.orElse [] (Json.list? RequireBlock.ofJson?) require }
  | _ => none

/-- A version or extension in JSON. -/
def Interface.toJson (i : Interface) : Json :=
  .obj [("name", .str i.name), ("kind", .str i.kind.word),
    ("require", .arr (i.require.map RequireBlock.toJson))]

/-- Why a registry cannot be used. -/
inductive RegistryError where
  /-- The text is not JSON, or does not fit the schema. -/
  | json
  /-- The registry is in another version of the format. -/
  | format (found : String)
  deriving DecidableEq, Repr

namespace Registry

/-- The registry that a value describes, in whatever version of the format. -/
def ofJson? (j : Json) : Option Registry := do
  match ← j.record? [.optional "formatVersion", .required "entities", .optional "enumValues",
      .optional "constants", .optional "interfaces"] with
  | [format, entities, enumValues, constants, interfaces] =>
    return {
      format := ← Json.orElse registryFormat Json.str? format
      entities := ← Json.given (Json.list? Entity.ofJson?) entities
      enumValues := ← Json.orElse .empty (Json.table? Json.str?) enumValues
      constants := ← Json.orElse .empty (Json.table? Json.str?) constants
      interfaces := ← Json.orElse [] (Json.list? Interface.ofJson?) interfaces }
  | _ => none

/-- The registry that a value describes. -/
def load (j : Json) : Except RegistryError Registry :=
  match ofJson? j with
  | none => .error .json
  | some r => if r.format = registryFormat then .ok r else .error (.format r.format)

/-- The registry that a text describes. -/
def loadText (text : String) : Except RegistryError Registry :=
  match Json.parse? text with
  | none => .error .json
  | some j => load j

/-- A registry in JSON. -/
def toJson (r : Registry) : Json :=
  .obj [("formatVersion", .str r.format), ("entities", .arr (r.entities.map Entity.toJson)),
    ("enumValues", Json.ofTable .str r.enumValues), ("constants", Json.ofTable .str r.constants),
    ("interfaces", .arr (r.interfaces.map Interface.toJson))]

end Registry

/-- The message for a registry that cannot be used. -/
def RegistryError.message : RegistryError → String
  | .json => "invalid registry JSON"
  | .format found =>
    "unsupported registry format version " ++ found ++ " (expected " ++ registryFormat ++ ")"

end ValidUsage
