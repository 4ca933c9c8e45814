import ValidUsage.Json.Record
import ValidUsage.Registry.Basic

/-!
# Build configurations

A configuration names the versions and extensions that a build of the documentation includes. Case
does not matter in these names. It also says which extension stands for a feature whose name is
older than the structures of features.
-/

namespace ValidUsage

/-- Features that are older than the structures of features, with the extensions that provided
them. -/
def legacyFeatures : Table String := .ofList
  [("shaderDrawParameters", "VK_KHR_shader_draw_parameters"),
   ("drawIndirectCount", "VK_KHR_draw_indirect_count"),
   ("samplerMirrorClampToEdge", "VK_KHR_sampler_mirror_clamp_to_edge"),
   ("descriptorIndexing", "VK_EXT_descriptor_indexing"),
   ("samplerFilterMinmax", "VK_EXT_sampler_filter_minmax"),
   ("shaderOutputViewportIndex", "VK_EXT_shader_viewport_index_layer"),
   ("shaderOutputLayer", "VK_EXT_shader_viewport_index_layer")]

/-- What a build includes. -/
structure BuildConfig where
  /-- The versions. -/
  versions : List String
  /-- The extensions. -/
  extensions : List String
  /-- The extension that stands for each old feature. -/
  legacyAliases : Table String := legacyFeatures
  deriving DecidableEq, Repr

namespace BuildConfig

/-- Whether two names are the same but for the case of ASCII letters. -/
def sameName (a b : String) : Bool := a.toList.map Char.toLower == b.toList.map Char.toLower

/-- The configuration that includes everything of a registry. -/
def all (r : Registry) : BuildConfig where
  versions := (r.interfaces.filter (·.kind == .version)).map (·.name)
  extensions := (r.interfaces.filter (·.kind == .extension)).map (·.name)

/-- Whether a version is included. -/
def hasVersion (c : BuildConfig) (major minor : Nat) : Bool :=
  c.versions.any (sameName ("vk_version_" ++ toString major ++ "_" ++ toString minor))

/-- Whether an extension is included. -/
def hasExtension (c : BuildConfig) (name : String) : Bool := c.extensions.any (sameName name)

/-- Whether a version or an extension is included. -/
def isEnabled (c : BuildConfig) (name : String) : Bool :=
  (c.versions ++ c.extensions).any (sameName name)

/-- The extension that stands for an old feature. -/
def legacyAlias? (c : BuildConfig) (feature : String) : Option String :=
  c.legacyAliases.get? feature

/-- The configuration that a value describes. -/
def ofJson? (j : Json) : Option BuildConfig := do
  match ← j.record? [.optional "versions", .optional "extensions",
      .optional "legacyFeatureAliases"] with
  | [versions, extensions, legacyAliases] =>
    return {
      versions := ← Json.orElse [] (Json.list? Json.str?) versions
      extensions := ← Json.orElse [] (Json.list? Json.str?) extensions
      legacyAliases := ← Json.orElse legacyFeatures (Json.table? Json.str?) legacyAliases }
  | _ => none

/-- A configuration in JSON. -/
def toJson (c : BuildConfig) : Json :=
  .obj [("versions", Json.strings c.versions), ("extensions", Json.strings c.extensions),
    ("legacyFeatureAliases", Json.ofTable .str c.legacyAliases)]

end BuildConfig
end ValidUsage
