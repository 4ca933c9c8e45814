import ValidUsage.Text.Search
import ValidUsage.Types.Basic

/-!
# Predicates

The only functions of the statement language: those called by their name, and those called on a
receiver. Each has a signature; an argument of type `void` accepts anything.
-/

namespace ValidUsage

/-- The types that a predicate is declared with. -/
structure Signature where
  /-- The type of the receiver, for a predicate that is called on one. -/
  object : Option Ty
  /-- The types of the arguments. -/
  args : List Ty
  /-- The type of the result. -/
  result : Ty
  deriving DecidableEq, Repr

/-- Predicates that are called by their name. -/
inductive Predicate where
  /-- `require(condition)` demands that a condition holds. -/
  | require
  /-- `has_pnext(S)`: the chain of the subject includes a structure. -/
  | hasPnext
  /-- `pnext(S)` is the structure of the chain of the subject. -/
  | pnext
  /-- `array_index(v)` is the index of the element that a loop visits. -/
  | arrayIndex
  /-- `is_version(major, minor)`: the API has at least a version. -/
  | isVersion
  /-- `is_ext_enabled(E)`: an extension is enabled. -/
  | isExtEnabled
  /-- `is_feature_enabled(F)`: a feature is enabled. -/
  | isFeatureEnabled
  /-- `externally_synchronized(h)`: access to a handle is synchronized by the application. -/
  | externallySynchronized
  /-- `macro(name)` stands for a text of the document. -/
  | textMacro
  deriving DecidableEq, Repr

namespace Predicate

/-- Every predicate that is called by its name. -/
def all : List Predicate :=
  [.require, .hasPnext, .pnext, .arrayIndex, .isVersion, .isExtEnabled, .isFeatureEnabled,
   .externallySynchronized, .textMacro]

/-- The name of a predicate. -/
def name : Predicate → String
  | .require => "require"
  | .hasPnext => "has_pnext"
  | .pnext => "pnext"
  | .arrayIndex => "array_index"
  | .isVersion => "is_version"
  | .isExtEnabled => "is_ext_enabled"
  | .isFeatureEnabled => "is_feature_enabled"
  | .externallySynchronized => "externally_synchronized"
  | .textMacro => "macro"

/-- The predicate of a name. -/
def ofName? (name : String) : Option Predicate := all.find? (·.name == name)

/-- The types of a predicate. -/
def signature : Predicate → Signature
  | .require => ⟨none, [.bool], .void⟩
  | .hasPnext => ⟨none, [.structName], .bool⟩
  | .pnext => ⟨none, [.structName], .struct ""⟩
  | .arrayIndex => ⟨none, [.void], .index⟩
  | .isVersion => ⟨none, [.num, .num], .bool⟩
  | .isExtEnabled => ⟨none, [.extensionName], .bool⟩
  | .isFeatureEnabled => ⟨none, [.featureName], .bool⟩
  | .externallySynchronized => ⟨none, [.handle], .bool⟩
  | .textMacro => ⟨none, [.void], .void⟩

/-- A predicate is found by its name. -/
theorem ofName?_name (p : Predicate) : ofName? p.name = some p := by cases p <;> decide

/-- A predicate has the name that it is found by. -/
theorem name_of_ofName? {id : String} {p : Predicate} (h : ofName? id = some p) :
    p.name = id := by
  rw [ofName?] at h
  simpa using List.find?_some h

end Predicate

/-- Predicates that are called on a receiver. -/
inductive Method where
  /-- `s.has_pnext(S)`: the chain of a structure includes another. -/
  | hasPnext
  /-- `s.pnext(S)` is the structure of the chain of another. -/
  | pnext
  /-- `flags.has_bit(B)`: a bit is set. -/
  | hasBit
  /-- `flags.any()`: some bit is set. -/
  | any
  /-- `flags.none()`: no bit is set. -/
  | none
  /-- `handle.valid()`: a handle is valid. -/
  | valid
  /-- `handle.create_info()` is the structure that a handle was created with. -/
  | createInfo
  /-- `pipeline.graphics_create_info()`, for a graphics pipeline. -/
  | graphicsCreateInfo
  /-- `pipeline.compute_create_info()`, for a compute pipeline. -/
  | computeCreateInfo
  /-- `pipeline.raytracing_create_info()`, for a ray tracing pipeline. -/
  | rayTracingCreateInfo
  deriving DecidableEq, Repr

namespace Method

/-- Every predicate that is called on a receiver. -/
def all : List Method :=
  [.hasPnext, .pnext, .hasBit, .any, .none, .valid, .createInfo, .graphicsCreateInfo,
   .computeCreateInfo, .rayTracingCreateInfo]

/-- The name of a predicate. -/
def name : Method → String
  | .hasPnext => "has_pnext"
  | .pnext => "pnext"
  | .hasBit => "has_bit"
  | .any => "any"
  | .none => "none"
  | .valid => "valid"
  | .createInfo => "create_info"
  | .graphicsCreateInfo => "graphics_create_info"
  | .computeCreateInfo => "compute_create_info"
  | .rayTracingCreateInfo => "raytracing_create_info"

/-- The predicate of a name. -/
def ofName? (name : String) : Option Method := all.find? (·.name == name)

/-- The types of a predicate. -/
def signature : Method → Signature
  | .hasPnext => ⟨some (.struct ""), [.structName], .bool⟩
  | .pnext => ⟨some (.struct ""), [.structName], .struct ""⟩
  | .hasBit => ⟨some .bitmask, [.anyEnum], .bool⟩
  | .any | .none => ⟨some .bitmask, [], .bool⟩
  | .valid => ⟨some .handle, [], .bool⟩
  | .createInfo | .graphicsCreateInfo | .computeCreateInfo | .rayTracingCreateInfo =>
    ⟨some .handle, [], .struct ""⟩

/-- The name of the structure that a pipeline of a kind is created with. -/
def pipelineInfo (kind object : String) : String :=
  let rest := (Text.stripPrefix? "Vk".toList object.toList).getD object.toList
  "Vk" ++ kind ++ String.ofList rest ++ "CreateInfo"

/-- The name of the structure that a predicate gives on a receiver of type `object`, when called
with the name `arg` of a structure. -/
def returnedStruct? (m : Method) (object : String) (arg : Option String) : Option String :=
  match m with
  | .pnext => arg
  | .createInfo => some (object ++ "CreateInfo")
  | .graphicsCreateInfo => some (pipelineInfo "Graphics" object)
  | .computeCreateInfo => some (pipelineInfo "Compute" object)
  | .rayTracingCreateInfo => some (pipelineInfo "RayTracing" object)
  | _ => Option.none

/-- A predicate is found by its name. -/
theorem ofName?_name (m : Method) : ofName? m.name = some m := by cases m <;> decide

/-- A predicate on a receiver has the name that it is found by. -/
theorem name_of_ofName? {id : String} {m : Method} (h : ofName? id = some m) :
    m.name = id := by
  rw [ofName?] at h
  simpa using List.find?_some h

end Method

/-- Whether a name is that of a predicate of either kind. -/
def isPredicateName (name : String) : Bool :=
  (Predicate.ofName? name).isSome || (Method.ofName? name).isSome

end ValidUsage
