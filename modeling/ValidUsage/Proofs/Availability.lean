import Mathlib.Data.List.Nodup
import ValidUsage.Proofs.DefinedTypes
import ValidUsage.Proofs.DependencyTruth
import ValidUsage.Proofs.Search

/-!
# What exists in a build

A block of a version or extension is active in a build that includes the version or extension and
whatever the block depends on. Structures and enumeration values exist if an active block lists
them, or none does; features exist if an active block lists a structure that holds them.
-/

namespace ValidUsage

/-- Whether a block depends on nothing, or the text of its dependency writes a condition. -/
def RequireBlock.IsReadable (b : RequireBlock) : Prop :=
  ∀ d ∈ b.depends, Text.trim d.toList = [] ∨ ∃ e, Dependency.Writes .alternatives d.toList e

/-- Whether a block of an interface is active in a build: the build includes the interface, and what
the block depends on holds. -/
structure Interface.Activates (i : Interface) (c : BuildConfig) (b : RequireBlock) : Prop where
  included : c.isEnabled i.name = true
  depends : ∀ d ∈ b.depends, Text.trim d.toList = [] ∨
    ∃ e, Dependency.Writes .alternatives d.toList e ∧ e.holds c.isEnabled = true

namespace Registry

/-- Whether the names of entities are distinct, and those of interfaces and the dependencies of
their blocks can be read. -/
structure IsOrderly (r : Registry) : Prop where
  distinct : (r.entities.map (·.name)).Nodup
  names : ∀ i ∈ r.interfaces, '+' ∉ i.name.toList
  blocks : ∀ i ∈ r.interfaces, ∀ b ∈ i.require, b.IsReadable

/-- Whether a block lists a symbol. -/
def Lists (r : Registry) (symbols : RequireBlock → List String) (x : String) : Prop :=
  ∃ i ∈ r.interfaces, ∃ b ∈ i.require, x ∈ symbols b

/-- Whether a block that is active in a build lists a symbol. -/
def Introduces (r : Registry) (c : BuildConfig) (symbols : RequireBlock → List String)
    (x : String) : Prop :=
  ∃ i ∈ r.interfaces, ∃ b ∈ i.require, x ∈ symbols b ∧ i.Activates c b

/-- Whether a name is that of a structure. -/
def IsStruct (r : Registry) (x : String) : Prop :=
  ∃ e ∈ r.entities, e.name = x ∧ e.category = .struct

/-- Whether the switches of an entity are features: it is a structure, not another name of one, and
the structure of core features or one that may be chained to it. -/
structure HoldsFeatures (e : Entity) : Prop where
  struct : e.category = .struct
  notAlias : e.aliasOf = none
  features : e.name = coreFeatures ∨ chainedFeatures ∈ e.extended

private theorem holdsFeatures_iff {e : Entity} : holdsFeatures e = true ↔ HoldsFeatures e := by
  simp only [holdsFeatures, Bool.and_eq_true, Bool.or_eq_true, beq_iff_eq,
    Option.isNone_iff_eq_none, List.contains_eq_mem, decide_eq_true_eq]
  constructor
  · rintro ⟨⟨h, h'⟩, h''⟩
    exact ⟨h, h', h''⟩
  · rintro ⟨h, h', h''⟩
    exact ⟨⟨h, h'⟩, h''⟩

private theorem name_of_lookup? {r : Registry} {x : String} {e : Entity}
    (h : r.lookup? x = some e) :
    e.name = x :=
  eq_of_beq (List.find?_some (p := fun e : Entity => e.name == x) h)

/-- Where names are distinct, each entity is found under its own. -/
theorem lookup?_of_mem {r : Registry} (h : (r.entities.map (·.name)).Nodup) {e : Entity}
    (he : e ∈ r.entities) : r.lookup? e.name = some e := by
  cases hl : r.lookup? e.name with
  | none =>
    have := List.find?_eq_none.1 hl e (List.mem_reverse.2 he)
    exact absurd (beq_self_eq_true e.name) this
  | some e' =>
    rw [List.inj_on_of_nodup_map h (mem_of_lookup? hl) he (name_of_lookup? hl)]

private theorem isStruct_iff {r : Registry} (h : (r.entities.map (·.name)).Nodup) {x : String} :
    (r.lookup? x).any (·.category == .struct) = true ↔ r.IsStruct x := by
  rw [Option.any_eq_true]
  constructor
  · rintro ⟨e, he, hc⟩
    exact ⟨e, mem_of_lookup? he, name_of_lookup? he, eq_of_beq hc⟩
  · rintro ⟨e, he, rfl, hc⟩
    exact ⟨e, lookup?_of_mem h he, by rw [hc]; rfl⟩

end Registry

namespace Availability

variable {c : BuildConfig}

/-! ## Labels -/

/-- A label is included if all of its names are. -/
theorem labelEnabled_intercalate {names : List String} (hne : names ≠ [])
    (h : ∀ n ∈ names, '+' ∉ n.toList) :
    labelEnabled c ("+".intercalate names) = names.all c.isEnabled := by
  have hsplit : Text.splitOn '+' ("+".intercalate names).toList = names.map String.toList := by
    rw [String.toList_intercalate]
    refine Text.splitOn_join (by simpa using hne) fun piece hp => ?_
    obtain ⟨n, hn, rfl⟩ := List.mem_map.1 hp
    exact h n hn
  rw [labelEnabled, hsplit, List.all_map]
  exact congrArg names.all (funext fun n => by simp)

/-- Labels that begin with one name are included if the name is, and the rest of one of them. -/
theorem defined_map_intercalate {name : String} (hname : '+' ∉ name.toList)
    {d : List (List String)} (h : ∀ names ∈ d, ∀ n ∈ names, '+' ∉ n.toList) :
    defined c (d.map fun names => "+".intercalate (name :: names)) =
      (c.isEnabled name && Depends.anyIncluded c.isEnabled d) := by
  have hlabel : ∀ names ∈ d, labelEnabled c ("+".intercalate (name :: names)) =
      (c.isEnabled name && names.all c.isEnabled) := by
    intro names hn
    refine labelEnabled_intercalate (List.cons_ne_nil _ _) fun n hmem => ?_
    rcases List.mem_cons.1 hmem with rfl | hmem
    · exact hname
    · exact h names hn n hmem
  rw [Bool.eq_iff_iff]
  simp only [defined, Depends.anyIncluded, List.any_eq_true, List.mem_map, Bool.and_eq_true]
  constructor
  · rintro ⟨_, ⟨names, hn, rfl⟩, hl⟩
    rw [hlabel names hn, Bool.and_eq_true] at hl
    exact ⟨hl.1, names, hn, hl.2⟩
  · rintro ⟨hc, names, hn, hl⟩
    exact ⟨_, ⟨names, hn, rfl⟩, by rw [hlabel names hn, hc, hl]; rfl⟩

/-- A block's symbols exist under its labels exactly if the block is active. -/
theorem defined_blockLabels {i : Interface} {b : RequireBlock} (hi : '+' ∉ i.name.toList)
    (hb : b.IsReadable) : defined c (blockLabels i.name b.depends) = true ↔ i.Activates c b := by
  have hone : defined c [i.name] = c.isEnabled i.name := by
    have hlabel : labelEnabled c ("+".intercalate [i.name]) = [i.name].all c.isEnabled :=
      labelEnabled_intercalate (by rintro ⟨⟩) (by simpa using hi)
    simpa [defined] using hlabel
  unfold blockLabels
  split
  next hd =>
    rw [hone]
    exact ⟨fun h => ⟨h, by simp [hd]⟩, fun h => h.included⟩
  next d hd =>
    have hread := hb d (by rw [hd]; rfl)
    split
    next hblank =>
      rw [hone]
      refine ⟨fun h => ⟨h, fun d' hd' => .inl ?_⟩, fun h => h.included⟩
      obtain rfl : d = d' := Option.some.inj (hd.symm.trans hd')
      exact List.isEmpty_iff.1 hblank
    next hblank =>
      have hblank' : Text.trim d.toList ≠ [] := fun h => hblank (List.isEmpty_iff.2 h)
      obtain ⟨e, he⟩ := hread.resolve_left hblank'
      have hm := Depends.means_ofText he c.isEnabled
      have hany : defined c ((Depends.ofText d.toList).map fun names =>
          "+".intercalate (i.name :: names)) = (c.isEnabled i.name && e.holds c.isEnabled) := by
        rw [← hm.holds]
        exact defined_map_intercalate hi hm.plain
      rw [hany, Bool.and_eq_true]
      refine ⟨fun h => ⟨h.1, fun d' hd' => .inr ⟨e, ?_, h.2⟩⟩, fun h => ⟨h.included, ?_⟩⟩
      · obtain rfl : d = d' := Option.some.inj (hd.symm.trans hd')
        exact he
      · -- a text that writes two conditions writes two that hold together
        obtain ⟨e', he', hholds⟩ := (h.depends d (by rw [hd]; rfl)).resolve_left hblank'
        rw [← hm.holds, (Depends.means_ofText he' c.isEnabled).holds, hholds]

/-! ## Tables of labels -/

private theorem mem_insertAll {x : String} {set names : List String} :
    x ∈ NameSet.insertAll set names ↔ x ∈ names ∨ x ∈ set := by
  induction names generalizing set with
  | nil => simp [NameSet.insertAll]
  | cons n names ih =>
    rw [NameSet.insertAll, List.foldl_cons, ← NameSet.insertAll, ih, NameSet.mem_insert,
      List.mem_cons, or_left_comm, or_assoc]

/-- What a table of labels has under a name: all labels of the entries of the name, and nothing if
there is none. -/
theorem get?_foldl_addLabels (entries : List (String × List String)) (t : Table (List String))
    (name : String) :
    let t' := entries.foldl (fun t e => addLabels t e.1 e.2) t
    ((t'.get? name).isSome ↔ (t.get? name).isSome ∨ ∃ e ∈ entries, e.1 = name) ∧
      ∀ label, label ∈ (t'.get? name).getD [] ↔
        label ∈ (t.get? name).getD [] ∨ ∃ e ∈ entries, e.1 = name ∧ label ∈ e.2 := by
  induction entries generalizing t with
  | nil => simp
  | cons e entries ih =>
    obtain ⟨hsome, hmem⟩ := ih (addLabels t e.1 e.2)
    simp only [List.foldl_cons, hsome, hmem]
    have hget : (addLabels t e.1 e.2).get? name = if name = e.1 then
        some (NameSet.insertAll ((t.get? e.1).getD []) e.2) else t.get? name :=
      Table.get?_insert t e.1 name _
    rw [hget]
    by_cases hn : name = e.1
    · subst hn
      simp [mem_insertAll, or_assoc, or_left_comm]
    · simp [hn, Ne.symm hn]

/-- What is looked up in a table of labels: `absent` for a name without an entry, and else whether
the labels of one of its entries are included. -/
theorem lookup_collect (c : BuildConfig) (entries : List (String × List String)) (name : String)
    (absent : Bool) :
    (match (collect entries).get? name with
      | some labels => defined c labels
      | none => absent) = true ↔
    ((∀ e ∈ entries, e.1 ≠ name) ∧ absent = true) ∨
      ∃ e ∈ entries, e.1 = name ∧ defined c e.2 = true := by
  obtain ⟨hsome, hmem⟩ := get?_foldl_addLabels entries .empty name
  have hempty : (Table.empty : Table (List String)).get? name = none := rfl
  simp only [hempty, Option.isSome_none, Bool.false_eq_true, false_or, Option.getD_none,
    List.not_mem_nil] at hsome hmem
  rw [← collect] at hsome
  cases hg : (collect entries).get? name with
  | none =>
    have hno : ∀ e ∈ entries, e.1 ≠ name := fun e he hn => by
      have := hsome.2 ⟨e, he, hn⟩
      rw [hg] at this
      exact absurd this nofun
    refine ⟨fun h => .inl ⟨hno, h⟩, ?_⟩
    rintro (h | ⟨e, he, hn, -⟩)
    · exact h.2
    · exact absurd hn (hno e he)
  | some labels =>
    rw [← collect, hg, Option.getD_some] at hmem
    obtain ⟨e₀, he₀, hn₀⟩ := hsome.1 (by rw [hg]; rfl)
    simp only [defined, List.any_eq_true]
    constructor
    · rintro ⟨label, hl, hc⟩
      obtain ⟨e, he, hn, hle⟩ := (hmem label).1 hl
      exact .inr ⟨e, he, hn, label, hle, hc⟩
    · rintro (h | ⟨e, he, hn, label, hl, hc⟩)
      · exact absurd hn₀ (h.1 e₀ he₀)
      · exact ⟨label, (hmem label).2 ⟨e, he, hn, hl⟩, hc⟩

private theorem mem_introduced {r : Registry} {symbols : RequireBlock → List String}
    {e : String × List String} : e ∈ introduced r symbols ↔ ∃ i ∈ r.interfaces, ∃ b ∈ i.require,
      e.1 ∈ symbols b ∧ e.2 = blockLabels i.name b.depends := by
  simp only [introduced, List.mem_flatMap, List.mem_map]
  constructor
  · rintro ⟨i, hi, b, hb, x, hx, rfl⟩
    exact ⟨i, hi, b, hb, hx, rfl⟩
  · rintro ⟨i, hi, b, hb, hx, he⟩
    exact ⟨i, hi, b, hb, e.1, hx, by rw [← he]⟩

/-! ## Symbols in a build -/

variable {r : Registry}

/-- A name has an entry whose labels are included exactly if an active block lists it. -/
theorem exists_introduced (h : r.IsOrderly) (c : BuildConfig)
    (symbols : RequireBlock → List String) (x : String) :
    (∃ e ∈ introduced r symbols, e.1 = x ∧ defined c e.2 = true) ↔ r.Introduces c symbols x := by
  constructor
  · rintro ⟨e, he, rfl, hd⟩
    obtain ⟨i, hi, b, hb, hx, hl⟩ := mem_introduced.1 he
    rw [hl, defined_blockLabels (h.names i hi) (h.blocks i hi b hb)] at hd
    exact ⟨i, hi, b, hb, hx, hd⟩
  · rintro ⟨i, hi, b, hb, hx, ha⟩
    exact ⟨(x, blockLabels i.name b.depends), mem_introduced.2 ⟨i, hi, b, hb, hx, rfl⟩, rfl,
      (defined_blockLabels (h.names i hi) (h.blocks i hi b hb)).2 ha⟩

private theorem forall_introduced (symbols : RequireBlock → List String) (x : String) :
    (∀ e ∈ introduced r symbols, e.1 ≠ x) ↔ ¬r.Lists symbols x := by
  constructor
  · rintro h ⟨i, hi, b, hb, hx⟩
    exact h (x, blockLabels i.name b.depends) (mem_introduced.2 ⟨i, hi, b, hb, hx, rfl⟩) rfl
  · rintro h e he rfl
    obtain ⟨i, hi, b, hb, hx, -⟩ := mem_introduced.1 he
    exact h ⟨i, hi, b, hb, hx⟩

private theorem enumValueDefined_iff (h : r.IsOrderly) (c : BuildConfig) (x : String) :
    (ofRegistry r).enumValueDefined c x = true ↔
      ¬r.Lists (·.enums) x ∨ r.Introduces c (·.enums) x := by
  refine (lookup_collect c (introduced r (·.enums)) x true).trans ?_
  rw [exists_introduced h, forall_introduced]
  simp

/-- The labels of a structure are included exactly if an active block lists the structure. -/
theorem lookup_structs (h : r.IsOrderly) (c : BuildConfig) (x : String) (absent : Bool) :
    (match (ofRegistry r).structs.get? x with
      | some labels => defined c labels
      | none => absent) = true ↔
    (¬(r.IsStruct x ∧ r.Lists (·.types) x) ∧ absent = true) ∨
      (r.IsStruct x ∧ r.Introduces c (·.types) x) := by
  refine (lookup_collect c _ x absent).trans ?_
  have hmem {e : String × List String} : e ∈ (introduced r (·.types)).filter (fun e =>
      (r.lookup? e.1).any (·.category == .struct)) ↔
      e ∈ introduced r (·.types) ∧ r.IsStruct e.1 := by
    rw [List.mem_filter, Registry.isStruct_iff h.distinct]
  simp only [hmem]
  refine or_congr (and_congr_left' ?_) ?_
  · rw [not_and, ← forall_introduced]
    exact ⟨fun hn hs e he hx => hn e ⟨he, hx ▸ hs⟩ hx, fun hn e he hx => hn (hx ▸ he.2) e he.1 hx⟩
  · rw [← exists_introduced h]
    exact ⟨fun ⟨e, he, hx, hd⟩ => ⟨hx ▸ he.2, e, he.1, hx, hd⟩,
      fun ⟨hs, e, he, hx, hd⟩ => ⟨e, ⟨he, hx ▸ hs⟩, hx, hd⟩⟩

private theorem structDefined_iff (h : r.IsOrderly) (c : BuildConfig) (x : String) :
    (ofRegistry r).structDefined c x = true ↔
      ¬(r.IsStruct x ∧ r.Lists (·.types) x) ∨ r.Introduces c (·.types) x := by
  refine (lookup_structs h c x true).trans ?_
  have himp : r.Introduces c (·.types) x → r.Lists (·.types) x := fun ⟨i, hi, b, hb, hx, _⟩ =>
    ⟨i, hi, b, hb, hx⟩
  tauto

private theorem featureDefined_iff (h : r.IsOrderly) (c : BuildConfig) (x : String) :
    (ofRegistry r).featureDefined c x = true ↔ ∃ e ∈ r.entities, Registry.HoldsFeatures e ∧
      r.Introduces c (·.types) e.name ∧
      ∃ m ∈ e.members, m.name = x ∧ m.typeName = "VkBool32" ∧ m.pointer = 0 := by
  have hstruct (y : String) := lookup_structs h c y false
  simp only [Bool.false_eq_true, and_false, false_or] at hstruct
  refine (lookup_collect c _ x false).trans ?_
  simp only [Bool.false_eq_true, and_false, false_or, List.mem_flatMap]
  constructor
  · rintro ⟨entry, ⟨e, he, hentry⟩, rfl, hd⟩
    obtain ⟨hmem, hf⟩ := List.mem_filter.1 he
    split at hentry
    next => exact absurd hentry (List.not_mem_nil)
    next labels hl =>
      obtain ⟨m, hm, rfl⟩ := List.mem_map.1 hentry
      obtain ⟨hm, hsw⟩ := List.mem_filter.1 hm
      rw [Member.isSwitch, Bool.and_eq_true, beq_iff_eq, beq_iff_eq] at hsw
      have hintro :=
        (hstruct e.name).1 (by rw [show (ofRegistry r).structs.get? e.name = _ from hl];
                                            exact hd)
      exact ⟨e, hmem, Registry.holdsFeatures_iff.1 hf, hintro.2, m, hm, rfl, hsw⟩
  · rintro ⟨e, he, hf, hi, m, hm, rfl, hsw⟩
    have hd := (hstruct e.name).2 ⟨⟨e, he, rfl, hf.struct⟩, hi⟩
    split at hd
    next labels hl =>
      refine ⟨(m.name, labels), ⟨e, List.mem_filter.2 ⟨he, Registry.holdsFeatures_iff.2 hf⟩, ?_⟩,
        rfl, hd⟩
      have hsw' : m.isSwitch = true := by
        rw [Member.isSwitch, Bool.and_eq_true, beq_iff_eq, beq_iff_eq]
        exact hsw
      rw [show (collect ((introduced r (·.types)).filter _)).get? e.name = some labels from hl]
      exact List.mem_map.2 ⟨m, List.mem_filter.2 ⟨hm, hsw'⟩, rfl⟩
    next => exact absurd hd Bool.false_ne_true

/-- What exists in a build, by the blocks that are active in it: a structure or enumeration value
that an active block lists, or none does, and a switch of a structure of features that an active
block lists. -/
theorem defined_iff (h : r.IsOrderly) (c : BuildConfig) (x : String) :
    ((ofRegistry r).structDefined c x = true ↔
      ¬(r.IsStruct x ∧ r.Lists (·.types) x) ∨ r.Introduces c (·.types) x) ∧
    ((ofRegistry r).enumValueDefined c x = true ↔
      ¬r.Lists (·.enums) x ∨ r.Introduces c (·.enums) x) ∧
    ((ofRegistry r).featureDefined c x = true ↔ ∃ e ∈ r.entities, Registry.HoldsFeatures e ∧
      r.Introduces c (·.types) e.name ∧
      ∃ m ∈ e.members, m.name = x ∧ m.typeName = "VkBool32" ∧ m.pointer = 0) :=
  ⟨structDefined_iff h c x, enumValueDefined_iff h c x, featureDefined_iff h c x⟩

/-- A structure of features that an extension introduces with a version and one of two others. -/
private def chained : Registry where
  entities := [{
    name := "VkFoo"
    category := .struct
    members := [⟨"foo", "VkBool32", 0, none, none⟩]
    extended := [chainedFeatures] }]
  interfaces := [⟨"VK_EXT_foo", .extension, [{ depends := some "V+(A ,B)", types := ["VkFoo"] }]⟩]

private theorem isName_letter {c : Char} (hb : Text.isBlank c = false)
    (hc : c ∉ ['+', ',', '(', ')']) : Dependency.IsName [c] :=
  ⟨List.cons_ne_nil c [], by simpa using ⟨hb, by simpa using hc⟩⟩

private theorem isOrderly_chained : chained.IsOrderly where
  distinct := by decide
  names i hi := by
    obtain rfl := List.mem_singleton.1 hi
    decide
  blocks i hi b hb := by
    obtain rfl := List.mem_singleton.1 hi
    obtain rfl := List.mem_singleton.1 hb
    intro d hd
    obtain rfl := Option.some.inj hd
    refine .inr ⟨.both (.name ['V']) (.either (.name ['A']) (.name ['B'])), ?_⟩
    have hA : Dependency.Writes .requirement ([] ++ ['A'] ++ [' ']) (.name ['A']) :=
      .gaps (.name (isName_letter (by decide) (by decide))) nofun (by simp [Dependency.IsGap])
    have hB : Dependency.Writes .requirement ['B'] (.name ['B']) :=
      .name (isName_letter (by decide) (by decide))
    have hgroup : Dependency.Writes .requirement _ _ :=
      .group (.either (.alone hA) (.single (.alone hB)))
    exact .single (.both (.name (isName_letter (by decide) (by decide))) (.alone hgroup))

private def withOther : BuildConfig := { versions := ["v"], extensions := ["vk_ext_foo", "B"] }

/-- What is there of the structure of features in a build with its extension, the version and the
second of the two others. -/
theorem defined_chained : chained.IsOrderly ∧
    ((ofRegistry chained).structDefined withOther "foo" = true ↔
      ¬(chained.IsStruct "foo" ∧ chained.Lists (·.types) "foo") ∨
        chained.Introduces withOther (·.types) "foo") ∧
    ((ofRegistry chained).enumValueDefined withOther "foo" = true ↔
      ¬chained.Lists (·.enums) "foo" ∨ chained.Introduces withOther (·.enums) "foo") ∧
    ((ofRegistry chained).featureDefined withOther "foo" = true ↔
      ∃ e ∈ chained.entities, Registry.HoldsFeatures e ∧
        chained.Introduces withOther (·.types) e.name ∧
        ∃ m ∈ e.members, m.name = "foo" ∧ m.typeName = "VkBool32" ∧ m.pointer = 0) :=
  ⟨isOrderly_chained, defined_iff isOrderly_chained withOther "foo"⟩

example : (ofRegistry chained).featureDefined withOther "foo" = true := by decide +kernel

end Availability
end ValidUsage
