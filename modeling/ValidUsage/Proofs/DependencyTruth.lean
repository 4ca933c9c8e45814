import ValidUsage.Proofs.Blanks
import ValidUsage.Registry.Availability

/-!
# What a dependency says

A dependency is a condition on the versions and extensions that a build includes. Its text is read
into alternatives of which one has to be included in full exactly if the condition holds, so it does
not matter how the text groups what it says or where it has blanks.
-/

namespace ValidUsage

/-- A condition on what a build includes. -/
inductive Dependency where
  /-- A version or extension is included. -/
  | name (n : List Char)
  /-- Both conditions hold. -/
  | both (l r : Dependency)
  /-- One of two conditions holds. -/
  | either (l r : Dependency)

namespace Dependency

/-- Whether a condition holds when the given names are included. -/
def holds (included : String → Bool) : Dependency → Bool
  | name n => included (String.ofList n)
  | both l r => l.holds included && r.holds included
  | either l r => l.holds included || r.holds included

/-- A name is not empty, and has neither white space nor a character with a meaning. -/
def IsName (n : List Char) : Prop :=
  n ≠ [] ∧ ∀ c ∈ n, Text.isBlank c = false ∧ c ∉ ['+', ',', '(', ')']

/-- Blanks and tabs, or nothing. -/
def IsGap (s : List Char) : Prop := ∀ c ∈ s, c = ' ' ∨ c = '\t'

/-- How far a text binds: what is between plus signs, what is between commas, or the whole. -/
inductive Level where
  | requirement
  | conjunction
  | alternatives

/-- The texts of a condition: plus signs bind tighter than commas, parentheses group, and blanks and
tabs may stand around names and parentheses. -/
inductive Writes : Level → List Char → Dependency → Prop
  | name {n : List Char} (h : IsName n) : Writes .requirement n (.name n)
  | group {s : List Char} {d : Dependency} (h : Writes .alternatives s d) :
    Writes .requirement ('(' :: s ++ [')']) d
  | gaps {s u v : List Char} {d : Dependency} (h : Writes .requirement s d) (hu : IsGap u)
    (hv : IsGap v) : Writes .requirement (u ++ s ++ v) d
  | alone {s : List Char} {d : Dependency} (h : Writes .requirement s d) : Writes .conjunction s d
  | both {s t : List Char} {d e : Dependency} (h : Writes .requirement s d)
    (h' : Writes .conjunction t e) : Writes .conjunction (s ++ '+' :: t) (.both d e)
  | single {s : List Char} {d : Dependency} (h : Writes .conjunction s d) : Writes .alternatives s d
  | either {s t : List Char} {d e : Dependency} (h : Writes .conjunction s d)
    (h' : Writes .alternatives t e) : Writes .alternatives (s ++ ',' :: t) (.either d e)

end Dependency

namespace Depends

open Dependency

/-- Whether one of several alternatives is included in full. -/
def anyIncluded (included : String → Bool) (d : List (List String)) : Bool :=
  d.any fun names => names.all included

/-- Whether alternatives say what a condition says, with names that can be joined by plus signs. -/
structure Means (included : String → Bool) (d : List (List String)) (e : Dependency) : Prop where
  holds : anyIncluded included d = e.holds included
  plain : ∀ names ∈ d, ∀ n ∈ names, '+' ∉ n.toList

variable {included : String → Bool} {d d' : List (List String)} {e e' : Dependency}

private theorem means_name {n : List Char} (h : IsName n) :
    Means included [[String.ofList n]] (.name n) where
  holds := by simp [anyIncluded, Dependency.holds]
  plain names hn x hx := by
    obtain rfl := List.mem_singleton.1 hn
    obtain rfl := List.mem_singleton.1 hx
    rw [String.toList_ofList]
    exact fun hm => absurd (h.2 '+' hm).2 (by decide)

/-- The alternatives of two dependencies together mean that one of them holds. -/
theorem Means.either (h : Means included d e) (h' : Means included d' e') :
    Means included (d ++ d') (.either e e') where
  holds := by rw [Dependency.holds, ← h.holds, ← h'.holds]; exact List.any_append
  plain names hn := by
    rcases List.mem_append.1 hn with hn | hn
    · exact h.plain names hn
    · exact h'.plain names hn

/-- Each alternative of one with each of the other means that both hold. -/
theorem Means.both (h : Means included d e) (h' : Means included d' e') :
    Means included (product d d') (.both e e') where
  holds := by
    rw [Dependency.holds, ← h.holds, ← h'.holds, Bool.eq_iff_iff]
    simp only [anyIncluded, product, List.any_eq_true, List.mem_flatMap, List.mem_map,
      Bool.and_eq_true]
    constructor
    · rintro ⟨_, ⟨a, ha, b, hb, rfl⟩, h⟩
      rw [List.all_append, Bool.and_eq_true] at h
      exact ⟨⟨a, ha, h.1⟩, b, hb, h.2⟩
    · rintro ⟨⟨a, ha, h⟩, b, hb, h'⟩
      exact ⟨_, ⟨a, ha, b, hb, rfl⟩, by rw [List.all_append, h, h', Bool.and_self]⟩
  plain names hn n hx := by
    obtain ⟨a, ha, hn⟩ := List.mem_flatMap.1 hn
    obtain ⟨b, hb, rfl⟩ := List.mem_map.1 hn
    rcases List.mem_append.1 hx with hx | hx
    · exact h.plain a ha n hx
    · exact h'.plain b hb n hx

/-! ## Reading the characters -/

private theorem isSpace_of_isGap {u : List Char} (h : IsGap u) : ∀ c ∈ u, isSpace c = true := by
  intro c hc
  rcases h c hc with rfl | rfl <;> decide

private theorem dropWhile_gap {u : List Char} (h : IsGap u) (s : List Char) :
    (u ++ s).dropWhile isSpace = s.dropWhile isSpace :=
  List.dropWhile_append_of_pos (isSpace_of_isGap h)

private theorem isBlank_of_isSpace {c : Char} (h : isSpace c = true) : Text.isBlank c = true := by
  unfold isSpace at h
  simp only [Bool.or_eq_true, beq_iff_eq] at h
  rcases h with (((rfl | rfl) | rfl) | rfl) | rfl <;> decide

/-- What follows a part of a dependency that is read to its end: nothing, or a character with which
nothing of the same level goes on. -/
def Follows (l : Level) (r : List Char) : Prop :=
  ∀ c ∈ r.head?, match l with
    | .requirement => c = '+' ∨ c = ',' ∨ c = ')'
    | .conjunction => c = ',' ∨ c = ')'
    | .alternatives => c = ')'

/-- What can follow a looser part can follow a requirement. -/
theorem Follows.requirement {l : Level} {r : List Char} (h : Follows l r) :
    Follows .requirement r := by
  intro c hc
  have := h c hc
  cases l with
  | requirement => exact this
  | conjunction => exact .inr this
  | alternatives => exact .inr (.inr this)

/-- What can follow alternatives can follow a conjunction. -/
theorem Follows.conjunction {r : List Char} (h : Follows .alternatives r) :
    Follows .conjunction r :=
  fun c hc => .inr (h c hc)

private theorem eat?_eq_some {c : Char} {s r : List Char} (h : s.dropWhile isSpace = c :: r) :
    ∃ hr, eat? c s = some ⟨r, hr⟩ := by
  have hr : r.length < s.length := by
    have := (List.dropWhile_suffix (l := s) isSpace).length_le
    rw [h] at this
    exact this
  refine ⟨hr, ?_⟩
  unfold eat?
  simp only
  split
  next he => exact absurd (h.symm.trans he) nofun
  next c' r' he =>
    obtain ⟨rfl, rfl⟩ := List.cons.inj (h.symm.trans he)
    exact if_pos rfl

private theorem eat?_eq_none {c : Char} {s : List Char}
    (h : ∀ x ∈ (s.dropWhile isSpace).head?, x ≠ c) :
    eat? c s = none := by
  unfold eat?
  simp only
  split
  next => rfl
  next c' r he => exact if_neg (h c' (by rw [he]; rfl))

/-- After blanks a character that is not blank is taken if it is the one that is asked for. -/
theorem eat?_gap {v : List Char} (hv : IsGap v) {c : Char} (hc : isSpace c = false)
    (r : List Char) :
    ∃ hr, eat? c (v ++ c :: r) = some ⟨r, hr⟩ :=
  eat?_eq_some (by rw [dropWhile_gap hv, List.dropWhile_cons, hc]; rfl)

private theorem eat?_follows {v : List Char} (hv : IsGap v) {c : Char} {l : Level} {r : List Char}
    (hr : Follows l r) (hc : ∀ x ∈ r.head?, x ≠ c) : eat? c (v ++ r) = none := by
  refine eat?_eq_none fun x hx => ?_
  rw [dropWhile_gap hv] at hx
  cases r with
  | nil => exact absurd hx nofun
  | cons c' r =>
    have hs : isSpace c' = false := by
      rcases hr.requirement c' rfl with rfl | rfl | rfl <;> decide
    rw [List.dropWhile_cons, hs] at hx
    exact hc x hx

/-! ## Reading a level -/

/-- Whether reading gives alternatives and leaves a text. -/
def Reads {s : List Char} (x : Read s) (d : List (List String)) (r : List Char) : Prop :=
  x.alternatives = d ∧ x.rest = r

variable {s t r : List Char}

private theorem reads_conjunction (h : Reads (requirement s) d r) (he : eat? '+' r = none) :
    Reads (conjunction s) d r := by
  obtain ⟨rfl, rfl⟩ := h
  unfold conjunction
  simp only [he]
  exact ⟨rfl, rfl⟩

private theorem reads_conjunction_both {hr : t.length < r.length} (h : Reads (requirement s) d r)
    (he : eat? '+' r = some ⟨t, hr⟩) {r' : List Char} (h' : Reads (conjunction t) d' r') :
    Reads (conjunction s) (product d d') r' := by
  obtain ⟨rfl, rfl⟩ := h
  obtain ⟨rfl, rfl⟩ := h'
  rw [conjunction]
  simp only [he]
  exact ⟨rfl, rfl⟩

private theorem reads_alternatives (h : Reads (conjunction s) d r) (he : eat? ',' r = none) :
    Reads (alternatives s) d r := by
  obtain ⟨rfl, rfl⟩ := h
  unfold alternatives
  simp only [he]
  exact ⟨rfl, rfl⟩

private theorem reads_alternatives_either {hr : t.length < r.length} (h : Reads (conjunction s) d r)
    (he : eat? ',' r = some ⟨t, hr⟩) {r' : List Char} (h' : Reads (alternatives t) d' r') :
    Reads (alternatives s) (d ++ d') r' := by
  obtain ⟨rfl, rfl⟩ := h
  obtain ⟨rfl, rfl⟩ := h'
  rw [alternatives]
  simp only [he]
  exact ⟨rfl, rfl⟩

private theorem reads_requirement_group {hr : t.length < s.length} (he : eat? '(' s = some ⟨t, hr⟩)
    (h : Reads (alternatives t) d r) {r' : List Char} {hr' : r'.length < r.length}
    (he' : eat? ')' r = some ⟨r', hr'⟩) : Reads (requirement s) d r' := by
  obtain ⟨rfl, rfl⟩ := h
  rw [requirement]
  simp only [he, he']
  exact ⟨rfl, rfl⟩

private theorem reads_requirement_name {n : List Char} (hn : IsName n)
    (hs : s.dropWhile isSpace = n ++ r)
    (hr : ∀ c ∈ r.head?, endsName c = true) : Reads (requirement s) [[String.ofList n]] r := by
  obtain ⟨hne, hchars⟩ := hn
  have hnot : ∀ c ∈ n, endsName c = false := by
    intro c hc
    obtain ⟨hb, hm⟩ := hchars c hc
    simp only [List.mem_cons, List.not_mem_nil, or_false, not_or] at hm
    have hspace : c ≠ ' ' ∧ c ≠ '\t' := by
      constructor <;> rintro rfl <;> exact absurd hb (by decide)
    simp [endsName, hm, hspace]
  have hopen : eat? '(' s = none := by
    refine eat?_eq_none fun x hx => ?_
    rw [hs] at hx
    obtain ⟨c, n, rfl⟩ := List.exists_cons_of_ne_nil hne
    obtain rfl : c = x := Option.some.inj hx
    rintro rfl
    exact absurd (hchars '(' List.mem_cons_self).2 (by decide)
  have htake : (n ++ r).takeWhile (!endsName ·) = n := by
    rw [List.takeWhile_append_of_pos fun c hc => by rw [hnot c hc]; rfl]
    cases r with
    | nil => simp
    | cons c r => simp [hr c rfl]
  have hdrop : (n ++ r).dropWhile (!endsName ·) = r := by
    rw [List.dropWhile_append_of_pos fun c hc => by rw [hnot c hc]; rfl]
    cases r with
    | nil => rfl
    | cons c r => simp [hr c rfl]
  rw [requirement]
  simp only [hopen, hs, htake, hdrop, List.isEmpty_eq_false_iff.2 hne, Bool.false_eq_true, if_false]
  exact ⟨rfl, rfl⟩

/-- The reader of a level. -/
def read : Level → (s : List Char) → Read s
  | .requirement => requirement
  | .conjunction => conjunction
  | .alternatives => alternatives

private theorem isSpace_head {n : List Char} (h : IsName n) : ∀ c ∈ n.head?, isSpace c = false := by
  intro c hc
  cases hs : isSpace c with
  | false => rfl
  | true =>
    have := (h.2 c (List.mem_of_mem_head? hc)).1
    rw [isBlank_of_isSpace hs] at this
    exact absurd this nofun

private theorem isGap_append {u v : List Char} (hu : IsGap u) (hv : IsGap v) : IsGap (u ++ v) := by
  intro c hc
  rcases List.mem_append.1 hc with hc | hc
  · exact hu c hc
  · exact hv c hc

private theorem endsName_head {w r : List Char} (hw : IsGap w) (hr : Follows .requirement r) :
    ∀ c ∈ (w ++ r).head?, endsName c = true := by
  intro c hc
  cases w with
  | nil => rcases hr c hc with rfl | rfl | rfl <;> decide
  | cons c' w =>
    obtain rfl : c' = c := Option.some.inj hc
    rcases hw c' List.mem_cons_self with rfl | rfl <;> decide

/-- What a text of a level writes is read from it between blanks, whatever follows them. -/
theorem read_of_writes {l : Level} {s : List Char} {e : Dependency} (h : Writes l s e)
    (included : String → Bool) {u w r text : List Char} (hu : IsGap u) (hw : IsGap w)
    (hr : Follows l r) (ht : text = u ++ (s ++ (w ++ r))) :
    ∃ d v, IsGap v ∧ Reads (read l text) d (v ++ r) ∧ Means included d e := by
  induction h generalizing u w r text with
  | @name n h =>
    have hdrop : text.dropWhile isSpace = n ++ (w ++ r) := by
      rw [ht, dropWhile_gap hu]
      obtain ⟨c, n, rfl⟩ := List.exists_cons_of_ne_nil h.1
      rw [List.cons_append, List.dropWhile_cons, isSpace_head h c rfl]
      rfl
    exact ⟨_, w, hw, reads_requirement_name h hdrop (endsName_head hw hr), means_name h⟩
  | @group s e h ih =>
    obtain ⟨d, v, hv, hread, hd⟩ := ih (u := []) (w := []) (r := ')' :: (w ++ r)) nofun nofun
      (fun c hc => (Option.some.inj hc).symm) rfl
    obtain ⟨_, hopen⟩ := eat?_gap hu (c := '(') (by decide) (s ++ ')' :: (w ++ r))
    obtain ⟨_, hclose⟩ := eat?_gap hv (c := ')') (by decide) (w ++ r)
    have htext : text = u ++ '(' :: (s ++ ')' :: (w ++ r)) := by simp [ht]
    subst htext
    exact ⟨d, w, hw, reads_requirement_group hopen hread hclose, hd⟩
  | gaps h hu' hv' ih =>
    exact ih (isGap_append hu hu') (isGap_append hv' hw) hr (by simp [ht])
  | alone h ih =>
    obtain ⟨d, v, hv, hread, hd⟩ := ih hu hw hr.requirement ht
    refine ⟨d, v, hv, reads_conjunction hread (eat?_follows hv hr fun x hx => ?_), hd⟩
    rcases hr x hx with rfl | rfl <;> decide
  | @both s t e e' h h' ih ih' =>
    obtain ⟨d, v, hv, hread, hd⟩ := ih (w := []) (r := '+' :: (t ++ (w ++ r))) hu nofun
      (fun c hc => .inl (Option.some.inj hc).symm)
      (show text = u ++ (s ++ ([] ++ '+' :: (t ++ (w ++ r)))) by simp [ht])
    obtain ⟨d', v', hv', hread', hd'⟩ := ih' (u := []) nofun hw hr rfl
    obtain ⟨_, hplus⟩ := eat?_gap hv (c := '+') (by decide) (t ++ (w ++ r))
    exact ⟨product d d', v', hv', reads_conjunction_both hread hplus hread', hd.both hd'⟩
  | single h ih =>
    obtain ⟨d, v, hv, hread, hd⟩ := ih hu hw hr.conjunction ht
    refine ⟨d, v, hv, reads_alternatives hread (eat?_follows hv hr fun x hx => ?_), hd⟩
    rw [hr x hx]
    decide
  | @either s t e e' h h' ih ih' =>
    obtain ⟨d, v, hv, hread, hd⟩ := ih (w := []) (r := ',' :: (t ++ (w ++ r))) hu nofun
      (fun c hc => .inl (Option.some.inj hc).symm)
      (show text = u ++ (s ++ ([] ++ ',' :: (t ++ (w ++ r)))) by simp [ht])
    obtain ⟨d', v', hv', hread', hd'⟩ := ih' (u := []) nofun hw hr rfl
    obtain ⟨_, hcomma⟩ := eat?_gap hv (c := ',') (by decide) (t ++ (w ++ r))
    exact ⟨d ++ d', v', hv', reads_alternatives_either hread hcomma hread',
      hd.either hd'⟩

/-- One of the alternatives of a text is included in full exactly if what the text writes holds. -/
theorem means_ofText {s : List Char} {e : Dependency} (h : Writes .alternatives s e)
    (included : String → Bool) : Means included (ofText s) e := by
  obtain ⟨d, v, -, hread, hd⟩ := read_of_writes h included (u := []) (w := []) (r := [])
    nofun nofun nofun (show s = [] ++ (s ++ ([] ++ [])) by simp)
  rwa [← hread.1] at hd

end Depends
end ValidUsage
