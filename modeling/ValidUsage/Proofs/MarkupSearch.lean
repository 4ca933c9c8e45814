import Mathlib.Data.List.TakeWhile
import ValidUsage.Layout.Markup
import ValidUsage.Proofs.LiteralText
import ValidUsage.Proofs.Search

/-!
# Taking one decoration away

Roles and references are taken away from the left to the right: in front of a text that the search
passes over nothing changes, and behind a whole decoration the search starts anew. Links are found
word by word. A text in which no link stands is kept, if it does not end inside of a word and no
colon after its last word makes that word a link.
-/

namespace ValidUsage.Markup

open Text

variable {a r : List Char}

/-! ## Roles -/

/-- A text without a role stays. -/
theorem dropRoles_of_none {s : List Char} (h : role? s = none) : dropRoles s = s := by
  rw [dropRoles]
  split
  · rfl
  · next hs => cases hs.symm.trans h

private theorem dropRoles_of_some {s before inner rest : List Char}
    (h : role? s = some (before, inner, rest)) :
    dropRoles s = before ++ inner ++ dropRoles rest := by
  rw [dropRoles]
  split
  · next hs => cases h.symm.trans hs
  · next hs =>
    cases h.symm.trans hs
    rfl

private theorem role?_append (h : Passes "[vu-".toList a r) :
    role? (a ++ r) = (role? r).map fun x => (a ++ x.1, x.2) := by
  unfold role?
  rw [breakOn_append h]
  cases breakOn "[vu-".toList r with
  | none => rfl
  | some x =>
    simp only [Option.map_some, Option.bind_eq_bind, Option.bind_some]
    cases breakOn "]##".toList x.2 with
    | none => rfl
    | some y =>
      simp only [Option.bind_some]
      cases breakOn "##".toList y.2 <;> rfl

/-- A text in which no role starts is passed over. -/
theorem dropRoles_append (h : Passes "[vu-".toList a r) :
    dropRoles (a ++ r) = a ++ dropRoles r := by
  have happ := role?_append h
  cases hr : role? r with
  | none =>
    rw [hr] at happ
    rw [dropRoles_of_none happ, dropRoles_of_none hr]
  | some x =>
    rw [hr] at happ
    rw [dropRoles_of_some happ, dropRoles_of_some hr, List.append_assoc, List.append_assoc,
      List.append_assoc]

/-- A role is taken away from a text that does not end the role itself. -/
theorem dropRoles_role {name t : String} (hn : ']' ∉ name.toList)
    (ht : Passes "##".toList t.toList ("##".toList ++ r)) :
    dropRoles (role name t ++ r) = t.toList ++ dropRoles r := by
  have hrole : role? (role name t ++ r) = some ([], t.toList, r) := by
    have hname :
        Passes "]##".toList name.toList ("]##".toList ++ (t.toList ++ ("##".toList ++ r))) :=
      .of_notMem hn
    unfold role? role
    simp only [List.append_assoc, breakOn_pattern_append, Option.bind_eq_bind, Option.bind_some,
      breakOn_append_pattern hname, breakOn_append_pattern ht]
    rfl
  rw [dropRoles_of_some hrole, List.nil_append]

/-! ## References -/

/-- A text without a reference stays. -/
theorem dropReferences_of_none {s : List Char} (h : reference? s = none) :
    dropReferences s = s := by
  rw [dropReferences]
  split
  · rfl
  · next hs => cases hs.symm.trans h

private theorem dropReferences_of_some {s before inner rest : List Char}
    (h : reference? s = some (before, inner, rest)) :
    dropReferences s = before ++ shown inner ++ dropReferences rest := by
  rw [dropReferences]
  split
  · next hs => cases h.symm.trans hs
  · next hs =>
    cases h.symm.trans hs
    rfl

private theorem reference?_append (h : Passes "<<".toList a r) :
    reference? (a ++ r) = (reference? r).map fun x => (a ++ x.1, x.2) := by
  unfold reference?
  rw [breakOn_append h]
  cases breakOn "<<".toList r with
  | none => rfl
  | some x =>
    simp only [Option.map_some, Option.bind_eq_bind, Option.bind_some]
    cases breakOn ">>".toList x.2 <;> rfl

/-- A text in which no reference starts is passed over. -/
theorem dropReferences_append (h : Passes "<<".toList a r) :
    dropReferences (a ++ r) = a ++ dropReferences r := by
  have happ := reference?_append h
  cases hr : reference? r with
  | none =>
    rw [hr] at happ
    rw [dropReferences_of_none happ, dropReferences_of_none hr]
  | some x =>
    rw [hr] at happ
    rw [dropReferences_of_some happ, dropReferences_of_some hr, List.append_assoc,
      List.append_assoc, List.append_assoc]

/-- What a reference shows is what stands behind its comma. -/
theorem shown_append {u t : List Char} (ht : ',' ∉ t) : shown (u ++ ',' :: t) = t := by
  rw [shown, splitOn_append_cons, splitOn_of_notMem ht, List.getLast?_concat]
  rfl

/-- A reference is replaced by the text that it shows. -/
theorem dropReferences_reference {target t : String} (htarget : '>' ∉ target.toList)
    (ht : '>' ∉ t.toList) (hc : ',' ∉ t.toList) :
    dropReferences ((reference target t).toList ++ r) = t.toList ++ dropReferences r := by
  have hinner : '>' ∉ target.toList ++ ',' :: t.toList := by
    simp [htarget, ht]
  have href : reference? ((reference target t).toList ++ r) =
      some ([], target.toList ++ ',' :: t.toList, r) := by
    have htext : (reference target t).toList ++ r =
        "<<".toList ++ ((target.toList ++ ',' :: t.toList) ++ (">>".toList ++ r)) := by
      simp only [reference, String.toList_append, List.append_assoc]
      rfl
    have hpasses : Passes ">>".toList (target.toList ++ ',' :: t.toList) (">>".toList ++ r) :=
      .of_notMem hinner
    simp only [reference?, htext, breakOn_pattern_append, Option.bind_eq_bind, Option.bind_some,
      breakOn_append_pattern hpasses]
    rfl
  rw [dropReferences_of_some href, shown_append hc, List.nil_append]

/-! ## Links -/

private theorem isNameChar_of_isLetter {c : Char} (h : isLetter c = true) :
    isNameChar c = true := by
  rw [isLetter] at h
  simp [isNameChar, Char.isAlphanum, h]

/-- A text without letters is kept. -/
theorem dropLinks_of_gap {p : Option Char} {s : List Char} (h : ∀ c ∈ s, isLetter c = false) :
    dropLinks p s = s := by
  have hgap : s.dropWhile (!isLetter ·) = [] := by
    rw [List.dropWhile_eq_nil_iff]
    intro c hc
    rw [h c hc, Bool.not_false]
  rw [dropLinks, dif_pos hgap, ← List.append_nil (s.takeWhile _), ← hgap,
    List.takeWhile_append_dropWhile]

/-- The first word of a text, between what stands before it and what follows. -/
structure FirstWord (s gap word after : List Char) : Prop where
  /-- The text is made of the three. -/
  text : s = gap ++ (word ++ after)
  /-- No letter stands before the word. -/
  gap : ∀ c ∈ gap, isLetter c = false
  /-- The word starts with a letter. -/
  letter : word.head?.any isLetter = true
  /-- The word goes on as a name does. -/
  word : ∀ c ∈ word, isNameChar c = true
  /-- The word ends there. -/
  ends : ∀ c ∈ after.head?, isNameChar c = false

/-- A text without letters has no first word; every other has one. -/
theorem gap_or_firstWord (s : List Char) :
    (∀ c ∈ s, isLetter c = false) ∨ ∃ gap word after, FirstWord s gap word after := by
  induction s with
  | nil => exact .inl nofun
  | cons c s ih =>
    by_cases hc : isLetter c = true
    · have hword : (c :: s).takeWhile isNameChar = c :: s.takeWhile isNameChar :=
        List.takeWhile_cons_of_pos (isNameChar_of_isLetter hc)
      refine .inr ⟨[], (c :: s).takeWhile isNameChar, (c :: s).dropWhile isNameChar, ?_, nofun, ?_,
        fun x hx => List.mem_takeWhile_imp hx, ?_⟩
      · rw [List.nil_append, List.takeWhile_append_dropWhile]
      · rw [hword]
        exact hc
      · intro x hx
        have hne : (c :: s).dropWhile isNameChar ≠ [] := by
          rintro he
          rw [he] at hx
          exact absurd hx nofun
        rw [List.head?_eq_some_head hne] at hx
        obtain rfl := Option.some.inj hx
        simpa using List.head_dropWhile_not isNameChar hne
    · rw [Bool.not_eq_true] at hc
      rcases ih with ih | ⟨gap, word, after, h⟩
      · exact .inl (List.forall_mem_cons.2 ⟨hc, ih⟩)
      · exact .inr ⟨c :: gap, word, after, by rw [h.text, List.cons_append],
          List.forall_mem_cons.2 ⟨hc, h.gap⟩, h.letter, h.word, h.ends⟩

/-- Whether a word behind a gap goes on with what precedes both. -/
def continues (p : Option Char) (gap : List Char) : Bool := gap.isEmpty && p.any isNameChar

/-- Up to the first word nothing changes; the word goes away if it is a link. -/
theorem dropLinks_firstWord {p : Option Char} {s gap word after : List Char}
    (h : FirstWord s gap word after) : dropLinks p s =
      if (!continues p gap && isLink word after) = true then
        gap ++ dropLinks (gap.getLast?.or p) (after.drop 1)
      else gap ++ word ++ dropLinks word.getLast? after := by
  obtain ⟨c, w, hw⟩ : ∃ c w, word = c :: w := by
    cases hword : word with
    | nil => exact absurd h.letter (by simp [hword])
    | cons c w => exact ⟨c, w, rfl⟩
  have hc : isLetter c = true := by simpa [hw] using h.letter
  have hgap : ∀ x ∈ gap, (!isLetter x) = true := by
    intro x hx
    rw [h.gap x hx, Bool.not_false]
  have htake : s.takeWhile (!isLetter ·) = gap := by
    rw [h.text, hw, List.takeWhile_append_of_pos hgap, List.cons_append,
      List.takeWhile_cons_of_neg (by simp [hc]), List.append_nil]
  have hdrop : s.dropWhile (!isLetter ·) = word ++ after := by
    rw [h.text, List.dropWhile_append_of_pos hgap, hw, List.cons_append,
      List.dropWhile_cons_of_neg (by simp [hc])]
  have hne : s.dropWhile (!isLetter ·) ≠ [] := by simp [hdrop, hw]
  rw [dropLinks, dif_neg hne]
  simp only [htake, hdrop, takeWhile_append_of_head h.word h.ends,
    dropWhile_append_of_head h.word h.ends, continues]
  rfl

/-- Whether no link stands in a text, not even one whose name follows the text. -/
structure HoldsNoLink (a r : List Char) : Prop where
  /-- No kind of link with its colon is part of it. -/
  kinds : ∀ k ∈ linkKinds, ¬k.toList ++ [':'] <:+: a
  /-- A word at its end is not continued. -/
  ends : a.getLast?.any isNameChar = true → ∀ c ∈ r.head?, isNameChar c = false
  /-- A word at its end is not the kind of a link. -/
  colon : a.getLast?.any isNameChar = true → ∀ c t, r = ':' :: c :: t → isNameChar c = false

/-- The end of a text without links has none. -/
theorem HoldsNoLink.of_append {u a r : List Char} (h : HoldsNoLink (u ++ a) r) (ha : a ≠ []) :
    HoldsNoLink a r := by
  have hlast : (u ++ a).getLast? = a.getLast? := List.getLast?_append_of_ne_nil u ha
  refine ⟨fun k hk hi => h.kinds k hk (hi.trans (List.suffix_append u a).isInfix), ?_, ?_⟩
  · rw [← hlast]
    exact h.ends
  · rw [← hlast]
    exact h.colon

private theorem isLink_iff {word after : List Char} : isLink word after = true ↔
    (∃ k ∈ linkKinds, k.toList = word) ∧
      ∃ c t, after = ':' :: c :: t ∧ isNameChar c = true := by
  have hkind : linkKinds.contains (String.ofList word) = true ↔
      ∃ k ∈ linkKinds, k.toList = word := by
    rw [List.contains_iff_mem]
    constructor
    · exact fun h => ⟨_, h, String.toList_ofList⟩
    · rintro ⟨k, hk, rfl⟩
      rwa [String.ofList_toList]
  unfold isLink
  rw [Bool.and_eq_true, hkind]
  refine and_congr_right fun _ => ?_
  split
  · next c t =>
    constructor
    · exact fun h => ⟨c, t, rfl, h⟩
    · rintro ⟨c', t', he, hc'⟩
      cases he
      exact hc'
  · next hne =>
    constructor
    · exact nofun
    · rintro ⟨c, t, he, -⟩
      exact (hne c t he).elim

/-- The words of a text in which no link stands are no links. -/
theorem HoldsNoLink.not_isLink {gap word after : List Char} (hw : FirstWord a gap word after)
    (h : HoldsNoLink a r) : isLink word (after ++ r) = false := by
  rw [← Bool.not_eq_true, isLink_iff]
  rintro ⟨⟨k, hk, rfl⟩, c, t, he, hc⟩
  cases after with
  | nil =>
    have hne : k.toList ≠ [] := by
      rintro hnil
      exact absurd hw.letter (by simp [hnil])
    have hlast : a.getLast?.any isNameChar = true := by
      rw [hw.text, List.append_nil, List.getLast?_append_of_ne_nil gap hne,
        List.getLast?_eq_some_getLast hne]
      exact hw.word _ (List.getLast_mem hne)
    exact absurd ((h.colon hlast c t he).symm.trans hc) (by decide)
  | cons x after =>
    obtain ⟨rfl, -⟩ := List.cons.inj he
    refine h.kinds k hk ⟨gap, after, ?_⟩
    rw [hw.text]
    simp

/-- What goes on behind a text goes on behind its last character. -/
theorem continues_append {p : Option Char} {gap : List Char}
    (h : a.getLast?.any isNameChar = true → gap ≠ []) :
    continues p (a ++ gap) = continues (a.getLast?.or p) gap := by
  cases ha : a.getLast? with
  | none =>
    rw [List.getLast?_eq_none_iff.1 ha]
    rfl
  | some c =>
    have hne : a ++ gap ≠ [] := by
      rintro he
      rw [(List.append_eq_nil_iff.1 he).1] at ha
      exact absurd ha nofun
    have hleft : continues p (a ++ gap) = false := by
      rw [continues, List.isEmpty_eq_false_iff.2 hne, Bool.false_and]
    rw [hleft]
    by_cases hc : isNameChar c = true
    · have hgap : gap ≠ [] := h (by rw [ha]; exact hc)
      rw [continues, List.isEmpty_eq_false_iff.2 hgap, Bool.false_and]
    · rw [Bool.not_eq_true] at hc
      rw [continues, Option.some_or, Option.any_some, hc, Bool.and_false]

/-- Taking links away goes on behind a text in which no link stands. -/
theorem dropLinks_append {a r : List Char} {p : Option Char} (h : HoldsNoLink a r) :
    dropLinks p (a ++ r) = a ++ dropLinks (a.getLast?.or p) r := by
  rcases gap_or_firstWord a with ha | ⟨gap, word, after, hw⟩
  · rcases gap_or_firstWord r with hr | ⟨gap, word, after, hw⟩
    · have har : ∀ c ∈ a ++ r, isLetter c = false := List.forall_mem_append.2 ⟨ha, hr⟩
      rw [dropLinks_of_gap har, dropLinks_of_gap hr]
    · have har : FirstWord (a ++ r) (a ++ gap) word after :=
        ⟨by rw [hw.text, List.append_assoc], List.forall_mem_append.2 ⟨ha, hw.gap⟩, hw.letter,
          hw.word, hw.ends⟩
      have hgap : a.getLast?.any isNameChar = true → gap ≠ [] := by
        rintro hlast rfl
        have hc := h.ends hlast
        rw [hw.text, List.nil_append] at hc
        cases word with
        | nil => exact absurd hw.letter nofun
        | cons c word =>
          exact absurd ((hc c rfl).symm.trans (hw.word c List.mem_cons_self)) (by decide)
      rw [dropLinks_firstWord har, dropLinks_firstWord hw, continues_append hgap,
        List.getLast?_append, Option.or_assoc]
      split <;> simp only [List.append_assoc]
  · have hword : word ≠ [] := by
      rintro rfl
      exact absurd hw.letter nofun
    have har : FirstWord (a ++ r) gap word (after ++ r) := by
      refine ⟨by rw [hw.text]; simp, hw.gap, hw.letter, hw.word, fun c hc => ?_⟩
      cases after with
      | nil =>
        refine h.ends ?_ c hc
        rw [hw.text, List.append_nil, List.getLast?_append_of_ne_nil gap hword,
          List.getLast?_eq_some_getLast hword]
        exact hw.word _ (List.getLast_mem hword)
      | cons x after => exact hw.ends c hc
    have hlink : (!continues p gap && isLink word (after ++ r)) = false := by
      rw [h.not_isLink hw, Bool.and_false]
    have hlast : a.getLast?.or p = after.getLast?.or word.getLast? := by
      rw [hw.text, List.getLast?_append_of_ne_nil gap (by simp [hword]), List.getLast?_append,
        List.getLast?_eq_some_getLast hword, Option.or_assoc, Option.some_or]
    rw [dropLinks_firstWord har, if_neg (by rw [hlink]; decide), hlast]
    cases after with
    | nil =>
      rw [hw.text]
      simp
    | cons x after =>
      have hshort : (x :: after).length < a.length := by
        have := List.length_pos_of_ne_nil hword
        rw [hw.text]
        simp only [List.length_append, List.length_cons]
        omega
      have hrest : HoldsNoLink (x :: after) r := by
        refine HoldsNoLink.of_append (u := gap ++ word) ?_ (List.cons_ne_nil x after)
        rw [List.append_assoc, ← hw.text]
        exact h
      rw [dropLinks_append hrest, hw.text]
      simp only [List.append_assoc]
termination_by a.length

/-- The kind of a link goes away in front of a name. -/
theorem dropLinks_link {p : Option Char} {k : String} (hk : k ∈ linkKinds)
    (hp : p.any isNameChar = false) {c : Char} {t : List Char} (hc : isNameChar c = true) :
    dropLinks p (k.toList ++ ':' :: c :: t) = dropLinks p (c :: t) := by
  have hkinds : ∀ k ∈ linkKinds,
      k.toList.head?.any isLetter = true ∧ k.toList.all isNameChar = true := by decide
  obtain ⟨hletter, hword⟩ := hkinds k hk
  have hw : FirstWord (k.toList ++ ':' :: c :: t) [] k.toList (':' :: c :: t) := by
    refine ⟨rfl, nofun, hletter, List.all_eq_true.1 hword, fun x hx => ?_⟩
    obtain rfl := Option.some.inj hx
    decide
  have hlink : (!continues p [] && isLink k.toList (':' :: c :: t)) = true := by
    rw [isLink_iff.2 ⟨⟨k, hk, rfl⟩, c, t, rfl, hc⟩, continues, hp]
    rfl
  rw [dropLinks_firstWord hw, if_pos hlink]
  rfl

end ValidUsage.Markup
