import ValidUsage.Proofs.MacrosReplaced

/-!
# Expansion replaces all references at once

A reference is the word for macros with a name in parentheses. Where strings are is known from the
text in front of a place alone, whatever has been replaced there; so which references a text has is
said place by place, and a text is cut at them in one way (`Cut`). No reference starts inside of
another one. Expansion finds the references of that cut, fills in the values of all of them, and
reports the first one that has no value.
-/

namespace ValidUsage

/-- The position behind a text: lines end at line feeds, columns count bytes. -/
def Pos.behind (front : List Char) : Pos :=
  ⟨front.count '\n' + 1, Text.byteLength (front.reverse.takeWhile (· ≠ '\n')) + 1⟩

namespace Expansion

/-- Whether a character stands in a string, and whether a backslash in front of it takes away its
meaning. -/
inductive Quoting where
  | outside
  | inside (quote : Char)
  | escaped (quote : Char)
  deriving DecidableEq, Repr

namespace Quoting

/-- Where the next character stands. -/
def next : Quoting → Char → Quoting
  | outside, c => if isQuote c then inside c else outside
  | inside q, c => if c = '\\' then escaped q else if c = q then outside else inside q
  | escaped q, _ => inside q

/-- Where the character behind a text stands. -/
def after (front : List Char) : Quoting := front.foldl next outside

@[simp] theorem after_concat (front : List Char) (c : Char) :
    after (front ++ [c]) = (after front).next c := by
  simp [after]

/-- Whether a string, if any, is one between quotes. -/
def IsQuoted (st : Quoting) : Prop := ∀ q, st = inside q ∨ st = escaped q → isQuote q = true

/-- Strings stay well quoted with one more character. -/
theorem IsQuoted.next {st : Quoting} (h : st.IsQuoted) (c : Char) : (st.next c).IsQuoted := by
  intro q hq
  cases st with
  | outside =>
    simp only [Quoting.next] at hq
    split at hq
    · rename_i hc
      obtain rfl : c = q := by simpa using hq
      exact hc
    · simp at hq
  | inside q' =>
    obtain rfl : q' = q := by
      simp only [Quoting.next] at hq
      split at hq
      · simpa using hq
      · split at hq <;> simp at hq
        exact hq
    exact h q' (.inl rfl)
  | escaped q' =>
    obtain rfl : q' = q := by simpa [Quoting.next] using hq
    exact h q' (.inr rfl)

private theorem isQuoted_after (front : List Char) : (after front).IsQuoted := by
  have hfold (st : Quoting) (h : st.IsQuoted) : (front.foldl next st).IsQuoted := by
    induction front generalizing st with
    | nil => exact h
    | cons c front ih => exact ih (st.next c) (h.next c)
  exact hfold outside (by simp [IsQuoted])

/-- A text without quotes that starts outside of strings ends there. -/
theorem after_append {front u : List Char} (h : after front = outside)
    (hu : ∀ c ∈ u, isQuote c = false) : after (front ++ u) = outside := by
  induction u generalizing front with
  | nil => simpa using h
  | cons c u ih =>
    obtain ⟨hc, hu⟩ := List.forall_mem_cons.1 hu
    rw [List.append_cons]
    exact ih (by simp [h, next, hc]) hu

end Quoting

/-- Whether a reference may start behind a text: outside of strings, and not within a word. -/
def IsBoundary (front : List Char) : Prop :=
  Quoting.after front = .outside ∧ ∀ c ∈ front.getLast?, Text.isNameChar c = false

/-- A reference to a macro as it is written. -/
structure Reference where
  /-- The name of the macro. -/
  name : String
  /-- The whole reference. -/
  text : List Char
  /-- A name has a character, and no other ones than those of names. -/
  isName : name.toList ≠ [] ∧ ∀ c ∈ name.toList, Text.isNameChar c = true
  /-- The name stands in parentheses behind a word; blanks may stand in between. -/
  isWritten : ∃ a b c : Nat, text = "macro".toList ++ (List.replicate a ' ' ++ '(' ::
    (List.replicate b ' ' ++ (name.toList ++ (List.replicate c ' ' ++ [')']))))

/-- The text of references and of what stands behind each of them. -/
def joined (parts : List (Reference × List Char)) : List Char :=
  parts.flatMap fun p => p.1.text ++ p.2

/-- The references among parts of a text, each with all of the text in front of it. -/
def places (front : List Char) : List (Reference × List Char) → List (List Char × Reference)
  | [] => []
  | (r, gap) :: parts => (front, r) :: places (front ++ r.text ++ gap) parts

/-- A text behind another one, cut at its references. -/
structure Cut (front s : List Char) where
  /-- What stands in front of the first reference. -/
  first : List Char
  /-- The references, each with what stands behind it. -/
  parts : List (Reference × List Char)
  /-- The pieces are those of the text. -/
  text_eq : s = first ++ joined parts
  /-- The references are those of the text, outside of strings and at the boundary of words. -/
  mem_places : ∀ before r, (front ++ before, r) ∈ places (front ++ first) parts ↔
    before ++ r.text <+: s ∧ IsBoundary (front ++ before)

namespace Cut

variable {front s : List Char}

/-- The references of a text in order, each with all of the text in front of it. -/
def references (cut : Cut front s) : List (List Char × Reference) :=
  places (front ++ cut.first) cut.parts

/-- The text with a value in the place of each reference. -/
def filled (value : String → List Char) (cut : Cut front s) : List Char :=
  cut.first ++ cut.parts.flatMap fun p => value p.1.name ++ p.2

/-- The names that are referred to, in ascending order. -/
def used (cut : Cut front s) : List String :=
  cut.parts.foldr (fun p => NameSet.insert p.1.name) []

/-- The text with all references replaced by the values of their macros, or what is wrong with the
first one that has none. -/
def replaced (macros : Table String) (cut : Cut front s) : Except MacroError Expansion :=
  match cut.references.find? fun p => (macros.get? p.2.name).isNone with
  | some (before, r) => .error (.undefined r.name (.behind before))
  | none => .ok ⟨cut.filled fun name => convert ((macros.get? name).getD ""), cut.used⟩

end Cut

/-- Whether each character outside of the ASCII range that stands outside of strings has a reference
in front of it that names no macro. -/
def Scans (macros : Table String) (front s : List Char) : Prop :=
  ∀ before c after, s = before ++ c :: after → Quoting.after (front ++ before) = .outside →
    0x80 ≤ c.toNat →
      ∃ (b : List Char) (r : Reference),
        b ++ r.text <+: before ∧ IsBoundary (front ++ b) ∧ macros.get? r.name = none

/-! ## Positions -/

private theorem after_behind (front : List Char) (c : Char) :
    after (.behind front) c = .behind (front ++ [c]) := by
  unfold after
  split
  · rename_i hc
    subst hc
    simp [Pos.behind, Text.byteLength]
  · rename_i hc
    simp only [Pos.behind, List.count_append, List.reverse_append, List.reverse_cons,
      List.reverse_nil, List.nil_append, List.cons_append, List.takeWhile_cons]
    simp only [ne_eq, hc, not_false_eq_true, decide_true, if_true, Text.byteLength]
    have hcount : List.count '\n' [c] = 0 := by simp [hc]
    rw [hcount]
    congr 1
    omega

private theorem afterAll_behind (front u : List Char) :
    afterAll (.behind front) u = .behind (front ++ u) := by
  induction u generalizing front with
  | nil => simp [afterAll]
  | cons c u ih =>
    rw [List.append_cons, ← ih, ← after_behind]
    rfl

/-! ## References -/

namespace Reference

private theorem ext_of_append {r r' : Reference} {u u' : List Char} (hn : r.name = r'.name)
    (h : r.text ++ u = r'.text ++ u') (hu : u = u') : r = r' := by
  subst hu
  have ht := List.append_cancel_right h
  cases r
  cases r'
  cases hn
  cases ht
  rfl

end Reference

variable {macros : Table String} {front s u : List Char} {r r' : Reference}

private theorem skipSpaces_replicate (n : Nat) {c : Char} (hc : c ≠ ' ') (s : List Char) :
    skipSpaces (List.replicate n ' ' ++ c :: s) = c :: s := by
  induction n with
  | zero => simp [skipSpaces, hc]
  | succ n ih =>
    rw [List.replicate_succ, List.cons_append, skipSpaces, List.dropWhile_cons, if_pos (by simp)]
    exact ih

/-- What is found at the front of a text is a reference as it is written. -/
theorem exists_reference {name : String} {rest : List Char} {h : rest.length < s.length}
    (hs : reference? s = some (name, ⟨rest, h⟩)) :
    ∃ r : Reference, r.name = name ∧ s = r.text ++ rest := by
  obtain ⟨hname, a, b, c, rfl⟩ := reference?_eq_some hs
  exact ⟨⟨name, _, hname, a, b, c, rfl⟩, rfl, by simp⟩

namespace Reference

/-- A reference is found at the front of a text. -/
theorem reference?_eq (r : Reference) (rest : List Char) :
    ∃ h, reference? (r.text ++ rest) = some (r.name, ⟨rest, h⟩) := by
  obtain ⟨hne, hchars⟩ := r.isName
  obtain ⟨a, b, c, ht⟩ := r.isWritten
  obtain ⟨c₀, cs, hname⟩ := List.exists_cons_of_ne_nil hne
  have hc₀ : c₀ ≠ ' ' := by
    rintro rfl
    exact absurd (hchars ' ' (by simp [hname])) (by decide)
  let tail := List.replicate c ' ' ++ ')' :: rest
  have htail : ∀ c ∈ tail.head?, Text.isNameChar c = false := by
    intro x hx
    cases c with
    | zero =>
      obtain rfl : ')' = x := by simpa [tail] using hx
      decide
    | succ n =>
      obtain rfl : ' ' = x := by simpa [tail, List.replicate_succ] using hx
      decide
  have htext : r.text ++ rest = "macro".toList ++ (List.replicate a ' ' ++ '(' ::
      (List.replicate b ' ' ++ (r.name.toList ++ tail))) := by
    rw [ht]
    simp [tail]
  have hword : Text.stripPrefix? "macro".toList (r.text ++ rest) = some
      (List.replicate a ' ' ++ '(' :: (List.replicate b ' ' ++ (r.name.toList ++ tail))) := by
    rw [htext]
    exact Text.stripPrefix?_append _ _
  have hinner : skipSpaces (List.replicate b ' ' ++ (r.name.toList ++ tail)) =
      r.name.toList ++ tail := by
    rw [hname]
    exact skipSpaces_replicate b hc₀ _
  have htake : (r.name.toList ++ tail).takeWhile Text.isNameChar = r.name.toList :=
    takeWhile_append_of_head hchars htail
  have hdrop : (r.name.toList ++ tail).dropWhile Text.isNameChar = tail :=
    dropWhile_append_of_head hchars htail
  have hlt : rest.length < (r.text ++ rest).length := by
    rw [ht]
    simp
    omega
  refine ⟨hlt, ?_⟩
  unfold reference?
  split
  · rename_i hnone
    exact absurd (hnone.symm.trans hword) nofun
  rename_i r₀ hr₀
  obtain rfl := Option.some.inj (hr₀.symm.trans hword)
  dsimp only
  split
  · rename_i r₁ ho
    obtain rfl : List.replicate b ' ' ++ (r.name.toList ++ tail) = r₁ := by
      rw [skipSpaces_replicate a (by decide)] at ho
      exact (List.cons.inj ho).2
    split
    · rename_i r₂ hc
      obtain rfl : rest = r₂ := by
        rw [hinner, hdrop, skipSpaces_replicate c (by decide)] at hc
        exact (List.cons.inj hc).2
      rw [if_neg (by rw [hinner, htake]; simpa using hne)]
      simp only [hinner, htake, String.ofList_toList]
    · rename_i hno
      rw [hinner, hdrop] at hno
      exact absurd (skipSpaces_replicate c (by decide) rest) (hno rest)
  · rename_i hno
    exact absurd (skipSpaces_replicate a (by decide) _) (hno _)

/-- A reference starts with a character of names and has no quotes. -/
theorem head_text (r : Reference) : ∃ u, r.text = 'm' :: u := by
  obtain ⟨a, b, c, ht⟩ := r.isWritten
  exact ⟨_, ht⟩

private theorem not_isQuote (r : Reference) : ∀ c ∈ r.text, isQuote c = false := by
  obtain ⟨-, u, he, hu⟩ := Expansion.reference?_eq (r.reference?_eq []).choose_spec
  intro c hc
  rw [List.append_nil] at he
  rw [he] at hc
  rcases List.mem_append.1 hc with hc | hc
  · have hcode := (hu c hc).1
    rw [isCode, Bool.and_eq_true, Bool.not_eq_true'] at hcode
    exact hcode.1
  · rw [List.mem_singleton.1 hc]
    decide

private theorem isSome_reference? (r : Reference) (h : r.text <+: s) :
    (reference? s).isSome = true := by
  obtain ⟨rest, rfl⟩ := h
  obtain ⟨hlt, hs⟩ := r.reference?_eq rest
  rw [hs]
  rfl

/-- Behind a reference another one may start. -/
theorem isBoundary (r : Reference) (h : IsBoundary front) : IsBoundary (front ++ r.text) := by
  refine ⟨Quoting.after_append h.1 r.not_isQuote, fun c hc => ?_⟩
  obtain ⟨a, b, c', ht⟩ := r.isWritten
  have htext : front ++ r.text = front ++ ("macro".toList ++ (List.replicate a ' ' ++ '(' ::
      (List.replicate b ' ' ++ (r.name.toList ++ List.replicate c' ' ')))) ++ [')'] := by
    rw [ht]
    simp
  rw [htext, List.getLast?_concat] at hc
  obtain rfl := Option.some.inj hc
  decide

/-- Two references at the front of one text are the same. -/
theorem eq_of_append_eq (h : r.text ++ s = r'.text ++ u) : r = r' ∧ s = u := by
  have found {t : List Char} (ht : t = r.text ++ s) :
      (reference? t).map (fun x => (x.1, x.2.1)) = some (r.name, s) := by
    subst ht
    obtain ⟨hlt, hs⟩ := r.reference?_eq s
    rw [hs]
    rfl
  obtain ⟨hlt, hu⟩ := r'.reference?_eq u
  have hfound := found h.symm
  rw [hu] at hfound
  obtain ⟨hname, hrest⟩ := Prod.mk.inj (Option.some.inj hfound)
  exact ⟨ext_of_append hname.symm h hrest.symm, hrest.symm⟩

end Reference

/-! ## No reference within another one -/

section Within

variable {front s u v b : List Char} {r r' : Reference}

/-- A cut behind a character of no name does not fall into a name. -/
theorem exists_append_of_name (hu : ∀ c ∈ u, Text.isNameChar c = true) (hb : b ≠ [])
    (hlast : ∀ c ∈ b.getLast?, Text.isNameChar c = false) (h : b ++ v = u ++ s) :
    ∃ b', b = u ++ b' ∧ b' ++ v = s := by
  rcases List.append_eq_append_iff.1 h with ⟨w, hw, hs⟩ | ⟨w, hw, hs⟩
  · have hc := List.getLast?_eq_some_getLast hb
    have hmem : b.getLast hb ∈ u := by
      rw [hw]
      exact List.mem_append_left _ (List.getLast_mem hb)
    exact absurd ((hu _ hmem).symm.trans (hlast _ hc)) nofun
  · exact ⟨w, hw, hs.symm⟩

/-- A cut in front of a character of a name does not fall among other characters. -/
theorem exists_append_of_gap (hu : ∀ c ∈ u, Text.isNameChar c = false)
    (hhead : ∃ c v', v = c :: v' ∧ Text.isNameChar c = true) (h : b ++ v = u ++ s) :
    ∃ b', b = u ++ b' ∧ b' ++ v = s := by
  obtain ⟨c, v', rfl, hc⟩ := hhead
  rcases List.append_eq_append_iff.1 h with ⟨w, hw, hs⟩ | ⟨w, hw, hs⟩
  · cases w with
    | nil => exact ⟨[], by simpa using hw.symm, by simpa using hs⟩
    | cons c' w =>
      obtain ⟨rfl, -⟩ := List.cons.inj hs
      have hmem : c ∈ u := by
        rw [hw]
        exact List.mem_append_right _ List.mem_cons_self
      exact absurd ((hu c hmem).symm.trans hc) nofun
  · exact ⟨w, hw, hs.symm⟩

private theorem isNameChar_blanks (n : Nat) (c : Char) (hc : c ∈ List.replicate n ' ') :
    Text.isNameChar c = false := by
  rw [List.eq_of_mem_replicate hc]
  decide

private theorem isNameChar_word : ∀ c ∈ "macro".toList, Text.isNameChar c = true :=
  List.all_eq_true.1 (by decide)

/-- The name of a reference is not the word of another one: that is followed by an opening
parenthesis. -/
theorem Reference.ne_name (r' : Reference) {name : List Char}
    (hchars : ∀ c ∈ name, Text.isNameChar c = true) (n : Nat) (u v : List Char) :
    name ++ (List.replicate n ' ' ++ ')' :: u) ≠ r'.text ++ v := by
  obtain ⟨a, b, c, ht⟩ := r'.isWritten
  intro h
  rw [ht, List.append_assoc] at h
  have close (n : Nat) {c : Char} (hc : Text.isNameChar c = false) (s : List Char) :
      ∀ x ∈ (List.replicate n ' ' ++ c :: s).head?, Text.isNameChar x = false := by
    intro x hx
    cases n with
    | zero =>
      obtain rfl : c = x := by simpa using hx
      exact hc
    | succ n =>
      obtain rfl : ' ' = x := by simpa [List.replicate_succ] using hx
      decide
  have hdrop := congrArg (List.dropWhile Text.isNameChar) h
  rw [dropWhile_append_of_head hchars (close n (by decide) u), List.append_assoc,
    List.cons_append, dropWhile_append_of_head isNameChar_word (close a (by decide) _)] at hdrop
  have hspaces := congrArg skipSpaces hdrop
  rw [skipSpaces_replicate n (by decide), skipSpaces_replicate a (by decide)] at hspaces
  exact absurd (List.cons.inj hspaces).1 (by decide)

/-- A reference that starts in a text with a reference at its front is that one, or starts behind
it. -/
theorem Reference.starts (r : Reference) (h : r.text ++ s = b ++ (r'.text ++ v))
    (hfront : IsBoundary (front ++ b)) :
    (b = [] ∧ r' = r ∧ v = s) ∨ ∃ b', b = r.text ++ b' ∧ s = b' ++ (r'.text ++ v) := by
  by_cases hb : b = []
  · subst hb
    obtain ⟨hr, hs⟩ := Reference.eq_of_append_eq h
    exact .inl ⟨rfl, hr.symm, hs.symm⟩
  have hlast {b' : List Char} (hne : b' ≠ []) (u : List Char) (he : b = u ++ b') :
      ∀ c ∈ b'.getLast?, Text.isNameChar c = false := fun c hc => hfront.2 c (by
    rw [he, List.getLast?_append, List.getLast?_append, Option.mem_def.1 hc]
    rfl)
  obtain ⟨w, hw⟩ := r'.head_text
  have hhead : ∃ c v', r'.text ++ v = c :: v' ∧ Text.isNameChar c = true :=
    ⟨'m', w ++ v, by rw [hw]; rfl, by decide⟩
  obtain ⟨hne, hchars⟩ := r.isName
  obtain ⟨i, j, k, ht⟩ := r.isWritten
  rw [ht] at h
  simp only [List.append_assoc, List.cons_append, List.nil_append] at h
  -- The cut is behind the word, the opening parenthesis and the name, one after the other.
  obtain ⟨b₁, hb₁, h₁⟩ := exists_append_of_name isNameChar_word hb (hlast hb [] rfl) h.symm
  obtain ⟨b₂, hb₂, h₂⟩ := exists_append_of_gap (u := List.replicate i ' ')
    (isNameChar_blanks i) hhead h₁
  obtain ⟨b₃, hb₃, h₃⟩ := exists_append_of_gap (List.forall_mem_singleton.2 (by decide)) hhead h₂
  obtain ⟨b₄, hb₄, h₄⟩ := exists_append_of_gap (u := List.replicate j ' ')
    (isNameChar_blanks j) hhead h₃
  have hnil : b₄ ≠ [] := by
    rintro rfl
    exact r'.ne_name hchars k s v (by simpa using h₄.symm)
  have hbefore : b = ("macro".toList ++ List.replicate i ' ' ++ ['('] ++ List.replicate j ' ') ++
      b₄ := by
    rw [hb₁, hb₂, hb₃, hb₄]
    simp
  obtain ⟨b₅, hb₅, h₅⟩ := exists_append_of_name hchars hnil (hlast hnil _ hbefore) h₄
  obtain ⟨b₆, hb₆, h₆⟩ := exists_append_of_gap (u := List.replicate k ' ')
    (isNameChar_blanks k) hhead h₅
  obtain ⟨b₇, hb₇, h₇⟩ := exists_append_of_gap (List.forall_mem_singleton.2 (by decide)) hhead h₆
  refine .inr ⟨b₇, ?_, h₇.symm⟩
  rw [hbefore, hb₅, hb₆, hb₇, ht]
  simp

end Within

/-! ## Cuts -/

section Cuts

variable {front s : List Char} {r : Reference} {c : Char}

private theorem joined_cons (r : Reference) (gap : List Char)
    (parts : List (Reference × List Char)) :
    joined ((r, gap) :: parts) = r.text ++ (gap ++ joined parts) := by
  simp [joined]

/-- What stands in front of a reference begins with what stands in front of the first one. -/
theorem exists_append_of_mem_places {front before : List Char} {r : Reference}
    {parts : List (Reference × List Char)} (h : (before, r) ∈ places front parts) :
    ∃ u, before = front ++ u := by
  induction parts generalizing front with
  | nil => exact absurd h List.not_mem_nil
  | cons p parts ih =>
    rcases List.mem_cons.1 h with h | h
    · obtain ⟨rfl, -⟩ := Prod.mk.inj h
      exact ⟨[], by simp⟩
    · obtain ⟨u, hu⟩ := ih h
      exact ⟨p.1.text ++ p.2 ++ u, by rw [hu]; simp⟩

namespace Cut

/-- The references of a cut are those of the text, wherever its front ends. -/
theorem mem_references_iff (cut : Cut front s) {before x : List Char} (hx : x = front ++ before) :
    (x, r) ∈ cut.references ↔ before ++ r.text <+: s ∧ IsBoundary x := by
  subst hx
  exact cut.mem_places before r

/-- The empty text. -/
def nil (front : List Char) : Cut front [] where
  first := []
  parts := []
  text_eq := rfl
  mem_places before r := by
    obtain ⟨u, hu⟩ := r.head_text
    simp [places, hu]

/-- A character that starts no reference, in front of a text. -/
def push (hc : ∀ r : Reference, r.text <+: c :: s → ¬IsBoundary front)
    (cut : Cut (front ++ [c]) s) :
    Cut front (c :: s) where
  first := c :: cut.first
  parts := cut.parts
  text_eq := congrArg (c :: ·) cut.text_eq
  mem_places before r := by
    have hplaces : places (front ++ c :: cut.first) cut.parts = cut.references :=
      congrArg (places · cut.parts) (List.append_cons front c cut.first)
    rw [hplaces]
    cases before with
    | nil =>
      constructor
      · intro h
        obtain ⟨u, hu⟩ := exists_append_of_mem_places h
        simp at hu
      · rintro ⟨hstarts, hb⟩
        exact absurd (by simpa using hb) (hc r hstarts)
    | cons c' before =>
      constructor
      · intro h
        obtain ⟨u, hu⟩ := exists_append_of_mem_places h
        obtain ⟨rfl, -⟩ : c' = c ∧ before = cut.first ++ u := by simpa using hu
        obtain ⟨hstarts, hb⟩ := (cut.mem_references_iff (List.append_cons front c' before)).1 h
        exact ⟨List.cons_prefix_cons.2 ⟨rfl, hstarts⟩, hb⟩
      · rintro ⟨hstarts, hb⟩
        obtain ⟨rfl, hrest⟩ := List.cons_prefix_cons.1 hstarts
        exact (cut.mem_references_iff (List.append_cons front c' before)).2 ⟨hrest, hb⟩

/-- A reference in front of a text. -/
def reference (hfront : IsBoundary front) (r : Reference) (cut : Cut (front ++ r.text) s) :
    Cut front (r.text ++ s) where
  first := []
  parts := (r, cut.first) :: cut.parts
  text_eq := by rw [List.nil_append, joined_cons, ← cut.text_eq]
  mem_places before r' := by
    rw [List.append_nil, places, List.mem_cons]
    constructor
    · rintro (h | h)
      · obtain ⟨hb, rfl⟩ := Prod.mk.inj h
        obtain rfl : before = [] := by simpa using hb
        exact ⟨List.prefix_append _ _, by simpa using hfront⟩
      · obtain ⟨u, hu⟩ := exists_append_of_mem_places h
        obtain rfl : before = r.text ++ (cut.first ++ u) := by simpa using hu
        obtain ⟨hstarts, hb⟩ := (cut.mem_references_iff (List.append_assoc ..).symm).1 h
        refine ⟨?_, hb⟩
        rw [List.append_assoc]
        exact (List.prefix_append_right_inj _).2 hstarts
    · rintro ⟨⟨v, hv⟩, hb⟩
      rw [List.append_assoc] at hv
      rcases Reference.starts r hv.symm hb with ⟨rfl, rfl, -⟩ | ⟨b', rfl, hs⟩
      · exact .inl (by simp)
      · exact .inr ((cut.mem_references_iff (List.append_assoc ..).symm).2
          ⟨⟨v, by rw [hs]; simp⟩, hb⟩)

end Cut

/-- Each text can be cut at its references. -/
theorem nonempty_cut (front s : List Char) : Nonempty (Cut front s) := by
  induction hn : s.length using Nat.strongRecOn generalizing front s with
  | _ n ih =>
    cases s with
    | nil => exact ⟨.nil front⟩
    | cons c s =>
      by_cases h : ∃ r : Reference, r.text <+: c :: s ∧ IsBoundary front
      · obtain ⟨r, ⟨v, hv⟩, hfront⟩ := h
        obtain ⟨u, hu⟩ := r.head_text
        have hlt : v.length < n := by
          rw [← hn, ← hv, hu]
          simp only [List.length_append, List.length_cons]
          omega
        obtain ⟨cut⟩ := ih v.length hlt (front ++ r.text) v rfl
        exact ⟨hv ▸ .reference hfront r cut⟩
      · obtain ⟨cut⟩ := ih s.length (by simp [← hn]) (front ++ [c]) s rfl
        exact ⟨.push (fun r hr hb => h ⟨r, hr, hb⟩) cut⟩

namespace Cut

variable {macros : Table String}

/-- A character in front of a text stays in front of what the text expands to. -/
theorem replaced_push (hc : ∀ r : Reference, r.text <+: c :: s → ¬IsBoundary front)
    (cut : Cut (front ++ [c]) s) :
    (cut.push hc).replaced macros = (cut.replaced macros).map (Expansion.push c) := by
  have hreferences : (cut.push hc).references = cut.references :=
    congrArg (places · cut.parts) (List.append_cons front c cut.first)
  rw [replaced, replaced, hreferences]
  cases cut.references.find? fun p => (macros.get? p.2.name).isNone with
  | some p => rfl
  | none => rfl

/-- A reference without a value is the first of them. -/
theorem replaced_of_undefined (hfront : IsBoundary front) (cut : Cut (front ++ r.text) s)
    (hr : macros.get? r.name = none) :
    (cut.reference hfront r).replaced macros = .error (.undefined r.name (.behind front)) := by
  have hreferences : (cut.reference hfront r).references = (front, r) :: cut.references := by
    simp [references, reference, places]
  rw [replaced, hreferences, List.find?_cons_of_pos (by simp [hr])]

/-- A reference with a value gives way to it. -/
theorem replaced_of_defined (hfront : IsBoundary front) (cut : Cut (front ++ r.text) s)
    {value : String} (hr : macros.get? r.name = some value) :
    (cut.reference hfront r).replaced macros = (cut.replaced macros).map fun x =>
      ⟨convert value ++ x.text, NameSet.insert r.name x.used⟩ := by
  have hreferences : (cut.reference hfront r).references = (front, r) :: cut.references := by
    simp [references, reference, places]
  rw [replaced, hreferences, List.find?_cons_of_neg (by simp [hr]), replaced]
  cases cut.references.find? fun p => (macros.get? p.2.name).isNone with
  | some p => rfl
  | none => simp [filled, used, reference, hr, Except.map]

end Cut

end Cuts

/-! ## What expansion knows of the text in front -/

section Follows

variable {macros : Table String} {front s : List Char} {quote : Option Char} {inName : Bool}
  {q c : Char}

/-- Whether expansion goes on behind a text knowing the string and the word that it is in. -/
def Follows (front : List Char) (quote : Option Char) (inName : Bool) : Prop :=
  match Quoting.after front with
  | .outside => quote = none ∧ inName = front.getLast?.any Text.isNameChar
  | .inside q => quote = some q
  | .escaped _ => False

/-- Where expansion takes a text to go on outside of strings, it does. -/
theorem Follows.outside (h : Follows front none inName) : Quoting.after front = .outside := by
  unfold Follows at h
  split at h
  · assumption
  · exact absurd h nofun
  · exact h.elim

/-- So it does inside of a string. -/
theorem Follows.inside (h : Follows front (some q) inName) : Quoting.after front = .inside q := by
  unfold Follows at h
  split at h
  · exact absurd h.1 nofun
  · rename_i he
    rw [he, Option.some.inj h]
  · exact h.elim

private theorem Follows.isBoundary_iff (h : Follows front none inName) :
    IsBoundary front ↔ inName = false := by
  have hout := h.outside
  rw [Follows, hout] at h
  rw [IsBoundary, h.2]
  cases front.getLast? with
  | none => simp [hout]
  | some c => simp [hout]

private theorem follows_concat (h : Quoting.after (front ++ [c]) = .outside) :
    Follows (front ++ [c]) none (Text.isNameChar c) := by
  rw [Follows, h]
  simp

private theorem follows_inside (h : Quoting.after front = .inside q) :
    Follows front (some q) inName := by
  rw [Follows, h]

/-- In a string no reference starts. -/
theorem not_isBoundary_inside {q : Char} (h : Quoting.after front = .inside q) :
    ¬IsBoundary front := fun hb => Quoting.noConfusion (h.symm.trans hb.1)

private theorem not_isBoundary_escaped {q : Char} (h : Quoting.after front = .escaped q) :
    ¬IsBoundary front := fun hb => Quoting.noConfusion (h.symm.trans hb.1)

/-- Behind a character that starts no reference, what is said of a text holds of the rest. -/
theorem Scans.tail (h : Scans macros front (c :: s))
    (hc : ∀ r : Reference, r.text <+: c :: s → ¬IsBoundary front) :
    Scans macros (front ++ [c]) s := by
  rintro before c' after rfl hout hascii
  obtain ⟨b, r, hstarts, hb, hr⟩ :=
    h (c :: before) c' after rfl (by rwa [List.append_cons]) hascii
  cases b with
  | nil =>
    have hstart : r.text <+: c :: (before ++ c' :: after) :=
      (show r.text <+: c :: before from hstarts).trans (List.prefix_append _ _)
    exact absurd (by simpa using hb) (hc r hstart)
  | cons c'' b =>
    obtain ⟨rfl, hrest⟩ := List.cons_prefix_cons.1 hstarts
    exact ⟨b, r, hrest, by rwa [List.append_cons] at hb, hr⟩

/-- So it does behind a reference that has a value. -/
theorem Scans.behind {r : Reference} (h : Scans macros front (r.text ++ s))
    (hr : macros.get? r.name ≠ none) : Scans macros (front ++ r.text) s := by
  rintro before c after rfl hout hascii
  obtain ⟨b, r', ⟨v, hv⟩, hb, hr'⟩ := h (r.text ++ before) c after (by simp)
    (by rwa [List.append_assoc] at hout) hascii
  rw [List.append_assoc] at hv
  rcases Reference.starts r hv.symm hb with ⟨-, rfl, -⟩ | ⟨b', rfl, rfl⟩
  · exact absurd hr' hr
  · exact ⟨b', r', ⟨v, by simp⟩, by rwa [List.append_assoc], hr'⟩

/-- A character outside of the ASCII range is not reached. -/
theorem Scans.isAscii (h : Scans macros front (c :: s)) (hout : Quoting.after front = .outside) :
    c.toNat < 0x80 := by
  by_contra hascii
  obtain ⟨b, r, hstarts, -⟩ := h [] c s rfl (by simpa using hout) (Nat.le_of_not_lt hascii)
  obtain ⟨u, hu⟩ := r.head_text
  have hnil := List.prefix_nil.1 hstarts
  simp [hu] at hnil

end Follows

/-! ## Expansion -/

section Equations

variable {macros : Table String} {c : Char} {r rest : List Char} {name : String}
  {h : rest.length < (c :: r).length}

private theorem expandFrom_undefined (pos : Pos) (hq : ¬(c = '\'' ∨ c = '"'))
    (hascii : ¬0x80 ≤ c.toNat)
    (href : reference? (c :: r) = some (name, ⟨rest, h⟩)) (hget : macros.get? name = none) :
    expandFrom macros pos none false (c :: r) = .error (.undefined name pos) := by
  rw [expandFrom.eq_def]
  simp only [hq, hascii, if_false, Bool.false_eq_true]
  rw [href]
  simp only [hget]

private theorem expandFrom_defined (pos : Pos) (hq : ¬(c = '\'' ∨ c = '"'))
    (hascii : ¬0x80 ≤ c.toNat)
    (href : reference? (c :: r) = some (name, ⟨rest, h⟩)) {value : String}
    (hget : macros.get? name = some value) :
    expandFrom macros pos none false (c :: r) =
      (expandFrom macros (afterAll pos ((c :: r).take ((c :: r).length - rest.length))) none false
        rest).map fun x => ⟨convert value ++ x.text, NameSet.insert name x.used⟩ := by
  rw [expandFrom.eq_def]
  simp only [hq, hascii, if_false, Bool.false_eq_true]
  rw [href]
  simp only [hget]
  rfl

end Equations

/-- What expansion gives of a text behind another one. -/
theorem exists_cut {macros : Table String} {pos : Pos} {quote : Option Char} {inName : Bool}
    {front s : List Char} (hpos : pos = .behind front) (hf : Follows front quote inName) :
    ∃ cut : Cut front s, Scans macros front s →
      expandFrom macros pos quote inName s = cut.replaced macros := by
  induction pos, quote, inName, s using expandFrom.induct macros generalizing front with
  | case1 pos quote inName => exact ⟨.nil front, fun _ => by rw [expandFrom]; rfl⟩
  | case2 pos inName q =>
    have hin := hf.inside
    refine ⟨.push (fun _ _ => not_isBoundary_inside hin) (.nil _), fun _ => ?_⟩
    rw [Cut.replaced_push, expandFrom]
    rfl
  | case3 pos inName q c r ih =>
    have hin := hf.inside
    have hescaped : Quoting.after (front ++ ['\\']) = .escaped q := by simp [hin, Quoting.next]
    have hnext : Quoting.after (front ++ ['\\'] ++ [c]) = .inside q := by
      rw [Quoting.after_concat, hescaped, Quoting.next]
    have hpush {s : List Char} (r : Reference) (_ : r.text <+: '\\' :: s) : ¬IsBoundary front :=
      not_isBoundary_inside hin
    have hpush' {s : List Char} (r : Reference) (_ : r.text <+: c :: s) :
        ¬IsBoundary (front ++ ['\\']) :=
      not_isBoundary_escaped hescaped
    obtain ⟨cut, hcut⟩ := ih (by rw [hpos, after_behind, after_behind]) (follows_inside hnext)
    refine ⟨.push hpush (.push hpush' cut), fun hs => ?_⟩
    rw [Cut.replaced_push, Cut.replaced_push, ← hcut ((hs.tail hpush).tail hpush'), expandFrom]
    cases expandFrom macros (after (after pos '\\') c) (some q) false r <;> rfl
  | case4 pos inName c r q hb ih =>
    have hin := hf.inside
    have hpush {s : List Char} (r : Reference) (_ : r.text <+: c :: s) : ¬IsBoundary front :=
      not_isBoundary_inside hin
    have hfollows : Follows (front ++ [c]) (if c = q then none else some q) false := by
      by_cases hc : c = q
      · subst hc
        have hname : Text.isNameChar c = false := by
          rcases isQuote_iff.1 (Quoting.isQuoted_after front c (.inl hin)) with rfl | rfl <;> decide
        rw [if_pos rfl, ← hname]
        exact follows_concat (by simp [hin, Quoting.next, hb])
      · rw [if_neg hc]
        exact follows_inside (by simp [hin, Quoting.next, hb, hc])
    obtain ⟨cut, hcut⟩ := ih (by rw [hpos, after_behind]) hfollows
    simp only [dite_eq_ite] at hcut
    refine ⟨.push hpush cut, fun hs => ?_⟩
    rw [Cut.replaced_push, ← hcut (hs.tail hpush), expandFrom.eq_def]
    simp only [hb, if_false]
  | case5 pos inName c r hq ih =>
    have hout := hf.outside
    have hquote := isQuote_iff.2 hq
    have hpush {s : List Char} (r : Reference) (hr : r.text <+: c :: s) : ¬IsBoundary front := by
      obtain ⟨u, hu⟩ := r.head_text
      rw [hu] at hr
      rw [← (List.cons_prefix_cons.1 hr).1] at hquote
      exact absurd hquote (by decide)
    have hnext : Quoting.after (front ++ [c]) = .inside c := by simp [hout, Quoting.next, hquote]
    obtain ⟨cut, hcut⟩ := ih (by rw [hpos, after_behind]) (follows_inside hnext)
    refine ⟨.push hpush cut, fun hs => ?_⟩
    rw [Cut.replaced_push, ← hcut (hs.tail hpush), expandFrom.eq_def]
    simp only [hq, if_true]
  | case6 pos inName c r hq hascii =>
    obtain ⟨cut⟩ := nonempty_cut front (c :: r)
    exact ⟨cut, fun hs => absurd (hs.isAscii hf.outside) (Nat.not_lt_of_le hascii)⟩
  | case7 pos inName c r hq hascii name rest hlt href hget =>
    cases inName with
    | true => cases href
    | false =>
      have hx := expandFrom_undefined pos hq hascii href hget
      obtain ⟨ref, rfl, he⟩ := exists_reference href
      obtain ⟨cut⟩ := nonempty_cut (front ++ ref.text) rest
      rw [he] at hx ⊢
      refine ⟨.reference (hf.isBoundary_iff.2 rfl) ref cut, fun _ => ?_⟩
      rw [hx, Cut.replaced_of_undefined _ _ hget, hpos]
  | case8 pos inName c r hq hascii name rest hlt href value hget skipped =>
    rename_i ih
    cases inName with
    | true => cases href
    | false =>
      have hfront := hf.isBoundary_iff.2 rfl
      have hx := expandFrom_defined pos hq hascii href hget
      obtain ⟨ref, rfl, he⟩ := exists_reference href
      have hskipped : skipped = ref.text := by simp [skipped, he]
      rw [show (c :: r).take ((c :: r).length - rest.length) = ref.text from hskipped] at hx
      have hbehind : Follows (front ++ ref.text) none false := by
        obtain ⟨hout, hlast⟩ := ref.isBoundary hfront
        rw [Follows, hout]
        refine ⟨rfl, ?_⟩
        cases hc : (front ++ ref.text).getLast? with
        | none => rfl
        | some c => exact (hlast c hc).symm
      obtain ⟨cut, hcut⟩ := ih (by rw [hskipped, hpos, afterAll_behind]) hbehind
      rw [hskipped] at hcut
      rw [he] at hx ⊢
      refine ⟨.reference hfront ref cut, fun hs => ?_⟩
      rw [hx, Cut.replaced_of_defined hfront cut hget, hcut (hs.behind (by simp [hget]))]
  | case9 pos inName c r hq hascii href ih =>
    have hout := hf.outside
    have hquote : isQuote c = false := Bool.eq_false_iff.2 fun h => hq (isQuote_iff.1 h)
    have hpush (ref : Reference) (hr : ref.text <+: c :: r) : ¬IsBoundary front := by
      rw [hf.isBoundary_iff]
      rintro rfl
      have hsome := ref.isSome_reference? hr
      have href : reference? (c :: r) = none := by simpa using href
      rw [href] at hsome
      cases hsome
    have hnext : Quoting.after (front ++ [c]) = .outside := by simp [hout, Quoting.next, hquote]
    obtain ⟨cut, hcut⟩ := ih (by rw [hpos, after_behind]) (follows_concat hnext)
    refine ⟨.push hpush cut, fun hs => ?_⟩
    have href : (if inName then none else reference? (c :: r)) = none := by simpa using href
    rw [Cut.replaced_push, ← hcut (hs.tail hpush), expandFrom.eq_def]
    simp only [hq, hascii, if_false]
    rw [href]

/-! ## The names that are used -/

section Used

variable {front s : List Char}

/-- The references are those of the parts, in their order. -/
theorem map_snd_places (front : List Char) (parts : List (Reference × List Char)) :
    (places front parts).map (·.2) = parts.map (·.1) := by
  induction parts generalizing front with
  | nil => rfl
  | cons p parts ih => exact congrArg (p.1 :: ·) (ih _)

/-- The names that are used are those of the references. -/
theorem Cut.mem_used (cut : Cut front s) (name : String) :
    name ∈ cut.used ↔ ∃ p ∈ cut.references, p.2.name = name := by
  have hparts (parts : List (Reference × List Char)) :
      name ∈ parts.foldr (fun p => NameSet.insert p.1.name) [] ↔
        name ∈ (parts.map (·.1)).map Reference.name := by
    induction parts with
    | nil => simp
    | cons p parts ih => simp [NameSet.mem_insert, ih]
  rw [used, hparts, ← map_snd_places (front ++ cut.first)]
  simp [references]

/-- A set stays one with one more name. -/
theorem pairwise_insert {set : List String} (h : set.Pairwise (· < ·)) (name : String) :
    (NameSet.insert name set).Pairwise (· < ·) := by
  induction set with
  | nil => simp [NameSet.insert]
  | cons x set ih =>
    obtain ⟨hx, hset⟩ := List.pairwise_cons.1 h
    simp only [NameSet.insert]
    split
    · exact h
    · rename_i hne
      split
      · rename_i hlt
        refine List.pairwise_cons.2 ⟨fun y hy => ?_, h⟩
        rcases List.mem_cons.1 hy with rfl | hy
        · exact hlt
        · exact String.lt_trans hlt (hx y hy)
      · rename_i hge
        refine List.pairwise_cons.2 ⟨fun y hy => ?_, ih hset⟩
        rcases NameSet.mem_insert.1 hy with rfl | hy
        · exact Std.lt_of_le_of_ne (String.not_lt.1 hge) (Ne.symm hne)
        · exact hx y hy

private theorem Cut.pairwise_used (cut : Cut front s) : cut.used.Pairwise (· < ·) := by
  rw [used]
  induction cut.parts with
  | nil => exact List.Pairwise.nil
  | cons p parts ih => exact pairwise_insert ih _

end Used

end Expansion

open Expansion

/-- Expansion cuts the text at all references that it has outside of strings and at the boundary of
words. It fills in the values of their macros and tells the names that it has met, each once, or it
tells the first reference without a value and its place. -/
theorem expand_replaced {macros : Table String} {s : List Char} (h : Scans macros [] s) :
    ∃ cut : Cut [] s, expand macros s = cut.replaced macros ∧
      cut.used.Pairwise (· < ·) ∧
        ∀ name, name ∈ cut.used ↔ ∃ p ∈ cut.references, p.2.name = name := by
  obtain ⟨cut, hcut⟩ : ∃ cut : Cut [] s, Scans macros [] s →
      expandFrom macros ⟨1, 1⟩ none false s = cut.replaced macros := exists_cut rfl ⟨rfl, rfl⟩
  exact ⟨cut, hcut h, cut.pairwise_used, cut.mem_used⟩

/-- A text with references to two macros in its code, the second of them on its second line, and one
in a string, next to a character outside of the ASCII range. Without a value for the second macro
its place is told, and with one the values are filled in as code. -/
theorem expand_replaced_lines :
    let s := "require(macro(regions) != 'macro(x) \u00e9')\nx = mymacro(y) + macro( size )".toList
    let macros := Table.empty.insert "regions" "pname:pInfo->regionCount"
    let all := macros.insert "size" " macro(y) "
    (∀ m ∈ [macros, all], Scans m [] s) ∧
      (∃ cut : Cut [] s, cut.replaced macros = .error (.undefined "size" ⟨2, 18⟩)) ∧
      ∃ cut : Cut [] s, cut.replaced all =
        .ok ⟨("require(pInfo.regionCount != 'macro(x) \u00e9')\n" ++
          "x = mymacro(y) + macro(y)").toList, ["regions", "size"]⟩ := by
  intro s macros all
  have hascii : ∀ i : Fin s.length, Quoting.after (s.take i) = .outside → s[i].toNat < 0x80 := by
    decide +kernel
  have hs (m : Table String) : Scans m [] s := by
    intro before c after he hout hc
    have hi : before.length < s.length := by simp [he]
    have htake : s.take before.length = before := by simp [he]
    have hget : s[before.length] = c := by simp [he]
    have hlt := hascii ⟨before.length, hi⟩ (by rw [htake]; exact hout)
    rw [Fin.getElem_fin, hget] at hlt
    omega
  obtain ⟨cut, hcut, -⟩ := expand_replaced (hs macros)
  have hmissing : expand macros s = .error (.undefined "size" ⟨2, 18⟩) := by decide +kernel
  obtain ⟨cut', hcut', -⟩ := expand_replaced (hs all)
  have hfilled : expand all s = .ok ⟨("require(pInfo.regionCount != 'macro(x) \u00e9')\n" ++
      "x = mymacro(y) + macro(y)").toList, ["regions", "size"]⟩ := by decide +kernel
  exact ⟨fun m _ => hs m, ⟨cut, hcut ▸ hmissing⟩, cut', hcut' ▸ hfilled⟩

end ValidUsage
