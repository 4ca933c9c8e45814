import Mathlib.Data.List.Infix
import ValidUsage.Layout.Source
import ValidUsage.Proofs.LineEnds
import ValidUsage.Proofs.MarkupSearch

/-!
# Taking the markup of marks away

The decorations of the markup are taken away one kind after the other. Between two kinds the text is
that of the marks in a spelling of its own: ends of lines are bare first, then roles are gone, then
references, then one entity after the other, and the links last. Each kind goes away mark by mark,
because no mark spells, alone or with what follows it, what is searched for next: operators that
share characters with the markup stand before blanks, words end before marks that are none, and a
colon ends its line.
-/

namespace ValidUsage

open Text

namespace Markup

/-- What is searched for, the ends of lines and of references aside. -/
def searched : List String :=
  ["[vu-", "##", "<<"] ++ entities.map (·.1) ++ linkKinds.map (· ++ ":")

/-- Whether a text has neither an end of a line nor anything that is searched for. -/
structure IsUndecorated (t : List Char) : Prop where
  /-- It is on one line. -/
  line : '\n' ∉ t
  /-- It has nothing that is searched for. -/
  search : ∀ d ∈ searched, ¬d.toList <:+: t

end Markup

namespace Mark

/-- Whether the text of a mark cannot be taken for markup. -/
def IsClear : Mark → Prop
  | plain t => t ∈ [" ", ", ", ":", ".", ","] ∨ IsWord t
  | keyword t | name t | feature t | predicate t => IsWord t
  | operator t => t ∈ signs ∨ t ∈ infixes ∧ t ∉ ["<<", "<<="]
  | number t => IsNumeral t
  | literal t => IsWord t ∨
      (∃ u, t.toList = '\'' :: (u ++ ['\''])) ∧ Markup.IsUndecorated t.toList
  | comment t => Markup.IsUndecorated t.toList ∧ t.toList.getLast? ≠ some '#'
  | openParen | closeParen | openBracket | closeBracket | lineBreak _ => True

/-- Whether the text of a mark stands on one line. -/
def IsFlat : Mark → Prop
  | plain t | keyword t | operator t | number t | literal t | name t | feature t | predicate t
  | comment t => '\n' ∉ t.toList
  | openParen | closeParen | openBracket | closeBracket | lineBreak _ => True

/-- Whether a word can stand before a mark. -/
def isBoundary : Mark → Bool
  | plain t => !t.toList.head?.any isNameStart
  | openParen | closeParen | openBracket | closeBracket | lineBreak _ => true
  | _ => false

/-- Whether a mark can stand before another without being read together with it. -/
def Precedes : Mark → Mark → Prop
  | plain t, m => if t = ":" then m.isBreak = true
      else t.toList.head?.any isNameStart = true → m.isBoundary = true
  | operator t, m => t ∈ signs ∨ m = blank ∨ m.isBreak = true
  | keyword _, m | name _, m | feature _, m | predicate _, m | number _, m | literal _, m =>
      m.isBoundary = true
  | comment _, m => m.isBreak = true
  | _, _ => True

end Mark

/-- Whether marks can be told from markup and from one another. -/
def Separable : List Mark → Prop
  | [] => True
  | m :: ms => m.IsClear ∧ (∀ m' ∈ ms.head?, m.Precedes m') ∧ Separable ms

/-! ## Characters of marks -/

/-- A character that no decoration starts with. -/
def isOrdinary (c : Char) : Bool := isNameChar c || [' ', ',', '.', ':', '-'].contains c

private theorem IsWord.isOrdinary {t : String} (h : IsWord t) :
    ∀ c ∈ t.toList, isOrdinary c = true := by
  intro c hc
  rw [ValidUsage.isOrdinary, h.isNameChar c hc, Bool.true_or]

private theorem IsNumeral.isOrdinary {t : String} (h : IsNumeral t) :
    ∀ c ∈ t.toList, isOrdinary c = true := by
  intro c hc
  have hchar := h.chars c hc
  simp only [Bool.or_eq_true, beq_iff_eq] at hchar
  rcases hchar with (hchar | rfl) | rfl
  · rw [ValidUsage.isOrdinary, hchar, Bool.true_or]
  · decide
  · decide

private theorem isOrdinary_of_plain {t : String} (h : Mark.IsClear (.plain t)) :
    ∀ c ∈ t.toList, isOrdinary c = true := by
  rcases h with h | h
  · have hall : ∀ t ∈ [" ", ", ", ":", ".", ","], t.toList.all isOrdinary = true := by decide
    exact List.all_eq_true.1 (hall t h)
  · exact h.isOrdinary

private theorem notMem_of_isOrdinary {a : List Char} (h : ∀ c ∈ a, isOrdinary c = true) {c : Char}
    (hc : isOrdinary c = false) : c ∉ a :=
  fun hm => absurd ((h c hm).symm.trans hc) (by decide)

/-- A character that is not in a text is in no number of copies. -/
theorem notMem_flatten_replicate {c : Char} {t : List Char} (h : c ∉ t) (n : Nat) :
    c ∉ (List.replicate n t).flatten := by
  intro hc
  obtain ⟨u, hu, hc⟩ := List.mem_flatten.1 hc
  exact h ((List.mem_replicate.1 hu).2 ▸ hc)

private theorem notMem_lineBreak {c : Char} {t : List Char} (hc : c ≠ '\n') (h : c ∉ t) (n : Nat) :
    c ∉ '\n' :: (List.replicate n t).flatten := by
  rw [List.mem_cons, not_or]
  exact ⟨hc, notMem_flatten_replicate h n⟩

/-- What a searching function does with the texts of marks it does mark by mark. -/
theorem Separable.flatMap {f : List Char → List Char} {σ τ : Mark → List Char} (hnil : f [] = [])
    (hstep : ∀ m r, m.IsClear → Separable r → (∀ m' ∈ r.head?, m.Precedes m') →
      f (σ m ++ r.flatMap σ) = τ m ++ f (r.flatMap σ)) :
    ∀ {ms : List Mark}, Separable ms → f (ms.flatMap σ) = ms.flatMap τ := by
  intro ms
  induction ms with
  | nil => exact fun _ => hnil
  | cons m ms ih =>
    rintro ⟨hm, hnext, hms⟩
    rw [List.flatMap_cons, hstep m ms hm hms hnext, ih hms, List.flatMap_cons]

private theorem head_flatMap {σ : Mark → List Char} {P : Char → Prop} {ms : List Mark}
    (h : ∀ m ∈ ms.head?, ∃ c t, σ m = c :: t ∧ P c) : ∀ c ∈ (ms.flatMap σ).head?, P c := by
  cases ms with
  | nil => exact nofun
  | cons m ms =>
    obtain ⟨c, t, he, hc⟩ := h m rfl
    rw [List.flatMap_cons, he]
    intro x hx
    exact Option.some.inj hx ▸ hc

namespace Markup

variable {s : Subject} {m : Mark} {ms : List Mark} {c : Char} {r : List Char}

/-! ## The spellings in between -/

/-- The spelling of marks with bare ends of lines. -/
def broken (s : Subject) : Mark → List Char
  | .lineBreak n => '\n' :: (List.replicate n "&nbsp;".toList).flatten
  | m => spell s m

/-- The spelling of marks without roles. -/
def bare (s : Subject) : Mark → List Char
  | .keyword t | .operator t | .number t | .literal t => t.toList
  | .predicate name => (reference ("vu-predicate-" ++ name) name).toList
  | .comment t => "&#x23; ".toList ++ t.toList
  | m => broken s m

/-- An entity if it is one of those that are left, and otherwise its character. -/
def entity (left : List (String × Char)) (e : String × Char) : List Char :=
  if e ∈ left then e.1.toList else [e.2]

/-- The spelling of marks with links and with the entities that are left. -/
def linked (s : Subject) (left : List (String × Char)) : Mark → List Char
  | .name id => ((link? s id).getD id).toList
  | .openParen => entity left ("&lpar;", '(')
  | .closeParen => entity left ("&rpar;", ')')
  | .openBracket => entity left ("&lsqb;", '[')
  | .closeBracket => entity left ("&rsqb;", ']')
  | .lineBreak n => '\n' :: (List.replicate n (entity left ("&nbsp;", ' '))).flatten
  | .comment t => entity left ("&#x23;", '#') ++ ' ' :: t.toList
  | m => m.source

/-- A name stands behind its link or alone. -/
theorem link_cases (s : Subject) (id : String) : ((link? s id).getD id).toList = id.toList ∨
    ∃ k ∈ linkKinds, ((link? s id).getD id).toList = k.toList ++ ':' :: id.toList := by
  have hkind {k : String} (hk : k ∈ linkKinds) :
      ∃ k' ∈ linkKinds, (k ++ ":" ++ id).toList = k'.toList ++ ':' :: id.toList := by
    refine ⟨k, hk, ?_⟩
    rw [String.toList_append, String.toList_append, List.append_assoc]
    rfl
  have hregistry : ∀ k, s.registry.link? id = some k → k ∈ linkKinds := by
    intro k hk
    unfold Registry.link? at hk
    split at hk
    · exact Option.some.inj hk ▸ by decide
    split at hk
    · exact Option.some.inj hk ▸ by decide
    split at hk
    · next e _ =>
      obtain rfl := Option.some.inj hk
      cases e.category <;> decide
    split at hk
    · exact Option.some.inj hk ▸ by decide
    split at hk
    · exact Option.some.inj hk ▸ by decide
    · exact absurd hk nofun
  unfold link?
  split
  · exact .inl rfl
  split
  · exact .inr (hkind (k := "pname") (by decide))
  · cases hk : s.registry.link? id with
    | none => exact .inl rfl
    | some k => exact .inr (hkind (hregistry k hk))


private theorem isOrdinary_linked (s : Subject) {id : String} (h : IsWord id) :
    ∀ c ∈ ((link? s id).getD id).toList, isOrdinary c = true := by
  rcases link_cases s id with he | ⟨k, hk, he⟩
  · rw [he]
    exact h.isOrdinary
  · have hall : ∀ k ∈ linkKinds, k.toList.all isOrdinary = true := by decide
    rw [he]
    exact List.forall_mem_append.2 ⟨List.all_eq_true.1 (hall k hk),
      List.forall_mem_cons.2 ⟨by decide, h.isOrdinary⟩⟩

/-! ## Ends of lines -/

private theorem notMem_role {name text : String} (hn : c ∉ name.toList) (ht : c ∉ text.toList)
    (hc : c ∉ "[vu-]##".toList) : c ∉ role name text := by
  have hframe : c ∉ "[vu-".toList ∧ c ∉ "]##".toList ∧ c ∉ "##".toList := by
    refine ⟨fun h => hc ?_, fun h => hc ?_, fun h => hc ?_⟩
    · exact List.mem_append_left "]##".toList h
    · exact List.mem_append_right "[vu-".toList h
    · exact List.mem_append_right "[vu-]".toList h
  unfold role
  simp only [List.mem_append, not_or]
  exact ⟨⟨⟨⟨hframe.1, hn⟩, hframe.2.1⟩, ht⟩, hframe.2.2⟩

private theorem notMem_operator (h : m.IsClear) {t : String} (hm : m = .operator t)
    (hc : c ∈ ['\n', '[', '#', ':']) : c ∉ t.toList := by
  have hall : ∀ t ∈ Mark.signs ++ Mark.infixes,
      ['\n', '[', '#', ':'].all (fun c => !t.toList.contains c) = true := by decide +kernel
  subst hm
  have ht : t ∈ Mark.signs ++ Mark.infixes := List.mem_append.2 (h.imp_right And.left)
  intro hmem
  have hfree := List.all_eq_true.1 (hall t ht) c hc
  simp [hmem] at hfree

private theorem notMem_reference {target text : String} (hn : c ∉ target.toList)
    (ht : c ∉ text.toList)
    (hc : c ∉ "<<,>>".toList) : c ∉ (reference target text).toList := by
  have hframe : c ∉ "<<".toList ∧ c ∉ ",".toList ∧ c ∉ ">>".toList := by
    refine ⟨fun h => hc ?_, fun h => hc ?_, fun h => hc ?_⟩
    · exact List.mem_append_left ",>>".toList h
    · exact List.mem_append_right "<<".toList (List.mem_append_left ">>".toList h)
    · exact List.mem_append_right "<<,".toList h
  unfold reference
  simp only [String.toList_append, List.mem_append, not_or]
  exact ⟨⟨⟨⟨hframe.1, hn⟩, hframe.2.1⟩, ht⟩, hframe.2.2⟩

/-- A word has the role of a keyword, a quoted text has none. -/
theorem spell_literal (s : Subject) {t : String} (h : Mark.IsClear (.literal t)) :
    spell s (.literal t) = role "keyword" t ∧ IsWord t ∨
      spell s (.literal t) = t.toList ∧ (∃ u, t.toList = '\'' :: (u ++ ['\''])) ∧
        IsUndecorated t.toList := by
  rcases h with hw | ⟨⟨u, hu⟩, h⟩
  · have hq : t.toList.head? ≠ some '\'' := by
      intro hq
      obtain ⟨u, hu⟩ := List.head?_eq_some_iff.1 hq
      exact hw.notMem (c := '\'') (by decide) (hu ▸ List.mem_cons_self)
    exact .inl ⟨if_neg hq, hw⟩
  · have hq : t.toList.head? = some '\'' := by
      rw [hu]
      rfl
    exact .inr ⟨if_pos hq, ⟨u, hu⟩, h⟩

private theorem isFlat_of_isClear (h : m.IsClear) : m.IsFlat := by
  have hword {t : String} (h : IsWord t) : '\n' ∉ t.toList := h.notMem (by decide)
  cases m with
  | plain t => exact notMem_of_isOrdinary (isOrdinary_of_plain h) (by decide)
  | keyword t | name t | feature t | predicate t => exact hword h
  | operator t => exact notMem_operator h rfl (by decide)
  | number t => exact notMem_of_isOrdinary h.isOrdinary (by decide)
  | literal t => exact h.elim hword fun h => h.2.line
  | comment t => exact h.1.line
  | openParen | closeParen | openBracket | closeBracket | lineBreak => trivial

/-- A name on one line is linked on one line. -/
theorem newline_notMem_linked (s : Subject) {id : String} (h : '\n' ∉ id.toList) :
    '\n' ∉ ((link? s id).getD id).toList := by
  have hall : ∀ k ∈ linkKinds, '\n' ∉ k.toList := by decide
  rcases link_cases s id with he | ⟨k, hk, he⟩
  · rw [he]
    exact h
  · rw [he, List.mem_append, List.mem_cons]
    rintro (hm | hm | hm)
    · exact hall k hk hm
    · exact absurd hm (by decide)
    · exact h hm

/-- A mark that stands on one line is spelled on one line, unless it ends the line. -/
theorem notMem_newline (h : m.IsFlat) (hb : m.isBreak = false) : '\n' ∉ spell s m := by
  have hprefixed {t u : String} (h : '\n' ∉ t.toList) (hu : '\n' ∉ u.toList) :
      '\n' ∉ (u ++ t).toList := by
    rw [String.toList_append, List.mem_append, not_or]
    exact ⟨hu, h⟩
  cases m with
  | plain t => exact h
  | keyword t | operator t | number t => exact notMem_role (by decide) h (by decide)
  | literal t =>
    by_cases hq : t.toList.head? = some '\''
    · rw [show spell s (.literal t) = t.toList from if_pos hq]
      exact h
    · rw [show spell s (.literal t) = role "keyword" t from if_neg hq]
      exact notMem_role (by decide) h (by decide)
  | name id => exact newline_notMem_linked s h
  | feature id => exact notMem_reference (hprefixed h (by decide)) h (by decide)
  | predicate name =>
    refine notMem_role (by decide) ?_ (by decide)
    exact notMem_reference (hprefixed h (by decide)) h (by decide)
  | comment t => exact notMem_role (by decide) (hprefixed h (by decide)) (by decide)
  | openParen => exact show '\n' ∉ "&lpar;".toList by decide
  | closeParen => exact show '\n' ∉ "&rpar;".toList by decide
  | openBracket => exact show '\n' ∉ "&lsqb;".toList by decide
  | closeBracket => exact show '\n' ∉ "&rsqb;".toList by decide
  | lineBreak n => exact absurd hb nofun

private theorem spell_head (h : m.IsClear) :
    ∃ c t, spell s m = c :: t ∧ c ∉ " +\n".toList.tail := by
  have hordinary {t : List Char} (hne : t ≠ []) (h : ∀ c ∈ t, isOrdinary c = true) :
      ∃ c u, t = c :: u ∧ c ∉ " +\n".toList.tail := by
    obtain ⟨c, u, rfl⟩ := List.exists_cons_of_ne_nil hne
    have hc := h c List.mem_cons_self
    refine ⟨c, u, rfl, fun hm => ?_⟩
    have hnone : " +\n".toList.tail.all (!isOrdinary ·) = true := by decide
    exact absurd hc (by simpa using List.all_eq_true.1 hnone c hm)
  cases m with
  | plain t => exact hordinary (Mark.plain_ne_nil h) (isOrdinary_of_plain h)
  | name id =>
    have hne : ((link? s id).getD id).toList ≠ [] := by
      rcases link_cases s id with hl | ⟨k, -, hl⟩
      · rw [hl]
        exact h.ne_nil
      · rw [hl]
        exact List.append_ne_nil_of_right_ne_nil _ (List.cons_ne_nil ':' _)
    exact hordinary hne (isOrdinary_linked s h)
  | literal t =>
    rcases spell_literal s h with ⟨he, -⟩ | ⟨he, ⟨u, hu⟩, -⟩
    · exact ⟨'[', _, he, by decide⟩
    · exact ⟨'\'', u ++ ['\''], he.trans hu, by decide⟩
  | keyword t | operator t | number t | predicate t | comment t => exact ⟨'[', _, rfl, by decide⟩
  | feature id =>
    have hlink : (featureLink id).toList =
        '<' :: ("<" ++ ("features-" ++ id) ++ "," ++ id ++ ">>").toList := by
      rw [featureLink, reference]
      simp only [String.toList_append]
      rfl
    exact ⟨'<', _, hlink, by decide⟩
  | openParen | closeParen | openBracket | closeBracket => exact ⟨'&', _, rfl, by decide⟩
  | lineBreak n => exact ⟨' ', _, rfl, by decide⟩

/-- Ends of lines become bare. -/
theorem replaceAll_lineBreaks (h : Separable ms) :
    replaceAll " +\n".toList ['\n'] (ms.flatMap (spell s)) = ms.flatMap (broken s) := by
  have hnil : replaceAll " +\n".toList ['\n'] [] = [] := by rw [replaceAll]
  refine Separable.flatMap hnil (fun m r hm hr _ => ?_) h
  have hhead : ∀ c ∈ (r.flatMap (spell s)).head?, c ∉ " +\n".toList.tail := by
    refine head_flatMap fun m' hm' => spell_head ?_
    cases r with
    | nil => cases hm'
    | cons x r =>
      obtain rfl := Option.some.inj hm'
      exact hr.1
  by_cases hb : m.isBreak = true
  · cases m with
    | lineBreak n =>
      have hnbsp : ' ' ∉ (List.replicate n "&nbsp;".toList).flatten :=
        notMem_flatten_replicate (by decide) n
      have hpasses : Passes " +\n".toList (List.replicate n "&nbsp;".toList).flatten
          (r.flatMap (spell s)) := .of_notMem hnbsp
      have hbreak : spell s (.lineBreak n) =
          " +\n".toList ++ (List.replicate n "&nbsp;".toList).flatten := rfl
      rw [hbreak, List.append_assoc, replaceAll_pattern_append (by decide),
        replaceAll_append hpasses]
      rfl
    | _ => cases hb
  · rw [Bool.not_eq_true] at hb
    have hbroken : broken s m = spell s m := by
      cases m with
      | lineBreak n => cases hb
      | _ => rfl
    have hinfix : ¬" +\n".toList <:+: spell s m := by
      intro hi
      exact notMem_newline (isFlat_of_isClear hm) hb (hi.subset (by decide))
    rw [replaceAll_append (.of_head hinfix hhead), hbroken]

/-! ## Roles -/

/-- A spelling in which blanks and ends of lines stand for themselves. -/
structure Spaces (σ : Mark → List Char) : Prop where
  /-- A blank is spelled as it is. -/
  blank : σ .blank = [' ']
  /-- An end of a line starts as it does. -/
  lineBreak (n : Nat) : ∃ t, σ (.lineBreak n) = '\n' :: t

private theorem spaces_bare (s : Subject) : Spaces (bare s) := ⟨rfl, fun _ => ⟨_, rfl⟩⟩

private theorem spaces_linked (s : Subject) (left : List (String × Char)) :
    Spaces (linked s left) :=
  ⟨rfl, fun _ => ⟨_, rfl⟩⟩

private theorem exists_lineBreak (h : m.isBreak = true) : ∃ n, m = .lineBreak n := by
  cases m with
  | lineBreak n => exact ⟨n, rfl⟩
  | _ => exact absurd h nofun

/-- Behind an operator that is no sign, and behind a comment, stands a blank or nothing. -/
theorem Spaces.head {σ : Mark → List Char} (hσ : Spaces σ)
    (h : ∀ m ∈ ms.head?, m = .blank ∨ m.isBreak = true) :
    ∀ c ∈ (ms.flatMap σ).head?, c ∈ [' ', '\n'] := by
  refine head_flatMap fun m hm => ?_
  rcases h m hm with rfl | hb
  · exact ⟨' ', [], hσ.blank, by decide⟩
  · obtain ⟨n, rfl⟩ := exists_lineBreak hb
    obtain ⟨t, ht⟩ := hσ.lineBreak n
    exact ⟨'\n', t, ht, by decide⟩

private theorem mem_of_isQuoted {t : List Char} (h : ∃ u, t = '\'' :: (u ++ ['\''])) :
    ∀ c ∈ t.getLast?, c = '\'' := by
  obtain ⟨u, rfl⟩ := h
  intro c hc
  rw [← List.cons_append, List.getLast?_concat] at hc
  exact (Option.some.inj hc).symm

/-- What is searched for holds no quote, no blank and no end of a line. -/
theorem notMem_of_mem_searched {d : String} (hd : d ∈ searched) :
    '\'' ∉ d.toList ∧ ' ' ∉ d.toList ∧ '\n' ∉ d.toList := by
  have hall : ∀ d ∈ searched, '\'' ∉ d.toList ∧ ' ' ∉ d.toList ∧ '\n' ∉ d.toList := by
    decide +kernel
  exact hall d hd

/-- In front of a blank or an end of a line, what is searched for does not go on. -/
theorem notMem_tail_of_mem_searched {d : String} (hd : d ∈ searched) {c : Char}
    (hc : c ∈ [' ', '\n']) : c ∉ d.toList.tail := by
  intro hm
  obtain ⟨-, hblank, hline⟩ := notMem_of_mem_searched hd
  rcases List.mem_pair.1 hc with rfl | rfl
  · exact hblank (List.mem_of_mem_tail hm)
  · exact hline (List.mem_of_mem_tail hm)

/-- What is searched for is not found in a quoted text, nor across its end. -/
theorem IsUndecorated.passes_quoted {t : List Char} (h : IsUndecorated t)
    (hq : ∃ u, t = '\'' :: (u ++ ['\''])) {d : String} (hd : d ∈ searched) :
    Passes d.toList t r := by
  refine .of_last (h.search d hd) fun c hc hm => (notMem_of_mem_searched hd).1 ?_
  rw [← mem_of_isQuoted hq c hc]
  exact List.mem_of_mem_dropLast hm

/-- What is searched for is not found in a comment, nor across the end of its line. -/
theorem IsUndecorated.passes_comment {t : List Char} (h : IsUndecorated t)
    (hr : ∀ c ∈ r.head?, c ∈ [' ', '\n']) {d : String} (hd : d ∈ searched) :
    Passes d.toList t r :=
  .of_head (h.search d hd) fun c hc => notMem_tail_of_mem_searched hd (hr c hc)

/-- Roles go away. -/
theorem dropRoles_marks (h : Separable ms) :
    dropRoles (ms.flatMap (broken s)) = ms.flatMap (bare s) := by
  refine Separable.flatMap (dropRoles_of_none rfl) (fun m r hm _ _ => ?_) h
  generalize r.flatMap (broken s) = rest
  have keep {a : List Char} (ha : '[' ∉ a) : dropRoles (a ++ rest) = a ++ dropRoles rest :=
    dropRoles_append (.of_notMem ha)
  have drop {name t : String} (hn : ']' ∉ name.toList) (ht : '#' ∉ t.toList) :
      dropRoles (role name t ++ rest) = t.toList ++ dropRoles rest :=
    dropRoles_role hn (.of_notMem ht)
  have prefixed {t u : String} {c : Char} (h : IsWord t) (hc : isNameChar c = false)
      (hu : c ∉ u.toList) : c ∉ (u ++ t).toList := by
    rw [String.toList_append, List.mem_append, not_or]
    exact ⟨hu, h.notMem hc⟩
  cases m with
  | plain t => exact keep (notMem_of_isOrdinary (isOrdinary_of_plain hm) (by decide))
  | keyword t => exact drop (by decide) (hm.notMem (by decide))
  | operator t => exact drop (by decide) (notMem_operator hm rfl (by decide))
  | number t => exact drop (by decide) (notMem_of_isOrdinary hm.isOrdinary (by decide))
  | literal t =>
    rcases spell_literal s hm with ⟨he, hw⟩ | ⟨he, hq, hu⟩
    · rw [broken, he]
      · exact drop (by decide) (hw.notMem (by decide))
      · exact nofun
    · rw [broken, he]
      · exact dropRoles_append (hu.passes_quoted hq (d := "[vu-") (by decide))
      · exact nofun
  | name id => exact keep (notMem_of_isOrdinary (isOrdinary_linked s hm) (by decide))
  | feature id =>
    exact keep (notMem_reference (prefixed hm (by decide) (by decide)) (hm.notMem (by decide))
      (by decide))
  | predicate name =>
    exact drop (by decide) (notMem_reference (prefixed hm (by decide) (by decide))
      (hm.notMem (by decide)) (by decide))
  | comment t =>
    have hsign : Passes "##".toList "&#x23; ".toList (t.toList ++ ("##".toList ++ rest)) := by
      simp [Passes, List.cons_prefix_cons]
    have htext : Passes "##".toList t.toList ("##".toList ++ rest) := by
      refine .of_last (hm.1.search "##" (by decide)) fun c hc hmem => hm.2 ?_
      obtain rfl : c = '#' := List.mem_singleton.1 hmem
      exact hc
    have hall : Passes "##".toList ("&#x23; " ++ t).toList ("##".toList ++ rest) := by
      rw [String.toList_append]
      exact passes_append.2 ⟨hsign, htext⟩
    have hname : ']' ∉ "comment".toList := by decide
    have hdrop := dropRoles_role hname hall
    rw [String.toList_append] at hdrop
    exact hdrop
  | openParen => exact keep (a := "&lpar;".toList) (by decide)
  | closeParen => exact keep (a := "&rpar;".toList) (by decide)
  | openBracket => exact keep (a := "&lsqb;".toList) (by decide)
  | closeBracket => exact keep (a := "&rsqb;".toList) (by decide)
  | lineBreak n => exact keep (notMem_lineBreak (by decide) (by decide) n)

/-! ## References -/

/-- What is searched for behind roles is not found in an operator, nor across its end. -/
theorem passes_operator {σ : Mark → List Char} (hσ : Spaces σ) {t : String}
    (hm : Mark.IsClear (.operator t)) (hnext : ∀ m ∈ ms.head?, (Mark.operator t).Precedes m)
    {d : String} (hd : d ∈ "<<" :: entities.map (·.1)) :
    Passes d.toList t.toList (ms.flatMap σ) := by
  have hsearched : d ∈ searched := by
    rcases List.mem_cons.1 hd with rfl | hd
    · decide
    · exact List.mem_append_left _ (List.mem_append_right _ hd)
  have hsigns : ∀ d ∈ "<<" :: entities.map (·.1), ∀ t ∈ Mark.signs,
      d.toList.head?.any t.toList.contains = false := by decide +kernel
  have hinfixes : ∀ d ∈ "<<" :: entities.map (·.1), ∀ t ∈ Mark.infixes, t ∉ ["<<", "<<="] →
      ¬d.toList <:+: t.toList := by decide +kernel
  by_cases ht : t ∈ Mark.signs
  · cases he : d.toList with
    | nil => exact absurd he (by revert d; decide)
    | cons c p =>
      refine .of_notMem fun hmem => ?_
      have hnone := hsigns d hd t ht
      simp [he, hmem] at hnone
  · have hin : t ∈ Mark.infixes ∧ t ∉ ["<<", "<<="] := hm.resolve_left ht
    have hhead := hσ.head fun m' hm' => (hnext m' hm').resolve_left ht
    exact .of_head (hinfixes d hd t hin.1 hin.2) fun c hc =>
      notMem_tail_of_mem_searched hsearched (hhead c hc)

/-- References are replaced by what they show. -/
theorem dropReferences_marks (h : Separable ms) :
    dropReferences (ms.flatMap (bare s)) = ms.flatMap (linked s entities) := by
  refine Separable.flatMap (dropReferences_of_none rfl) (fun m r hm _ hnext => ?_) h
  have keep {a : List Char} (ha : '<' ∉ a) : dropReferences (a ++ r.flatMap (bare s)) =
      a ++ dropReferences (r.flatMap (bare s)) := dropReferences_append (.of_notMem ha)
  have drop {u t : String} (ht : IsWord t) (hu : '>' ∉ u.toList) :
      dropReferences ((reference (u ++ t) t).toList ++ r.flatMap (bare s)) =
        t.toList ++ dropReferences (r.flatMap (bare s)) := by
    refine dropReferences_reference ?_ (ht.notMem (by decide)) (ht.notMem (by decide))
    rw [String.toList_append, List.mem_append, not_or]
    exact ⟨hu, ht.notMem (by decide)⟩
  cases m with
  | plain t => exact keep (notMem_of_isOrdinary (isOrdinary_of_plain hm) (by decide))
  | keyword t => exact keep (hm.notMem (by decide))
  | operator t =>
    exact dropReferences_append (passes_operator (spaces_bare s) hm hnext (d := "<<") (by decide))
  | number t => exact keep (notMem_of_isOrdinary hm.isOrdinary (by decide))
  | literal t =>
    rcases hm with hw | ⟨hq, hu⟩
    · exact keep (hw.notMem (by decide))
    · exact dropReferences_append (hu.passes_quoted hq (d := "<<") (by decide))
  | name id => exact keep (notMem_of_isOrdinary (isOrdinary_linked s hm) (by decide))
  | feature id => exact drop hm (by decide)
  | predicate name => exact drop hm (by decide)
  | comment t =>
    have hhead := (spaces_bare s).head fun m hm => .inr (hnext m hm)
    have htext := hm.1.passes_comment hhead (d := "<<") (by decide)
    have hall : Passes "<<".toList ("&#x23; ".toList ++ t.toList) (r.flatMap (bare s)) :=
      passes_append.2 ⟨.of_notMem (by decide), htext⟩
    exact dropReferences_append hall
  | openParen => exact keep (a := "&lpar;".toList) (by decide)
  | closeParen => exact keep (a := "&rpar;".toList) (by decide)
  | openBracket => exact keep (a := "&lsqb;".toList) (by decide)
  | closeBracket => exact keep (a := "&rsqb;".toList) (by decide)
  | lineBreak n => exact keep (notMem_lineBreak (by decide) (by decide) n)

/-! ## Entities -/

/-- The texts of two entities are as long as each other, and only their first characters start
them. -/
theorem entity_text {e x : String × Char} (he : e ∈ entities) (hx : x ∈ entities) :
    (∃ t, e.1.toList = '&' :: t ∧ '&' ∉ t) ∧ e.1.toList.length = x.1.toList.length ∧
      (e.1.toList = x.1.toList → e = x) ∧ '&' ≠ e.2 := by
  have hall : ∀ e ∈ entities, ∀ x ∈ entities, e.1.toList.length = x.1.toList.length ∧
      (e.1.toList = x.1.toList → e = x) ∧ '&' ≠ e.2 := by decide
  have htext : ∀ e ∈ entities, e.1.toList.head? = some '&' ∧ '&' ∉ e.1.toList.tail := by decide
  refine ⟨?_, hall e he x hx⟩
  obtain ⟨t, ht⟩ := List.head?_eq_some_iff.1 (htext e he).1
  refine ⟨t, ht, ?_⟩
  have htail := (htext e he).2
  rw [ht] at htail
  exact htail

/-- An entity is replaced where it stands and is not found in other entities. -/
theorem replaceAll_entity {e x : String × Char} {left : List (String × Char)} (he : e ∈ entities)
    (hx : x ∈ entities) (hleft : e ∉ left) :
    replaceAll e.1.toList [e.2] (entity (e :: left) x ++ r) =
      entity left x ++ replaceAll e.1.toList [e.2] r := by
  obtain ⟨⟨t, ht, -⟩, hlength, heq, -⟩ := entity_text he hx
  obtain ⟨⟨u, hu, hnotMem⟩, -, -, hchar⟩ := entity_text hx he
  by_cases hex : e = x
  · subst hex
    have hne : e.1.toList ≠ [] := by simp [ht]
    rw [entity, if_pos List.mem_cons_self, entity, if_neg hleft, replaceAll_pattern_append hne]
  · have hmem : x ∈ e :: left ↔ x ∈ left := by
      rw [List.mem_cons, or_iff_right (Ne.symm hex)]
    simp only [entity, hmem]
    by_cases hxl : x ∈ left
    · rw [if_pos hxl]
      refine replaceAll_append ?_
      rw [hu]
      constructor
      · intro hp
        have hstarts : e.1.toList <+: x.1.toList := by
          refine List.prefix_of_prefix_length_le hp ?_ hlength.le
          rw [hu, ← List.cons_append]
          exact List.prefix_append _ _
        exact hex (heq (hstarts.eq_of_length hlength))
      · rw [ht]
        exact .of_notMem hnotMem
    · rw [if_neg hxl, ht]
      exact replaceAll_append (.of_notMem (by simpa using hchar))

private theorem replaceAll_entities {e x : String × Char} {left : List (String × Char)}
    (he : e ∈ entities) (hx : x ∈ entities) (hleft : e ∉ left) (n : Nat) :
    replaceAll e.1.toList [e.2] ((List.replicate n (entity (e :: left) x)).flatten ++ r) =
      (List.replicate n (entity left x)).flatten ++ replaceAll e.1.toList [e.2] r := by
  induction n with
  | zero => rfl
  | succ n ih =>
    rw [List.replicate_succ, List.flatten_cons, List.append_assoc, replaceAll_entity he hx hleft,
      ih, List.replicate_succ, List.flatten_cons, List.append_assoc]

/-- One entity is replaced by its character. -/
theorem replaceAll_marks {e : String × Char} {left : List (String × Char)} (he : e ∈ entities)
    (hleft : e ∉ left) (h : Separable ms) :
    replaceAll e.1.toList [e.2] (ms.flatMap (linked s (e :: left))) =
      ms.flatMap (linked s left) := by
  have hnil : replaceAll e.1.toList [e.2] [] = [] := by rw [replaceAll]
  obtain ⟨⟨p, hp, -⟩, -⟩ := entity_text he he
  have hsearched : e.1 ∈ searched :=
    List.mem_append_left _ (List.mem_append_right _ (List.mem_map_of_mem he))
  refine Separable.flatMap hnil (fun m r hm _ hnext => ?_) h
  generalize hrest : r.flatMap (linked s (e :: left)) = rest
  have keep {a : List Char} (ha : '&' ∉ a) :
      replaceAll e.1.toList [e.2] (a ++ rest) = a ++ replaceAll e.1.toList [e.2] rest :=
    replaceAll_append (by rw [hp]; exact .of_notMem ha)
  cases m with
  | plain t => exact keep (notMem_of_isOrdinary (isOrdinary_of_plain hm) (by decide))
  | keyword t => exact keep (hm.notMem (by decide))
  | operator t =>
    rw [← hrest]
    exact replaceAll_append (passes_operator (spaces_linked s _) hm hnext
      (List.mem_cons_of_mem _ (List.mem_map_of_mem he)))
  | number t => exact keep (notMem_of_isOrdinary hm.isOrdinary (by decide))
  | literal t =>
    rcases hm with hw | ⟨hq, hu⟩
    · exact keep (hw.notMem (by decide))
    · exact replaceAll_append (hu.passes_quoted hq hsearched)
  | name id => exact keep (notMem_of_isOrdinary (isOrdinary_linked s hm) (by decide))
  | feature id => exact keep (hm.notMem (by decide))
  | predicate name => exact keep (hm.notMem (by decide))
  | comment t =>
    have hhead := (spaces_linked s (e :: left)).head fun m hm => .inr (hnext m hm)
    have htext : Passes e.1.toList (' ' :: t.toList) rest := by
      rw [← hrest]
      refine passes_append (a := [' ']) |>.2 ⟨?_, hm.1.passes_comment hhead hsearched⟩
      rw [hp]
      exact .of_notMem (by decide)
    rw [linked, List.append_assoc, replaceAll_entity he (by decide) hleft, replaceAll_append htext,
      ← List.append_assoc]
    rfl
  | openParen | closeParen | openBracket | closeBracket =>
    exact replaceAll_entity he (by decide) hleft
  | lineBreak n =>
    have hline : Passes e.1.toList ['\n'] ((List.replicate n
        (entity (e :: left) ("&nbsp;", ' '))).flatten ++ rest) := by
      rw [hp]
      exact .of_notMem (by decide)
    rw [linked, List.cons_append]
    refine (replaceAll_append hline).trans ?_
    rw [replaceAll_entities he (by decide) hleft]
    rfl

/-- Entities are replaced by their characters. -/
theorem dropEntities_marks (h : Separable ms) :
    dropEntities (ms.flatMap (linked s entities)) = ms.flatMap (linked s []) := by
  have hall : ∀ left, left.Nodup → left ⊆ entities →
      left.foldl (fun t e => replaceAll e.1.toList [e.2] t) (ms.flatMap (linked s left)) =
        ms.flatMap (linked s []) := by
    intro left
    induction left with
    | nil => exact fun _ _ => rfl
    | cons e left ih =>
      intro hnodup hsub
      obtain ⟨he, hsub⟩ := List.cons_subset.1 hsub
      obtain ⟨hleft, hnodup⟩ := List.nodup_cons.1 hnodup
      rw [List.foldl_cons, replaceAll_marks he hleft h, ih hnodup hsub]
  exact hall entities (by decide) (List.Subset.refl entities)

/-! ## Links -/

/-- The end of a line can follow a word. -/
theorem isBoundary_of_isBreak (h : m.isBreak = true) : m.isBoundary = true := by
  obtain ⟨n, rfl⟩ := exists_lineBreak h
  rfl

/-- In front of a mark that a word can precede, no word goes on. Only a colon starts with one. -/
theorem linked_head (hm : m.IsClear) : ∃ c t, linked s [] m = c :: t ∧
    (m.isBoundary = true → isNameChar c = false) ∧ (c = ':' → m = .colon) := by
  have word {t u : List Char} (hne : t ≠ []) (h : ∀ c ∈ t, c ≠ ':') (hb : m.isBoundary = false) :
      ∃ c v, t ++ u = c :: v ∧ (m.isBoundary = true → isNameChar c = false) ∧
        (c = ':' → m = .colon) := by
    obtain ⟨c, v, rfl⟩ := List.exists_cons_of_ne_nil hne
    refine ⟨c, v ++ u, rfl, fun hb' => absurd (hb'.symm.trans hb) (by decide), fun hc => ?_⟩
    exact absurd hc (h c List.mem_cons_self)
  have alone {t : List Char} (hne : t ≠ []) (h : ':' ∉ t) (hb : m.isBoundary = false) :
      ∃ c v, t = c :: v ∧ (m.isBoundary = true → isNameChar c = false) ∧
        (c = ':' → m = .colon) := by
    simpa using word (u := []) hne (fun c hc he => h (he ▸ hc)) hb
  have ofWord {t : String} (h : IsWord t) (hb : m.isBoundary = false) :
      ∃ c v, t.toList = c :: v ∧ (m.isBoundary = true → isNameChar c = false) ∧
        (c = ':' → m = .colon) := by
    exact alone h.ne_nil (h.notMem (by decide)) hb
  cases m with
  | plain t =>
    rcases hm with h | h
    · have hall : ∀ t ∈ [" ", ", ", ":", ".", ","], ∃ c v, t.toList = c :: v ∧
          isNameChar c = false ∧ (c = ':' → t = ":") := by
        simp
        decide
      obtain ⟨c, v, he, hc, hcolon⟩ := hall t h
      exact ⟨c, v, he, fun _ => hc, fun hx => congrArg Mark.plain (hcolon hx)⟩
    · exact ofWord h (by rw [Mark.isBoundary, h.head]; rfl)
  | keyword t | feature t | predicate t => exact ofWord hm rfl
  | operator t =>
    have hne := Mark.operator_ne_nil (hm.imp_right And.left)
    exact alone hne (notMem_operator hm rfl (by decide)) rfl
  | number t =>
    obtain ⟨c, cs, he, hc⟩ := hm.head
    refine ⟨c, cs, he, nofun, fun hx => absurd hx (isDigit_ne hc (by decide))⟩
  | literal t =>
    rcases hm with hw | ⟨⟨u, hq⟩, -⟩
    · exact ofWord hw rfl
    · exact ⟨'\'', u ++ ['\''], hq, nofun, fun hx => absurd hx (by decide)⟩
  | name id =>
    rcases link_cases s id with he | ⟨k, hk, he⟩
    · rw [linked, he]
      exact ofWord hm rfl
    · have hall : ∀ k ∈ linkKinds, k.toList ≠ [] ∧ ':' ∉ k.toList := by decide
      rw [linked, he]
      exact word (hall k hk).1 (fun c hc hx => (hall k hk).2 (hx ▸ hc)) rfl
  | comment t => exact ⟨'#', ' ' :: t.toList, rfl, nofun, fun hx => absurd hx (by decide)⟩
  | openParen => exact ⟨'(', [], rfl, by decide, by decide⟩
  | closeParen => exact ⟨')', [], rfl, by decide, by decide⟩
  | openBracket => exact ⟨'[', [], rfl, by decide, by decide⟩
  | closeBracket => exact ⟨']', [], rfl, by decide, by decide⟩
  | lineBreak n => exact ⟨'\n', _, rfl, fun _ => by decide, fun hx => absurd hx (by decide)⟩

/-- A mark that ends as a word does stands before one that a word can precede. -/
theorem isBoundary_of_last {m' : Mark} (hm : m.IsClear)
    (hlast : m.source.getLast?.any isNameChar = true) (h : m.Precedes m') :
    m'.isBoundary = true := by
  cases m with
  | plain t =>
    rcases hm with ht | ht
    · have hall : ∀ t ∈ [" ", ", ", ":", ".", ","], t.toList.getLast?.any isNameChar = false := by
        decide
      exact absurd ((hall t ht).symm.trans hlast) (by decide)
    · have hne : t ≠ ":" := by
        rintro rfl
        exact absurd ht.head (by decide)
      rw [Mark.Precedes, if_neg hne] at h
      exact h ht.head
  | operator t =>
    rcases h with ht | rfl | hb
    · have hall : ∀ t ∈ Mark.signs, t.toList.getLast?.any isNameChar = false := by decide
      exact absurd ((hall t ht).symm.trans hlast) (by decide)
    · rfl
    · exact isBoundary_of_isBreak hb
  | keyword t | number t | literal t | name t | feature t | predicate t => exact h
  | comment t => exact isBoundary_of_isBreak h
  | openParen | closeParen | openBracket | closeBracket => exact absurd hlast (by decide)
  | lineBreak n =>
    rw [Mark.source] at hlast
    cases n with
    | zero => exact absurd hlast (by decide)
    | succ n =>
      rw [List.replicate_succ', ← List.cons_append, List.getLast?_concat] at hlast
      exact absurd hlast (by decide)

/-- Behind a colon that starts marks no word stands. -/
theorem not_isNameChar_of_colon (h : Separable ms) {t : List Char}
    (he : ms.flatMap (linked s []) = ':' :: c :: t) : isNameChar c = false := by
  cases ms with
  | nil => exact absurd he nofun
  | cons m r =>
    obtain ⟨hm, hnext, -⟩ := h
    obtain ⟨x, u, hx, -, hcolon⟩ := linked_head (s := s) hm
    rw [List.flatMap_cons, hx, List.cons_append] at he
    obtain rfl := hcolon (List.cons.inj he).1
    obtain rfl : u = [] := (List.cons.inj hx).2.symm
    replace he := (List.cons.inj he).2
    cases r with
    | nil => exact absurd he nofun
    | cons m' r =>
      obtain ⟨n, rfl⟩ := exists_lineBreak (hnext m' rfl)
      have hc : '\n' = c := (List.cons.inj he).1
      rw [← hc]
      decide

/-- No link stands in a mark in front of others, the one of a name aside. -/
theorem holdsNoLink (hm : m.IsClear) (hnext : ∀ m' ∈ ms.head?, m.Precedes m')
    (h : Separable ms) : HoldsNoLink m.source (ms.flatMap (linked s [])) where
  kinds := by
    intro k hk hi
    have colon : ':' ∈ m.source := hi.subset (List.mem_append_right _ (List.mem_singleton_self ':'))
    have searched_kind : k ++ ":" ∈ searched :=
      List.mem_append_right _ (List.mem_map_of_mem hk)
    have undecorated {t : List Char} (ht : IsUndecorated t) (hi : k.toList ++ [':'] <:+: t) :
        False := by
      refine ht.search _ searched_kind ?_
      rwa [String.toList_append]
    cases m with
    | plain t =>
      rcases hm with ht | ht
      · have hall : ∀ k ∈ linkKinds, ∀ t ∈ [" ", ", ", ":", ".", ","],
            t.toList.length < (k.toList ++ [':']).length := by decide
        exact absurd hi.length_le (Nat.not_le.2 (hall k hk t ht))
      · exact ht.notMem (by decide) colon
    | keyword t | name t | feature t | predicate t => exact hm.notMem (by decide) colon
    | operator t => exact notMem_operator hm rfl (by decide) colon
    | number t =>
      have hchar := hm.chars ':' colon
      exact absurd hchar (by decide)
    | literal t =>
      rcases hm with hw | ⟨-, hu⟩
      · exact hw.notMem (by decide) colon
      · exact undecorated hu hi
    | comment t =>
      have hall : ∀ k ∈ linkKinds,
          ['#', ' '].all (fun c => (k.toList ++ [':']).head? != some c) = true := by decide +kernel
      have drop {c : Char} {u : List Char} (hc : c ∈ ['#', ' '])
          (hi : k.toList ++ [':'] <:+: c :: u) :
          k.toList ++ [':'] <:+: u := by
        refine (List.infix_cons_iff.1 hi).resolve_left fun hprefix => ?_
        obtain ⟨v, hv⟩ := hprefix
        have hhead := congrArg List.head? hv
        rw [List.head?_append_of_ne_nil _ (by simp), List.head?_cons] at hhead
        exact absurd hhead (by simpa using List.all_eq_true.1 (hall k hk) c hc)
      have hline := drop (by decide) (drop (by decide) hi)
      exact undecorated hm.1 hline
    | openParen | closeParen | openBracket | closeBracket => exact absurd colon (by decide)
    | lineBreak n => simp [Mark.source] at colon
  ends := by
    intro hlast
    refine head_flatMap fun m' hm' => ?_
    have hclear : m'.IsClear := by
      cases ms with
      | nil => cases hm'
      | cons x ms => exact Option.some.inj hm' ▸ h.1
    obtain ⟨c, t, he, hc, -⟩ := linked_head (s := s) hclear
    exact ⟨c, t, he, hc (isBoundary_of_last hm hlast (hnext m' hm'))⟩
  colon := fun _ c t he => not_isNameChar_of_colon h he

private theorem source_ne_nil (hm : m.IsClear) : m.source ≠ [] := by
  cases m with
  | plain t => exact Mark.plain_ne_nil hm
  | keyword t | name t | feature t | predicate t => exact hm.ne_nil
  | operator t => exact Mark.operator_ne_nil (hm.imp_right And.left)
  | number t =>
    obtain ⟨c, cs, he, -⟩ := hm.head
    simp [Mark.source, he]
  | literal t =>
    rcases hm with hw | ⟨⟨u, hq⟩, -⟩
    · exact hw.ne_nil
    · simp [Mark.source, hq]
  | _ => exact List.cons_ne_nil _ _

/-- Links go away, where no word goes on. -/
theorem dropLinks_marks {p : Option Char} (h : Separable ms)
    (hp : p.any isNameChar = true → ∀ m ∈ ms.head?, m.isBoundary = true) :
    dropLinks p (ms.flatMap (linked s [])) = ms.flatMap Mark.source := by
  induction ms generalizing p with
  | nil => exact dropLinks_of_gap nofun
  | cons m ms ih =>
    obtain ⟨hm, hnext, hms⟩ := h
    have hsource : dropLinks p (m.source ++ ms.flatMap (linked s [])) =
        m.source ++ ms.flatMap Mark.source := by
      rw [dropLinks_append (holdsNoLink hm hnext hms), ih hms]
      intro hlast m' hm'
      rw [List.getLast?_eq_some_getLast (source_ne_nil hm), Option.some_or,
        ← List.getLast?_eq_some_getLast] at hlast
      exact isBoundary_of_last hm hlast (hnext m' hm')
    rw [List.flatMap_cons, List.flatMap_cons]
    cases m with
    | name id =>
      rcases link_cases s id with he | ⟨k, hk, he⟩
      · rw [linked, he]
        exact hsource
      · obtain ⟨c, cs, hid, hc, -⟩ := hm
        have hnone : p.any isNameChar = false := by
          rw [← Bool.not_eq_true]
          intro hp'
          exact absurd (hp hp' _ rfl) nofun
        rw [linked, he, List.append_assoc, hid, List.cons_append, List.cons_append,
          dropLinks_link hk hnone (isNameChar_of_isNameStart hc), ← hsource, Mark.source, hid]
        rfl
    | lineBreak n =>
      have hbreak : linked s [] (.lineBreak n) = Mark.source (.lineBreak n) :=
        congrArg ('\n' :: ·) (List.flatten_replicate_singleton)
      rw [hbreak]
      exact hsource
    | _ => exact hsource

/-! ## All of it -/

/-- What stands in the frame of a statement. -/
theorem unframe_document (s : Subject) (ms : List Mark) :
    unframe ((style s).document ms) = ms.flatMap (spell s) := by
  have hdocument : (style s).document ms =
      "[vu]#".toList ++ (ms.flatMap (spell s) ++ ['#']) := by
    have hclosing : (style s).closing.toList = ['#'] := show "#".toList = ['#'] by decide
    rw [Style.document, List.append_assoc, hclosing]
    rfl
  have htag : stripPrefix? "[vu]#".toList ((style s).document ms) =
      some (ms.flatMap (spell s) ++ ['#']) := stripPrefix?_eq_some.2 hdocument
  have hsuffix : stripSuffix? ['#'] (ms.flatMap (spell s) ++ ['#']) =
      some (ms.flatMap (spell s)) := stripSuffix?_append _ _
  rw [unframe, htag, Option.bind_some, hsuffix, Option.getD_some]

/-- Taking the markup of marks away gives their source text. -/
theorem plain_document (h : Separable ms) :
    plain ((style s).document ms) = Style.source.text ms := by
  have hstart : (none : Option Char).any isNameChar = true →
      ∀ m ∈ ms.head?, m.isBoundary = true := nofun
  rw [plain, unframe_document, replaceAll_lineBreaks h, dropRoles_marks h, dropReferences_marks h,
    dropEntities_marks h, dropLinks_marks h hstart]
  rfl

end Markup
end ValidUsage
