import ValidUsage.Proofs.MacroFree
import ValidUsage.Proofs.Uses
import ValidUsage.Vu.Basic

/-!
# All references to macros are replaced

Where each reference outside of strings and comments is spelled as expansion looks for it, and the
values that replace them are whole pieces of a text, the text that expansion gives has no reference
left; so what is read from it has none either.
-/

namespace ValidUsage
namespace Expansion

/-- Whether a value is a whole piece of a text: it has no reference, and no string or comment that
is open at its end. -/
def isWhole (value : List Char) : Bool :=
  isFree (.code false) value && !value.contains '\r' &&
    match (Mode.code false).after value with
    | .code _ => true
    | _ => false

/-- Whether a text starts with a reference that gives way to a whole piece of a text, and no name
goes on behind it. -/
def isReplaced (macros : Table String) (s : List Char) : Bool :=
  match reference? s with
  | none => false
  | some (name, ⟨r, _⟩) =>
    !r.head?.any Text.isNameChar && (macros.get? name).all fun value => isWhole (convert value)

/-- Whether a character stays in a comment, for expansion and for reading. -/
def isRemark (c : Char) : Bool := c != '\n' && !isQuote c

/-- Whether a reference that a text in a comment starts with, if any, gives way to characters that
stay in the comment. -/
def isRemarked (macros : Table String) (s : List Char) : Bool :=
  match reference? s with
  | none => true
  | some (name, _) => (macros.get? name).all fun value => (convert value).all isRemark

/-- Whether all references to macros in a text are found and replaced. -/
def isComplete (macros : Table String) : Mode → List Char → Bool :=
  scans (isReplaced macros) (isRemarked macros)

variable {macros : Table String} {inName : Bool} {c : Char} {r u s : List Char} {m : Mode}

private theorem isComplete_code : isComplete macros (.code inName) (c :: r) = true ↔
    (inName = true ∨ startsMacro (c :: r) = false ∨ isReplaced macros (c :: r) = true) ∧
      returnsAtEnd (c :: r) = true ∧ isComplete macros ((Mode.code inName).next c) r = true := by
  rw [isComplete, scans, Bool.and_eq_true, Bool.and_eq_true, Bool.or_eq_true, Bool.or_eq_true,
    Bool.not_eq_true', and_assoc, or_assoc]

private theorem isComplete_comment : isComplete macros .comment (c :: r) = true ↔
    isQuote c = false ∧ isRemarked macros (c :: r) = true ∧
      isComplete macros (Mode.comment.next c) r = true := by
  rw [isComplete, scans, Bool.and_eq_true, Bool.and_eq_true, Bool.not_eq_true', and_assoc]

private theorem isComplete_string {q : Char} {escaped : Bool} :
    isComplete macros (.string q escaped) (c :: r) =
      isComplete macros ((Mode.string q escaped).next c) r := by
  rw [isComplete, scans, Bool.true_and]

/-! ## Whole pieces -/

private theorem takeWhile_append_name (hr : ∀ c ∈ r.head?, Text.isNameChar c = false) :
    (u ++ r).takeWhile Text.isNameChar = u.takeWhile Text.isNameChar := by
  induction u with
  | nil =>
    cases r with
    | nil => rfl
    | cons c r => simp [hr c rfl]
  | cons c u ih => simp only [List.cons_append, List.takeWhile_cons, ih]

/-- In front of a text that goes on with no name, a text has its own references. -/
theorem isFree_append (hr : ∀ c ∈ r.head?, Text.isNameChar c = false) (hu : '\r' ∉ u)
    (h : isFree m u = true) (h' : isFree (m.after u) r = true) : isFree m (u ++ r) = true := by
  induction u generalizing m with
  | nil => exact h'
  | cons c u ih =>
    rw [List.mem_cons, not_or] at hu
    have hreturn (s : List Char) : returnsAtEnd (c :: s) = true := by
      unfold returnsAtEnd
      split
      · rename_i he
        exact absurd (List.cons.inj he).1.symm hu.1
      · rfl
    rw [List.cons_append]
    cases m with
    | code inName =>
      obtain ⟨hword, -, h⟩ := isFree_code.1 h
      refine isFree_code.2 ⟨?_, hreturn _, ih hu.2 h h'⟩
      rw [startsMacro, ← List.cons_append, takeWhile_append_name hr]
      exact hword
    | comment =>
      obtain ⟨hq, h⟩ := isFree_comment.1 h
      exact isFree_comment.2 ⟨hq, ih hu.2 h h'⟩
    | string q escaped =>
      rw [isFree_string] at h ⊢
      exact ih hu.2 h h'

private theorem isFree_code_mono (h : isFree (.code false) r = true) :
    isFree (.code inName) r = true := by
  cases r with
  | nil => rfl
  | cons c r =>
    obtain ⟨hword, hreturn, h⟩ := isFree_code.1 h
    exact isFree_code.2 ⟨.inr (hword.resolve_left nofun), hreturn, h⟩

/-- A whole piece in front of a text without references. -/
theorem isFree_append_whole (hu : isWhole u = true)
    (hr : ∀ c ∈ r.head?, Text.isNameChar c = false) (h : isFree (.code false) r = true) :
    isFree (.code false) (u ++ r) = true := by
  simp only [isWhole, Bool.and_eq_true, Bool.not_eq_true', ← Bool.not_eq_true,
    List.contains_iff_mem] at hu
  obtain ⟨⟨hfree, hreturn⟩, hend⟩ := hu
  refine isFree_append hr hreturn hfree ?_
  split at hend
  · rename_i he
    rw [he]
    exact isFree_code_mono h
  · exact absurd hend nofun

/-! ## References -/

private theorem isComplete_append_code (hu : ∀ c ∈ u, isCode c = true)
    (h : isComplete macros (.code inName) (u ++ r) = true) :
    ∃ inName', isComplete macros (.code inName') r = true := by
  induction u generalizing inName with
  | nil => exact ⟨inName, h⟩
  | cons c u ih =>
    obtain ⟨hc, hu⟩ := List.forall_mem_cons.1 hu
    have h := (isComplete_code.1 h).2.2
    rw [next_code hc] at h
    exact ih hu h

private theorem isComplete_append_comment (hu : '\n' ∉ u)
    (h : isComplete macros .comment (u ++ r) = true) : isComplete macros .comment r = true := by
  induction u with
  | nil => exact h
  | cons c u ih =>
    rw [List.mem_cons, not_or] at hu
    have h := (isComplete_comment.1 h).2.2
    rw [Mode.next, if_neg fun hc => hu.1 hc.symm] at h
    exact ih hu.2 h

private theorem isFree_append_comment (hu : u.all isRemark = true) (h : isFree .comment r = true) :
    isFree .comment (u ++ r) = true := by
  induction u with
  | nil => exact h
  | cons c u ih =>
    rw [List.all_cons, Bool.and_eq_true] at hu
    simp only [isRemark, Bool.and_eq_true, bne_iff_ne, Bool.not_eq_true'] at hu
    refine isFree_comment.2 ⟨hu.1.2, ?_⟩
    rw [Mode.next, if_neg hu.1.1]
    exact ih hu.2

private theorem skipSpaces_eq (s : List Char) : ∃ u, s = u ++ skipSpaces s ∧ ∀ c ∈ u, c = ' ' :=
  ⟨s.takeWhile (· = ' '), List.takeWhile_append_dropWhile.symm, fun c hc => by
    simpa using List.all_eq_true.1 List.all_takeWhile c hc⟩

private theorem skipSpaces_eq_replicate (s : List Char) :
    ∃ n, s = List.replicate n ' ' ++ skipSpaces s := by
  obtain ⟨u, he, hu⟩ := skipSpaces_eq s
  exact ⟨u.length, by rw [← List.eq_replicate_of_mem hu]; exact he⟩

/-- A reference is a word and a name in parentheses, with blanks in between. -/
theorem reference?_eq_some {name : String} {h : r.length < s.length}
    (hs : reference? s = some (name, ⟨r, h⟩)) :
    (name.toList ≠ [] ∧ ∀ c ∈ name.toList, Text.isNameChar c = true) ∧
      ∃ a b c : Nat, s = "macro".toList ++ (List.replicate a ' ' ++ '(' ::
        (List.replicate b ' ' ++ (name.toList ++ (List.replicate c ' ' ++ ')' :: r)))) := by
  unfold reference? at hs
  split at hs
  · exact absurd hs nofun
  rename_i r₀ hm
  have hword : s = "macro".toList ++ r₀ := Text.stripPrefix?_eq_some.1 hm
  dsimp only at hs
  split at hs
  · rename_i r₁ ho
    split at hs
    · rename_i r₂ hc
      split at hs
      · exact absurd hs nofun
      rename_i hne
      obtain ⟨rfl, rfl⟩ : String.ofList ((skipSpaces r₁).takeWhile Text.isNameChar) = name ∧
        r₂ = r := by simpa using hs
      rw [String.toList_ofList]
      obtain ⟨a, ha⟩ := skipSpaces_eq_replicate r₀
      obtain ⟨b, hb⟩ := skipSpaces_eq_replicate r₁
      obtain ⟨c, hc'⟩ := skipSpaces_eq_replicate ((skipSpaces r₁).dropWhile Text.isNameChar)
      rw [ho] at ha
      rw [hc] at hc'
      refine ⟨⟨fun he => hne (by simp [he]), List.all_eq_true.1 List.all_takeWhile⟩, a, b, c, ?_⟩
      rw [← hc', List.takeWhile_append_dropWhile, ← hb, ← ha]
      exact hword
    · exact absurd hs nofun
  · exact absurd hs nofun

/-- Up to its last parenthesis, a reference is code on one line. -/
theorem reference?_eq {name : String} {h : r.length < s.length}
    (hs : reference? s = some (name, ⟨r, h⟩)) :
    startsMacro s = true ∧
      ∃ u, s = u ++ ')' :: r ∧ ∀ c ∈ u, isCode c = true ∧ c ≠ '\n' := by
  obtain ⟨⟨-, hname⟩, a, b, c, rfl⟩ := reference?_eq_some hs
  refine ⟨?_, "macro".toList ++ (List.replicate a ' ' ++ '(' :: (List.replicate b ' ' ++
    (name.toList ++ List.replicate c ' '))), by simp, ?_⟩
  · rw [startsMacro, takeWhile_append_name]
    · decide
    · intro x hx
      cases a with
      | zero =>
        obtain rfl : '(' = x := by simpa using hx
        decide
      | succ a =>
        obtain rfl : ' ' = x := by simpa [List.replicate_succ] using hx
        decide
  · have space {n : Nat} {x : Char} (hx : x ∈ List.replicate n ' ') :
        isCode x = true ∧ x ≠ '\n' := by
      rw [List.eq_of_mem_replicate hx]
      decide
    simp only [List.mem_append, List.mem_cons]
    rintro x (hx | hx | rfl | hx | hx | hx)
    · have hall : ∀ c ∈ "macro".toList, isCode c = true ∧ c ≠ '\n' :=
        forall_mem_of_all (by decide)
      exact hall x hx
    · exact space hx
    · decide
    · exact space hx
    · have hchar : Text.isNameChar x = true := hname x hx
      refine ⟨Lexer.isCode_of_isNumberChar (by simp [Lexer.isNumberChar, hchar]), ?_⟩
      rintro rfl
      exact absurd hchar (by decide)
    · exact space hx

private theorem startsMacro_head (h : startsMacro (c :: r) = true) : Text.isNameChar c = true := by
  cases hc : Text.isNameChar c with
  | true => rfl
  | false =>
    rw [startsMacro, List.takeWhile_cons, hc] at h
    cases h

/-! ## Expansion -/

section Expand

variable {pos : Pos} {x : Expansion}

/-- There are two quotes. -/
theorem isQuote_iff : isQuote c = true ↔ c = '\'' ∨ c = '"' := by simp [isQuote]

/-- A character outside of strings that starts no reference is left as it is. -/
theorem expandFrom_push (hq : isQuote c = false)
    (href : (if inName then none else reference? (c :: r)) = none)
    (hx : expandFrom macros pos none inName (c :: r) = .ok x) : ∃ x',
      expandFrom macros (after pos c) none (Text.isNameChar c) r = .ok x' ∧
        x.text = c :: x'.text := by
  have hq : ¬(c = '\'' ∨ c = '"') := fun h => by simp [isQuote_iff.2 h] at hq
  rw [expandFrom.eq_def] at hx
  simp only [hq, if_false] at hx
  split at hx
  · cases hx
  rw [href] at hx
  obtain ⟨x', hx', rfl⟩ := Lexer.ok_of_map hx
  exact ⟨x', hx', rfl⟩

/-- A character that is in no name is left where it is. -/
theorem expandFrom_head (hr : ∀ c ∈ r.head?, Text.isNameChar c = false)
    (hx : expandFrom macros pos none inName r = .ok x) : x.text.head? = r.head? := by
  cases r with
  | nil =>
    rw [expandFrom] at hx
    obtain rfl := Except.ok.inj hx
    rfl
  | cons c r =>
    have hc := hr c rfl
    cases hq : isQuote c with
    | true =>
      rw [expandFrom.eq_def] at hx
      simp only [isQuote_iff.1 hq, if_true] at hx
      obtain ⟨x', -, rfl⟩ := Lexer.ok_of_map hx
      rfl
    | false =>
      have href : (if inName then none else reference? (c :: r)) = none := by
        cases h : reference? (c :: r) with
        | none => simp
        | some y =>
          obtain ⟨name, r', hlt⟩ := y
          rw [startsMacro_head (reference?_eq h).1] at hc
          cases hc
      obtain ⟨x', -, hx'⟩ := expandFrom_push hq href hx
      rw [hx']
      rfl

/-- A name is not expanded from its middle on. -/
theorem expandFrom_name (hx : expandFrom macros pos none true r = .ok x) :
    x.text.takeWhile Text.isNameChar = r.takeWhile Text.isNameChar := by
  induction r generalizing pos x with
  | nil =>
    rw [expandFrom] at hx
    obtain rfl := Except.ok.inj hx
    rfl
  | cons c r ih =>
    cases hc : Text.isNameChar c with
    | true =>
      have hq : isQuote c = false := by
        refine Bool.eq_false_iff.2 fun hq => ?_
        rcases isQuote_iff.1 hq with rfl | rfl <;> exact absurd hc (by decide)
      obtain ⟨x', hx', he⟩ := expandFrom_push hq (by simp) hx
      rw [hc] at hx'
      rw [he, List.takeWhile_cons, List.takeWhile_cons, ih hx']
    | false =>
      have hhead := expandFrom_head (fun c' hc' => by
        obtain rfl : c = c' := by simpa using hc'
        exact hc) hx
      obtain ⟨r', hr'⟩ := List.head?_eq_some_iff.1 hhead
      rw [hr', List.takeWhile_cons, List.takeWhile_cons, hc]
      rfl

/-- A reference gives way to the value of its macro, if it has one. -/
theorem expandFrom_reference {name : String} {rest : List Char} {h : rest.length < (c :: r).length}
    (hq : isQuote c = false) (href : reference? (c :: r) = some (name, ⟨rest, h⟩))
    (hx : expandFrom macros pos none false (c :: r) = .ok x) :
    ∃ value x', macros.get? name = some value ∧
      expandFrom macros (afterAll pos ((c :: r).take ((c :: r).length - rest.length))) none false
        rest = .ok x' ∧ x.text = convert value ++ x'.text := by
  have hq : ¬(c = '\'' ∨ c = '"') := fun h => by simp [isQuote_iff.2 h] at hq
  rw [expandFrom.eq_def] at hx
  simp only [hq, if_false, Bool.false_eq_true] at hx
  split at hx
  · cases hx
  rw [href] at hx
  dsimp only at hx
  split at hx
  · cases hx
  · rename_i value hget
    obtain ⟨x', hx', hx⟩ := Parser.ok_of_bind hx
    cases hx
    exact ⟨value, x', hget, hx', rfl⟩

/-- Where expansion takes a character to stand. In a comment it goes on as outside of it. -/
inductive Fits : Mode → Option Char → Bool → Prop
  | code (inName : Bool) : Fits (.code inName) none inName
  | comment (inName : Bool) : Fits .comment none inName
  | string (quote : Char) (inName : Bool) : Fits (.string quote false) (some quote) inName

private theorem returnsAtEnd_return (r : List Char) :
    returnsAtEnd ('\r' :: r) = true ↔ ∀ c ∈ r.head?, c = '\n' := by
  cases r <;> simp [returnsAtEnd]

private theorem returnsAtEnd_cons (hc : c ≠ '\r') (r : List Char) :
    returnsAtEnd (c :: r) = true := by
  unfold returnsAtEnd
  split
  · rename_i he
    exact absurd (List.cons.inj he).1 hc
  · rfl

/-- A carriage return that ends a line still ends it. -/
theorem returnsAtEnd_expandFrom {inName' : Bool} (h : returnsAtEnd (c :: r) = true)
    (hx : expandFrom macros pos none inName' r = .ok x) : returnsAtEnd (c :: x.text) = true := by
  by_cases hc : c = '\r'
  · subst hc
    rw [returnsAtEnd_return] at h ⊢
    rw [expandFrom_head (fun c hc => by rw [h c hc]; decide) hx]
    exact h
  · exact returnsAtEnd_cons hc _

/-- A word that starts no reference is still that word. -/
theorem startsMacro_expandFrom (h : startsMacro (c :: r) = false)
    (hx : expandFrom macros pos none (Text.isNameChar c) r = .ok x) :
    startsMacro (c :: x.text) = false := by
  cases hc : Text.isNameChar c with
  | false =>
    refine Bool.eq_false_iff.2 fun hm => ?_
    exact absurd ((startsMacro_head hm).symm.trans hc) nofun
  | true =>
    rw [hc] at hx
    rw [startsMacro, List.takeWhile_cons, expandFrom_name hx, ← List.takeWhile_cons]
    exact h

/-- Outside of strings and comments, a character that starts no reference. -/
theorem isFree_push
    (href : (if inName then none else reference? (c :: r)) = none)
    (hs : isComplete macros (.code inName) (c :: r) = true)
    (hx : expandFrom macros pos none (Text.isNameChar c) r = .ok x)
    (hfree : isFree ((Mode.code inName).next c) x.text = true) :
    isFree (.code inName) (c :: x.text) = true := by
  obtain ⟨hword, hreturn, -⟩ := isComplete_code.1 hs
  refine isFree_code.2 ⟨?_, returnsAtEnd_expandFrom hreturn hx, hfree⟩
  rcases hword with rfl | hword | hword
  · exact .inl rfl
  · exact .inr (startsMacro_expandFrom hword hx)
  · cases inName with
    | true => exact .inl rfl
    | false =>
      have hnone : reference? (c :: r) = none := by simpa using href
      rw [isReplaced, hnone] at hword
      exact absurd hword nofun

/-- A reference gives way to a whole piece of a text. -/
theorem isFree_reference {name : String} {value : String} {h : r.length < s.length}
    (hs : isComplete macros (.code false) s = true) (href : reference? s = some (name, ⟨r, h⟩))
    (hget : macros.get? name = some value) (hx : expandFrom macros pos none false r = .ok x)
    (ih : isComplete macros (.code false) r = true → isFree (.code false) x.text = true) :
    isFree (.code false) (convert value ++ x.text) = true := by
  obtain ⟨hstart, u, rfl, hu⟩ := reference?_eq href
  obtain ⟨c, s, he⟩ : ∃ c s, u ++ ')' :: r = c :: s := List.exists_cons_of_ne_nil (by simp)
  have hreplaced : isReplaced macros (u ++ ')' :: r) = true := by
    rw [he] at hs hstart ⊢
    rcases (isComplete_code.1 hs).1 with hno | hno | hyes
    · exact absurd hno nofun
    · exact absurd (hstart.symm.trans hno) nofun
    · exact hyes
  rw [isReplaced, href] at hreplaced
  simp only [hget, Bool.and_eq_true, Bool.not_eq_true', Option.all_some] at hreplaced
  obtain ⟨inName, hclose⟩ := isComplete_append_code (fun c hc => (hu c hc).1) hs
  have hrest := ih (isComplete_code.1 hclose).2.2
  refine isFree_append_whole hreplaced.2 (fun c hc => ?_) hrest
  have hhead : ∀ c ∈ r.head?, Text.isNameChar c = false := fun c hc => by
    simpa [Option.mem_def.1 hc] using hreplaced.1
  rw [expandFrom_head hhead hx] at hc
  exact hhead c hc

/-- In a comment a reference gives way to characters of the comment. -/
theorem isFree_remark {name : String} {value : String} {h : r.length < (c :: s).length}
    (hs : isComplete macros .comment (c :: s) = true)
    (href : reference? (c :: s) = some (name, ⟨r, h⟩)) (hget : macros.get? name = some value)
    (ih : isComplete macros .comment r = true → isFree .comment x.text = true) :
    isFree .comment (convert value ++ x.text) = true := by
  obtain ⟨-, hremark, -⟩ := isComplete_comment.1 hs
  rw [isRemarked, href] at hremark
  simp only [hget, Option.all_some] at hremark
  obtain ⟨-, u, he, hu⟩ := reference?_eq href
  rw [he] at hs
  refine isFree_append_comment hremark (ih ?_)
  exact (isComplete_comment.1 (isComplete_append_comment (fun hm => (hu _ hm).2 rfl) hs)).2.2

/-- Expansion leaves no references in a text in which it finds all of them. -/
theorem isFree_expandFrom {quote : Option Char} (hm : Fits m quote inName)
    (hs : isComplete macros m s = true) (hx : expandFrom macros pos quote inName s = .ok x) :
    isFree m x.text = true := by
  induction pos, quote, inName, s using expandFrom.induct macros generalizing m x with
  | case1 pos quote inName =>
    rw [expandFrom] at hx
    obtain rfl := Except.ok.inj hx
    rfl
  | case2 pos inName q =>
    cases hm
    rw [expandFrom] at hx
    obtain rfl := Except.ok.inj hx
    rw [isFree_string]
    rfl
  | case3 pos inName q c r ih =>
    cases hm
    rw [expandFrom] at hx
    obtain ⟨x', hx', rfl⟩ := Lexer.ok_of_map hx
    have hnext : (Mode.string q false).next '\\' = .string q true := rfl
    rw [isComplete_string, hnext, isComplete_string] at hs
    show isFree _ ('\\' :: c :: x'.text) = true
    rw [isFree_string, hnext, isFree_string]
    exact ih (.string q false) hs hx'
  | case4 pos inName c r q hb ih =>
    cases hm
    rw [expandFrom.eq_def] at hx
    simp only [hb, if_false] at hx
    obtain ⟨x', hx', rfl⟩ := Lexer.ok_of_map hx
    rw [isComplete_string, Mode.next, if_neg hb] at hs
    show isFree _ (c :: x'.text) = true
    rw [isFree_string, Mode.next, if_neg hb]
    by_cases hc : c = q
    · simp only [hc, if_true] at ih hx' hs ⊢
      exact ih (.code false) hs hx'
    · simp only [hc, if_false] at ih hx' hs ⊢
      exact ih (.string q false) hs hx'
  | case5 pos inName c r hq ih =>
    have hq' := isQuote_iff.2 hq
    cases hm with
    | code =>
      rw [expandFrom.eq_def] at hx
      simp only [hq, if_true] at hx
      obtain ⟨x', hx', rfl⟩ := Lexer.ok_of_map hx
      have hnext : (Mode.code inName).next c = .string c false := if_pos hq'
      obtain ⟨-, -, hs⟩ := isComplete_code.1 hs
      rw [hnext] at hs
      have hname : Text.isNameChar c = false := by rcases hq with rfl | rfl <;> decide
      refine isFree_code.2 ⟨.inr ?_, returnsAtEnd_cons ?_ _, ?_⟩
      · exact Bool.eq_false_iff.2 fun h =>
          absurd ((startsMacro_head h).symm.trans hname) (by rintro ⟨⟩)
      · rcases hq with rfl | rfl <;> decide
      · rw [hnext]
        exact ih (.string c false) hs hx'
    | comment => cases (isComplete_comment.1 hs).1.symm.trans hq'
  | case6 pos inName c r hq hascii =>
    rw [expandFrom.eq_def] at hx
    simp only [hq, hascii, if_true, if_false] at hx
    cases hx
  | case7 pos inName c r hq _ name rest hlt href hget =>
    have hq : isQuote c = false := Bool.eq_false_iff.2 fun h => hq (isQuote_iff.1 h)
    cases inName with
    | true => cases href
    | false =>
      obtain ⟨value, -, hvalue, -⟩ := expandFrom_reference hq href hx
      cases hget.symm.trans hvalue
  | case8 pos inName c r hq _ name rest hlt href value hget skipped =>
    rename_i ih
    have hq : isQuote c = false := Bool.eq_false_iff.2 fun h => hq (isQuote_iff.1 h)
    cases inName with
    | true => cases href
    | false =>
      have href : reference? (c :: r) = some (name, ⟨rest, hlt⟩) := href
      obtain ⟨value, x', hvalue, hx', he⟩ := expandFrom_reference hq href hx
      rw [he]
      cases hm with
      | code =>
        exact isFree_reference hs href hvalue hx' fun hrest => ih (.code false) hrest hx'
      | comment =>
        exact isFree_remark hs href hvalue fun hrest => ih (.comment false) hrest hx'
  | case9 pos inName c r hq _ href ih =>
    have hq : isQuote c = false := Bool.eq_false_iff.2 fun h => hq (isQuote_iff.1 h)
    have href : (if inName then none else reference? (c :: r)) = none := by simpa using href
    obtain ⟨x', hx', he⟩ := expandFrom_push hq href hx
    rw [he]
    cases hm with
    | code =>
      refine isFree_push href hs hx' (ih ?_ (isComplete_code.1 hs).2.2 hx')
      rw [Mode.next, if_neg (by simp [hq])]
      split
      · exact .comment _
      · exact .code _
    | comment =>
      obtain ⟨-, -, hs⟩ := isComplete_comment.1 hs
      refine isFree_comment.2 ⟨hq, ih ?_ hs hx'⟩
      rw [Mode.next]
      split
      · rename_i hc
        subst hc
        exact .code _
      · exact .comment _

end Expand

end Expansion

/-! ## Calls -/

namespace Expr

/-- What is called by a name has the name within it. -/
theorem exists_name_of_callName? {e : Expr} {id : String} (h : e.callName? = some id) :
    ∃ x ∈ e.walk, x.name? = some id := by
  cases e with
  | call p func args =>
    refine ⟨func, ?_, h⟩
    rw [walk, List.mem_cons, List.mem_append]
    exact .inr (.inl (self_mem_walk func))
  | _ => exact absurd h nofun

end Expr

/-- A block that does not name what refers to macros calls it nowhere. -/
theorem Block.callName?_of_hasNames {b : Block} {id : String} (h : b.hasNames (· != id) = true) :
    ∀ e ∈ b.walk, e.callName? ≠ some id := by
  intro e he hcall
  obtain ⟨x, hx, hname⟩ := Expr.exists_name_of_callName? hcall
  have hwalk : x ∈ b.walk :=
    Stmt.walk_subset_of_mem_block (fun _ _ => Stmt.walk_subset_of_mem_walk) he hx
  have hok := List.all_eq_true.1 h x hwalk
  simp [hname] at hok

namespace Vu

/-- Once its macros are replaced, a statement in whose text all references are found has none. -/
theorem callName?_applyMacros {v v' : Vu} {macros : Table String}
    (hs : Expansion.isComplete macros (.code false) v.text = true)
    (h : v.applyMacros macros = .ok v') :
    ∀ e ∈ v'.expanded.walk, e.callName? ≠ some Predicate.textMacro.name := by
  obtain ⟨x, b, hx, hb, rfl⟩ := applyMacros_eq_ok h
  exact Block.callName?_of_hasNames
    (hasNames_of_isFree (Expansion.isFree_expandFrom (.code false) hs hx) hb)

/-- A statement whose comment refers to no macro and has no quote. -/
theorem callName?_applyMacros_comment :
    let v : Vu := ⟨"require(macro(regions) == 1)  # one region".toList, [], none, ⟨"", 1, 0⟩⟩
    let macros := Table.empty.insert "regions" "pname:regionCount"
    ∃ v', v.applyMacros macros = .ok v' ∧
      ∀ e ∈ v'.expanded.walk, e.callName? ≠ some Predicate.textMacro.name := by
  intro v macros
  have hok : (v.applyMacros macros).isOk = true := by decide +kernel
  cases h : v.applyMacros macros with
  | error e =>
    rw [h] at hok
    exact absurd hok nofun
  | ok v' => exact ⟨v', rfl, callName?_applyMacros (by decide +kernel) h⟩

/-- A quote in a comment hides the references behind it from expansion, but not from reading: the
reference to a macro that is not defined is still there. -/
theorem firstMacro?_applyMacros :
    let v : Vu := ⟨"require(a)  # don't\nrequire(macro(regions) == 1)".toList, [], none, ⟨"", 1, 0⟩⟩
    ((v.applyMacros .empty).toOption.bind fun v' => Tag.firstMacro? v'.expanded) =
      some "regions" := by
  decide +kernel

end Vu
end ValidUsage
