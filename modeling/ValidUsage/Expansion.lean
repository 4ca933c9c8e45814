import ValidUsage.Syntax.Token
import ValidUsage.Table
import ValidUsage.Text.Blank
import ValidUsage.Text.Lines
import ValidUsage.Text.Search

/-!
# Expanding references to macros

A document defines macros by name, and a statement refers to one as `macro(name)`. Expansion reads
the text once from left to right. Outside of strings, and not inside of a name, each well-formed
reference gives way to the value of its macro; values are not searched again. A character outside of
the ASCII range that stands outside of strings cannot be scanned.
-/

namespace ValidUsage

/-- Why a text cannot be expanded. -/
inductive MacroError where
  /-- A reference at a position names no macro. Columns count bytes. -/
  | undefined (name : String) (pos : Pos)
  /-- The expanded text cannot be read. -/
  | unreadable (e : SyntaxError)
  /-- A character outside of strings cannot be scanned. -/
  | unscannable
  deriving DecidableEq, Repr

/-- The position of an error. A text that cannot be scanned has none. -/
def MacroError.pos? : MacroError → Option Pos
  | .undefined _ pos => some pos
  | .unreadable e => some e.pos
  | .unscannable => none

/-- The message for an error. -/
def MacroError.message : MacroError → String
  | .undefined name _ => "macro `" ++ name ++ "` is not defined"
  | .unreadable e => "macro expansion produced invalid syntax: " ++ e.display
  | .unscannable => "macro expansion met a character outside of ASCII"

/-- A text with its references replaced. -/
structure Expansion where
  /-- The text. -/
  text : List Char
  /-- The names that were referred to, in ascending order. -/
  used : List String
  deriving DecidableEq, Repr

namespace Expansion

/-- The value of a macro in the language of statements: markers of parameters are dropped, and
arrows become points. -/
def convert (value : String) : List Char :=
  Text.replaceAll ['-', '>'] ['.'] (Text.replaceAll "pname:".toList [] (Text.trim value.toList))

/-- The text between braces, if a name is written so. -/
def braced? (api : String) : Option String :=
  ((Text.stripPrefix? ['{'] api.toList).bind (Text.stripSuffix? ['}'])).map String.ofList

/-- The name of an API, which may be given by a macro in braces. -/
def resolveApi? (macros : Table String) (api : String) : Option String :=
  match braced? api with
  | some name => (macros.get? name).map fun v => String.ofList (convert v)
  | none => some api

/-- A text without the blanks at its front. -/
def skipSpaces (s : List Char) : List Char := s.dropWhile (· = ' ')

/-- Skipping does not lengthen a text. -/
theorem length_skipSpaces (s : List Char) : (skipSpaces s).length ≤ s.length :=
  (List.dropWhile_suffix _).length_le

/-- The name of the reference at the front of a text, and the text after it. -/
def reference? (s : List Char) : Option (String × { r : List Char // r.length < s.length }) :=
  match hm : Text.stripPrefix? "macro".toList s with
  | none => none
  | some r =>
    have hr : r.length ≤ s.length := by
      simp only [Text.stripPrefix?] at hm
      split at hm
      · simp only [Option.some.injEq] at hm
        simp [← hm]
      · contradiction
    have h₁ := length_skipSpaces r
    match ho : skipSpaces r with
    | '(' :: r₁ =>
      let name := (skipSpaces r₁).takeWhile Text.isNameChar
      have h₂ := length_skipSpaces r₁
      have h₃ := (List.dropWhile_suffix (l := skipSpaces r₁) Text.isNameChar).length_le
      have h₄ := length_skipSpaces ((skipSpaces r₁).dropWhile Text.isNameChar)
      match hc : skipSpaces ((skipSpaces r₁).dropWhile Text.isNameChar) with
      | ')' :: r₂ =>
        if name.isEmpty then none
        else some (String.ofList name, ⟨r₂, by
          rw [ho] at h₁
          rw [hc] at h₄
          simp only [List.length_cons] at h₁ h₄
          omega⟩)
      | _ => none
    | _ => none

/-- The position after a character; columns count bytes. -/
def after (p : Pos) (c : Char) : Pos :=
  if c = '\n' then ⟨p.line + 1, 1⟩ else ⟨p.line, p.col + c.utf8Size⟩

/-- The position after some characters. -/
def afterAll (p : Pos) (s : List Char) : Pos := s.foldl after p

/-- The expansion with a character in front. -/
def push (c : Char) (x : Expansion) : Expansion := ⟨c :: x.text, x.used⟩

/-- Expand a text that begins at a position: `quote` is the quote of the string that it begins in,
and `inName` whether the character before it may continue a name. -/
def expandFrom (macros : Table String) (pos : Pos) (quote : Option Char) (inName : Bool) :
    List Char → Except MacroError Expansion
  | [] => .ok ⟨[], []⟩
  | c :: r =>
    match quote with
    | some q =>
      if c = '\\' then
        match r with
        | [] => .ok ⟨[c], []⟩
        | c' :: r' =>
          (expandFrom macros (after (after pos c) c') quote false r').map (push c ∘ push c')
      else (expandFrom macros (after pos c) (if c = q then none else quote) false r).map (push c)
    | none =>
      if c = '\'' ∨ c = '"' then
        (expandFrom macros (after pos c) (some c) false r).map (push c)
      else if 0x80 ≤ c.toNat then .error .unscannable
      else
        match if inName then none else reference? (c :: r) with
        | some (name, ⟨rest, _⟩) =>
          match macros.get? name with
          | none => .error (.undefined name pos)
          | some value => do
            let skipped := (c :: r).take ((c :: r).length - rest.length)
            let x ← expandFrom macros (afterAll pos skipped) none false rest
            return ⟨convert value ++ x.text, NameSet.insert name x.used⟩
        | none => (expandFrom macros (after pos c) none (Text.isNameChar c) r).map (push c)
termination_by s => s.length
decreasing_by all_goals (simp only [List.length_cons] at *; omega)

end Expansion

/-- A text with every reference to a macro replaced by its value. -/
def expand (macros : Table String) (s : List Char) : Except MacroError Expansion :=
  Expansion.expandFrom macros ⟨1, 1⟩ none false s

end ValidUsage
