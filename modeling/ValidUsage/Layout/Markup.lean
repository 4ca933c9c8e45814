import ValidUsage.Layout.Stmt
import ValidUsage.Text.Lines
import ValidUsage.Types.Subject

/-!
# Markup

The style of the built documentation. Keywords, operators, numbers, predicates and comments have a
role, names of the API link to where they are documented, and blanks and brackets are spelled as
entities. `Markup.plain` takes all of it away again, one kind of decoration after the other.
-/

namespace ValidUsage.Markup

/-- A text in a role. -/
def role (name text : String) : List Char :=
  "[vu-".toList ++ name.toList ++ "]##".toList ++ text.toList ++ "##".toList

/-- A text that refers to a target. -/
def reference (target text : String) : String := "<<" ++ target ++ "," ++ text ++ ">>"

/-- The reference to a feature. -/
def featureLink (id : String) : String := reference ("features-" ++ id) id

/-- The link of a name that stands for a value: to the parameter of the subject, or to its entry of
the API. Names that the statement binds and `NULL` have none. -/
def link? (s : Subject) (id : String) : Option String :=
  if id = "NULL" then none
  else if s.isParameter id then some ("pname:" ++ id)
  else (s.registry.link? id).map fun link => link ++ ":" ++ id

/-- The spelling of a mark in the documentation of a subject. -/
def spell (s : Subject) : Mark → List Char
  | .plain t => t.toList
  | .keyword t => role "keyword" t
  | .operator t => role "operator" t
  | .number t => role "number" t
  | .literal t => if t.toList.head? = some '\'' then t.toList else role "keyword" t
  | .name id => ((link? s id).getD id).toList
  | .feature id => (featureLink id).toList
  | .predicate name => role "predicate" (reference ("vu-predicate-" ++ name) name)
  | .comment t => role "comment" ("&#x23; " ++ t)
  | .openParen => "&lpar;".toList
  | .closeParen => "&rpar;".toList
  | .openBracket => "&lsqb;".toList
  | .closeBracket => "&rsqb;".toList
  | .lineBreak indent => " +\n".toList ++ (List.replicate indent "&nbsp;".toList).flatten

/-- The style of the documentation of a subject. -/
def style (s : Subject) : Style := ⟨"[vu]#", "#", spell s⟩

/-- The markup of a whole statement of valid usage. -/
def render (s : Subject) (b : Block) : List Char := (style s).document b.layout

/-- The text within the frame of a whole statement, if it is complete. -/
def unframe (s : List Char) : List Char :=
  ((Text.stripPrefix? "[vu]#".toList s).bind (Text.stripSuffix? ['#'])).getD s

/-- A text in a role, found in a text: what comes before it, the text and what follows. -/
def role? (s : List Char) : Option (List Char × List Char × List Char) := do
  let (before, r) ← Text.breakOn "[vu-".toList s
  let (_, r) ← Text.breakOn "]##".toList r
  let (inner, rest) ← Text.breakOn "##".toList r
  return (before, inner, rest)

/-- What follows a role is shorter than the text searched. -/
theorem role?_length {s before inner rest : List Char} (h : role? s = some (before, inner, rest)) :
    rest.length < s.length := by
  simp only [role?, bind, Option.bind_eq_some_iff, pure, Option.some.injEq, Prod.mk.injEq,
    Prod.exists] at h
  obtain ⟨_, _, h₁, _, _, h₂, _, _, h₃, _, _, rfl⟩ := h
  have l₁ := Text.breakOn_length h₁
  have l₂ := Text.breakOn_length h₂
  have l₃ := Text.breakOn_length h₃
  have : "[vu-".toList.length = 4 := by decide
  omega

/-- The text without roles. What follows a role that is not complete stays as it is. -/
def dropRoles (s : List Char) : List Char :=
  match _found : role? s with
  | none => s
  | some (before, inner, rest) => before ++ inner ++ dropRoles rest
termination_by s.length
decreasing_by exact role?_length _found

/-- A reference found in a text: what comes before it, what it encloses and what follows. -/
def reference? (s : List Char) : Option (List Char × List Char × List Char) := do
  let (before, r) ← Text.breakOn "<<".toList s
  let (inner, rest) ← Text.breakOn ">>".toList r
  return (before, inner, rest)

/-- What follows a reference is shorter than the text searched. -/
theorem reference?_length {s before inner rest : List Char}
    (h : reference? s = some (before, inner, rest)) : rest.length < s.length := by
  simp only [reference?, bind, Option.bind_eq_some_iff, pure, Option.some.injEq, Prod.mk.injEq,
    Prod.exists] at h
  obtain ⟨_, _, h₁, _, _, h₂, _, _, rfl⟩ := h
  have l₁ := Text.breakOn_length h₁
  have l₂ := Text.breakOn_length h₂
  have : "<<".toList.length = 2 := by decide
  omega

/-- The text that a reference shows: all after the last comma. -/
def shown (inner : List Char) : List Char := ((Text.splitOn ',' inner).getLast?).getD inner

/-- The text with every reference replaced by the text that it shows. -/
def dropReferences (s : List Char) : List Char :=
  match _found : reference? s with
  | none => s
  | some (before, inner, rest) => before ++ shown inner ++ dropReferences rest
termination_by s.length
decreasing_by exact reference?_length _found

/-- The entities of the markup with the characters that they stand for. -/
def entities : List (String × Char) :=
  [("&nbsp;", ' '), ("&lpar;", '('), ("&rpar;", ')'), ("&lsqb;", '['), ("&rsqb;", ']'),
   ("&#x23;", '#')]

/-- The text with entities replaced by their characters, one entity after the other. -/
def dropEntities (s : List Char) : List Char :=
  entities.foldl (fun s e => Text.replaceAll e.1.toList [e.2] s) s

/-- The kinds of links that stand before a name. -/
def linkKinds : List String :=
  ["pname", "sname", "slink", "elink", "ename", "tlink", "dlink", "flink", "basetype", "apiext"]

/-- Whether a word with what follows it is a link to a name. -/
def isLink (word after : List Char) : Bool :=
  linkKinds.contains (String.ofList word) &&
    match after with
    | ':' :: c :: _ => Text.isNameChar c
    | _ => false

/-- What follows a word that starts with a letter is shorter than the text. -/
theorem length_dropWhile_word_lt {s : List Char} (h : s.dropWhile (!Text.isLetter ·) ≠ []) :
    ((s.dropWhile (!Text.isLetter ·)).dropWhile Text.isNameChar).length < s.length := by
  have hle := (List.dropWhile_suffix (!Text.isLetter ·) (l := s)).length_le
  match hr : s.dropWhile (!Text.isLetter ·) with
  | [] => contradiction
  | c :: r =>
    have hc : Text.isLetter c = true := by
      have := List.head_dropWhile_not (!Text.isLetter ·) h
      simpa [hr] using this
    have hn : Text.isNameChar c = true := by
      simp only [Text.isLetter] at hc
      simp [Text.isNameChar, Char.isAlphanum, hc]
    rw [List.dropWhile_cons_of_pos hn]
    have := (List.dropWhile_suffix Text.isNameChar (l := r)).length_le
    rw [hr] at hle
    simp only [List.length_cons] at hle
    omega

/-- The text without the kinds of its links. A word that continues what precedes it, as after a
link that was taken away from behind a digit, is no link. -/
def dropLinks (previous : Option Char) (s : List Char) : List Char :=
  let gap := s.takeWhile (!Text.isLetter ·)
  if _h : s.dropWhile (!Text.isLetter ·) = [] then gap
  else
    let word := (s.dropWhile (!Text.isLetter ·)).takeWhile Text.isNameChar
    let after := (s.dropWhile (!Text.isLetter ·)).dropWhile Text.isNameChar
    let continues := gap.isEmpty && previous.any Text.isNameChar
    if !continues && isLink word after then
      gap ++ dropLinks (gap.getLast?.or previous) (after.drop 1)
    else gap ++ word ++ dropLinks word.getLast? after
termination_by s.length
decreasing_by
  · have := length_dropWhile_word_lt _h
    simp only [List.length_drop]
    omega
  · exact length_dropWhile_word_lt _h

/-- The source text that markup was made from. -/
def plain (s : List Char) : List Char :=
  dropLinks none (dropEntities (dropReferences (dropRoles
    (Text.replaceAll " +\n".toList ['\n'] (unframe s)))))

end ValidUsage.Markup
