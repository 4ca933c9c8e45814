import ValidUsage.Proofs.CommentsInPlace
import ValidUsage.Proofs.PreparedLines

/-!
# Comments line by line

Keeping the comments of a text goes line by line. A line whose first sign is a hash, outside of
brackets, becomes a call with the indentation of the line; the string in the call is one token,
wherever the lexer meets the call, and stands for the text of the comment. Every other line stays.

No bracket and no quote in a comment counts, neither in the line nor in the call that it becomes. So
the brackets that are open at each line are the same before and after, and comments that are kept
are not taken for comments again.
-/

namespace ValidUsage
namespace Paragraph

open Lexer (Scans)

/-- What keeping comments makes of a line in front of which `depth` brackets are open. -/
inductive KeepsLine (depth : Nat) : List Char → List Char → Prop
  /-- A comment becomes a call behind the blanks in front of it, of its text without the hashes in
  front and the blanks around. -/
  | comment {lead r str : List Char} (outside : depth = 0)
      (blank : ∀ c ∈ lead, Text.isBlank c = true)
      (tokens : ∀ d rest, Scans d (commentName.toList ++ '(' :: (str ++ [')']))
        [(.name, commentName), (.op, "("), (.str, String.ofList str), (.op, ")")] d rest)
      (text : Literal.unquote str = Text.trim (('#' :: r).dropWhile (· = '#'))) :
      KeepsLine depth (lead ++ '#' :: r) (lead ++ (commentName.toList ++ '(' :: (str ++ [')'])))
  /-- A line that is no comment, or is within brackets, stays. -/
  | stays {line : List Char} (h : depth = 0 → (Text.trimStart line).head? ≠ some '#') :
      KeepsLine depth line line

/-- What keeping comments makes of lines, one by one, with the brackets that are open in front of
each line. -/
inductive KeepsLines : Nat → List (List Char) → List (List Char) → Prop
  | nil {depth : Nat} : KeepsLines depth [] []
  | cons {depth : Nat} {line kept : List Char} {lines keptLines : List (List Char)}
      (line_keeps : KeepsLine depth line kept)
      (rest : KeepsLines (bracketDepth none depth line) lines keptLines) :
      KeepsLines depth (line :: lines) (kept :: keptLines)

/-- Lines whose comments are kept are as many as before. -/
theorem KeepsLines.length_eq {depth : Nat} {lines keptLines : List (List Char)}
    (h : KeepsLines depth lines keptLines) : keptLines.length = lines.length := by
  induction h with
  | nil => rfl
  | cons _ _ ih => rw [List.length_cons, ih, List.length_cons]

/-! ## One comment -/

section Comment

variable {line kept : List Char}

private theorem keepComment?_eq_none_iff :
    keepComment? line = none ↔ (Text.trimStart line).head? ≠ some '#' := by
  unfold keepComment?
  split
  · rename_i r hr
    simp [hr]
  · rename_i hne
    refine iff_of_true rfl fun hh => ?_
    obtain ⟨r, hr⟩ := List.head?_eq_some_iff.1 hh
    exact hne r hr

/-- The blanks in front of a line are blank. -/
theorem isBlank_of_mem_lead {c : Char} (hc : c ∈ Text.lead line) : Text.isBlank c = true :=
  List.all_eq_true.1 List.all_takeWhile c hc

/-- The blanks in front of a line do not count as brackets. -/
theorem bracketDepth_lead (hline : '\n' ∉ line) (d : Nat) (s : List Char) :
    bracketDepth none d (Text.lead line ++ s) = bracketDepth none d s :=
  bracketDepth_append (fun _ hc => isNeutral_of_isBlank (isBlank_of_mem_lead hc) fun he =>
    hline (he ▸ (List.takeWhile_prefix _).mem hc)) d s

/-- Nor does a comment. -/
theorem bracketDepth_hash (d : Nat) (r : List Char) : bracketDepth none d ('#' :: r) = d := by
  rw [bracketDepth]
  simp

private theorem bracketDepth_commentCall (d : Nat) (text : List Char) :
    bracketDepth none d (commentCall text) = d := by
  have := (lineEnd_kept_comment (String.ofList text)).2 d
  simpa [Mark.kept, commentCall, commentArguments] using this

/-- The string of a call is one token, wherever the call stands. -/
theorem scans_commentCall {text : List Char} (h : '\n' ∉ text) (d : Nat) (r : List Char) :
    Scans d (commentCall text)
      [(.name, commentName), (.op, "("),
        (.str, String.ofList ('"' :: (quoteComment text ++ ['"']))), (.op, ")")] d r := by
  have hword : IsWord commentName :=
    .of_toList '_' ['_', 'c', 'o', 'm', 'm', 'e', 'n', 't'] rfl (by decide)
  have hname := Lexer.scans_word hword (d := d) (r := commentArguments text ++ r) fun c hc => by
    obtain rfl : '(' = c := by simpa [commentArguments] using hc
    decide
  simpa [commentCall, commentArguments] using hname.append (Stmt.scans_commentArguments h d r)

/-- The string of a call stands for the text. -/
theorem unquote_commentString (text : List Char) :
    Literal.unquote ('"' :: (quoteComment text ++ ['"'])) = text := by
  rw [Literal.unquote, List.drop_one, List.tail_cons, List.dropLast_concat,
    Literal.unescape_quoteComment]

/-- A comment that is kept is not a comment again, and leaves no bracket open. -/
theorem keepComment?_kept (hline : '\n' ∉ line) (h : keepComment? line = some kept) :
    keepComment? kept = none ∧ bracketDepth none 0 line = 0 ∧ bracketDepth none 0 kept = 0 := by
  obtain ⟨r, hstart, rfl⟩ := exists_of_keepComment? h
  refine ⟨?_, ?_, ?_⟩
  · obtain ⟨s, hs⟩ : ∃ s, commentCall (commentText ('#' :: r)) = '_' :: s := ⟨_, rfl⟩
    rw [keepComment?_eq_none_iff, Text.trimStart_append fun c hc => isBlank_of_mem_lead hc, hs,
      Text.trimStart_cons (by decide)]
    simp
  · rw [← Text.lead_append_trimStart line, bracketDepth_lead hline, hstart, bracketDepth_hash]
  · rw [bracketDepth_lead hline, bracketDepth_commentCall]

/-- A comment that is kept is the call of its text. -/
theorem keepsLine_comment (hline : '\n' ∉ line) (h : keepComment? line = some kept) :
    KeepsLine 0 line kept := by
  obtain ⟨r, hstart, rfl⟩ := exists_of_keepComment? h
  have hr : line = Text.lead line ++ '#' :: r := by rw [← hstart, Text.lead_append_trimStart]
  have htext : '\n' ∉ commentText ('#' :: r) := by
    intro hm
    have hm : '\n' ∈ '#' :: r := (List.dropWhile_suffix _).mem ((Text.trim_infix _).mem hm)
    exact hline (hr ▸ List.mem_append_right _ hm)
  have hcall : commentCall (commentText ('#' :: r)) = commentName.toList ++
      '(' :: ('"' :: (quoteComment (commentText ('#' :: r)) ++ ['"']) ++ [')']) := by
    simp [commentCall, commentArguments]
  have hblank : ∀ c ∈ Text.lead line, Text.isBlank c = true := fun _ => isBlank_of_mem_lead
  have hscans := scans_commentCall htext
  rw [hcall] at hscans ⊢
  have hkeeps := KeepsLine.comment rfl hblank hscans (unquote_commentString _)
  rwa [← hr] at hkeeps

end Comment

/-! ## All lines -/

section Lines

variable {depth : Nat} {line kept : List Char} {lines : List (List Char)}

private theorem keepCommentLines_comment (h : keepComment? line = some kept)
    (lines : List (List Char)) :
    keepCommentLines 0 (line :: lines) = kept :: keepCommentLines 0 lines := by
  simp [keepCommentLines, h]

private theorem keepCommentLines_stays (h : depth = 0 → keepComment? line = none)
    (lines : List (List Char)) : keepCommentLines depth (line :: lines) =
      line :: keepCommentLines (bracketDepth none depth line) lines := by
  cases depth with
  | zero => simp [keepCommentLines, h]
  | succ depth => simp [keepCommentLines]

/-- A line is a comment outside of brackets or not. -/
theorem comment_or_stays (depth : Nat) (line : List Char) :
    (depth = 0 ∧ ∃ kept, keepComment? line = some kept) ∨
      (depth = 0 → keepComment? line = none) := by
  by_cases hd : depth = 0
  · cases h : keepComment? line with
    | none => exact .inr fun _ => rfl
    | some kept => exact .inl ⟨hd, kept, rfl⟩
  · exact .inr fun h => absurd h hd

private theorem keepsLines_keepCommentLines (h : ∀ l ∈ lines, '\n' ∉ l) (depth : Nat) :
    KeepsLines depth lines (keepCommentLines depth lines) := by
  induction lines generalizing depth with
  | nil => exact .nil
  | cons line lines ih =>
    obtain ⟨hline, hlines⟩ := List.forall_mem_cons.1 h
    rcases comment_or_stays depth line with ⟨rfl, kept, hkept⟩ | hstays
    · rw [keepCommentLines_comment hkept]
      refine .cons (keepsLine_comment hline hkept) ?_
      rw [(keepComment?_kept hline hkept).2.1]
      exact ih hlines 0
    · rw [keepCommentLines_stays hstays]
      exact .cons (.stays fun hd => keepComment?_eq_none_iff.1 (hstays hd)) (ih hlines _)

/-- Lines whose comments are kept have no comments left to keep. -/
theorem keepCommentLines_again (h : ∀ l ∈ lines, '\n' ∉ l) (depth : Nat) :
    keepCommentLines depth (keepCommentLines depth lines) = keepCommentLines depth lines := by
  induction lines generalizing depth with
  | nil => rfl
  | cons line lines ih =>
    obtain ⟨hline, hlines⟩ := List.forall_mem_cons.1 h
    rcases comment_or_stays depth line with ⟨rfl, kept, hkept⟩ | hstays
    · obtain ⟨hnone, -, hdepth⟩ := keepComment?_kept hline hkept
      rw [keepCommentLines_comment hkept, keepCommentLines_stays fun _ => hnone, hdepth, ih hlines]
    · rw [keepCommentLines_stays hstays, keepCommentLines_stays hstays, ih hlines]

end Lines

/-- Keeping the comments of a text keeps its lines, each of which stays or becomes the call of the
comment that it is. Doing so again changes nothing. -/
theorem keepComments_line_by_line (s : List Char) :
    (Text.splitOn '\n' (keepComments s)).length = (Text.splitOn '\n' s).length ∧
      KeepsLines 0 (Text.splitOn '\n' s) (Text.splitOn '\n' (keepComments s)) ∧
      keepComments (keepComments s) = keepComments s := by
  have hn : ∀ l ∈ Text.splitOn '\n' s, '\n' ∉ l := fun l hl => Text.not_mem_of_mem_splitOn hl
  have hsplit : Text.splitOn '\n' (keepComments s) = keepCommentLines 0 (Text.splitOn '\n' s) := by
    have := splitOn_keepComments (Text.splitOn_ne_nil '\n' s) hn
    rwa [Text.join_splitOn] at this
  have hkeeps := keepsLines_keepCommentLines hn 0
  rw [← hsplit] at hkeeps
  refine ⟨hkeeps.length_eq, hkeeps, ?_⟩
  rw [keepComments, hsplit, keepCommentLines_again hn, keepComments]

/-- A comment with quotes, a backslash and a bracket, in front of one that stands in brackets. -/
theorem keepComments_line_by_line_quotes :
    let s := "  ## say \"a\\b\" (twice \nrequire(f(\n# inner\n))".toList
    let kept := "  __comment(\"say \\\"a\\\\b\\\" (twice\")\nrequire(f(\n# inner\n))".toList
    keepComments s = kept ∧ KeepsLines 0 (Text.splitOn '\n' s) (Text.splitOn '\n' kept) ∧
      keepComments kept = kept := by
  intro s kept
  have h : keepComments s = kept := by decide +kernel
  obtain ⟨-, hlines, hagain⟩ := keepComments_line_by_line s
  rw [h] at hlines hagain
  exact ⟨h, hlines, hagain⟩

end Paragraph
end ValidUsage
