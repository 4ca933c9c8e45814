import Mathlib.Data.List.Forall2
import ValidUsage.Proofs.PrepareLayout

/-!
# What preparing leaves of a line

The common indentation is a number of bytes, and no more than the blanks in front of any line that
has words. So cutting it off takes blanks alone away, or it falls inside of one of these blanks, and
then nothing is left of the line.
-/

namespace ValidUsage

namespace Text

variable {n : Nat} {a u v s r : List Char} {c : Char}

/-- Inside of a character there is no place to start from. -/
theorem dropBytes?_inside (hlow : byteLength a < n) (hhigh : n < byteLength a + c.utf8Size) :
    dropBytes? n (a ++ c :: s) = none := by
  induction a generalizing n with
  | nil =>
    cases n with
    | zero => exact absurd hlow (Nat.lt_irrefl 0)
    | succ n =>
      rw [List.nil_append, dropBytes?, if_neg]
      simp only [byteLength] at hhigh
      omega
  | cons c' a ih =>
    rw [byteLength] at hlow hhigh
    cases n with
    | zero => omega
    | succ n =>
      rw [List.cons_append, dropBytes?, if_pos (by omega)]
      exact ih (by omega) (by omega)

/-- As many bytes as there are in front of a text leave the text, and some of what is in front of
it, unless they end inside of a character. -/
theorem dropBytes?_append (h : n ≤ byteLength u) (s : List Char) :
    (∃ v, v <:+ u ∧ dropBytes? n (u ++ s) = some (v ++ s)) ∨
      ∃ a c v, u = a ++ c :: v ∧ byteLength a < n ∧ n < byteLength a + c.utf8Size := by
  induction u generalizing n with
  | nil =>
    obtain rfl : n = 0 := Nat.le_zero.1 h
    exact .inl ⟨[], List.suffix_rfl, by rw [dropBytes?.eq_def]⟩
  | cons c u ih =>
    cases n with
    | zero => exact .inl ⟨c :: u, List.suffix_rfl, by rw [dropBytes?.eq_def]⟩
    | succ n =>
      rw [byteLength] at h
      by_cases hc : c.utf8Size ≤ n + 1
      · rcases ih (n := n + 1 - c.utf8Size) (by omega) with
          ⟨v, hv, he⟩ | ⟨a, c', v, rfl, hlow, hhigh⟩
        · refine .inl ⟨v, hv.trans (List.suffix_cons c u), ?_⟩
          rw [List.cons_append, dropBytes?, if_pos hc, he]
        · refine .inr ⟨c :: a, c', v, rfl, ?_, ?_⟩ <;> rw [byteLength] <;> omega
      · refine .inr ⟨[], c, u, rfl, Nat.succ_pos n, ?_⟩
        rw [byteLength]
        omega

/-! ## Trimming at the end -/

/-- The blanks in front of a text are blank. -/
theorem isBlank_of_mem_lead (h : c ∈ lead s) : isBlank c = true :=
  List.all_eq_true.1 List.all_takeWhile c h

/-- The blanks in front of words stay when the end is trimmed. -/
theorem trimEnd_eq_lead_append (h : trim s ≠ []) : trimEnd s = lead s ++ trim s := by
  conv_lhs => rw [← lead_append_trimStart s]
  exact trimEnd_append_of_ne_nil h _

private theorem head?_trim (s : List Char) : ∀ c ∈ (trim s).head?, isBlank c = false := fun c hc =>
  head?_trimStart s c (head?_trimEnd _ c hc)

private theorem lead_trimEnd (h : trim s ≠ []) : lead (trimEnd s) = lead s := by
  rw [trimEnd_eq_lead_append h]
  exact takeWhile_append_of_head (fun c => isBlank_of_mem_lead) (head?_trim s)

/-- Without words nothing is left at the end. -/
theorem trimEnd_eq_nil (h : trim s = []) : trimEnd s = [] := by
  rcases trimEnd_eq_nil_or_concat s with he | ⟨r, c, he, hc⟩
  · exact he
  · rw [← trim_trimEnd, he] at h
    exact absurd h (trim_ne_nil (List.mem_append_right r (List.mem_singleton_self c)) hc)

private theorem trimStart_trimEnd (s : List Char) : trimStart (trimEnd s) = trim s := by
  by_cases h : trim s = []
  · rw [trimEnd_eq_nil h, h, trimStart_nil]
  · rw [trimEnd_eq_lead_append h]
    exact dropWhile_append_of_head (fun c => isBlank_of_mem_lead) (head?_trim s)

/-- Blanks at the start are trimmed away. -/
theorem trim_append_left (h : ∀ c ∈ u, isBlank c = true) (s : List Char) :
    trim (u ++ s) = trim s := by
  rw [trim, trim, trimStart_append h]

end Text

namespace Paragraph

variable {n : Nat} {line piece : List Char} {lines : List (List Char)}

/-- What a first line says: what stands behind its bullet. An asterisk with nothing but blanks
behind it is no bullet. -/
def content (line : List Char) : List Char :=
  if Text.trim line = ['*'] then line else unbullet line

/-- Whether a number of bytes ends inside of one of the blanks in front of the words of a line. -/
def Splits (n : Nat) (line : List Char) : Prop :=
  Text.trim line ≠ [] ∧ ∃ u c v, Text.lead line = u ++ c :: v ∧
    Text.byteLength u < n ∧ n < Text.byteLength u + c.utf8Size

/-- Whether a text is what preparing may make of a line: the same words, or nothing at all where the
indentation to be removed ends inside of a blank. -/
structure Prepares (n : Nat) (line piece : List Char) : Prop where
  /-- The words are kept. -/
  trim_eq : ¬Splits n line → Text.trim piece = Text.trim line
  /-- A line whose blanks are split is lost. -/
  eq_nil : Splits n line → piece = []

/-! ## The bullet -/

/-- Whether trailing blanks are removed before the bullet or behind it is the same. -/
theorem unbullet_trimEnd (line : List Char) :
    unbullet (Text.trimEnd line) = Text.trimEnd (content line) := by
  by_cases hb : bullet <+: Text.trimStart line
  · obtain ⟨rest, hrest⟩ := hb
    by_cases hwords : Text.trimEnd rest = []
    · have hstar : Text.trim line = ['*'] := by
        obtain ⟨u, hu, hblank⟩ := Text.exists_trimEnd rest
        rw [hwords, List.nil_append] at hu
        have hsplit : Text.trimStart line = ['*'] ++ ' ' :: u := by rw [← hrest, hu]; rfl
        rw [Text.trim, hsplit, Text.trimEnd_append (List.forall_mem_cons.2 ⟨by decide, hblank⟩)]
        exact Text.trimEnd_concat (s := []) (by decide)
      rw [content, if_pos hstar]
      refine unbullet_of_not ?_
      rw [Text.trimStart_trimEnd, hstar]
      decide
    · have htrim : Text.trim line = bullet ++ Text.trimEnd rest := by
        rw [Text.trim, ← hrest, Text.trimEnd_append_of_ne_nil hwords]
      have hne : Text.trim line ≠ [] := by rw [htrim]; exact List.cons_ne_nil _ _
      have hstar : Text.trim line ≠ ['*'] := by
        rw [htrim]
        exact fun he => absurd (List.cons.inj he).2 (List.cons_ne_nil _ _)
      rw [content, if_neg hstar, unbullet_of_bullet hrest.symm,
        Text.trimEnd_append_of_ne_nil hwords,
        unbullet_of_bullet ((Text.trimStart_trimEnd line).trans htrim), Text.lead_trimEnd hne]
  · have hstays : content line = line := by
      unfold content
      split
      · rfl
      · exact unbullet_of_not hb
    rw [hstays]
    refine unbullet_of_not fun hb' => hb ?_
    rw [Text.trimStart_trimEnd] at hb'
    exact hb'.trans (Text.trimEnd_prefix_self _)

private theorem unbulleted_cons (line : List Char) (lines : List (List Char)) :
    unbulleted (line :: lines) = (content line :: lines).map Text.trimEnd := by
  rw [unbulleted, unbullet_trimEnd]
  rfl

private theorem not_mem_content (h : '\n' ∉ line) : '\n' ∉ content line := by
  intro hm
  unfold content at hm
  split at hm
  · exact h hm
  · by_cases hb : bullet <+: Text.trimStart line
    · obtain ⟨rest, hrest⟩ := hb
      rw [unbullet_of_bullet hrest.symm] at hm
      rcases List.mem_append.1 hm with hm | hm
      · exact not_mem_blanks _ hm
      · exact h ((Text.trimStart_suffix line).mem (hrest ▸ List.mem_append_right _ hm))
    · rw [unbullet_of_not hb] at hm
      exact h hm

/-! ## The indentation -/

/-- The common indentation is no more than that of any line with words. -/
theorem commonIndent_le (hm : line ∈ lines) (h : Text.trim line ≠ []) :
    commonIndent lines ≤ Text.byteLength (Text.lead line) := by
  let widths := (lines.filter fun l => !(Text.trim l).isEmpty).map fun l =>
    Text.byteLength (Text.lead l)
  have hwidth : Text.byteLength (Text.lead line) ∈ widths :=
    List.mem_map.2 ⟨line, List.mem_filter.2 ⟨hm, by simpa using h⟩, rfl⟩
  change widths.min?.getD 0 ≤ _
  cases hmin : widths.min? with
  | none =>
    rw [List.min?_eq_none_iff.1 hmin] at hwidth
    exact absurd hwidth List.not_mem_nil
  | some n => exact (List.min?_eq_some_iff.1 hmin).2 _ hwidth

/-- Cutting off no more than the indentation keeps the words or loses the line. -/
theorem prepares_dropBytes (h : Text.trim line ≠ [] → n ≤ Text.byteLength (Text.lead line)) :
    Prepares n line ((Text.dropBytes? n (Text.trimEnd line)).getD []) := by
  by_cases hne : Text.trim line = []
  · have hpiece : (Text.dropBytes? n []).getD [] = [] := by
      cases n <;> rw [Text.dropBytes?] <;> rfl
    rw [Text.trimEnd_eq_nil hne, hpiece]
    exact ⟨fun _ => hne.symm, fun hs => absurd hne hs.1⟩
  rw [Text.trimEnd_eq_lead_append hne]
  rcases Text.dropBytes?_append (h hne) (Text.trim line) with
    ⟨v, hv, he⟩ | ⟨a, c, v, hu, hlow, hhigh⟩
  · have hblank : ∀ c ∈ v, Text.isBlank c = true := fun c hc =>
      Text.isBlank_of_mem_lead (hv.mem hc)
    refine ⟨fun _ => ?_, fun hs => ?_⟩
    · rw [he, Option.getD_some, Text.trim_append_left hblank, Text.trim_trim]
    · obtain ⟨-, a, c, w, hu, hlow, hhigh⟩ := hs
      rw [hu, List.append_assoc, List.cons_append, Text.dropBytes?_inside hlow hhigh] at he
      cases he
  · refine ⟨fun hs => absurd ⟨hne, a, c, v, hu, hlow, hhigh⟩ hs, fun _ => ?_⟩
    rw [hu, List.append_assoc, List.cons_append, Text.dropBytes?_inside hlow hhigh]
    rfl

/-! ## Comments -/

private theorem prefix_trim_of_prefix {c : Char} (hc : Text.isBlank c = false)
    (h : [c] <+: Text.trimStart line) : [c] <+: Text.trim line := by
  obtain ⟨r, hr⟩ := h
  rw [List.singleton_append] at hr
  rw [Text.trim, ← hr]
  obtain ⟨c', r', hr'⟩ := List.exists_cons_of_ne_nil (Text.trimEnd_cons_ne_nil hc r)
  obtain rfl : c = c' := by
    simpa using Text.head?_trimEnd (c :: r) c' (by rw [hr']; rfl)
  exact ⟨r', hr'.symm⟩

/-- What is prepared of a line that is no comment is none. -/
theorem Prepares.not_comment (h : Prepares n line piece) (hc : ¬['#'] <+: Text.trim line) :
    ¬['#'] <+: Text.trim piece := by
  by_cases hs : Splits n line
  · rw [h.eq_nil hs]
    decide
  · rwa [h.trim_eq hs]

/-- Keeping comments leaves every other line as it is. -/
theorem forall₂_keepCommentLines (depth : Nat) (lines : List (List Char)) :
    List.Forall₂ (fun line kept => ¬['#'] <+: Text.trim line → kept = line) lines
      (keepCommentLines depth lines) := by
  induction lines generalizing depth with
  | nil => exact .nil
  | cons line lines ih =>
    unfold keepCommentLines
    split
    · rename_i kept hkept
      refine .cons (fun hc => absurd ?_ hc) (ih 0)
      obtain ⟨r, hr, -⟩ := exists_of_keepComment? hkept
      exact prefix_trim_of_prefix (by decide) (by rw [hr]; exact ⟨r, rfl⟩)
    · exact .cons (fun _ => rfl) (ih _)

private theorem not_mem_keepComment? {kept : List Char} (hline : '\n' ∉ line)
    (h : keepComment? line = some kept) : '\n' ∉ kept := by
  obtain ⟨r, hr, rfl⟩ := exists_of_keepComment? h
  have hr' : '\n' ∉ '#' :: r := fun hm => hline ((Text.trimStart_suffix line).mem (hr ▸ hm))
  have htext : '\n' ∉ quoteComment (commentText ('#' :: r)) := by
    intro hm
    obtain ⟨c, hc, hmc⟩ := List.mem_flatMap.1 hm
    have hc' : c ∈ '#' :: r :=
      List.dropWhile_suffix _ |>.mem ((Text.trim_infix _).mem hc)
    split at hmc
    · rcases List.mem_cons.1 hmc with he | he
      · exact absurd he (by decide)
      · exact hr' (List.mem_singleton.1 he ▸ hc')
    · exact hr' (List.mem_singleton.1 hmc ▸ hc')
  have hlead : '\n' ∉ Text.lead line := fun hm => hline ((List.takeWhile_prefix _).mem hm)
  have hname : '\n' ∉ commentName.toList := by decide
  simp [commentCall, commentArguments, hlead, hname, htext]

private theorem not_mem_keepCommentLines {depth : Nat} (h : ∀ l ∈ lines, '\n' ∉ l) :
    ∀ l ∈ keepCommentLines depth lines, '\n' ∉ l := by
  induction lines generalizing depth with
  | nil => exact nofun
  | cons line lines ih =>
    obtain ⟨hline, hlines⟩ := List.forall_mem_cons.1 h
    unfold keepCommentLines
    split
    · rename_i kept hkept
      exact List.forall_mem_cons.2 ⟨not_mem_keepComment? hline hkept, ih hlines⟩
    · exact List.forall_mem_cons.2 ⟨hline, ih hlines⟩

/-- The lines of prepared text. -/
theorem splitOn_keepComments (hne : lines ≠ []) (h : ∀ l ∈ lines, '\n' ∉ l) :
    Text.splitOn '\n' (keepComments (Text.join ['\n'] lines)) = keepCommentLines 0 lines := by
  rw [keepComments, Text.splitOn_join hne h,
    Text.splitOn_join (keepCommentLines_ne_nil 0 hne) (not_mem_keepCommentLines h)]

/-- Preparing makes one line of each line. A line that is no comment keeps its words, unless the
common indentation ends inside of a blank in front of them; then it is lost. -/
theorem prepare_words {line : List Char} {lines : List (List Char)}
    (h : ∀ l ∈ line :: lines, '\n' ∉ l) :
    (Text.splitOn '\n' (prepare (line :: lines)).text).length = (line :: lines).length ∧
      List.Forall₂
        (fun l piece => ¬['#'] <+: Text.trim l → Prepares (prepare (line :: lines)).indent l piece)
        (content line :: lines) (Text.splitOn '\n' (prepare (line :: lines)).text) := by
  let contents := content line :: lines
  let n := commonIndent (contents.map Text.trimEnd)
  let cut (l : List Char) : List Char := (Text.dropBytes? n (Text.trimEnd l)).getD []
  have hprepared : prepare (line :: lines) =
      ⟨keepComments (Text.join ['\n'] (contents.map cut)), n⟩ := by
    rw [prepare, unbulleted_cons, List.map_map]
    rfl
  have hcontents : ∀ l ∈ contents, '\n' ∉ l := by
    obtain ⟨hline, hlines⟩ := List.forall_mem_cons.1 h
    exact List.forall_mem_cons.2 ⟨not_mem_content hline, hlines⟩
  have hcut : ∀ l ∈ contents, Prepares n l (cut l) := by
    intro l hl
    refine prepares_dropBytes fun hne => ?_
    rw [← Text.lead_trimEnd hne]
    exact commonIndent_le (List.mem_map_of_mem hl) (by rwa [Text.trim_trimEnd])
  have hnewline : ∀ l ∈ contents.map cut, '\n' ∉ l := by
    intro l hl hm
    obtain ⟨l, hl', rfl⟩ := List.mem_map.1 hl
    cases hd : Text.dropBytes? n (Text.trimEnd l) with
    | none => simp [cut, hd] at hm
    | some r =>
      rw [show cut l = r by simp [cut, hd]] at hm
      have hr := (Text.dropBytes?_suffix hd).mem hm
      exact hcontents l hl' ((Text.trimEnd_prefix_self l).mem hr)
  have hsplit : Text.splitOn '\n' (prepare (line :: lines)).text =
      keepCommentLines 0 (contents.map cut) := by
    rw [hprepared]
    exact splitOn_keepComments (List.cons_ne_nil _ _) hnewline
  have hpieces : List.Forall₂ (fun l piece => ¬['#'] <+: Text.trim l → Prepares n l piece) contents
      (keepCommentLines 0 (contents.map cut)) := by
    have hkept := List.forall₂_map_left_iff.1 (forall₂_keepCommentLines 0 (contents.map cut))
    refine ((List.forall₂_and_left _ _).2 ⟨hcut, hkept⟩).imp fun l piece hboth hc => ?_
    obtain ⟨hl, hpiece⟩ := hboth
    rw [hpiece (hl.not_comment hc)]
    exact hl
  rw [hsplit, show (prepare (line :: lines)).indent = n by rw [hprepared]]
  exact ⟨hpieces.length_eq.symm, hpieces⟩

/-- Two lines of a statement under a bullet. -/
theorem prepare_words_bullet :
    let lines := ["  * if a:".toList, "      require(b)".toList]
    (∀ l ∈ lines, '\n' ∉ l) ∧ (Text.splitOn '\n' (prepare lines).text).length = 2 ∧
      prepare lines = ⟨"if a:\n  require(b)".toList, 4⟩ :=
  ⟨by decide, (prepare_words (by decide)).1, by decide +kernel⟩

/-- The blanks in front of the second line are one character of three bytes, and the common
indentation is one byte: the line is lost. -/
theorem prepare_loses_line :
    Text.splitOn '\n' (prepare [" a".toList, "\u3000b".toList]).text = ["a".toList, []] := by
  decide +kernel

end Paragraph
end ValidUsage
