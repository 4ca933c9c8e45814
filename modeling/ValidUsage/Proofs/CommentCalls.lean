import ValidUsage.Paragraph.Comment
import ValidUsage.Proofs.Blanks
import ValidUsage.Proofs.Writable

/-!
# Where comments come from

The name that kept comments call is not a word of statements. Where a text does not have it, it
occurs in the text with its comments kept only in front of the text of a comment line.
-/

namespace ValidUsage

namespace Text

/-- A text does not occur across a character that it does not have. -/
theorem occurs_beside {w u v a b : List Char} {c : Char} (hc : c ∉ w)
    (h : u ++ c :: v = a ++ w ++ b) :
    (∃ b', u = a ++ w ++ b' ∧ b = b' ++ c :: v) ∨ ∃ a', v = a' ++ w ++ b := by
  rcases List.append_eq_append_iff.1 h with ⟨x, hx, hv⟩ | ⟨x, hu, hb⟩
  · cases x with
    | nil => exact .inl ⟨[], by simpa using hx.symm, by simpa using hv.symm⟩
    | cons c' x =>
      obtain ⟨rfl, rfl⟩ := List.cons.inj hv
      rcases List.append_eq_append_iff.1 hx with ⟨y, -, hw⟩ | ⟨y, -, hy⟩
      · exact absurd (hw ▸ List.mem_append_right y List.mem_cons_self) hc
      · cases y with
        | nil =>
          obtain rfl : c :: x = w := hy
          exact absurd List.mem_cons_self hc
        | cons c' y =>
          obtain ⟨-, rfl⟩ := List.cons.inj hy
          exact .inr ⟨y, rfl⟩
  · exact .inl ⟨x, hu, hb⟩

/-- A word without a character stands on one side of it. -/
theorem infix_beside {w u v : List Char} {c : Char} (hc : c ∉ w) (h : w <:+: u ++ c :: v) :
    w <:+: u ∨ w <:+: v := by
  obtain ⟨a, b, he⟩ := h
  rcases occurs_beside hc he.symm with ⟨b', hu, -⟩ | ⟨a', hv⟩
  · exact .inl ⟨a, b', hu.symm⟩
  · exact .inr ⟨a', b, hv.symm⟩

private theorem infix_join {sep line : List Char} {lines : List (List Char)} (h : line ∈ lines) :
    line <:+: join sep lines := by
  induction lines with
  | nil => exact absurd h List.not_mem_nil
  | cons l ls ih =>
    cases ls with
    | nil =>
      obtain rfl := List.mem_singleton.1 h
      simp [join, List.intercalate]
    | cons l' ls =>
      rw [join_cons (List.cons_ne_nil _ _)]
      rcases List.mem_cons.1 h with rfl | h
      · exact ⟨[], sep ++ join sep (l' :: ls), by simp⟩
      · exact (ih h).trans (List.suffix_append _ _).isInfix

end Text

namespace Paragraph

/-- The call of a comment, after its name. -/
def commentArguments (text : List Char) : List Char :=
  '(' :: '"' :: (quoteComment text ++ ['"', ')'])

/-- The call of a text. -/
def commentCall (text : List Char) : List Char := commentName.toList ++ commentArguments text

/-- A line that is kept has a hash behind its blanks, and the call of the text behind it. -/
theorem exists_of_keepComment? {line kept : List Char} (h : keepComment? line = some kept) :
    ∃ r, Text.trimStart line = '#' :: r ∧
      kept = Text.lead line ++ commentCall (commentText ('#' :: r)) := by
  unfold keepComment? at h
  split at h
  · rename_i r hr
    refine ⟨r, hr, ?_⟩
    rw [← Option.some.inj h, commentCall, commentArguments]
    simp
  · cases h

/-- Whether the name of comments occurs in a text only where it calls the text of a comment
line. -/
def CallsComments (s : List Char) : Prop :=
  ∀ a b, s = a ++ commentName.toList ++ b →
    ∃ text r, isCommentText text = true ∧ b = commentArguments text.toList ++ r

private theorem CallsComments.of_not_mem {s : List Char} (h : ¬commentName.toList <:+: s) :
    CallsComments s :=
  fun a b he => absurd ⟨a, b, he.symm⟩ h

/-- At the end of a text comments are called as in all of it. -/
theorem CallsComments.suffix {s u : List Char} (h : CallsComments s) (hu : u <:+ s) :
    CallsComments u := by
  obtain ⟨p, rfl⟩ := hu
  intro a b he
  exact h (p ++ a) b (by rw [he]; simp)

/-- They are in a line, and in those behind it. -/
theorem CallsComments.line {u v : List Char} (h : CallsComments u) (h' : CallsComments v) :
    CallsComments (u ++ '\n' :: v) := by
  intro a b he
  rcases Text.occurs_beside (by decide) he with ⟨b', hu, rfl⟩ | ⟨a', hv⟩
  · obtain ⟨text, r, htext, rfl⟩ := h a b' hu
    exact ⟨text, r ++ '\n' :: v, htext, by simp⟩
  · exact h' a' b hv

private theorem callsComments_join {lines : List (List Char)}
    (h : ∀ line ∈ lines, CallsComments line) :
    CallsComments (Text.join ['\n'] lines) := by
  induction lines with
  | nil => exact .of_not_mem (by decide)
  | cons line lines ih =>
    obtain ⟨hl, hls⟩ := List.forall_mem_cons.1 h
    cases lines with
    | nil => simpa [Text.join, List.intercalate] using hl
    | cons l ls =>
      rw [Text.join_cons (List.cons_ne_nil _ _), List.append_assoc]
      exact hl.line (ih hls)

/-! ## A comment line -/

private theorem prefix_of_prefix_quoteComment {w : List Char} (hw : ∀ c ∈ w, c ≠ '\\' ∧ c ≠ '"')
    {text : List Char} (h : w <+: quoteComment text) : w <+: text := by
  induction text generalizing w with
  | nil => exact h
  | cons c text ih =>
    cases w with
    | nil => exact List.nil_prefix
    | cons c' w =>
      obtain ⟨hc', hw⟩ := List.forall_mem_cons.1 hw
      have hq : quoteComment (c :: text) =
          (if c = '\\' ∨ c = '"' then ['\\', c] else [c]) ++ quoteComment text := rfl
      rw [hq] at h
      split at h
      · exact absurd (List.cons_prefix_cons.1 h).1 hc'.1
      · obtain ⟨he, hp⟩ := List.cons_prefix_cons.1
          (show c' :: w <+: c :: quoteComment text from h)
        exact List.cons_prefix_cons.2 ⟨he, ih hw hp⟩

private theorem infix_of_infix_quoteComment {w : List Char} (hw : ∀ c ∈ w, c ≠ '\\' ∧ c ≠ '"')
    {text : List Char} (h : w <:+: quoteComment text) : w <:+: text := by
  induction text with
  | nil => exact h
  | cons c text ih =>
    have hq : quoteComment (c :: text) =
        (if c = '\\' ∨ c = '"' then ['\\', c] else [c]) ++ quoteComment text := rfl
    cases w with
    | nil => exact List.nil_infix
    | cons c' w =>
      have hc' := hw c' List.mem_cons_self
      have later (h : c' :: w <:+: quoteComment text) : c' :: w <:+: c :: text :=
        (ih h).trans (List.suffix_cons c text).isInfix
      rw [hq] at h
      split at h
      · rename_i hc
        have hmem (x : Char) (hx : x = '\\' ∨ x = '"') : x ∉ c' :: w := fun hm => by
          have := hw x hm
          rcases hx with rfl | rfl
          · exact this.1 rfl
          · exact this.2 rfl
        rcases Text.infix_beside (u := []) (hmem '\\' (.inl rfl)) h with h | h
        · exact absurd (List.infix_nil.1 h) (List.cons_ne_nil _ _)
        rcases Text.infix_beside (u := []) (hmem c hc) h with h | h
        · exact absurd (List.infix_nil.1 h) (List.cons_ne_nil _ _)
        · exact later h
      · have h : c' :: w <:+: c :: quoteComment text := h
        rcases List.infix_cons_iff.1 h with h | h
        · obtain ⟨he, hp⟩ := List.cons_prefix_cons.1 h
          have hw' : ∀ c ∈ w, c ≠ '\\' ∧ c ≠ '"' := fun c hc => hw c (List.mem_cons_of_mem _ hc)
          exact (List.cons_prefix_cons.2 ⟨he, prefix_of_prefix_quoteComment hw' hp⟩).isInfix
        · exact later h

/-- Behind blanks the name of comments occurs only once, at the end. -/
theorem eq_nil_of_lead {u a b : List Char} (hu : ∀ c ∈ u, Text.isBlank c = true)
    (h : u ++ commentName.toList = a ++ commentName.toList ++ b) : b = [] := by
  obtain ⟨c, w, hw, hc⟩ : ∃ c w, commentName.toList = c :: w ∧ Text.isBlank c = false :=
    ⟨_, _, rfl, by decide⟩
  have hle : u.length ≤ a.length := by
    rcases Nat.lt_or_ge a.length u.length with hlt | hge
    · have hget : (u ++ commentName.toList)[a.length]? = some c := by
        rw [h, hw, List.append_assoc, List.getElem?_append_right (Nat.le_refl _)]
        simp
      rw [List.getElem?_append_left hlt] at hget
      exact absurd (hu c (List.mem_of_getElem? hget)) (by simp [hc])
    · exact hge
  have hlen := congrArg List.length h
  simp only [List.length_append] at hlen
  exact List.eq_nil_of_length_eq_zero (by omega)

/-- The text of a comment line is one of a comment. -/
theorem isCommentText_commentText {line : List Char} (h : '\n' ∉ line) :
    isCommentText (String.ofList (commentText line)) = true := by
  have hmem : '\n' ∉ commentText line := fun hm =>
    h ((List.dropWhile_suffix _).subset ((Text.trim_infix _).subset hm))
  have htrim : Text.trim (commentText line) = commentText line := Text.trim_trim _
  simp [isCommentText, htrim, hmem]

private theorem callsComments_keepComment? {line kept : List Char} (hline : '\n' ∉ line)
    (h : ¬commentName.toList <:+: line) (hk : keepComment? line = some kept) :
    CallsComments kept := by
  obtain ⟨r, hstart, rfl⟩ := exists_of_keepComment? hk
  have hsub : '#' :: r <:+ line := hstart ▸ Text.trimStart_suffix line
  have htext : ¬commentName.toList <:+: commentText ('#' :: r) := fun hi =>
    h ((hi.trans (Text.trim_infix _)).trans
      ((List.dropWhile_suffix _).isInfix.trans hsub.isInfix))
  have hname : commentName.toList.all (fun c => c != '\\' && c != '"') = true := by decide
  have hquote : ¬commentName.toList <:+: quoteComment (commentText ('#' :: r)) := fun hi =>
    htext (infix_of_infix_quoteComment (fun c hc => by
      simpa using List.all_eq_true.1 hname c hc) hi)
  intro a b he
  have he : Text.lead line ++ commentName.toList ++
      '(' :: '"' :: (quoteComment (commentText ('#' :: r)) ++ '"' :: [')']) =
        a ++ commentName.toList ++ b := by
    rw [← he]
    simp [commentCall, commentArguments]
  rcases Text.occurs_beside (by decide) he with ⟨b', hu, rfl⟩ | ⟨a', hv⟩
  · have hlead : ∀ c ∈ Text.lead line, Text.isBlank c = true := fun c hc =>
      List.all_eq_true.1 List.all_takeWhile c hc
    obtain rfl := eq_nil_of_lead hlead hu
    refine ⟨String.ofList (commentText ('#' :: r)), [],
      isCommentText_commentText fun hm => hline (hsub.subset hm), ?_⟩
    simp [commentArguments]
  · have hi : commentName.toList <:+: [] ++
        '"' :: (quoteComment (commentText ('#' :: r)) ++ '"' :: [')']) := ⟨a', b, hv.symm⟩
    rcases Text.infix_beside (by decide) hi with hi | hi
    · exact absurd hi (by decide)
    rcases Text.infix_beside (by decide) hi with hi | hi
    · exact absurd hi hquote
    · exact absurd hi (by decide)

private theorem callsComments_keepCommentLines {lines : List (List Char)} (d : Nat)
    (hn : ∀ line ∈ lines, '\n' ∉ line) (h : ∀ line ∈ lines, ¬commentName.toList <:+: line) :
    ∀ line ∈ keepCommentLines d lines, CallsComments line := by
  induction lines generalizing d with
  | nil => exact nofun
  | cons line lines ih =>
    obtain ⟨hn, hns⟩ := List.forall_mem_cons.1 hn
    obtain ⟨h, hs⟩ := List.forall_mem_cons.1 h
    unfold keepCommentLines
    split
    · rename_i kept hk
      exact List.forall_mem_cons.2 ⟨callsComments_keepComment? hn h hk, ih 0 hns hs⟩
    · exact List.forall_mem_cons.2 ⟨.of_not_mem h, ih _ hns hs⟩

/-- A text without the name of comments calls comments only by their lines when they are kept. -/
theorem callsComments_keepComments {s : List Char} (h : ¬commentName.toList <:+: s) :
    CallsComments (keepComments s) := by
  refine callsComments_join (callsComments_keepCommentLines 0
    (fun _ => Text.not_mem_of_mem_splitOn) fun line hl hi => h (hi.trans ?_))
  exact Text.join_splitOn '\n' s ▸ Text.infix_join hl

end Paragraph
end ValidUsage
