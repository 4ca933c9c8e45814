import Mathlib.Data.List.TakeWhile
import ValidUsage.Document.Standalone
import ValidUsage.Proofs.DecimalText
import ValidUsage.Proofs.FormatDocument

/-!
# Laying out a document that is one statement

The text of such a document in its laid out form is read as the source form of the statement. It is
read as the same statement unless a tuple in it has slices, a block is empty, or a loop has a target
that is only read between parentheses: these are written as something else. Documents with codified
statements are not laid out then, but nothing checks those that are one statement.
-/

namespace ValidUsage

/-! ## The first line is no tag -/

private theorem Style.source_text_cons (m : Mark) (ms : List Mark) :
    Style.source.text (m :: ms) = m.source ++ Style.source.text ms := rfl

/-- Whether the text of marks does not start with the tag. -/
def Untagged (ms : List Mark) : Prop := ¬Paragraph.tag <+: Style.source.text ms

namespace Untagged

variable {m : Mark} {ms ms' : List Mark}

/-- A mark that starts with a character of its own ends what might be the tag. -/
theorem before (h : Untagged ms) (hm : m.source.head?.any (!Paragraph.tag.contains ·) = true)
    (ms' : List Mark) : Untagged (ms ++ m :: ms') := by
  obtain ⟨c, hc, hn⟩ := (Option.any_eq_true _ _).1 hm
  obtain ⟨cs, hs⟩ := List.head?_eq_some_iff.1 hc
  have hn : c ∉ Paragraph.tag := by simpa using hn
  rintro ⟨s, hp⟩
  have htext : Style.source.text (ms ++ m :: ms') =
      Style.source.text ms ++ c :: (cs ++ Style.source.text ms') := by
    rw [Style.text_append, Style.source_text_cons, hs, List.cons_append]
  rw [htext] at hp
  rcases List.append_eq_append_iff.1 hp with ⟨u, hu, -⟩ | ⟨u, hu, hr⟩
  · exact h ⟨u, hu.symm⟩
  · cases u with
    | nil => exact h ⟨[], by rw [List.append_nil] at hu ⊢; exact hu⟩
    | cons c' u =>
      obtain rfl : c = c' := (List.cons.inj hr).1
      exact hn (hu ▸ List.mem_append_right _ List.mem_cons_self)

/-- The front of untagged marks is untagged. -/
theorem of_append (h : Untagged (ms ++ ms')) : Untagged ms := fun hp =>
  h (hp.trans (by rw [Style.text_append]; exact List.prefix_append _ _))

/-- Marks that start with another letter than the tag are untagged. -/
theorem of_head (hm : m.source.head?.any (· != 'c') = true) : Untagged (m :: ms) := by
  obtain ⟨c, hc, hn⟩ := (Option.any_eq_true _ _).1 hm
  obtain ⟨cs, hs⟩ := List.head?_eq_some_iff.1 hc
  have hn : c ≠ 'c' := by simpa using hn
  rintro ⟨s, hp⟩
  rw [Style.source_text_cons, hs] at hp
  exact hn (List.cons.inj hp).1.symm

/-- A word is not the tag, which has a hyphen. -/
theorem of_isWord {t : String} (hs : m.source = t.toList) (ht : IsWord t) : Untagged [m] := by
  intro hp
  refine ht.notMem (c := '-') (by decide) ?_
  rw [← hs, ← List.append_nil m.source]
  exact hp.subset (by decide)

end Untagged

namespace Expr

variable {fractions : Binary64 → Bool}

private theorem untagged_wrapped {e : Expr} (h : ∀ n, Untagged (e.layout n)) (w : Bool) (n : Nat) :
    Untagged (wrapped w n e.layout) := by
  cases w with
  | false => exact h n
  | true => exact .of_head (by decide)

private theorem untagged_const (hf : ∀ x, fractions x = true → x.IsWritten) {value : Constant}
    (h : value.isWritable fractions = true) : Untagged [value.mark] := by
  have number {t : String} (ht : IsNumeral t) : Untagged [.number t] := by
    obtain ⟨c, cs, he, hc⟩ := ht.head
    refine .of_head ?_
    show (t.toList.head?.any _) = true
    rw [he]
    simpa using isDigit_ne hc (x := 'c') (by decide)
  cases value with
  | bool b => cases b <;> exact .of_head (by decide)
  | none => exact .of_head (by decide)
  | int k => exact number (isNumeral_toString k)
  | float x => exact number (hf x h).numeral
  | str s =>
    refine .of_head ?_
    simp [Constant.mark, Mark.source, Literal.quote]

private theorem untagged_called {l : List Mark} (h : Untagged l) (tf : Bool) (args : List Expr)
    (n : Nat) : Untagged (l ++ Expr.wrapped (!ownParens args) n (arguments tf args)) := by
  obtain ⟨ms', hms'⟩ := List.head?_eq_some_iff.1 (head?_called tf args n)
  rw [hms']
  exact h.before (by decide) ms'

/-- A call is untagged when what is called is. -/
theorem untagged_call (p : Pos) {func : Expr} (h : ∀ n, Untagged (func.layout n))
    (args : List Expr) (n : Nat) : Untagged ((call p func args).layout n) := by
  have hfunc := h n
  by_cases hn : ∃ q id, func = name q id
  · obtain ⟨q, id, rfl⟩ := hn
    rw [layout] at hfunc
    rw [layout]
    split
    · exact untagged_called (l := [.predicate id]) hfunc _ args n
    · exact untagged_called (l := [.name id]) hfunc _ args n
  · by_cases hm : ∃ q value attr, func = member q value attr
    · obtain ⟨q, value, attr, rfl⟩ := hm
      rw [layout] at hfunc
      rw [layout]
      exact hfunc.of_append.before (by decide) _
    · rw [layout]
      · exact untagged_called (untagged_wrapped h _ n) _ args n
      · exact fun q id hq => hn ⟨q, id, hq⟩
      · exact fun q value attr hq => hm ⟨q, value, attr, hq⟩

/-- The layout of an expression is not taken for the tag. -/
theorem untagged_layout (hf : ∀ x, fractions x = true → x.IsWritten) {e : Expr}
    (h : e.isSpelled fractions = true) (n : Nat) : Untagged (e.layout n) := by
  rw [isSpelled] at h
  induction e using partsInduction generalizing n with
  | boolOp | tuple | list =>
    rw [layout]
    exact .of_head (by decide)
  | binary p left op right ihl =>
    simp only [walk, List.all_cons, List.all_append, Bool.and_eq_true] at h
    rw [layout]
    exact (untagged_wrapped (ihl h.2.1) _ n).before (by decide) _
  | unary p op =>
    rw [layout]
    exact .of_head (by cases op <;> decide)
  | compare p left ops comparators ihl =>
    simp only [walk, List.all_cons, List.all_append, isFormed, Bool.and_eq_true,
      List.isEmpty_eq_false_iff, beq_iff_eq, Bool.not_eq_true'] at h
    obtain ⟨⟨⟨⟨hne, hlen⟩, -⟩, -⟩, hl, -⟩ := h
    obtain ⟨op, ops, rfl⟩ := List.exists_cons_of_ne_nil hne
    obtain ⟨e, es, rfl⟩ := List.exists_cons_of_length_eq_add_one hlen.symm
    rw [layout, comparisons]
    exact (untagged_wrapped (ihl hl) _ n).before (by decide) _
  | call p func args ihf =>
    simp only [walk, List.all_cons, List.all_append, Bool.and_eq_true] at h
    exact untagged_call p (ihf h.2.1) args n
  | member p value attr ih =>
    simp only [walk, List.all_cons, Bool.and_eq_true] at h
    rw [layout]
    exact (untagged_wrapped (ih h.2) _ n).before (by decide) _
  | subscript p value index ih =>
    simp only [walk, List.all_cons, List.all_append, Bool.and_eq_true] at h
    rw [layout]
    exact (untagged_wrapped (ih h.2.1) _ n).before (by decide) _
  | ifExp p test body orelse iht ihb =>
    simp only [walk, List.all_cons, List.all_append, Bool.and_eq_true] at h
    rw [layout]
    exact (untagged_wrapped (ihb h.2.2.1) _ n).before (by decide) _
  | name p id =>
    rw [layout]
    exact .of_isWord rfl (.of_isIdentifier (by simpa [walk, isFormed] using h))
  | const p value =>
    rw [layout]
    exact untagged_const hf (by simpa [walk, isFormed] using h)
  | slice p lower upper step ihl =>
    simp only [walk, List.all_cons, List.all_append, Bool.and_eq_true] at h
    rw [layout]
    cases lower with
    | none => exact .of_head (by decide)
    | some e => exact (ihl e rfl (all_walkOption.1 h.2.1 e rfl) n).before (by decide) _

end Expr

variable {fractions : Binary64 → Bool}

private theorem Stmt.untagged_layout (hf : ∀ x, fractions x = true → x.IsWritten) {s : Stmt}
    (h : s.isSpelled fractions = true) (n : Nat) : Untagged (s.layout n) := by
  cases s with
  | assign p targets value =>
    obtain ⟨hne, ht, -⟩ := isSpelled_iff.1 h
    obtain ⟨t, ts, rfl⟩ := List.exists_cons_of_ne_nil hne
    rw [layout, List.flatMap_cons, List.append_assoc, List.append_assoc]
    exact (Expr.untagged_layout hf (ht t List.mem_cons_self).2 n).before (by decide) _
  | update p target op value =>
    rw [layout]
    exact (Expr.untagged_layout hf (isSpelled_iff.1 h).1.2 n).before (by decide) _
  | ifElse | forEach | whileDo | pass | breakOut =>
    rw [layout]
    exact .of_head (by decide)
  | expr p value =>
    rw [layout]
    split
    · exact .of_head rfl
    · exact Expr.untagged_layout hf (isSpelled_iff.1 h).1.2 n
  | nextRound p =>
    rw [layout]
    exact .of_isWord rfl (.of_toList 'c' ['o', 'n', 't', 'i', 'n', 'u', 'e'] rfl (by decide))

/-- The source form of a block does not start with the tag. -/
theorem Block.untagged_layout (hf : ∀ x, fractions x = true → x.IsWritten) {b : Block}
    (h : b.isSpelled fractions = true) : Untagged b.layout := by
  cases b with
  | nil => exact fun hp => absurd (List.prefix_nil.1 hp) (by decide)
  | cons s ss =>
    have hs := Stmt.untagged_layout hf (Stmt.isSpelled_block.1 h s List.mem_cons_self) 0
    rw [layout]
    cases ss with
    | nil => rwa [Stmt.layoutBlock, List.append_nil]
    | cons s' ss =>
      rw [Stmt.layoutBlock]
      exact hs.before (by decide) _

/-! ## The lines of the source form -/

private theorem Text.trim_dropReturn (l : List Char) :
    trim (lines.dropReturn l.reverse) = trim l := by
  unfold lines.dropReturn
  split
  · rename_i acc he
    have hl : l = acc.reverse ++ ['\r'] := by rw [← List.reverse_reverse l, he, List.reverse_cons]
    rw [hl, trim_append (forall_mem_of_all (by decide))]
  · rw [List.reverse_reverse]

private theorem Text.prefix_join (sep u : List Char) (us : List (List Char)) :
    u <+: join sep (u :: us) := by
  cases us with
  | nil => simp [join, List.intercalate]
  | cons u' us =>
    rw [join_cons (List.cons_ne_nil _ _), List.append_assoc]
    exact List.prefix_append _ _

/-- A line that is the tag starts with it if no blank and no bullet does. -/
theorem Paragraph.prefix_of_isTag {c : Char} {cs : List Char} (hc : Text.isBlank c = false)
    (hstar : c ≠ '*') (h : isTag (c :: cs) = true) : tag <+: c :: cs := by
  obtain ⟨cs', ht⟩ : ∃ cs', Text.trimEnd (c :: cs) = c :: cs' := by
    obtain ⟨c', cs', ht⟩ := List.exists_cons_of_ne_nil (Text.trimEnd_cons_ne_nil hc cs)
    have hhead := Text.head?_trimEnd (c :: cs) c' (by rw [ht]; rfl)
    exact ⟨cs', by rw [ht, Option.some.inj hhead]⟩
  have hstrip : Text.stripPrefix? bullet (c :: cs') = none :=
    Text.stripPrefix?_eq_none (not_startsWith_bullet hstar cs')
  have htrim : Text.trim (c :: cs) = c :: cs' := by rw [Text.trim, Text.trimStart_cons hc, ht]
  rw [isTag, htrim, hstrip, Option.getD_none, ← htrim, Text.trim_trim, htrim, beq_iff_eq] at h
  rw [← h, ← ht]
  exact Text.trimEnd_prefix_self _

namespace Block

variable {b : Block}

/-- The lines of the source form of a block when its last line has an end as well. -/
theorem lines_source_end (hf : ∀ x, fractions x = true → x.IsWritten)
    (h : b.isSpelled fractions = true) :
    Text.lines (b.source ++ ['\n']) = b.lines.map (MarkLine.text .source) := by
  have hlines : ∀ u ∈ b.lines.map (MarkLine.text .source), Text.IsLine u := by
    cases b with
    | nil =>
      intro u hu
      obtain rfl : u = [] := List.mem_singleton.1 hu
      exact ⟨List.not_mem_nil, nofun⟩
    | cons s ss => exact (lines_source hf h (List.cons_ne_nil s ss)).2
  have hjoin {ls : List (List Char)} (hne : ls ≠ []) :
      Text.join ['\n'] ls ++ ['\n'] = ls.flatMap (· ++ ['\n']) := by
    induction ls with
    | nil => exact absurd rfl hne
    | cons u ls ih =>
      cases ls with
      | nil => simp [Text.join, List.intercalate]
      | cons u' ls =>
        rw [Text.join_cons (List.cons_ne_nil _ _), List.append_assoc, ih (List.cons_ne_nil _ _)]
        rfl
  obtain ⟨ms, ls, hls⟩ := b.exists_lines
  rw [source_eq_join, hjoin (by simp [hls]), Text.lines_flatMap hlines]

/-- The source form of a block as the text of a statement. -/
theorem prepare_source (hf : ∀ x, fractions x = true → x.IsWritten)
    (h : b.isSpelled fractions = true) :
    (Paragraph.prepare (Text.lines (b.source ++ ['\n']))).text =
      Paragraph.keepComments b.source := by
  by_cases hne : b = []
  · subst hne
    decide +kernel
  · have hprepare := prepare_lines hf h hne 0
    rw [lines_source_end hf h, ← (lines_source hf h hne).1]
    simp only [List.replicate_zero, List.nil_append, List.map_id'] at hprepare
    rw [hprepare]

/-- No line of the source form of a block ends a paragraph, but that of an empty block. -/
theorem endsParagraph_source (hf : ∀ x, fractions x = true → x.IsWritten)
    (h : b.isSpelled fractions = true) :
    Text.lines (b.source ++ ['\n']) = [[]] ∨
      ∀ u ∈ Text.lines (b.source ++ ['\n']), Document.endsParagraph u = false := by
  rw [lines_source_end hf h]
  by_cases hne : b = []
  · subst hne
    exact .inl rfl
  · refine .inr fun u hu => (VuParagraph.lines_source hf h 0 u ?_).1
    rw [(lines_source hf h hne).1]
    simpa using hu

private theorem not_isTag_source (hf : ∀ x, fractions x = true → x.IsWritten)
    (h : b.isSpelled fractions = true) :
    (Text.lines (b.source ++ ['\n'])).head?.any Paragraph.isTag = false := by
  rw [lines_source_end hf h]
  obtain ⟨ms, ls, hls⟩ := b.exists_lines
  have hjoin := b.source_eq_join
  rw [hls, List.map_cons] at hjoin
  rw [hls, List.map_cons, List.head?_cons, Option.any_some, Bool.eq_false_iff]
  intro htag
  by_cases hne : b = []
  · subst hne
    obtain ⟨rfl, -⟩ : ms = [] ∧ ls = [] := by simpa [lines, layout, linesFrom] using hls.symm
    exact absurd htag (by decide)
  -- a line that is the tag starts with it, and no bullet comes before it
  obtain ⟨c, cs, hs, hc, hstar⟩ :=
    (isLayoutLine hf h hne ⟨0, ms⟩ (by rw [hls]; exact List.mem_cons_self)).head
  have htext : MarkLine.text .source ⟨0, ms⟩ = c :: cs := hs
  rw [htext] at hjoin htag
  have hline : c :: cs <+: Style.source.text b.layout := by
    have hsource : b.source = Style.source.text b.layout := by
      simp [source, Style.document, Style.source]
    rw [← hsource, hjoin]
    exact Text.prefix_join _ _ _
  exact untagged_layout hf h ((Paragraph.prefix_of_isTag hc hstar htag).trans hline)

end Block
/-! ## Reading a document that is one statement -/

namespace Paragraph

private theorem isTag_congr {l l' : List Char} (h : Text.trim l = Text.trim l') :
    isTag l = isTag l' := by
  rw [isTag, isTag, h]

/-- A line that is the tag is the tag without its bullet. -/
theorem trim_unbullet_of_isTag {l : List Char} (h : isTag l = true) :
    Text.trim (unbullet l) = tag := by
  rw [isTag, beq_iff_eq] at h
  by_cases hb : bullet <+: Text.trimStart l
  · obtain ⟨rest, hrest⟩ := hb
    have hline : Text.trim l = Text.trimEnd (bullet ++ rest) := by rw [Text.trim, hrest]
    rw [unbullet_of_bullet hrest.symm, VuParagraph.trim_blanks]
    by_cases hend : Text.trimEnd rest = []
    · obtain ⟨u, he, hu⟩ := Text.exists_trimEnd rest
      rw [hend, List.nil_append] at he
      rw [hline, he, Text.trimEnd_append hu] at h
      exact absurd h (by decide)
    · rw [hline, Text.trimEnd_append_of_ne_nil hend, Text.stripPrefix?_append, Option.getD_some,
        Text.trim_trimEnd] at h
      exact h
  · have hline : ¬bullet <+: Text.trim l := fun hp => hb (hp.trans (Text.trimEnd_prefix_self _))
    rw [unbullet_of_not hb]
    rwa [Text.stripPrefix?_eq_none hline, Option.getD_none, Text.trim_trim] at h

private theorem anchor?_of_isTag {l : List Char} (h : isTag l = true) :
    Document.anchor? l = none := by
  rw [Document.anchor?, trim_unbullet_of_isTag h]
  decide

end Paragraph

namespace Document

/-- Whether a document is read as a statement: the whole of it, and each codified statement that it
has. -/
structure Reads (d : Document) (v : Vu) : Prop where
  whole : (VuParagraph.whole d.lines).vu d.file = .ok v
  statements : ∀ p ∈ d.statements, p.vu d.file = .ok v

/-- Lines without bullets hold no codified statement. -/
theorem scanFrom_eq_nil {lines : List (List Char)} (h : ∀ l ∈ lines, isBullet l = false)
    (line : Nat) (api : Option String) (macros : Table String) :
    scanFrom line api macros lines = [] := by
  induction lines generalizing line api macros with
  | nil => rw [scanFrom]
  | cons first rest ih =>
    obtain ⟨hfirst, hrest⟩ := List.forall_mem_cons.1 h
    rw [scanFrom]
    split
    · exact ih hrest _ _ _
    split
    · exact ih hrest _ _ _
    · rw [if_neg (by simp [hfirst])]
      exact ih hrest _ _ _

private theorem eq_or_mem_of_mem_statements {d : Document} {p : VuParagraph}
    (h : p ∈ d.statements) :
    p = .whole d.lines ∨ p ∈ d.paragraphs := by
  unfold statements at h
  split at h
  · exact .inl (List.mem_singleton.1 h)
  · exact .inr h

private theorem isBullet_eq_false {lines : List (List Char)}
    (h : lines = [[]] ∨ ∀ l ∈ lines, endsParagraph l = false) :
    ∀ l ∈ lines, isBullet l = false := by
  intro l hl
  rcases h with rfl | h
  · rw [List.mem_singleton.1 hl]
    rfl
  · have hends := h l hl
    simp only [endsParagraph, Bool.or_eq_false_iff] at hends
    exact hends.1.1.1.1.1.2

section Whole

variable {first : List Char} {rest : List (List Char)}
  (hends : rest = [[]] ∨ ∀ l ∈ rest, endsParagraph l = false)
  (hfirst : isBullet first = true → Paragraph.isTag first = true)

include hends hfirst

/-- Lines hold no codified statement, or are one behind the tag, when a bullet in front of them is
that of the tag and none of them ends a paragraph. -/
theorem scanFrom_tagged (line : Nat) (api : Option String) (macros : Table String) :
    scanFrom line api macros (first :: rest) = [] ∨ Paragraph.isTag first = true ∧
      scanFrom line api macros (first :: rest) =
        [⟨line, first :: rest, none, 1, api, macros⟩] := by
  have hrest := isBullet_eq_false hends
  rw [scanFrom]
  split
  · exact .inl (scanFrom_eq_nil hrest _ _ _)
  split
  · exact .inl (scanFrom_eq_nil hrest _ _ _)
  split
  · rename_i hbullet
    have htag := hfirst hbullet
    have hbody (body : List (List Char)) : codified? line api macros (first :: body) =
        if body = [] then none else some ⟨line, first :: body, none, 1, api, macros⟩ := by
      have hanchor : (first :: body).head?.bind anchor? = none := Paragraph.anchor?_of_isTag htag
      rw [codified?, hanchor]
      cases body with
      | nil => simp
      | cons l ls => simp [htag]
    rcases hends with rfl | hends
    · have hempty : endsParagraph [] = true := by decide
      refine .inl ?_
      simp only [List.takeWhile_cons, List.dropWhile_cons, hempty, Bool.not_true,
        Bool.false_eq_true, if_false, hbody, if_true, Option.toList_none, List.nil_append]
      exact scanFrom_eq_nil hrest _ _ _
    · have hkept : ∀ l ∈ rest, (!endsParagraph l) = true := fun l hl => by rw [hends l hl]; rfl
      have htake : rest.takeWhile (!endsParagraph ·) = rest := List.takeWhile_eq_self_iff.2 hkept
      have hdrop : rest.dropWhile (!endsParagraph ·) = [] := List.dropWhile_eq_nil_iff.2 hkept
      simp only [htake, hdrop, hbody]
      rw [scanFrom]
      cases rest with
      | nil => exact .inl rfl
      | cons l ls => exact .inr ⟨htag, rfl⟩
  · exact .inl (scanFrom_eq_nil hrest _ _ _)

/-- A document is read as the whole of it then. -/
theorem reads_of_whole {file : String} {s : List Char} (hs : Text.lines s = first :: rest) {v : Vu}
    (hv : (VuParagraph.whole (first :: rest)).vu file = .ok v) : (ofText file s).Reads v := by
  have hlines : (ofText file s).lines = first :: rest := hs
  refine ⟨by rw [hlines]; exact hv, fun p hp => ?_⟩
  rcases eq_or_mem_of_mem_statements hp with rfl | hp
  · rw [hlines]
    exact hv
  · have hp : p ∈ scanFrom 1 none .empty (first :: rest) := hs ▸ hp
    rcases scanFrom_tagged hends hfirst 1 none .empty with hscan | ⟨htag, hscan⟩
    · rw [hscan] at hp
      exact absurd hp List.not_mem_nil
    · rw [hscan] at hp
      rw [List.mem_singleton.1 hp, ← hv]
      simp [VuParagraph.vu, VuParagraph.vuLines, VuParagraph.vuLine, VuParagraph.whole, htag,
        ofText]

end Whole

/-- Behind the tag, or without it, the lines of a document that is one statement and laid out are
those of the source form. It is read as the whole of these lines. -/
theorem lines_standalone {lines : List (List Char)} (hn : ∀ l ∈ lines, '\n' ∉ l) {v : Vu}
    (hv : v.raw.isSpelled Binary64.isCanonical = true) :
    let s := (VuParagraph.whole lines).standalone v
    (VuParagraph.whole (Text.lines s)).vuLines = Text.lines (v.raw.source ++ ['\n']) ∧
      ∀ file v', (VuParagraph.whole (Text.lines s)).vu file = .ok v' →
        (ofText file s).Reads v' := by
  intro s
  have hf : ∀ x, Binary64.isCanonical x = true → x.IsWritten :=
    fun _ => Binary64.isWritten_of_isCanonical
  have htag := Block.not_isTag_source hf hv
  have hends := Block.endsParagraph_source hf hv
  by_cases hfirst : lines.head?.any Paragraph.isTag = true
  · obtain ⟨l, hl, hltag⟩ := (Option.any_eq_true _ _).1 hfirst
    obtain ⟨ls, rfl⟩ := List.head?_eq_some_iff.1 hl
    have hs : Text.lines s =
        Text.lines.dropReturn l.reverse :: Text.lines (v.raw.source ++ ['\n']) := by
      have htext : s = l ++ '\n' :: (v.raw.source ++ ['\n']) := by
        simp [s, VuParagraph.standalone, VuParagraph.whole, hltag]
      rw [htext, Text.lines, Text.lines_go_line (hn l List.mem_cons_self), List.append_nil]
      rfl
    have hltag : Paragraph.isTag (Text.lines.dropReturn l.reverse) = true := by
      rw [Paragraph.isTag_congr (Text.trim_dropReturn l), hltag]
    refine ⟨?_, fun file v' h => ?_⟩
    · rw [hs]
      simp [VuParagraph.vuLines, VuParagraph.whole, hltag]
    · rw [hs] at h
      exact reads_of_whole hends (fun _ => hltag) hs h
  · have hs : s = v.raw.source ++ ['\n'] := by
      simp [s, VuParagraph.standalone, VuParagraph.whole, hfirst]
    have hne : Text.lines (v.raw.source ++ ['\n']) ≠ [] := by
      obtain ⟨ms, ls, hls⟩ := v.raw.exists_lines
      simp [Block.lines_source_end hf hv, hls]
    obtain ⟨u, us, hus⟩ := List.exists_cons_of_ne_nil hne
    rw [hs, hus]
    rw [hus] at hends htag
    have hbullet := isBullet_eq_false hends u List.mem_cons_self
    refine ⟨?_, fun file v' h => reads_of_whole ?_ ?_ hus h⟩
    · rw [VuParagraph.vuLines, VuParagraph.whole, htag]
      rfl
    · rcases hends with hends | hends
      · exact .inr ((List.cons.inj hends).2 ▸ (by rintro _ ⟨⟩))
      · exact .inr fun l hl => hends l (List.mem_cons_of_mem _ hl)
    · rw [hbullet]
      rintro ⟨⟩

/-- The laid out form of a document that is one statement is read as the source form of the
statement. -/
theorem reads_standalone_iff {file : String} {lines : List (List Char)}
    (hn : ∀ l ∈ lines, '\n' ∉ l) {v : Vu} (hv : v.raw.isSpelled Binary64.isCanonical = true)
    {b : Block} :
    (∃ v', (ofText file ((VuParagraph.whole lines).standalone v)).Reads v' ∧ v'.raw = b) ↔
      Block.ofText v.raw.source = .ok b := by
  have hf : ∀ x, Binary64.isCanonical x = true → x.IsWritten :=
    fun _ => Binary64.isWritten_of_isCanonical
  obtain ⟨hlines, hreads⟩ := lines_standalone hn hv
  have hprepared : (VuParagraph.whole
      (Text.lines ((VuParagraph.whole lines).standalone v))).prepared.text =
        Paragraph.keepComments v.raw.source := by
    rw [VuParagraph.prepared, hlines, Block.prepare_source hf hv]
  constructor
  · rintro ⟨v', h, rfl⟩
    obtain ⟨b, hb, he⟩ := VuParagraph.vu_eq_ok_iff.1 h.whole
    rw [Block.ofText, ← hprepared, he]
    exact hb
  · intro hb
    rw [Block.ofText, ← hprepared] at hb
    exact ⟨_, hreads file _ (VuParagraph.vu_eq_ok_iff.2 ⟨b, hb, rfl⟩), rfl⟩

end Document

namespace Block

/-- Whether a block is read from its source form: no tuple has slices, no block is empty, and every
loop has a target that needs no parentheses. -/
def isReread (b : Block) : Bool :=
  b.walk.all (!·.isSpread) && b.statements.all (!·.isMisread)

private theorem ofText_source_iff {b : Block} (h : b.isSpelled Binary64.isCanonical = true) :
    ((∃ b', ofText b.source = .ok b' ∧ isSame b' b = true) → b.isReread = true) ∧
      (b.isReread = true → ∃ b', ofText b.source = .ok b' ∧ b'.unplaced = b.unplaced) := by
  have hf : ∀ x, Binary64.isCanonical x = true → x.IsWritten :=
    fun _ => Binary64.isWritten_of_isCanonical
  have hiff : b.isWritable Binary64.isCanonical = true ↔ b.isReread = true := by
    rw [isWritable_iff, isReread, Bool.and_eq_true]
    exact and_iff_right h
  refine ⟨fun ⟨b', hread, hsame⟩ => hiff.1 (isWritable_of_isSame hf h hread hsame), fun hr => ?_⟩
  exact ofText_layout hf (hiff.2 hr)

end Block

namespace Document

/-- The text that a document which is one statement is laid out in is read as the same statement,
comments included, if nothing in it is read as something else; and otherwise it is not. -/
theorem layout_rereads {file : String} {s : List Char} {p : VuParagraph} {v : Vu}
    (hnone : (ofText file s).paragraphs = []) (hone : (ofText file s).statements = [p])
    (hv : p.vu file = .ok v) (hkept : v.raw.statements.all Stmt.isKept = true) :
    (v.raw.isReread = true → ∃ v', (ofText file (layout file s).text).Reads v' ∧
      v'.raw.unplaced = v.raw.unplaced) ∧
    ((∃ v', (ofText file (layout file s).text).Reads v' ∧ Block.isSame v'.raw v.raw = true) →
      v.raw.isReread = true) := by
  obtain rfl : p = .whole (Text.lines s) := by
    rcases eq_or_mem_of_mem_statements (hone ▸ List.mem_singleton_self p) with hp | hp
    · exact hp
    · rw [hnone] at hp
      exact absurd hp List.not_mem_nil
  have htext : (layout file s).text = (VuParagraph.whole (Text.lines s)).standalone v := by
    unfold layout
    dsimp only
    rw [hnone, hone]
    simp only [List.isEmpty_nil, if_true, hv]
  obtain ⟨b, hb, hvb⟩ := VuParagraph.vu_eq_ok_iff.1 hv
  have hraw : v.raw = b := by rw [hvb]
  have hgiven : v.raw.IsGiven false :=
    hraw ▸ isGiven_of_parse (fun h => absurd h Bool.false_ne_true) hb
  have hspelled := hgiven.isSpelled_of_isKept hkept
  have hn : ∀ l ∈ Text.lines s, '\n' ∉ l := fun l hl => (Text.infix_of_mem_lines hl).2
  obtain ⟨hsame, hread⟩ := Block.ofText_source_iff hspelled
  rw [htext]
  constructor
  · intro hr
    obtain ⟨b', hb', he⟩ := hread hr
    obtain ⟨v', hv', rfl⟩ := (reads_standalone_iff hn hspelled).2 hb'
    exact ⟨v', hv', he⟩
  · rintro ⟨v', hv', hs⟩
    exact hsame ⟨v'.raw, (reads_standalone_iff hn hspelled).1 ⟨v', hv', rfl⟩, hs⟩

/-- A document that is one statement with a number, an index and a comment. -/
def standalone : List Char :=
  "# aside\nfor r in (x, y): require(r[1:2] == 0.1e-5)\n".toList

/-- The layout of a loop with an index, a number and a comment reads back. -/
theorem layout_rereads_loop : ∃ p v, (ofText "loop" standalone).paragraphs = [] ∧
    (ofText "loop" standalone).statements = [p] ∧ p.vu "loop" = .ok v ∧
    v.raw.statements.all Stmt.isKept = true ∧
    ∃ v', (ofText "loop" (layout "loop" standalone).text).Reads v' ∧
      v'.raw.unplaced = v.raw.unplaced := by
  have hnone : (ofText "loop" standalone).paragraphs = [] :=
    List.length_eq_zero_iff.1 (by decide +kernel)
  obtain ⟨p, hone⟩ := List.length_eq_one_iff.1
    (show (ofText "loop" standalone).statements.length = 1 by decide +kernel)
  have hall : ((ofText "loop" standalone).statements.all fun p => (p.vu "loop").toOption.any
      fun v => v.raw.statements.all Stmt.isKept && v.raw.isReread) = true := by decide +kernel
  have hp := List.all_eq_true.1 hall p (hone ▸ List.mem_singleton_self p)
  cases hv : p.vu "loop" with
  | error e =>
    rw [hv] at hp
    exact absurd hp Bool.false_ne_true
  | ok v =>
    rw [hv] at hp
    obtain ⟨hkept, hr⟩ := Bool.and_eq_true_iff.1 hp
    exact ⟨p, v, hnone, hone, hv, hkept, (layout_rereads hnone hone hv hkept).1 hr⟩

/-- An index of two, of which one is a slice, is put in parentheses, between which no slice is
read. -/
theorem isOk_layout_slices :
    let s := "require(a[1:2, 3] == 1)\n".toList
    let d := ofText "index" s
    let d' := ofText "index" (layout "index" s).text
    d.paragraphs.isEmpty = true ∧ d.statements.length = 1 ∧
      d.statements.all (fun p => (p.vu "index").isOk) = true ∧
      ((VuParagraph.whole d'.lines).vu "index").isOk = false := by
  decide +kernel

end Document
end ValidUsage
