import Mathlib.Data.List.TakeWhile
import ValidUsage.Proofs.ReadComments
import ValidUsage.Proofs.ScanRows
import ValidUsage.Proofs.ScanSound

/-!
# Comments that stand where statements may

A kept comment takes part in layout, which a comment does not. Where its indentation is that of an
open block, or that of the next line, and it stands neither in front of `elif` and `else` nor behind
a line that goes on, keeping it changes nothing else: the lines are read side by side, with the
indentations that are open in both texts and the comments between them.
-/

namespace ValidUsage
namespace Paragraph

open Lexer (indentation indentation_eq isBlankLine reindent follows)

/-- Whether a line goes on with the statement before it, or starts with the end of a line. -/
def continues (s : List Char) : Bool :=
  s.head? == some '\\' || ["elif", "else"].contains (String.ofList (s.takeWhile Text.isNameChar))

/-- Whether a line is not taken for a comment, and no string goes on behind it. -/
def isPlainLine (depth : Nat) (line : List Char) : Bool :=
  (depth != 0 || (keepComment? line).isNone) && lineEnd none line != .inString

/-- Whether the comments of lines stand where statements may: the indentations `S` are open in front
of them, `depth` brackets are, the line before them is a comment with the indentation `last` or
none, and it is `joined` with them or not. -/
def commentsInPlace (S : List Nat) (last : Option Nat) (depth : Nat) (joined : Bool) :
    List (List Char) → Bool
  | [] => last.all (· ≤ S.headD 0)
  | line :: lines =>
    let w := (indentation 0 line).1
    let s := (indentation 0 line).2
    if depth = 0 ∧ joined = false then
      if isBlankLine s then
        if s.head? = some '#' then
          last.all (follows S · w) && (reindent S w).headD 0 == w &&
            commentsInPlace S (some w) 0 false lines
        else line.all Text.isBlank && commentsInPlace S last 0 false lines
      else
        last.all (fun w' => follows S w' w && (w != w' || !continues s)) && isPlainLine 0 line &&
          commentsInPlace (reindent S w) none (bracketDepth none 0 line)
            (lineEnd none line == .joined) lines
    else
      isPlainLine depth line &&
        commentsInPlace S none (bracketDepth none depth line) (lineEnd none line == .joined) lines

private theorem keepCommentLines_plain {depth : Nat} {line : List Char}
    (h : isPlainLine depth line = true) (lines : List (List Char)) :
    keepCommentLines depth (line :: lines) =
      line :: keepCommentLines (bracketDepth none depth line) lines := by
  obtain ⟨h, -⟩ := Bool.and_eq_true_iff.1 h
  cases depth with
  | zero =>
    have hnone : keepComment? line = none := by simpa using h
    simp [keepCommentLines, hnone]
  | succ depth => simp [keepCommentLines]

/-! ## Indentations -/

section Indentation

variable {n w : Nat} {line s : List Char}

private theorem isInner_of_indentation {c : Char} (h : c = ' ' ∨ c = '\t' ∨ c = '\x0c') :
    isInner c = true := by
  rcases h with rfl | rfl | rfl <;> decide

private theorem isBlank_of_indentation {c : Char} (h : c = ' ' ∨ c = '\t' ∨ c = '\x0c') :
    Text.isBlank c = true := by
  rcases h with rfl | rfl | rfl <;> decide

private theorem lineEnd_indentation (n : Nat) (line : List Char) :
    lineEnd none (indentation n line).2 = lineEnd none line := by
  obtain ⟨u, hu, hall, -⟩ := indentation_eq n line
  conv_rhs => rw [hu]
  exact (lineEnd_append (fun c hc => isInner_of_indentation (hall c hc)) _).symm

private theorem bracketDepth_indentation (n d : Nat) (line : List Char) :
    bracketDepth none d (indentation n line).2 = bracketDepth none d line := by
  obtain ⟨u, hu, hall, -⟩ := indentation_eq n line
  conv_rhs => rw [hu]
  exact (bracketDepth_inner (fun c hc => isInner_of_indentation (hall c hc)) d _).symm

end Indentation

/-! ## Comment lines -/

private theorem keepComment?_of_isBlank {line : List Char} (h : line.all Text.isBlank = true) :
    keepComment? line = none := by
  have hnil : Text.trimStart line = [] := by
    rw [Text.trimStart, List.dropWhile_eq_nil_iff]
    exact List.all_eq_true.1 h
  rw [keepComment?, hnil]

/-- Blanks do not count, the ends of lines aside. -/
theorem isNeutral_of_isBlank {c : Char} (h : Text.isBlank c = true) (hn : c ≠ '\n') :
    isNeutral c = true := by
  rw [isNeutral, Bool.not_eq_true', ← Bool.not_eq_true, List.contains_iff_mem]
  intro hm
  have hno : ∀ c ∈ ['\'', '"', '#', '(', '[', '{', ')', ']', '}', '\n'],
      Text.isBlank c = false ∨ c = '\n' := forall_mem_of_all (by decide)
  rcases hno c hm with hb | rfl
  · rw [hb] at h
    cases h
  · exact hn rfl

private theorem bracketDepth_of_isBlank {line : List Char} (h : line.all Text.isBlank = true)
    (hn : '\n' ∉ line) (d : Nat) : bracketDepth none d line = d := by
  have hall : ∀ c ∈ line, isNeutral c = true := fun c hc =>
    isNeutral_of_isBlank (List.all_eq_true.1 h c hc) fun he => hn (he ▸ hc)
  have := bracketDepth_append hall d []
  rwa [List.append_nil] at this

private theorem mem_of_mem_quoteComment {c : Char} {text : List Char} (h : c ∈ quoteComment text) :
    c = '\\' ∨ c ∈ text := by
  obtain ⟨c', hc', h⟩ := List.mem_flatMap.1 h
  split at h
  · rcases List.mem_cons.1 h with rfl | h
    · exact .inl rfl
    · exact .inr (List.mem_singleton.1 h ▸ hc')
  · exact .inr (List.mem_singleton.1 h ▸ hc')

private theorem not_mem_kept_comment {text : String} (h : isCommentText text = true) :
    '\n' ∉ (Mark.comment text).kept := by
  have hn := not_mem_of_isCommentText h
  have hquote : '\n' ∉ quoteComment text.toList := fun hm =>
    (mem_of_mem_quoteComment hm).elim (by decide) hn
  have hname : '\n' ∉ commentName.toList := by decide
  simp [Mark.kept, hquote, hname]

private theorem lineEnd_quoteComment (text r : List Char) :
    lineEnd (some '"') (quoteComment text ++ '"' :: r) = lineEnd none r := by
  induction text with
  | nil =>
    show lineEnd (some '"') ('"' :: r) = _
    rw [lineEnd.eq_def]
    rfl
  | cons c text ih =>
    show lineEnd (some '"') ((if c = '\\' ∨ c = '"' then ['\\', c] else [c]) ++
      quoteComment text ++ '"' :: r) = _
    rw [List.append_assoc, ← ih]
    split
    · rw [List.cons_append, lineEnd.eq_def]
      rfl
    · rename_i hc
      rw [not_or] at hc
      rw [List.cons_append, lineEnd.eq_def]
      simp only [hc.1, hc.2, if_false, List.nil_append]

private theorem bracketDepth_quoteComment (d : Nat) (text r : List Char) :
    bracketDepth (some '"') d (quoteComment text ++ '"' :: r) = bracketDepth none d r := by
  induction text with
  | nil =>
    show bracketDepth (some '"') d ('"' :: r) = _
    rw [bracketDepth.eq_def]
    rfl
  | cons c text ih =>
    show bracketDepth (some '"') d ((if c = '\\' ∨ c = '"' then ['\\', c] else [c]) ++
      quoteComment text ++ '"' :: r) = _
    rw [List.append_assoc, ← ih]
    split
    · rw [List.cons_append, bracketDepth.eq_def]
      rfl
    · rename_i hc
      rw [not_or] at hc
      exact bracketDepth_quoted hc.1 hc.2 d _

/-- The call of a comment is a line of its own. -/
theorem lineEnd_kept_comment (text : String) :
    lineEnd none (Mark.comment text).kept = .plain ∧
      ∀ d, bracketDepth none d (Mark.comment text).kept = d := by
  have hname : ∀ c ∈ commentName.toList, isInner c = true := List.all_eq_true.1 (by decide)
  have hkept : (Mark.comment text).kept =
      commentName.toList ++ '(' :: '"' :: (quoteComment text.toList ++ '"' :: [')']) := by
    simp [Mark.kept]
  rw [hkept]
  refine ⟨?_, fun d => ?_⟩
  · rw [lineEnd_append hname]
    exact lineEnd_quoteComment text.toList [')']
  · rw [bracketDepth_inner hname]
    exact bracketDepth_quoteComment (d + 1) text.toList [')']

/-- A kept comment is the call of its text, with the indentation of the comment. -/
theorem keepComment?_indented {line r : List Char} {n : Nat} (hn : '\n' ∉ line)
    (h : (indentation n line).2 = '#' :: r) : ∃ kept text, keepComment? line = some kept ∧
      isCommentText text = true ∧ '\n' ∉ kept ∧
      indentation n kept = ((indentation n line).1, (Mark.comment text).kept) := by
  obtain ⟨u, hu, hall, hi⟩ := indentation_eq n line
  rw [h] at hu
  have hr : '\n' ∉ '#' :: r := fun hm => hn (hu ▸ List.mem_append_right u hm)
  have htext := isCommentText_commentText hr
  refine ⟨u ++ (Mark.comment (String.ofList (commentText ('#' :: r)))).kept, _, ?_, htext, ?_, ?_⟩
  · have hblank : ∀ c ∈ u, Text.isBlank c = true := fun c hc => isBlank_of_indentation (hall c hc)
    have hstart : Text.trimStart line = '#' :: r := by
      rw [hu, Text.trimStart_append hblank]
      rfl
    have hlead : Text.lead line = u := by
      rw [hu]
      exact takeWhile_append_of_head hblank fun c hc => by
        obtain rfl : '#' = c := by simpa using hc
        decide
    rw [keepComment?, hstart]
    simp [Mark.kept, hlead]
  · rw [List.mem_append, not_or]
    exact ⟨fun hm => hn (hu ▸ List.mem_append_left _ hm), not_mem_kept_comment htext⟩
  · exact hi fun c hc => by
      obtain rfl : '_' = c := by simpa [Mark.kept, commentName] using hc
      decide

end Paragraph

namespace Parser

variable {ok : String → Bool} {ts ts' r r' : List Token}

/-- Comments may be put behind the same layout. -/
theorem Commented.append_layout (hk : ∀ t ∈ ts, t.kind.isLayout = true)
    (hb : ts'.map Token.bare = ts.map Token.bare) (h : Commented ok true r r') :
    Commented ok true (ts ++ r) (ts' ++ r') := by
  induction ts generalizing ts' with
  | nil =>
    obtain rfl := List.map_eq_nil_iff.1 hb
    exact h
  | cons t ts ih =>
    obtain ⟨t', ts', rfl, ht, hb⟩ := List.map_eq_cons_iff.1 hb
    obtain ⟨hl, hk⟩ := List.forall_mem_cons.1 hk
    exact .layout hl (congrArg Prod.fst ht) (congrArg Prod.snd ht) (ih hk hb)

private theorem Commented.append_tokens {start : Bool} (hk : ∀ t ∈ ts, t.kind.isLayout = false)
    (hn : ∀ t ∈ ts, t.kind = .name → ok t.text = true)
    (h : Commented ok (start && ts.isEmpty) r r') : Commented ok start (ts ++ r) (ts ++ r') := by
  induction ts generalizing start with
  | nil => simpa using h
  | cons t ts ih =>
    obtain ⟨hl, hk⟩ := List.forall_mem_cons.1 hk
    obtain ⟨hn, hns⟩ := List.forall_mem_cons.1 hn
    exact .token hl hn (ih hk hns (by simpa using h))

/-- A comment may stand in front of the ends of blocks. -/
theorem admitsComment_append (hk : ∀ t ∈ ts, t.kind = .dedent) (h : ts = [] → AdmitsComment r) :
    AdmitsComment (ts ++ r) := by
  cases ts with
  | nil => exact h rfl
  | cons t ts =>
    have ht := hk t List.mem_cons_self
    have hl : t.kind.isLayout = true := by rw [ht]; rfl
    exact ⟨fun hi => absurd (ht.symm.trans hi) nofun, endsStmt_of_isLayout hl⟩

end Parser

namespace Lexer

open Paragraph ValidUsage.Parser

section Front

variable {st : State} {c : Char} {cs r : List Char}

/-- A step at a character that is neither blank nor starts a comment or the end of a line takes one
token, which starts with the character. -/
theorem token_one {x : Step (c :: cs)} (h : token st c cs = .ok x)
    (hb : isBlankLine (c :: cs) = false) (hc : c ≠ ' ' ∧ c ≠ '\t' ∧ c ≠ '\x0c') (hs : c ≠ '\\') :
    ∃ kind n, kind.isLayout = false ∧
      x.tokens = [⟨kind, String.ofList (c :: cs.take n), st.pos⟩] := by
  simp only [isBlankLine, Bool.or_eq_false_iff, beq_eq_false_iff_ne] at hb
  obtain ⟨⟨hhash, hline⟩, hreturn⟩ := hb
  cases move_token h with
  | @token t u depth tokens kind =>
    obtain ⟨n, -, -, ht⟩ := lexeme_of_mem h (by rw [tokens]; exact List.mem_singleton_self t) kind
    exact ⟨t.kind, n, kind, ht ▸ tokens⟩
  | newline char => exact absurd char hline
  | blank char =>
    rcases char with char | char | char | char
    · exact absurd char hc.1
    · exact absurd char hc.2.1
    · exact absurd char hreturn
    · exact absurd char hc.2.2
  | comment char => exact absurd char hhash
  | join char => exact absurd char hs

/-- A line that starts with `elif` or `else` shows it. -/
theorem continues_of_token {x : Step (c :: (cs ++ r))} (hr : EndsLine r)
    (h : token st c (cs ++ r) = .ok x) {w : String} (hw : w = "elif" ∨ w = "else") {t : Token}
    {n : Nat} (ht : x.tokens = [t]) (htext : t.text = String.ofList (c :: (cs ++ r).take n))
    (his : t.is w = true) : continues (c :: cs) = true := by
  have heq : t.text = w := by
    simp only [Token.is, Bool.and_eq_true, beq_iff_eq] at his
    exact his.2
  have hhead : Text.isNameStart c = true := by
    have hlist := congrArg String.toList (htext.symm.trans heq)
    rw [String.toList_ofList] at hlist
    rcases hw with rfl | rfl
    all_goals
      obtain rfl := (List.cons.inj hlist).1
      decide
  rw [token_of_isNameStart hhead] at h
  obtain rfl := Except.ok.inj h
  obtain rfl := (List.cons.inj ht).1
  have hword : String.ofList (c :: cs.takeWhile Text.isNameChar) = w := by
    rw [← heq]
    show _ = String.ofList (c :: (cs ++ r).take ((cs ++ r).takeWhile Text.isNameChar).length)
    rw [← List.prefix_iff_eq_take.1 (List.takeWhile_prefix Text.isNameChar),
      takeWhile_line (by decide) hr]
  have htake : (c :: cs).takeWhile Text.isNameChar = c :: cs.takeWhile Text.isNameChar := by
    rw [List.takeWhile_cons, if_pos (isNameChar_of_isNameStart hhead)]
  rw [continues, htake, hword]
  rcases hw with rfl | rfl <;> simp

/-- A comment may stand in front of a line that does not go on with a statement. -/
theorem admitsComment_of_scan (hi : st.IsInline) (hr : EndsLine r)
    (hb : isBlankLine (c :: cs) = false) (hc : c ≠ ' ' ∧ c ≠ '\t' ∧ c ≠ '\x0c')
    (hcont : continues (c :: cs) = false) {ts : List Token} (h : scan st (c :: cs ++ r) = .ok ts) :
    AdmitsComment ts := by
  rw [List.cons_append, scan_cons hi] at h
  obtain ⟨x, hx, h⟩ := ok_of_bind h
  obtain ⟨rest, -, rfl⟩ := ok_of_map h
  have hs : c ≠ '\\' := by
    rintro rfl
    exact absurd hcont (by simp [continues])
  obtain ⟨kind, n, hkind, ht⟩ := token_one hx hb hc hs
  have hno {w : String} (hw : w = "elif" ∨ w = "else") : at? w (x.tokens ++ rest) = false := by
    rw [← Bool.not_eq_true]
    intro his
    rw [ht] at his
    rw [continues_of_token hr hx hw ht rfl his] at hcont
    exact absurd hcont nofun
  refine ⟨fun hindent => ?_, hno (.inl rfl), hno (.inr rfl)⟩
  rw [ht] at hindent
  obtain rfl : kind = .indent := hindent
  exact absurd hkind nofun

end Front

/-! ## The tokens of a kept comment -/

/-- The tokens in front of the end of a text are known by the text. -/
theorem append_finish_inj {toks toks' r r' : List Token} (h : ∀ t ∈ toks, t.kind.isLayout = false)
    (h' : ∀ t ∈ toks', t.kind.isLayout = false) (hr : ∀ t ∈ r, t.kind.isLayout = true)
    (hr' : ∀ t ∈ r', t.kind.isLayout = true) (he : toks ++ r = toks' ++ r') : toks = toks' := by
  have hfront {toks r : List Token} (h : ∀ t ∈ toks, t.kind.isLayout = false)
      (hr : ∀ t ∈ r, t.kind.isLayout = true) :
      (toks ++ r).filter (fun t => !t.kind.isLayout) = toks := by
    rw [List.filter_append, List.filter_eq_self.2 fun t ht => by rw [h t ht]; rfl,
      List.filter_eq_nil_iff.2 fun t ht => by rw [hr t ht]; decide, List.append_nil]
  rw [← hfront h hr, he, hfront h' hr']

/-- The call of a comment is read as its tokens, on its line. -/
theorem takesLine_comment {text : String} (ht : isCommentText text = true) (st : State)
    (hd : st.depth = 0) (hi : st.IsInline) : ∃ toks st',
      TakesLine st (Mark.comment text).kept toks st' [] ∧ Spells toks [.comment text] := by
  have hkept : Style.kept.text [.comment text] = (Mark.comment text).kept := List.append_nil _
  obtain ⟨toks₁, st₁, hspells, hd₁, -, -, -, he⟩ := Stmt.scans_comment ht [] st hd hi
  rw [hkept, scan_nil] at he
  have hfinish (st : State) (hd : st.depth = 0) : ∃ r, finish st = .ok r := by
    rw [finish, if_neg (by omega)]
    exact ⟨_, rfl⟩
  obtain ⟨r₁, hr₁⟩ := hfinish st₁ hd₁
  rw [hr₁] at he
  obtain ⟨hend, hdepth⟩ := lineEnd_kept_comment text
  have hopen : lineEnd none (Mark.comment text).kept ≠ .inString := by
    rw [hend]
    rintro ⟨⟩
  obtain ⟨toks, st', v, hline⟩ :=
    takesLine_of_scan _ (not_mem_kept_comment ht) (r := []) (by rintro _ ⟨⟩) hi hopen he
  obtain rfl : v = [] := by
    rcases hline.ending with ⟨-, hv⟩ | ⟨hjoined, -⟩
    · exact hv
    · cases hend.symm.trans hjoined
  refine ⟨toks, st', hline, ?_⟩
  have hscan := hline.scan st.indents [] (by rintro _ ⟨⟩)
  obtain ⟨r', hr'⟩ := hfinish { st' with indents := st.indents }
    (hline.depth.trans ((hdepth _).trans hd))
  rw [List.nil_append, scan_nil, hr'] at hscan
  have hkinds : ∀ t ∈ toks₁, t.kind.isLayout = false := by
    have hall : ∀ x ∈ tokensOf [.comment text], x.1.isLayout = false := by
      simp [Mark.tokens, TokenKind.isLayout]
    exact fun t ht => hall _ (hspells ▸ List.mem_map_of_mem (f := Token.bare) ht)
  rw [Spells, ← append_finish_inj hkinds hline.kinds (fun t ht => (layout_of_mem_finish hr₁ t ht).1)
    (fun t ht => (layout_of_mem_finish hr' t ht).1) (Except.ok.inj (he.symm.trans hscan))]
  exact hspells

/-- A kept comment is read as a comment line behind the layout tokens of its indentation. -/
theorem scan_keptComment {p : Pos} {line r : List Char} {S : List Nat} {w : Nat}
    (hn : '\n' ∉ line) (hi : indentation 0 line = (w, '#' :: r))
    (hw : (reindent S w).headD 0 = w) : ∃ kept, keepComment? line = some kept ∧
      ∀ lines : List (List Char), ∃ p' ahead c, (lines ≠ [] → p' = nextLine p) ∧
        ahead.map Token.bare = (shift S w).map layoutToken ∧ IsCommentLine c ∧
        scan (.atLine p S) (kept ++ behind lines) =
          (scanFrom (.atLine p' (reindent S w)) lines).map fun ts => ahead ++ (c ++ ts) := by
  obtain ⟨kept, text, hk, htext, hkn, hki⟩ := keepComment?_indented hn (congrArg Prod.snd hi)
  rw [hi] at hki
  refine ⟨kept, hk, fun lines => ?_⟩
  have hb : isBlankLine (Mark.comment text).kept = false := rfl
  obtain ⟨p₁, hp₁, hscan⟩ := scan_textLine p hki hb
  obtain ⟨toks, st', hline, hspells⟩ :=
    takesLine_comment htext (.inLine p₁ (reindent S w)) rfl (.inl rfl)
  let st₁ : State := { st' with indents := reindent S w }
  have hd₁ : st₁.depth = 0 := hline.depth.trans ((lineEnd_kept_comment text).2 0)
  have hc₁ : st₁.content = true := by
    obtain ⟨t, toks, rfl, -⟩ := List.map_eq_cons_iff.1 hspells
    exact hline.content
  obtain ⟨p', hp', hend⟩ := scan_lineEnd lines hd₁ hline.isInline hc₁
  refine ⟨p', (shift S w).map (⟨·, "", p₁⟩), toks ++ [⟨.newline, "", st₁.pos⟩], fun h => ?_, ?_,
    ⟨text, toks, _, rfl, hspells, rfl⟩, ?_⟩
  · rw [hp' h, nextLine, nextLine]
    exact congrArg (fun n => (⟨n + 1, 1⟩ : Pos)) (hline.line.trans hp₁)
  · rw [List.map_map]
    rfl
  · have htoks := hline.scan (reindent S w) (behind lines) (endsLine_behind lines)
    rw [hscan, layout_eq, if_pos hw, Except.bind]
    dsimp only
    refine (congrArg _ (htoks.trans (congrArg _ hend))).trans ?_
    cases scanFrom (.atLine p' (reindent S w)) lines with
    | error e => rfl
    | ok ts => simp [Except.map]

/-! ## Lines with their comments kept -/

/-- The indentations that are open behind a comment with an indentation, or behind none. -/
def indentsBehind (S : List Nat) (last : Option Nat) : List Nat := last.elim S (reindent S)

/-- Whether tokens are those of a text with its comments kept, from a line on. The layout tokens of
the comment in front of the line stand in front of the comment, not of the line. -/
def Resumes (S : List Nat) (last : Option Nat) (ts ts' : List Token) : Prop :=
  ∃ ahead r, ts = ahead ++ r ∧
    ahead.map Token.bare = (last.elim [] (shift S)).map layoutToken ∧
    Commented (fun _ => true) true r ts' ∧ (last.isSome = true → AdmitsComment r)

section Resumes

variable {S : List Nat} {last : Option Nat} {n : Nat}

private theorem kind_of_bare {ts : List Token} {ks : List TokenKind}
    (h : ts.map Token.bare = ks.map layoutToken) : ∀ t ∈ ts, t.kind ∈ ks := by
  intro t ht
  obtain ⟨k, hk, he⟩ := List.mem_map.1 (h ▸ List.mem_map_of_mem (f := Token.bare) ht)
  rw [show t.kind = k from (congrArg Prod.fst he).symm]
  exact hk

/-- The layout tokens of a line are those of the comment before it and those behind the comment. -/
theorem resumes_append (hlast : last.all (fun w => (reindent S w).headD 0 == w) = true)
    (hf : last.all (follows S · n) = true) {ts ts' r r' : List Token}
    (hts : ts.map Token.bare = (shift S n).map layoutToken)
    (hts' : ts'.map Token.bare = (shift (indentsBehind S last) n).map layoutToken)
    (h : Commented (fun _ => true) true r r') (hr : last = some n → AdmitsComment r) :
    Resumes S last (ts ++ r) (ts' ++ r') := by
  have hshift : shift S n = last.elim [] (shift S) ++ shift (indentsBehind S last) n := by
    cases last with
    | none => rfl
    | some w => exact (reindent_follows (by simpa using hlast) (by simpa using hf)).2
  rw [hshift, List.map_append] at hts
  obtain ⟨ahead, rest, rfl, hahead, hrest⟩ := List.map_eq_append_iff.1 hts
  refine ⟨ahead, rest ++ r, List.append_assoc _ _ _, hahead, ?_, fun hsome => ?_⟩
  · exact h.append_layout (fun t ht => isLayout_shift (kind_of_bare hrest t ht))
      (hts'.trans hrest.symm)
  · obtain ⟨w, rfl⟩ := Option.isSome_iff_exists.1 hsome
    have hw : (reindent S w).headD 0 = w := by simpa using hlast
    have hn : n ≤ w := (follows_iff.1 (by simpa using hf)).1
    refine admitsComment_append (fun t ht => ?_) fun hnil => hr (congrArg some ?_)
    · exact shift_dedent (Nat.le_trans hn (Nat.le_of_eq hw.symm)) _ (kind_of_bare hrest t ht)
    · refine Nat.le_antisymm ?_ hn
      refine Nat.le_of_not_lt fun hlt => shift_ne_nil (Nat.lt_of_lt_of_eq hlt hw.symm) ?_
      rw [hnil] at hrest
      exact List.map_eq_nil_iff.1 hrest.symm

private theorem reindent_indentsBehind
    (hlast : last.all (fun w => (reindent S w).headD 0 == w) = true)
    (hf : last.all (follows S · n) = true) :
    reindent (indentsBehind S last) n = reindent S n := by
  cases last with
  | none => rfl
  | some w => exact (reindent_follows (by simpa using hlast) (by simpa using hf)).1

/-- At the end of the text all blocks end. -/
theorem resumes_finish (h : last.all (· ≤ S.headD 0) = true) {p p' : Pos} {ts : List Token}
    (hts : finish (.atLine p S) = .ok ts) : ∃ ts',
      finish (.atLine p' (indentsBehind S last)) = .ok ts' ∧ Resumes S last ts ts' := by
  let ends (p : Pos) (S : List Nat) : List Token :=
    S.map (fun _ => ⟨.dedent, "", p⟩) ++ [⟨.endMarker, "", p⟩]
  obtain rfl : ends p S = ts := Except.ok.inj hts
  have hends (S : List Nat) : Commented (fun _ => true) true (ends p S) (ends p' S) := by
    have hlayout : Commented (fun _ => true) true (ends p S ++ []) (ends p' S ++ []) :=
      .append_layout (fun t ht => ?_) ?_ .nil
    · simpa using hlayout
    · rcases List.mem_append.1 ht with ht | ht
      · obtain ⟨n, -, rfl⟩ := List.mem_map.1 ht
        rfl
      · rw [List.mem_singleton.1 ht]
        rfl
    · simp [ends, Token.bare]
  refine ⟨ends p' (indentsBehind S last), rfl, ?_⟩
  cases last with
  | none => exact ⟨[], ends p S, rfl, rfl, hends S, (by rintro ⟨⟩)⟩
  | some w =>
    have hw : ¬S.headD 0 < w := by simpa using h
    have hsplit := List.takeWhile_append_dropWhile (p := fun m => decide (w < m)) (l := S)
    have hS : indentsBehind S (some w) = S.dropWhile (w < ·) := if_neg hw
    have hahead : shift S w = (S.takeWhile (w < ·)).map fun _ => .dedent := if_neg hw
    refine ⟨(S.takeWhile (w < ·)).map (fun _ => ⟨.dedent, "", p⟩), ends p (S.dropWhile (w < ·)), ?_,
      ?_, hS ▸ hends _, fun _ => ?_⟩
    · simp only [ends]
      rw [← List.append_assoc, ← List.map_append, hsplit]
    · show _ = (shift S w).map layoutToken
      rw [hahead, List.map_map, List.map_map]
      rfl
    · refine admitsComment_append (fun t ht => ?_) fun _ =>
        ⟨(by rintro ⟨⟩), endsStmt_of_isLayout rfl⟩
      obtain ⟨n, -, rfl⟩ := List.mem_map.1 ht
      rfl

end Resumes

/-- Whether keeping the comments of lines only adds them, where the lines start outside of
brackets. -/
def ResumesAt (lines : List (List Char)) : Prop :=
  ∀ {p p' : Pos} {S : List Nat} {last : Option Nat} {ts : List Token},
    (lines ≠ [] → p' = p) → commentsInPlace S last 0 false lines = true →
    last.all (fun w => (reindent S w).headD 0 == w) = true →
    scanFrom (.atLine p S) lines = .ok ts → ∃ ts',
      scanFrom (.atLine p' (indentsBehind S last)) (keepCommentLines 0 lines) = .ok ts' ∧
        Resumes S last ts ts'

/-- Whether keeping the comments of lines only adds them, where the lines stand behind a part of a
line. -/
def ResumesIn (lines : List (List Char)) : Prop :=
  ∀ {st : State} {u : List Char} {ts : List Token}, st.IsInline → '\n' ∉ u →
    lineEnd none u ≠ .inString →
    commentsInPlace st.indents none (bracketDepth none st.depth u) (lineEnd none u == .joined)
      lines = true →
    scan st (u ++ behind lines) = .ok ts → ∃ ts',
      scan st (u ++ behind (keepCommentLines (bracketDepth none st.depth u) lines)) = .ok ts' ∧
        Commented (fun _ => true) (!st.content) ts ts'

section Lines

variable {S : List Nat} {last : Option Nat} {depth : Nat} {joined : Bool} {line : List Char}
  {lines : List (List Char)}

/-- Lines with comments give the tokens of both with those of the comments put where lines start. -/
theorem Resumes.commented {ts ts' : List Token} (h : Resumes S none ts ts') :
    Commented (fun _ => true) true ts ts' := by
  obtain ⟨ahead, r, rfl, hahead, hr, -⟩ := h
  obtain rfl := List.map_eq_nil_iff.1 hahead
  exact hr

/-- Within brackets, and behind a backslash, a line is no comment. -/
theorem plain_of_commentsInPlace (h : ¬(depth = 0 ∧ joined = false))
    (hc : commentsInPlace S none depth joined (line :: lines) = true) :
    keepCommentLines depth (line :: lines) =
        line :: keepCommentLines (bracketDepth none depth line) lines ∧
      lineEnd none line ≠ .inString ∧ commentsInPlace S none (bracketDepth none depth line)
        (lineEnd none line == .joined) lines = true := by
  rw [commentsInPlace] at hc
  simp only [h, if_false, Bool.and_eq_true] at hc
  refine ⟨keepCommentLines_plain hc.1 lines, ?_, hc.2⟩
  simpa using (Bool.and_eq_true_iff.1 hc.1).2

/-- What is read behind the part of a line that is read, up to the end of the line. -/
theorem commented_behind (hat : ResumesAt lines) (hn : ∀ line ∈ lines, '\n' ∉ line)
    (hin : ∀ l ls, lines = l :: ls → ResumesIn ls) {st : State} {v : List Char}
    {ts : List Token} (hi : st.IsInline) (hv : (joined = false ∧ v = []) ∨
      (joined = true ∧ (v = ['\\'] ∨ v = ['\\', '\r'])))
    (hc : commentsInPlace st.indents none st.depth joined lines = true)
    (hts : scan st (v ++ behind lines) = .ok ts) : ∃ ts',
      scan st (v ++ behind (keepCommentLines st.depth lines)) = .ok ts' ∧
        Commented (fun _ => true) (!st.content) ts ts' := by
  -- Within brackets, and behind a backslash, the next line goes on.
  have goesOn {l : List Char} {ls : List (List Char)} (hl : lines = l :: ls) (st₁ : State)
      (hd : st₁.depth = st.depth) (hS : st₁.indents = st.indents)
      (hcontent : st₁.content = st.content) (hi₁ : st₁.IsInline)
      (hplain : ¬(st.depth = 0 ∧ joined = false)) (hts₁ : scan st₁ (l ++ behind ls) = .ok ts) :
      ∃ ts' l' ls', keepCommentLines st.depth lines = l' :: ls' ∧
        scan st₁ (l' ++ behind ls') = .ok ts' ∧
        Commented (fun _ => true) (!st.content) ts ts' := by
    subst hl
    obtain ⟨hkeep, hopen, hc⟩ := plain_of_commentsInPlace hplain hc
    rw [← hd, ← hS] at hc
    obtain ⟨ts', hts', hcom⟩ := hin l ls rfl hi₁ (hn l List.mem_cons_self) hopen hc hts₁
    rw [hd] at hts'
    exact ⟨ts', l, _, hkeep, hts', hcontent ▸ hcom⟩
  rcases hv with ⟨rfl, rfl⟩ | ⟨rfl, hv⟩
  · by_cases hend : st.depth = 0 ∧ st.content = true
    · obtain ⟨p, hp, he⟩ := scan_lineEnd lines hend.1 hi hend.2
      obtain ⟨p', hp', he'⟩ :=
        scan_lineEnd (keepCommentLines st.depth lines) hend.1 hi hend.2
      rw [List.nil_append, he] at hts
      obtain ⟨ts₁, hts₁, rfl⟩ := ok_of_map hts
      rw [hend.1] at hc hp' he' ⊢
      obtain ⟨ts', hts', hcom⟩ := hat
        (fun hne => (hp' (keepCommentLines_ne_nil 0 hne)).trans (hp hne).symm) hc rfl hts₁
      have hts' : scanFrom (.atLine p' st.indents) (keepCommentLines 0 lines) = .ok ts' := hts'
      rw [List.nil_append, he', hts']
      exact ⟨_, rfl, .layout rfl rfl rfl hcom.commented⟩
    · cases lines with
      | nil => exact ⟨ts, hts, .refl fun _ _ _ => rfl⟩
      | cons l ls =>
        have hnext := scan_silentEnd hi hend
        have hts : scan st ('\n' :: (l ++ behind ls)) = .ok ts := hts
        rw [hnext] at hts
        by_cases hd : st.depth = 0
        · have hcontent : st.content = false := Bool.eq_false_iff.2 fun hcon => hend ⟨hd, hcon⟩
          have hline : { st with pos := nextLine st.pos, lineStart := true } =
              State.atLine (nextLine st.pos) st.indents := by
            rw [State.atLine, ← hd, ← hcontent]
          rw [hline] at hts hnext
          rw [hd] at hc ⊢
          obtain ⟨ts', hts', hcom⟩ := hat (fun _ => rfl) hc rfl hts
          refine ⟨ts', ?_, hcontent ▸ hcom.commented⟩
          obtain ⟨l', ls', hkeep⟩ := List.exists_cons_of_ne_nil
            (keepCommentLines_ne_nil 0 (List.cons_ne_nil l ls))
          rw [hkeep] at hts' ⊢
          exact (hnext _).trans hts'
        · obtain ⟨ts', l', ls', hkeep, hts', hcom⟩ :=
            goesOn rfl { st with pos := nextLine st.pos, lineStart := true } rfl rfl rfl
              (.inr (Nat.pos_of_ne_zero hd)) (fun h => hd h.1) hts
          exact ⟨ts', by rw [hkeep]; exact (hnext _).trans hts', hcom⟩
  · obtain ⟨l, ls, rfl, hscan⟩ := scan_joined hi hv hts
    have hts : scan st (v ++ '\n' :: (l ++ behind ls)) = .ok ts := hts
    rw [hscan] at hts
    obtain ⟨ts', l', ls', hkeep, hts', hcom⟩ :=
      goesOn rfl { st with pos := nextLine st.pos, lineStart := false } rfl rfl rfl
        (.inl rfl) (by simp) hts
    exact ⟨ts', by rw [hkeep]; exact (hscan _).trans hts', hcom⟩

/-- A line that is read is read up to its end, and goes on with what is read behind it. -/
theorem resumesIn (hat : ResumesAt lines) (hn : ∀ line ∈ lines, '\n' ∉ line)
    (hin : ∀ l ls, lines = l :: ls → ResumesIn ls) : ResumesIn lines := by
  intro st u ts hi hu hopen hc hts
  obtain ⟨toks, st', v, hline⟩ := takesLine_of_scan u hu (endsLine_behind lines) hi hopen hts
  let st₁ : State := { st' with indents := st.indents }
  have hscan (lines : List (List Char)) :
      scan st (u ++ behind lines) = (scan st₁ (v ++ behind lines)).map (toks ++ ·) :=
    hline.scan st.indents (behind lines) (endsLine_behind lines)
  rw [hscan] at hts
  obtain ⟨ts₁, hts₁, rfl⟩ := ok_of_map hts
  have hend : ((lineEnd none u == .joined) = false ∧ v = []) ∨
      ((lineEnd none u == .joined) = true ∧ (v = ['\\'] ∨ v = ['\\', '\r'])) := by
    rcases hline.ending with ⟨he, hv⟩ | ⟨he, hv⟩
    · exact .inl ⟨by rw [he]; rfl, hv⟩
    · exact .inr ⟨by rw [he]; rfl, hv⟩
  rw [← hline.depth] at hc ⊢
  obtain ⟨ts', hts', hcom⟩ :=
    commented_behind hat hn hin (show st₁.IsInline from hline.isInline) hend hc hts₁
  refine ⟨toks ++ ts', ?_, .append_tokens hline.kinds (fun _ _ _ => rfl) ?_⟩
  · rw [hscan]
    exact congrArg (Except.map _) hts'
  · have hcontent : (!st₁.content) = (!st.content && toks.isEmpty) := by
      rw [show st₁.content = _ from hline.content, Bool.not_or, Bool.not_not]
    exact hcontent ▸ hcom

variable {p p' : Pos} {w : Nat} {s : List Char} {ts : List Token}

/-- A comment in front of lines. -/
theorem resumes_comment (hat : ResumesAt lines) (hn : '\n' ∉ line)
    (hi : indentation 0 line = (w, '#' :: s)) (hlast : last.all (follows S · w) = true)
    (hopen : last.all (fun w => (reindent S w).headD 0 == w) = true)
    (hw : (reindent S w).headD 0 = w) (hc : commentsInPlace S (some w) 0 false lines = true)
    (hts : scanFrom (.atLine p S) (line :: lines) = .ok ts) : ∃ ts',
      scanFrom (.atLine p (indentsBehind S last)) (keepCommentLines 0 (line :: lines)) = .ok ts' ∧
        Resumes S last ts ts' := by
  have hK := reindent_indentsBehind hopen hlast
  obtain ⟨kept, hk, hkept⟩ := scan_keptComment (p := p) (S := indentsBehind S last) hn hi
    (by rw [hK]; exact hw)
  obtain ⟨q, ahead, c, hq, hahead, hcomment, hscan⟩ := hkept (keepCommentLines 0 lines)
  obtain ⟨q', hq', hblank⟩ := scan_blankLine p S lines hn
    (by rw [hi]; rfl)
  rw [scanFrom, hblank] at hts
  obtain ⟨ts', hts', ahead', r, rfl, hahead', hr, hadmits⟩ := hat
    (fun hne => (hq (keepCommentLines_ne_nil 0 hne)).trans (hq' hne).symm) hc (by simpa using hw)
    hts
  rw [hK] at hscan
  have hts' : scanFrom (.atLine q (reindent S w)) (keepCommentLines 0 lines) = .ok ts' := hts'
  have hkeep : keepCommentLines 0 (line :: lines) = kept :: keepCommentLines 0 lines := by
    simp [keepCommentLines, hk]
  refine ⟨ahead ++ (c ++ ts'), ?_, resumes_append hopen hlast hahead' hahead
    (.comment hcomment (hadmits rfl) hr) fun _ => hadmits rfl⟩
  rw [hkeep, scanFrom, hscan, hts']
  rfl

/-- A blank line in front of lines. -/
theorem resumes_blank (hat : ResumesAt lines) (hn : '\n' ∉ line)
    (hb : isBlankLine (indentation 0 line).2 = true) (hblank : line.all Text.isBlank = true)
    (hopen : last.all (fun w => (reindent S w).headD 0 == w) = true)
    (hc : commentsInPlace S last 0 false lines = true)
    (hts : scanFrom (.atLine p S) (line :: lines) = .ok ts) : ∃ ts',
      scanFrom (.atLine p (indentsBehind S last)) (keepCommentLines 0 (line :: lines)) = .ok ts' ∧
        Resumes S last ts ts' := by
  obtain ⟨q, hq, hscan⟩ := scan_blankLine p S lines hn hb
  obtain ⟨q', hq', hscan'⟩ := scan_blankLine p (indentsBehind S last) (keepCommentLines 0 lines)
    hn hb
  rw [scanFrom, hscan] at hts
  have hkeep : keepCommentLines 0 (line :: lines) = line :: keepCommentLines 0 lines := by
    simp [keepCommentLines, keepComment?_of_isBlank hblank, bracketDepth_of_isBlank hblank hn]
  rw [hkeep, scanFrom, hscan']
  exact hat (fun hne => (hq' (keepCommentLines_ne_nil 0 hne)).trans (hq hne).symm) hc hopen hts

/-- A line of text in front of lines. -/
theorem resumes_text (hin : ResumesIn lines) (hn : '\n' ∉ line)
    (hi : indentation 0 line = (w, s)) (hb : isBlankLine s = false)
    (hlast : last.all (follows S · w) = true)
    (hopen : last.all (fun w => (reindent S w).headD 0 == w) = true)
    (hcont : last = some w → continues s = false) (hplain : isPlainLine 0 line = true)
    (hc : commentsInPlace (reindent S w) none (bracketDepth none 0 line)
      (lineEnd none line == .joined) lines = true)
    (hts : scanFrom (.atLine p S) (line :: lines) = .ok ts) : ∃ ts',
      scanFrom (.atLine p (indentsBehind S last)) (keepCommentLines 0 (line :: lines)) = .ok ts' ∧
        Resumes S last ts ts' := by
  have hK := reindent_indentsBehind hopen hlast
  obtain ⟨q, -, hscan⟩ := scan_textLine p hi hb
  rw [scanFrom, hscan, layout_eq] at hts
  by_cases hw : (reindent S w).headD 0 = w
  · rw [if_pos hw, Except.bind] at hts
    obtain ⟨ts₁, hts₁, rfl⟩ := ok_of_map hts
    have hs : (indentation 0 line).2 = s := congrArg Prod.snd hi
    have hdepth := bracketDepth_indentation 0 0 line
    have hend := lineEnd_indentation 0 line
    rw [hs] at hdepth hend
    have hns : '\n' ∉ s := fun hm => hn ((hs ▸ indentation_suffix 0 line).subset hm)
    have hstring : lineEnd none s ≠ .inString := by
      rw [hend]
      simpa using (Bool.and_eq_true_iff.1 hplain).2
    rw [← hdepth, ← hend] at hc
    obtain ⟨ts', hts', hcom⟩ :=
      hin (show State.IsInline (.inLine q (reindent S w)) from .inl rfl) hns hstring hc hts₁
    have hts' : scan (.inLine q (reindent S w))
        (s ++ behind (keepCommentLines (bracketDepth none 0 s) lines)) = .ok ts' := hts'
    rw [hdepth] at hts'
    refine ⟨(shift (indentsBehind S last) w).map (⟨·, "", q⟩) ++ ts', ?_,
      resumes_append hopen hlast ?_ ?_ hcom fun hl => ?_⟩
    · rw [keepCommentLines_plain hplain, scanFrom, hscan, layout_eq, hK, if_pos hw, Except.bind]
      dsimp only
      rw [hts']
      rfl
    · rw [List.map_map]
      rfl
    · rw [List.map_map]
      rfl
    · cases s with
      | nil => cases hb
      | cons c cs =>
        exact admitsComment_of_scan (.inl rfl) (endsLine_behind lines) hb (indentation_head hs)
          (hcont hl) hts₁
  · rw [if_neg hw] at hts
    cases hts

/-- A line in front of lines is a comment, blank, or text. -/
theorem resumesAt_cons (hat : ResumesAt lines) (hin : ResumesIn lines) (hn : '\n' ∉ line) :
    ResumesAt (line :: lines) := by
  intro p p' S last ts hp hc hopen hts
  obtain rfl := hp (List.cons_ne_nil line lines)
  rw [commentsInPlace] at hc
  simp only [and_self, if_true] at hc
  split at hc
  · rename_i hb
    split at hc
    · rename_i hhash
      obtain ⟨s, hs⟩ := List.head?_eq_some_iff.1 hhash
      simp only [Bool.and_eq_true, beq_iff_eq] at hc
      exact resumes_comment hat hn (Prod.ext rfl hs) hc.1.1 hopen hc.1.2 hc.2 hts
    · rw [Bool.and_eq_true] at hc
      exact resumes_blank hat hn hb hc.1 hopen hc.2 hts
  · rename_i hb
    simp only [Bool.and_eq_true] at hc
    obtain ⟨⟨hlast, hplain⟩, hc⟩ := hc
    refine resumes_text hin hn rfl (Bool.eq_false_iff.2 hb) ?_ hopen (fun hl => ?_) hplain hc hts
    · cases last with
      | none => rfl
      | some w => exact (Bool.and_eq_true_iff.1 hlast).1
    · subst hl
      simpa using (Bool.and_eq_true_iff.1 hlast).2

end Lines

/-- Line by line, keeping the comments of a text only adds them. -/
theorem resumes (lines : List (List Char)) (hn : ∀ line ∈ lines, '\n' ∉ line) :
    ResumesAt lines ∧ ResumesIn lines := by
  induction lines with
  | nil =>
    have hat : ResumesAt [] := fun _ hc _ hts => resumes_finish hc hts
    exact ⟨hat, resumesIn hat hn nofun⟩
  | cons line lines ih =>
    obtain ⟨hl, hls⟩ := List.forall_mem_cons.1 hn
    obtain ⟨hat, hin⟩ := ih hls
    have hat : ResumesAt (line :: lines) := resumesAt_cons hat hin hl
    refine ⟨hat, resumesIn hat hn fun l ls he => ?_⟩
    obtain ⟨rfl, rfl⟩ := List.cons.inj he
    exact hin

end Lexer

/-- Keeping the comments of a text that is read keeps the program, if they stand where statements
may. -/
theorem parse_keepComments {s : List Char}
    (hs : Paragraph.commentsInPlace [] none 0 false (Text.splitOn '\n' s) = true) {b : Block}
    (h : parse s = .ok b) :
    ∃ b', parse (Paragraph.keepComments s) = .ok b' ∧ b'.bare = b.bare := by
  obtain ⟨ts, hts, hb⟩ := Parser.ok_of_bind h
  have hne := Text.splitOn_ne_nil '\n' s
  have hlines : ∀ line ∈ Text.splitOn '\n' s, '\n' ∉ line := fun line => Text.not_mem_of_mem_splitOn
  have hscan : Lexer.scanFrom .init (Text.splitOn '\n' s) = .ok ts := by
    rw [← Lexer.scan_join _ hne, Text.join_splitOn]
    exact hts
  obtain ⟨ts', hts', hr⟩ := (Lexer.resumes _ hlines).1 (fun _ => rfl) hs rfl hscan
  obtain ⟨b', hb', hsame⟩ := Parser.ofTokens_commented hr.commented hb
  refine ⟨b', ?_, hsame.bare⟩
  have hkept : tokenize (Paragraph.keepComments s) = .ok ts' := by
    rw [tokenize, Paragraph.keepComments,
      Lexer.scan_join _ (Paragraph.keepCommentLines_ne_nil 0 hne)]
    exact hts'
  rw [parse, hkept]
  exact hb'

/-- A comment before `else`, indented as the block that ends there. -/
theorem parse_keepComments_indentedElse :
    let s := "if a:\n  require(b)\n  # otherwise\nelse:\n  require(c)".toList
    ∃ b b', parse s = .ok b ∧ parse (Paragraph.keepComments s) = .ok b' ∧ b'.bare = b.bare := by
  intro s
  have hok : (parse s).isOk = true := by decide +kernel
  cases hb : parse s with
  | error e =>
    rw [hb] at hok
    exact absurd hok nofun
  | ok b =>
    obtain ⟨b', hb'⟩ := parse_keepComments (by decide +kernel) hb
    exact ⟨b, b', rfl, hb'⟩

/-- A comment before `else`, indented as the `else`, ends the condition when it is kept. -/
theorem isOk_keepComments_else :
    let s := "if a:\n  require(b)\n# otherwise\nelse:\n  require(c)".toList
    (parse s).isOk = true ∧ (parse (Paragraph.keepComments s)).isOk = false := by
  decide +kernel

end ValidUsage
