import Mathlib.Data.List.DropRight
import ValidUsage.Text.LineIndex

/-!
# Lines and columns of byte offsets

A text is looked at as its bytes in UTF-8, so that an offset may also lie inside of a character. The
starts of the lines are in ascending order, so an offset is on the last line that starts at it or in
front of it. That line is found by the number of line feeds in front of the offset, and the offset
is found again from its line and column.
-/

namespace ValidUsage

namespace Text

/-- The bytes of a text in UTF-8. -/
def bytes (s : List Char) : List UInt8 := s.flatMap String.utf8EncodeChar

/-- The byte that ends a line. -/
def lineFeed : UInt8 := 10

private theorem bytes_cons (c : Char) (s : List Char) :
    bytes (c :: s) = String.utf8EncodeChar c ++ bytes s := rfl

private theorem length_bytes (s : List Char) : (bytes s).length = byteLength s := by
  induction s with
  | nil => rfl
  | cons c s ih => rw [bytes_cons, List.length_append, String.length_utf8EncodeChar, ih, byteLength]

/-- No character but a line feed has the byte of one. -/
theorem lineFeed_not_mem_utf8EncodeChar {c : Char} (hc : c ≠ '\n') :
    lineFeed ∉ String.utf8EncodeChar c := by
  have hval : c.val.toNat ≠ 10 := fun h =>
    hc (Char.ext (UInt32.toNat_inj.1 (h.trans (by decide))))
  have hbyte {n : Nat} (hn : n % 256 ≠ 10) : lineFeed ≠ UInt8.ofNat n := fun h => by
    have := congrArg UInt8.toNat h
    rw [UInt8.toNat_ofNat'] at this
    exact hn this.symm
  have hsize := c.val.toNat_lt
  simp only [String.utf8EncodeChar]
  split
  · rw [List.mem_singleton]
    exact hbyte (by omega)
  split
  · simp only [List.mem_cons, List.not_mem_nil, or_false, not_or]
    exact ⟨hbyte (by omega), hbyte (by omega)⟩
  split
  · simp only [List.mem_cons, List.not_mem_nil, or_false, not_or]
    exact ⟨hbyte (by omega), hbyte (by omega), hbyte (by omega)⟩
  · simp only [List.mem_cons, List.not_mem_nil, or_false, not_or]
    exact ⟨hbyte (by omega), hbyte (by omega), hbyte (by omega), hbyte (by omega)⟩

/-- The bytes of a text behind the last line feed among them. -/
def lastLine (bs : List UInt8) : List UInt8 := bs.rtakeWhile (· != lineFeed)

private theorem length_lastLine_le (bs : List UInt8) : (lastLine bs).length ≤ bs.length :=
  (List.rtakeWhile_suffix _ _).length_le

end Text

namespace LineIndex

open Text (bytes byteLength lineFeed lastLine)

/-! ## The starts of lines -/

/-- The offsets just after the line feeds among bytes that begin at an offset. -/
def feedEnds (offset : Nat) : List UInt8 → List Nat
  | [] => []
  | b :: bs =>
    if b = lineFeed then (offset + 1) :: feedEnds (offset + 1) bs else feedEnds (offset + 1) bs

@[simp] theorem feedEnds_nil (offset : Nat) : feedEnds offset [] = [] := rfl

private theorem feedEnds_cons (offset : Nat) (b : UInt8) (bs : List UInt8) :
    feedEnds offset (b :: bs) =
      if b = lineFeed then (offset + 1) :: feedEnds (offset + 1) bs
      else feedEnds (offset + 1) bs := rfl

private theorem feedEnds_append (offset : Nat) (bs bs' : List UInt8) :
    feedEnds offset (bs ++ bs') = feedEnds offset bs ++ feedEnds (offset + bs.length) bs' := by
  induction bs generalizing offset with
  | nil => rfl
  | cons b bs ih =>
    have hlen : offset + (b :: bs).length = offset + 1 + bs.length := by
      rw [List.length_cons]
      omega
    rw [List.cons_append, feedEnds_cons, feedEnds_cons, ih, hlen]
    split <;> rfl

private theorem feedEnds_eq_nil {bs : List UInt8} (h : lineFeed ∉ bs) (offset : Nat) :
    feedEnds offset bs = [] := by
  induction bs generalizing offset with
  | nil => rfl
  | cons b bs ih =>
    obtain ⟨hb, hbs⟩ := not_or.1 (List.mem_cons.not.1 h)
    rw [feedEnds_cons, if_neg fun he => hb he.symm, ih hbs]

private theorem length_feedEnds (offset : Nat) (bs : List UInt8) :
    (feedEnds offset bs).length = bs.count lineFeed := by
  induction bs generalizing offset with
  | nil => rfl
  | cons b bs ih =>
    rw [feedEnds_cons]
    split
    · rename_i h
      rw [List.length_cons, ih, h, List.count_cons_self]
    · rename_i h
      rw [ih, List.count_cons_of_ne h]

/-- A line that starts behind a line feed starts behind the first byte, at the latest at the end. -/
theorem mem_feedEnds {offset start : Nat} {bs : List UInt8} (h : start ∈ feedEnds offset bs) :
    offset < start ∧ start ≤ offset + bs.length := by
  induction bs generalizing offset with
  | nil => exact absurd h List.not_mem_nil
  | cons b bs ih =>
    rw [List.length_cons]
    rw [feedEnds_cons] at h
    split at h
    · rcases List.mem_cons.1 h with rfl | h
      · omega
      · have := ih h
        omega
    · have := ih h
      omega

private theorem pairwise_feedEnds (offset : Nat) (bs : List UInt8) :
    (feedEnds offset bs).Pairwise (· < ·) := by
  induction bs generalizing offset with
  | nil => exact .nil
  | cons b bs ih =>
    rw [feedEnds_cons]
    split
    · exact .cons (fun start h => (mem_feedEnds h).1) (ih _)
    · exact ih _

private theorem startsAfter_eq (offset : Nat) (s : List Char) :
    startsAfter offset s = feedEnds offset (bytes s) := by
  induction s generalizing offset with
  | nil => rfl
  | cons c s ih =>
    rw [Text.bytes_cons, feedEnds_append, String.length_utf8EncodeChar, ← ih, startsAfter]
    split
    · rename_i hc
      subst hc
      rfl
    · rename_i hc
      rw [feedEnds_eq_nil (Text.lineFeed_not_mem_utf8EncodeChar hc), List.nil_append]

private theorem starts_ofText (s : List Char) : (ofText s).starts = 0 :: feedEnds 0 (bytes s) := by
  rw [ofText, startsAfter_eq]

/-- The starts of the lines are in ascending order, each only once. -/
theorem pairwise_starts (s : List Char) : (ofText s).starts.Pairwise (· < ·) := by
  rw [starts_ofText]
  exact .cons (fun start h => (mem_feedEnds h).1) (pairwise_feedEnds 0 _)

private theorem length_starts (s : List Char) :
    (ofText s).starts.length = (bytes s).count lineFeed + 1 := by
  rw [starts_ofText, List.length_cons, length_feedEnds]

/-! ## Offsets to lines and back -/

/-- In ascending starts, an offset is on the line that starts at it, or on the last one that starts
in front of it. -/
theorem lineCol_eq {ix : LineIndex} (hs : ix.starts.Pairwise (· < ·)) {line start offset : Nat}
    (hstart : ix.starts[line]? = some start) (hle : start ≤ offset)
    (hnext : ∀ next ∈ ix.starts[line + 1]?, offset < next) :
    ix.lineCol offset = (line, offset - start) := by
  obtain ⟨hline, hget⟩ := List.getElem?_eq_some_iff.1 hstart
  have hbefore : ∀ x ∈ ix.starts.take (line + 1), decide (x ≤ offset) = true := by
    intro x hx
    obtain ⟨i, hi, rfl⟩ := List.mem_take_iff_getElem.1 hx
    rcases (by omega : i < line ∨ i = line) with hlt | rfl
    · have := List.pairwise_iff_getElem.1 hs i line (by omega) hline hlt
      exact decide_eq_true (by omega)
    · exact decide_eq_true (by omega)
  have hafter : (ix.starts.drop (line + 1)).takeWhile (· ≤ offset) = [] := by
    rw [List.takeWhile_eq_nil_iff]
    intro hpos
    have := hnext _ (List.getElem?_eq_getElem (by rw [List.length_drop] at hpos; omega))
    simpa using this
  have hsplit : ix.starts.takeWhile (· ≤ offset) = ix.starts.take (line + 1) := by
    rw [← List.take_append_drop (line + 1) ix.starts, List.takeWhile_append_of_pos hbefore, hafter,
      List.append_nil, List.take_append_drop]
  simp only [lineCol]
  rw [hsplit, List.length_take, Nat.min_eq_left hline, Nat.succ_sub_one, hstart, Option.getD_some]

/-- The last line of some bytes starts where they do or behind the last line feed. -/
theorem getElem?_feedEnds_count (offset : Nat) (bs : List UInt8) :
    (offset :: feedEnds offset bs)[bs.count lineFeed]? =
      some (offset + bs.length - (lastLine bs).length) := by
  induction bs using List.reverseRecOn with
  | nil => simp [lastLine]
  | append_singleton bs b ih =>
    have hlen : (offset :: feedEnds offset bs).length = bs.count lineFeed + 1 := by
      rw [List.length_cons, length_feedEnds]
    rw [feedEnds_append, ← List.cons_append, lastLine, List.rtakeWhile_concat, List.count_append,
      List.length_append, List.length_singleton]
    by_cases hb : b = lineFeed
    · subst hb
      rw [List.count_singleton_self, List.getElem?_append_right hlen.le, hlen]
      simp [feedEnds_cons, Nat.add_assoc]
    · have hcount : [b].count lineFeed = 0 := List.count_eq_zero.2 (by simpa using Ne.symm hb)
      rw [hcount, Nat.add_zero, List.getElem?_append_left (by omega), ih,
        if_pos (by simpa using hb), List.length_append, List.length_singleton, ← lastLine]
      congr 1
      omega

/-- The line of an offset is the number of line feeds in front of it, and its column the distance
from the last of these. -/
theorem lineCol_ofText {s : List Char} {offset : Nat} (h : offset ≤ byteLength s) :
    (ofText s).starts[((bytes s).take offset).count lineFeed]? =
        some (offset - (lastLine ((bytes s).take offset)).length) ∧
      (ofText s).lineCol offset =
        (((bytes s).take offset).count lineFeed, (lastLine ((bytes s).take offset)).length) := by
  have hlen : ((bytes s).take offset).length = offset := by
    rw [List.length_take, Text.length_bytes, Nat.min_eq_left h]
  have hcol : (lastLine ((bytes s).take offset)).length ≤ offset :=
    (Text.length_lastLine_le _).trans hlen.le
  have hstarts : (ofText s).starts = (0 :: feedEnds 0 ((bytes s).take offset)) ++
      feedEnds offset ((bytes s).drop offset) := by
    rw [starts_ofText, List.cons_append]
    conv_lhs => rw [← List.take_append_drop offset (bytes s)]
    rw [feedEnds_append, hlen, Nat.zero_add]
  have hcount : (0 :: feedEnds 0 ((bytes s).take offset)).length =
      ((bytes s).take offset).count lineFeed + 1 := by
    rw [List.length_cons, length_feedEnds]
  have hstart : (ofText s).starts[((bytes s).take offset).count lineFeed]? =
      some (offset - (lastLine ((bytes s).take offset)).length) := by
    rw [hstarts, List.getElem?_append_left (by omega), getElem?_feedEnds_count, hlen, Nat.zero_add]
  refine ⟨hstart, ?_⟩
  rw [lineCol_eq (pairwise_starts s) hstart (Nat.sub_le ..) fun next hnext => ?_,
    Nat.sub_sub_self hcol]
  rw [hstarts, List.getElem?_append_right hcount.le, hcount] at hnext
  exact (mem_feedEnds (List.mem_of_getElem? hnext)).1

/-- The offset of a location comes from the start of its line. -/
theorem offsetOf?_of_start {ix : LineIndex} {line start : Nat} (hline : 0 < line)
    (hstart : ix.lineStart? (line - 1) = some start) (o : Overflow) (column : Nat) :
    ix.offsetOf? o line column =
      (o.add start (column - 1)).map fun sum => some (min sum ix.size) := by
  rw [offsetOf?, if_neg hline.ne', hstart]

/-- A location has an offset if its line exists, unless the process breaks off at the sum of the
start of the line and the column. -/
theorem exists_offsetOf?_iff (ix : LineIndex) (o : Overflow) (line column : Nat) :
    (∃ offset, ix.offsetOf? o line column = .ok (some offset)) ↔
      (0 < line ∧ line ≤ ix.starts.length) ∧
        (o = .breaks → ∀ start ∈ ix.lineStart? (line - 1), start + (column - 1) < limit64) := by
  rcases Nat.eq_zero_or_pos line with rfl | hpos
  · simp [offsetOf?]
  cases hstart : ix.lineStart? (line - 1) with
  | none =>
    have hlast : ix.starts.length ≤ line - 1 := List.getElem?_eq_none_iff.1 hstart
    refine iff_of_false ?_ fun h => by omega
    rintro ⟨offset, h⟩
    rw [offsetOf?, if_neg hpos.ne', hstart] at h
    cases h
  | some start =>
    have hline : line - 1 < ix.starts.length := (List.getElem?_eq_some_iff.1 hstart).1
    rw [and_iff_right (by omega : 0 < line ∧ line ≤ ix.starts.length)]
    simp only [Option.mem_some_iff, forall_eq']
    rw [offsetOf?_of_start hpos hstart, ← Overflow.isOk_add_iff]
    cases o.add start (column - 1) with
    | error e => exact iff_of_false (fun ⟨_, h⟩ => nomatch h) Bool.false_ne_true
    | ok sum => exact iff_of_true ⟨_, rfl⟩ rfl

/-- No location is past the end of the text. -/
theorem offsetOf?_le_size {ix : LineIndex} {o : Overflow} {line column offset : Nat}
    (h : ix.offsetOf? o line column = .ok (some offset)) : offset ≤ ix.size := by
  unfold offsetOf? at h
  split at h
  · cases h
  split at h
  · cases h
  next start _ =>
    cases hsum : o.add start (column - 1) with
    | error e =>
      rw [hsum] at h
      cases h
    | ok sum =>
      rw [hsum] at h
      cases h
      exact Nat.min_le_right ..

/-- Every offset in a text is found again from its line, which is the number of line feeds in front
of it, and its column, which is the distance from the start of that line. The offset of a location
is never past the end of the text. A location has one exactly if its line exists, unless the process
breaks off at sums that are too large and its column leads that far. -/
theorem offsetOf?_lineCol (o : Overflow) (s : List Char) :
    (∀ offset < limit64, offset ≤ byteLength s →
      (ofText s).lineCol offset =
          (((bytes s).take offset).count lineFeed, (lastLine ((bytes s).take offset)).length) ∧
        (ofText s).offsetOf? o (((ofText s).lineCol offset).1 + 1)
          (((ofText s).lineCol offset).2 + 1) = .ok (some offset)) ∧
      (∀ line column offset,
        (ofText s).offsetOf? o line column = .ok (some offset) → offset ≤ byteLength s) ∧
      ∀ line column, (∃ offset, (ofText s).offsetOf? o line column = .ok (some offset)) ↔
        (0 < line ∧ line ≤ (bytes s).count lineFeed + 1) ∧
          (o = .breaks →
            ∀ start ∈ (ofText s).lineStart? (line - 1), start + (column - 1) < limit64) := by
  refine ⟨fun offset hlt h => ?_, fun _ _ _ => offsetOf?_le_size, fun line column => ?_⟩
  · obtain ⟨hstart, hline⟩ := lineCol_ofText h
    have hcol : (lastLine ((bytes s).take offset)).length ≤ offset :=
      (Text.length_lastLine_le _).trans (List.length_take_le ..)
    have hsum : offset - (lastLine ((bytes s).take offset)).length +
        ((lastLine ((bytes s).take offset)).length + 1 - 1) = offset := by omega
    have hfound := offsetOf?_of_start (Nat.succ_pos _) hstart o
      ((lastLine ((bytes s).take offset)).length + 1)
    rw [Overflow.add_of_lt (by rw [hsum]; exact hlt), hsum] at hfound
    refine ⟨hline, ?_⟩
    rw [hline]
    exact hfound.trans (congrArg (Except.ok ∘ some) (Nat.min_eq_left h))
  · rw [← length_starts]
    exact exists_offsetOf?_iff (ofText s) o line column

/-- The offset 5 is inside of a character, on the third line of the text. -/
theorem offsetOf?_lineCol_insideCharacter :
    5 ≤ byteLength "a\n\n€\nb".toList ∧
      (ofText "a\n\n€\nb".toList).lineCol 5 = (2, 2) ∧
      (ofText "a\n\n€\nb".toList).offsetOf? .breaks 3 3 = .ok (some 5) := by
  have hlt : 5 < limit64 := by decide
  have h : 5 ≤ byteLength "a\n\n€\nb".toList := by decide
  obtain ⟨hfound, -⟩ := offsetOf?_lineCol .breaks "a\n\n€\nb".toList
  exact ⟨h, (hfound 5 hlt h).1, (hfound 5 hlt h).2⟩

/-- In a column that is too far off, a location has the offset to which the sum wraps around. -/
example : (ofText "a\nb".toList).offsetOf? .wraps 2 (limit64 - 1) = .ok (some 0) ∧
    (ofText "a\nb".toList).offsetOf? .breaks 2 (limit64 - 1) = .error .sum64 := by
  decide +kernel

end LineIndex
end ValidUsage
