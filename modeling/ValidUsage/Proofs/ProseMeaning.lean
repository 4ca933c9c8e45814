import Mathlib.Data.Fintype.Basic
import ValidUsage.Proofs.LiteralText
import ValidUsage.Proofs.Meaning
import ValidUsage.Proofs.Writable
import ValidUsage.Prose.Bullet

/-!
# What prose says of a condition

Bullets are read as a tree by their depth. A heading says that all or any of the bullets one level
below it hold. A bullet of a condition says by the words of its phrase that the condition holds or
that it does not; a comparison may be phrased with another operator, and is taken to be about an
order in which of two values one is less than the other or they are equal.

Read so, the bullets of a condition hold exactly when the condition is as it is expected to be,
whatever is the case of the conditions in it that are neither negations nor joined of others. The
bullets of the test of an `if` hold exactly when the test does.
-/

namespace ValidUsage

/-! ## How words are read -/

namespace Prose

/-- The words of verbs that say that something is the case. -/
def affirmativeWords : List String :=
  ["is", "has", "includes", "is at least", "is true", "must: be", "must: have", "must: include",
   "must: be at least", "must: be true"]

/-- The words of verbs that say that something is not the case. -/
def negativeWords : List String :=
  ["is not", "does not have", "does not include", "is less than", "is false", "must: not be",
   "must: not have", "must: not include", "must: be less than", "must: be false"]

/-- Whether a verb says that something is the case or that it is not. -/
def affirms? (words : String) : Option Bool :=
  if affirmativeWords.contains words then some true
  else if negativeWords.contains words then some false
  else none

/-- In which of the cases less, equal and greater one value stands to another as words say. -/
def order? : String → Option (Ordering → Bool)
  | "equal to" => some Ordering.isEq
  | "less than" => some Ordering.isLT
  | "less than or equal to" => some Ordering.isLE
  | "greater than" => some Ordering.isGT
  | "greater than or equal to" => some Ordering.isGE
  | _ => none

/-- Whether words introduce bullets of which all hold, or bullets of which any holds. -/
def quantifies? (words : String) : Option Bool :=
  if ["all of the following are true:", "all of the following must: be true:",
      "if all of the following are true:"].contains words then some true
  else if ["any of the following are true:", "any of the following must: be true:",
      "if any of the following are true:"].contains words then some false
  else none

/-- Whether words introduce a bullet that holds or one that does not. -/
def expects? : String → Option Bool
  | "if the following is true:" => some true
  | "if the following is false:" => some false
  | _ => none

end Prose

/-- In which of the cases less, equal and greater an operator holds, if it compares so. -/
def CmpOp.order? : CmpOp → Option (Ordering → Bool)
  | .eq => some Ordering.isEq
  | .notEq => some Ordering.isNe
  | .lt => some Ordering.isLT
  | .ltE => some Ordering.isLE
  | .gt => some Ordering.isGT
  | .gtE => some Ordering.isGE
  | _ => none

namespace Expr

/-- The operator of a comparison of two values. -/
def cmpOp? : Expr → Option CmpOp
  | compare _ _ [op] [_] => some op
  | _ => none

/-- Whether a condition is that what a verb says of its subject is the case, and not the opposite:
`x != NULL` is the opposite of that `x` is `NULL`, and `x.none()` of that `x` has a bit set. -/
def isAffirmative (v : Verb) (e : Expr) : Bool :=
  match v, e with
  | .be, compare _ _ [op] [_] => op.isNull?.getD true
  | .possess, call _ (member _ _ attr) [] => attr != Method.none.name
  | _, _ => true

mutual

/-- Whether a condition holds, given which of the conditions do that are neither negations nor
joined of others. -/
def holds (leaf : Expr → Bool) : Expr → Bool
  | unary _ .not operand => !holds leaf operand
  | boolOp _ op values => op.join (holdsEach leaf values)
  | e => leaf e

/-- Which conditions of a list hold. -/
def holdsEach (leaf : Expr → Bool) : List Expr → List Bool
  | [] => []
  | e :: es => holds leaf e :: holdsEach leaf es

end

end Expr

namespace Prose

/-- Whether two statements about an order say the same or the opposite. -/
def agreement? (f g : Ordering → Bool) : Option Bool :=
  if ∀ o, f o = g o then some true
  else if ∀ o, f o = !g o then some false
  else none

end Prose

namespace Expr

mutual

/-- The conditions in a condition that are neither negations nor joined of others, in order. -/
def leaves : Expr → List Expr
  | unary _ .not operand => leaves operand
  | boolOp _ _ values => leavesEach values
  | e => [e]

/-- The same for conditions, one after the other. -/
def leavesEach : List Expr → List Expr
  | [] => []
  | e :: es => leaves e ++ leavesEach es

end

end Expr

/-- The condition that a bullet says something of, with the words of what the bullet names. -/
def Bullet.named? (b : Bullet) : Option (Expr × List String) :=
  match b.content with
  | .fact leaf phrase => some (leaf, phrase.operands)
  | _ => none

/-- Whether a phrase says of a condition that it holds or that it does not. -/
def Phrase.polarity? (e : Expr) (p : Phrase) : Option Bool :=
  match p.saying.predication with
  | .related r => do
    let affirmed ← Prose.affirms? (Verb.be.words p.saying.phrasing)
    let stated ← Prose.order? r.words
    let meant ← e.cmpOp?.bind CmpOp.order?
    Prose.agreement? (fun o => stated o == affirmed) meant
  | .verb v => (Prose.affirms? (v.words p.saying.phrasing)).map (· == e.isAffirmative v)

namespace Prose

/-- What a bullet says, given which of the bullets one level below it hold. -/
def contentHolds? (leaf : Expr → Bool) (below : List Bool) : BulletContent → Option Bool
  | .heading before p op =>
    (quantifies? (BulletContent.heading before p op).words).map fun ofAll =>
      if ofAll then below.all id else below.any id
  | .fact e phrase => if below.isEmpty then (phrase.polarity? e).map (leaf e == ·) else none
  | .note text => match below with
    | [b] => (expects? text).map (b == ·)
    | _ => none

/-- Which bullets at a depth hold, each read with the deeper ones that follow it. There is no
reading if a bullet stands neither at the depth nor one level below the one that it belongs to. -/
def readings? (leaf : Expr → Bool) (depth : Nat) : List Bullet → Option (List Bool)
  | [] => some []
  | b :: bs =>
    if b.depth = depth then do
      let below ← readings? leaf (depth + 1) (bs.takeWhile fun c => decide (depth < c.depth))
      let first ← contentHolds? leaf below b.content
      let rest ← readings? leaf depth (bs.dropWhile fun c => decide (depth < c.depth))
      return first :: rest
    else none
termination_by bs => bs.length
decreasing_by
  · exact Nat.lt_succ_of_le (List.takeWhile_prefix _).length_le
  · exact Nat.lt_succ_of_le (List.dropWhile_suffix _).length_le

/-! ## Phrases -/

private theorem affirms?_words (v : Verb) (p : Phrasing) :
    affirms? (v.words p) = some p.expectTrue := by
  obtain ⟨expectTrue, must⟩ := p
  cases v <;> cases expectTrue <;> cases must <;> decide

private theorem polarity?_verb (e : Expr) (subject behind : List Piece) (v : Verb) (p : Phrasing) :
    Phrase.polarity? e ⟨subject, .verb v, p, behind⟩ =
      some (p.expectTrue == e.isAffirmative v) := by
  simp [Phrase.polarity?, affirms?_words]

/-- The relation that a comparison is phrased with is the one that it states, or the opposite if the
comparison is expected to fail. -/
theorem agreement?_relation {p : Phrasing} {op : CmpOp} {said : Saying}
    (h : p.relation? op = some said) :
    ∃ r stated meant, said.predication = .related r ∧ order? r.words = some stated ∧
      op.order? = some meant ∧
        agreement? (fun o => stated o == said.phrasing.expectTrue) meant = some p.expectTrue := by
  obtain ⟨expectTrue, must⟩ := p
  cases expectTrue <;> cases must <;> cases op <;> cases h <;>
    exact ⟨_, _, _, rfl, rfl, rfl, by decide⟩

private theorem polarity?_callPhrase {s : Subject} {q : Predicate} {args : List Expr} {p : Phrasing}
    {ph : Phrase} (h : callPhrase? s q args p = some ph) (pos pos' : Pos) (id : String) :
    ph.polarity? (.call pos (.name pos' id) args) = some p.expectTrue := by
  have affirmed (v : Verb) : (Expr.call pos (.name pos' id) args).isAffirmative v = true := by
    cases v <;> rfl
  unfold callPhrase? at h
  split at h <;> cases h <;> simp [polarity?_verb, affirmed]

private theorem polarity?_methodPhrase {s : Subject} {receiver : Expr} {m : Method}
    {args : List Expr}
    {p : Phrasing} {ph : Phrase} (h : methodPhrase? s receiver m args p = some ph)
    (pos pos' : Pos) :
    ph.polarity? (.call pos (.member pos' receiver m.name) args) = some p.expectTrue := by
  unfold methodPhrase? at h
  split at h <;> cases h <;> rw [polarity?_verb] <;>
    simp [Expr.isAffirmative, Phrasing.negated, Method.name]

/-- What is said of a condition, where a phrase for it is known. -/
theorem polarity?_knownPhrase {s : Subject} {p : Phrasing} {e : Expr} {ph : Phrase}
    (h : knownPhrase? s p e = some ph) : ph.polarity? e = some p.expectTrue := by
  unfold knownPhrase? at h
  split at h
  next q left op right =>
    split at h
    · obtain ⟨said, hnull, h⟩ := Option.bind_eq_some_iff.1 h
      obtain rfl := Option.some.inj h
      obtain ⟨isNull, hop, rfl⟩ := Option.map_eq_some_iff.1 hnull
      rw [polarity?_verb]
      simp only [Expr.isAffirmative, hop, Option.getD_some]
      cases isNull <;> cases p.expectTrue <;> rfl
    · obtain ⟨said, hrelation, h⟩ := Option.bind_eq_some_iff.1 h
      obtain rfl := Option.some.inj h
      obtain ⟨r, stated, meant, hsaid, hstated, hmeant, hagree⟩ := agreement?_relation hrelation
      simp [Phrase.polarity?, hsaid, affirms?_words, hstated, Expr.cmpOp?, hmeant, hagree]
  next q q' id args =>
    obtain ⟨pred, -, h⟩ := Option.bind_eq_some_iff.1 h
    exact polarity?_callPhrase h q q' id
  next q q' receiver attr args =>
    obtain ⟨m, hm, h⟩ := Option.bind_eq_some_iff.1 h
    rw [← Method.name_of_ofName? hm]
    exact polarity?_methodPhrase h q q'
  next => cases h

/-- The phrase of a condition says that it is as it is expected to be. -/
theorem polarity?_phrase (s : Subject) (p : Phrasing) (e : Expr) :
    (phrase s p e).polarity? e = some p.expectTrue := by
  unfold phrase
  cases h : knownPhrase? s p e with
  | none =>
    rw [Option.getD_none, polarity?_verb]
    simp [Expr.isAffirmative]
  | some ph => exact polarity?_knownPhrase h

/-! ## Operands -/

private theorem operand_of_name? {s : Subject} {e : Expr} (h : e.name? = some "NULL") :
    operand s e = Phrasing.quotedNull := by
  cases e with
  | name q id => exact if_pos (Option.some.inj h)
  | _ => exact absurd h nofun

/-- The words of an argument of a predicate that is called by its name. Extensions and features are
linked as what they are. -/
def argumentWords (s : Subject) : Option Predicate → Expr → String
  | some .isExtEnabled, .name _ id => "apiext:" ++ id
  | some .isFeatureEnabled, .name _ id => Markup.featureLink id
  | _, e => operand s e

/-- The words of the operands of a condition, in the order in which it has them. -/
def operandWords (s : Subject) : Expr → List String
  | .compare _ left _ rights => (left :: rights).map (operand s)
  | .call _ (.name _ id) args => args.map (argumentWords s (Predicate.ofName? id))
  | .call _ (.member _ receiver _) args => (receiver :: args).map (operand s)
  | e => [operand s e]

/-- What is named to say something of a condition: its operands, or the condition as a whole if
there is no phrase for it. -/
def namedWords (s : Subject) (e : Expr) : List String :=
  if (knownPhrase? s .test e).isSome then operandWords s e else [operand s e]

private theorem isSome_relation? (p : Phrasing) (op : CmpOp) :
    (p.relation? op).isSome = op.order?.isSome := by
  obtain ⟨expectTrue, must⟩ := p
  cases expectTrue <;> cases op <;> rfl

private theorem isSome_null? (p : Phrasing) (op : CmpOp) :
    (p.null? op).isSome = op.isNull?.isSome :=
  Option.isSome_map

/-- Whether there is a phrase for a condition does not depend on how it is phrased. -/
theorem isSome_knownPhrase? (s : Subject) (p p' : Phrasing) (e : Expr) :
    (knownPhrase? s p e).isSome = (knownPhrase? s p' e).isSome := by
  have call (q : Predicate) (args : List Expr) :
      (callPhrase? s q args p).isSome = (callPhrase? s q args p').isSome := by
    unfold callPhrase?
    split <;> rfl
  have method (receiver : Expr) (m : Method) (args : List Expr) :
      (methodPhrase? s receiver m args p).isSome = (methodPhrase? s receiver m args p').isSome := by
    unfold methodPhrase?
    split <;> rfl
  unfold knownPhrase?
  split
  next q left op right =>
    split
    · simp [Option.isSome_bind, isSome_null?]
    · simp [Option.isSome_bind, isSome_relation?]
  next q q' id args =>
    cases Predicate.ofName? id with
    | none => rfl
    | some pred => exact call pred args
  next q q' receiver attr args =>
    cases Method.ofName? attr with
    | none => rfl
    | some m => exact method receiver m args
  next => rfl

private theorem operands_callPhrase? {s : Subject} {args : List Expr} {p : Phrasing} {q : Predicate}
    {ph : Phrase} (h : callPhrase? s q args p = some ph) :
    ph.operands = args.map (argumentWords s q) := by
  unfold callPhrase? at h
  split at h <;> cases h <;> rfl

private theorem operands_methodPhrase? {s : Subject} {receiver : Expr} {m : Method}
    {args : List Expr}
    {p : Phrasing} {ph : Phrase} (h : methodPhrase? s receiver m args p = some ph) :
    ph.operands = (receiver :: args).map (operand s) := by
  unfold methodPhrase? at h
  split at h <;> cases h <;> rfl

/-- A phrase that is known for a condition names its operands in their order. -/
theorem operands_knownPhrase? {s : Subject} {p : Phrasing} {e : Expr} {ph : Phrase}
    (h : knownPhrase? s p e = some ph) : ph.operands = operandWords s e := by
  unfold knownPhrase? at h
  split at h
  next q left op right =>
    split at h
    next hnull =>
      obtain ⟨said, hsaid, h⟩ := Option.bind_eq_some_iff.1 h
      obtain rfl := Option.some.inj h
      obtain ⟨isNull, -, rfl⟩ := Option.map_eq_some_iff.1 hsaid
      show [operand s left, Phrasing.quotedNull] = [operand s left, operand s right]
      rw [operand_of_name? hnull]
    next =>
      obtain ⟨said, -, h⟩ := Option.bind_eq_some_iff.1 h
      obtain rfl := Option.some.inj h
      rfl
  next q q' id args =>
    obtain ⟨pred, hpred, h⟩ := Option.bind_eq_some_iff.1 h
    rw [operandWords, hpred]
    exact operands_callPhrase? h
  next q q' receiver attr args =>
    obtain ⟨m, -, h⟩ := Option.bind_eq_some_iff.1 h
    exact operands_methodPhrase? h
  next => cases h

/-- The phrase of a condition names what the condition is about. -/
theorem operands_phrase (s : Subject) (p : Phrasing) (e : Expr) :
    (phrase s p e).operands = namedWords s e := by
  unfold phrase namedWords
  rw [isSome_knownPhrase? s .test p e]
  cases h : knownPhrase? s p e with
  | none => rfl
  | some ph => exact operands_knownPhrase? h

/-! ## Bullets -/

/-- A heading says of how many conditions it is that they hold. -/
theorem quantifies?_heading (p : Phrasing) (op : BoolOp) :
    quantifies? (BulletContent.heading "" p op).words = some (p.ofAll op) := by
  obtain ⟨expectTrue, must⟩ := p
  cases expectTrue <;> cases must <;> cases op <;> decide

private theorem quantifies?_testHeading (expected : Bool) (op : BoolOp) :
    quantifies? (BulletContent.heading "if " ⟨expected, false⟩ op).words =
      some (Phrasing.ofAll ⟨expected, false⟩ op) := by
  cases expected <;> cases op <;> decide

private theorem expects?_note (expected : Bool) :
    expects? ("if the following is " ++ (if expected then "true" else "false") ++ ":") =
      some expected := by
  cases expected <;> decide

/-- Whether joined conditions are as they are expected to be is said of each of them, under the
operator or its dual. -/
theorem quantified_eq (p : Phrasing) (op : BoolOp) (bs : List Bool) :
    (if p.ofAll op then (bs.map (· == p.expectTrue)).all id
      else (bs.map (· == p.expectTrue)).any id) = (op.join bs == p.expectTrue) := by
  obtain ⟨expectTrue, must⟩ := p
  cases op <;> cases expectTrue <;>
    simp [Phrasing.ofAll, BoolOp.join, List.any_eq_not_all_not, Function.comp_def,
      Function.id_def]

variable {leaf : Expr → Bool} {depth : Nat} {s : Subject} {p : Phrasing}

/-- A bullet is read with the deeper ones that follow it, and apart from those behind them. -/
theorem readings?_cons {content : BulletContent} {below rest : List Bullet}
    (hbelow : ∀ b ∈ below, depth < b.depth) (hrest : ∀ b ∈ rest.head?, b.depth ≤ depth) :
    readings? leaf depth (⟨depth, content⟩ :: (below ++ rest)) =
      ((readings? leaf (depth + 1) below).bind (contentHolds? leaf · content)).bind fun b =>
        (readings? leaf depth rest).map (b :: ·) := by
  have hdeep : ∀ b ∈ below, decide (depth < b.depth) = true := fun b hb =>
    decide_eq_true (hbelow b hb)
  have hflat : ∀ b ∈ rest.head?, decide (depth < b.depth) = false := fun b hb =>
    decide_eq_false (Nat.not_lt.2 (hrest b hb))
  rw [readings?, if_pos rfl, takeWhile_append_of_head hdeep hflat,
    dropWhile_append_of_head hdeep hflat, Option.bind_assoc]
  simp only [Option.bind_eq_bind, Option.pure_def, Option.map_eq_bind]
  rfl

/-- A bullet with the deeper ones behind it, and nothing else. -/
theorem readings?_item {content : BulletContent} {below : List Bullet}
    (hbelow : ∀ b ∈ below, depth < b.depth) :
    readings? leaf depth (⟨depth, content⟩ :: below) =
      ((readings? leaf (depth + 1) below).bind (contentHolds? leaf · content)).map ([·]) := by
  have h : readings? leaf depth (⟨depth, content⟩ :: (below ++ [])) = _ :=
    readings?_cons hbelow (by simp)
  rw [List.append_nil] at h
  rw [h, readings?]
  cases (readings? leaf (depth + 1) below).bind (contentHolds? leaf · content) <;> rfl

/-- Whether bullets are one at a depth, and deeper ones that belong to it. -/
def IsItem (depth : Nat) (bs : List Bullet) : Prop :=
  ∃ content below, bs = ⟨depth, content⟩ :: below ∧ ∀ b ∈ below, depth < b.depth

private theorem IsItem.depth_le {bs : List Bullet} (h : IsItem depth bs) :
    ∀ b ∈ bs, depth ≤ b.depth := by
  obtain ⟨content, below, rfl, hbelow⟩ := h
  intro b hb
  rcases List.mem_cons.1 hb with rfl | hb
  · exact Nat.le_refl _
  · exact Nat.le_of_lt (hbelow b hb)

/-- An item is read apart from what follows, if that is no deeper. -/
theorem IsItem.readings?_append {bs rest : List Bullet} (h : IsItem depth bs)
    (hrest : ∀ b ∈ rest.head?, b.depth ≤ depth) :
    readings? leaf depth (bs ++ rest) =
      (readings? leaf depth bs).bind fun us => (readings? leaf depth rest).map (us ++ ·) := by
  obtain ⟨content, below, rfl, hbelow⟩ := h
  rw [List.cons_append, readings?_cons hbelow hrest, readings?_item hbelow]
  cases (readings? leaf (depth + 1) below).bind (contentHolds? leaf · content) <;> rfl

/-- Conditions are bullets no less deep than they are said to be, if each of them is an item. -/
theorem depth_le_of_mem_conditions {es : List Expr}
    (h : ∀ e ∈ es, IsItem depth (condition s e depth p)) :
    ∀ b ∈ conditions s es depth p, depth ≤ b.depth := by
  induction es with
  | nil => simp [conditions]
  | cons e es ih =>
    rw [conditions]
    intro b hb
    rcases List.mem_append.1 hb with hb | hb
    · exact (h e List.mem_cons_self).depth_le b hb
    · exact ih (fun e he => h e (List.mem_cons_of_mem _ he)) b hb

private theorem isItem_condition (s : Subject) (e : Expr) (depth : Nat) (p : Phrasing) :
    IsItem depth (condition s e depth p) := by
  induction e using Expr.partsInduction generalizing depth p with
  | boolOp q op values ih =>
    rw [condition]
    exact ⟨_, _, rfl, depth_le_of_mem_conditions fun e he => ih e he (depth + 1) _⟩
  | unary q op operand ih =>
    cases op with
    | not =>
      rw [condition]
      exact ih depth _
    | _ => exact ⟨_, [], by rw [condition] <;> simp, by simp⟩
  | _ => exact ⟨_, [], by rw [condition] <;> simp, by simp⟩

/-- Conditions are read one after the other. -/
theorem readings?_conditions {es : List Expr} {f : Expr → Bool}
    (h : ∀ e ∈ es, readings? leaf depth (condition s e depth p) = some [f e]) :
    readings? leaf depth (conditions s es depth p) = some (es.map f) := by
  induction es with
  | nil => rw [conditions, readings?, List.map_nil]
  | cons e es ih =>
    have hrest : ∀ b ∈ (conditions s es depth p).head?, b.depth ≤ depth := by
      cases es with
      | nil => simp [conditions]
      | cons e' es =>
        obtain ⟨content, below, he, -⟩ := isItem_condition s e' depth p
        simp [conditions, he]
    rw [conditions, (isItem_condition s e depth p).readings?_append hrest,
      h e List.mem_cons_self, ih fun e he => h e (List.mem_cons_of_mem _ he)]
    rfl

private theorem readings?_fact (e : Expr) :
    readings? leaf depth [⟨depth, .fact e (phrase s p e)⟩] = some [leaf e == p.expectTrue] := by
  rw [readings?_item (by simp), readings?]
  simp [contentHolds?, polarity?_phrase]

end Prose

namespace Expr

variable {leaf : Expr → Bool}

private theorem holdsEach_eq (leaf : Expr → Bool) (es : List Expr) :
    holdsEach leaf es = es.map (holds leaf) := by
  induction es with
  | nil => rfl
  | cons e es ih => rw [holdsEach, ih, List.map_cons]

end Expr

namespace Prose

variable {leaf : Expr → Bool} {depth : Nat} {s : Subject} {p : Phrasing}

/-- Conditions below a heading, which says that all or any of them hold. -/
theorem readings?_quantified {before : String} {q : Phrasing} {op : BoolOp} {es : List Expr}
    (hq : q.expectTrue = p.expectTrue)
    (hwords : quantifies? (BulletContent.heading before p op).words = some (p.ofAll op))
    (h : ∀ e ∈ es, readings? leaf (depth + 1) (condition s e (depth + 1) q) =
      some [e.holds leaf == q.expectTrue]) :
    readings? leaf depth (⟨depth, .heading before p op⟩ :: conditions s es (depth + 1) q) =
      some [op.join (es.map (Expr.holds leaf)) == p.expectTrue] := by
  rw [readings?_item (depth_le_of_mem_conditions fun e _ => isItem_condition s e (depth + 1) q),
    readings?_conditions h, Option.bind_some, contentHolds?, hwords, Option.map_some,
    Option.map_some, hq, ← quantified_eq, List.map_map]
  rfl

/-! ## Conditions -/

/-- The bullets of a condition hold if the condition is as it is expected to be. -/
theorem readings?_condition (s : Subject) (e : Expr) (depth : Nat) (p : Phrasing) :
    readings? leaf depth (condition s e depth p) = some [e.holds leaf == p.expectTrue] := by
  induction e using Expr.partsInduction generalizing depth p with
  | boolOp q op values ih =>
    -- the conditions are expected to be as the whole is, and only the operator may change
    rw [condition, Expr.holds, Expr.holdsEach_eq]
    refine readings?_quantified rfl ?_ fun e he => ih e he (depth + 1) _
    exact quantifies?_heading _ _
  | unary q op operand ih =>
    cases op with
    | not =>
      rw [condition, Expr.holds, ih]
      cases operand.holds leaf <;> cases h : p.expectTrue <;> simp [Phrasing.negated, h]
    | _ => rw [condition, Expr.holds, readings?_fact] <;> simp
  | _ => rw [condition, Expr.holds, readings?_fact] <;> simp

/-- Peeling negations off a condition changes what is expected of it. -/
theorem holds_peelNot (leaf : Expr → Bool) (e : Expr) (expected : Bool) :
    ((peelNot e expected).1.holds leaf == (peelNot e expected).2) = (e.holds leaf == expected) := by
  induction e using Expr.partsInduction generalizing expected with
  | unary q op operand ih =>
    cases op with
    | not =>
      rw [peelNot, ih, Expr.holds]
      cases operand.holds leaf <;> cases expected <;> rfl
    | _ => rw [peelNot]; simp
  | _ => rw [peelNot]; simp

/-- The bullets of the test of an `if` hold if the test does. -/
theorem readings?_test (s : Subject) (e : Expr) (depth : Nat) :
    readings? leaf depth (test s e depth) = some [e.holds leaf] := by
  have hpeel := holds_peelNot leaf e true
  rw [beq_true] at hpeel
  unfold test
  split
  next q op values expected h =>
    rw [h, Expr.holds, Expr.holdsEach_eq] at hpeel
    rw [← hpeel]
    exact readings?_quantified (p := ⟨expected, false⟩) rfl (quantifies?_testHeading _ _)
      fun e _ => readings?_condition s e (depth + 1) _
  next e' expected _ h =>
    rw [h] at hpeel
    have hdeep : ∀ b ∈ condition s e' (depth + 1) .test, depth < b.depth :=
      (isItem_condition s e' (depth + 1) .test).depth_le
    rw [readings?_item hdeep, readings?_condition, Option.bind_some, contentHolds?, expects?_note,
      ← hpeel]
    simp [Phrasing.test]

/-! ## What the bullets name -/

private theorem named_conditions {es : List Expr}
    (h : ∀ e ∈ es, (condition s e depth p).filterMap Bullet.named? =
      e.leaves.map fun leaf => (leaf, namedWords s leaf)) :
    (conditions s es depth p).filterMap Bullet.named? =
      (Expr.leavesEach es).map fun leaf => (leaf, namedWords s leaf) := by
  induction es with
  | nil => rfl
  | cons e es ih =>
    rw [conditions, List.filterMap_append, h e List.mem_cons_self,
      ih fun e he => h e (List.mem_cons_of_mem _ he), Expr.leavesEach, List.map_append]

private theorem named_fact (e : Expr) :
    [(⟨depth, .fact e (phrase s p e)⟩ : Bullet)].filterMap Bullet.named? =
      [(e, namedWords s e)] := by
  rw [← operands_phrase s p e]
  rfl

/-- Each leaf of a condition has one bullet, which names what the leaf is about, and the bullets
stand in the order of the leaves. -/
theorem named_condition (s : Subject) (e : Expr) (depth : Nat) (p : Phrasing) :
    (condition s e depth p).filterMap Bullet.named? =
      e.leaves.map fun leaf => (leaf, namedWords s leaf) := by
  induction e using Expr.partsInduction generalizing depth p with
  | boolOp q op values ih =>
    rw [condition, Expr.leaves]
    exact named_conditions fun e he => ih e he (depth + 1) p.relaxed
  | unary q op operand ih =>
    cases op with
    | not =>
      rw [condition, Expr.leaves]
      exact ih depth p.negated
    | _ => exact named_fact _
  | _ => exact named_fact _

private theorem leaves_peelNot (e : Expr) (expected : Bool) :
    (peelNot e expected).1.leaves = e.leaves := by
  induction e using Expr.partsInduction generalizing expected with
  | unary q op operand ih =>
    cases op with
    | not => rw [peelNot, ih, Expr.leaves]
    | _ => rw [peelNot]; simp
  | _ => rw [peelNot]; simp

/-- So has each leaf of the test of an `if`. -/
theorem named_test (s : Subject) (e : Expr) (depth : Nat) :
    (test s e depth).filterMap Bullet.named? =
      e.leaves.map fun leaf => (leaf, namedWords s leaf) := by
  rw [← leaves_peelNot e true]
  unfold test
  split
  next q op values expected h =>
    rw [h, Expr.leaves]
    exact named_conditions fun e _ => named_condition s e (depth + 1) ⟨expected, false⟩
  next e' expected _ h =>
    rw [h]
    exact named_condition s e' (depth + 1) .test

/-- Prose says of a condition that it is as it is expected to be. What it says of an `if` before
`then:` is that the test holds. -/
theorem readings?_prose (leaf : Expr → Bool) (s : Subject) (e : Expr) (depth : Nat) (p : Phrasing) :
    readings? leaf depth (condition s e depth p) = some [e.holds leaf == p.expectTrue] ∧
      ∀ q body orelse, ∃ before behind,
        statement s (.ifElse q e body orelse) depth = before ++ ⟨depth, .note "then:"⟩ :: behind ∧
          readings? leaf depth before = some [e.holds leaf] := by
  refine ⟨readings?_condition s e depth p, fun q body orelse => ?_⟩
  exact ⟨test s e depth, _, by rw [statement], readings?_test s e depth⟩

/-- The condition `not (count < limit and (flags.none() or not handle == NULL))`. -/
private def nestedCondition : Expr :=
  .unary .none .not (.boolOp .none .and
    [.compare .none (.name .none "count") [.lt] [.name .none "limit"],
     .boolOp .none .or
       [.call .none (.member .none (.name .none "flags") "none") [],
        .unary .none .not (.compare .none (.name .none "handle") [.eq] [.name .none "NULL"])]])

/-- What is demanded of a nested condition, and how it is read if its comparisons hold and nothing
else does. -/
theorem readings?_prose_nested :
    let s : Subject := ⟨{ entities := [] }, "vkCmdDraw"⟩
    let leaf : Expr → Bool := fun e => e.cmpOp?.isSome
    (condition s nestedCondition 1 .demand).map (fun b => (b.depth, b.content.words)) =
        [(1, "any of the following must: be true:"),
         (2, "pname:count is greater than or equal to pname:limit"),
         (2, "all of the following are true:"),
         (3, "pname:flags has at least one bit set"),
         (3, "pname:handle is `NULL`")] ∧
      readings? leaf 1 (condition s nestedCondition 1 .demand) = some [true] ∧
      ∃ before behind,
        statement s (.ifElse .none nestedCondition [] []) 1 =
            before ++ ⟨1, .note "then:"⟩ :: behind ∧
          readings? leaf 1 before = some [true] := by
  intro s leaf
  obtain ⟨hcondition, htest⟩ := readings?_prose leaf s nestedCondition 1 .demand
  exact ⟨by decide +kernel, hcondition, htest .none [] []⟩

end Prose
end ValidUsage
