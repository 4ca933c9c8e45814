import ValidUsage.Proofs.Locations

/-!
# What a session replies

A session replies to each request when its last line has come, and the reply is that of the request
alone in the build that was chosen last. So the requests for statements between two choices do not
affect what comes after them, nothing counts behind the end of a session, and a request that cannot
be answered leaves the replies before it.
-/

namespace ValidUsage.Session

/-- Whether lines send a request: but for the blanks at their ends they are those of the request,
and the line that ends it does not stand among its own. -/
structure Request.IsSentBy (q : Request) (ls : List (List Char)) : Prop where
  lines : ls.map Text.trimEnd = q.sent
  inside : q.kind.terminator ∉ q.lines

/-- Lines that send requests one after the other. -/
inductive Sends : List Request → List (List Char) → Prop
  | nil : Sends [] []
  | cons {q : Request} {qs : List Request} {ls ls' : List (List Char)} (h : q.IsSentBy ls)
    (hs : Sends qs ls') : Sends (q :: qs) (ls ++ ls')

/-- Whether the macros of a statement can be replaced without meeting a character outside of
ASCII. A statement that cannot be read has none replaced. -/
def StatementRequest.isScannable (q : StatementRequest) : Bool :=
  match parse q.prepared.text with
  | .ok _ => match expand q.macros q.prepared.text with
    | .error .unscannable => false
    | _ => true
  | .error _ => true

/-- Whether a request is well formed. -/
def Request.isWellFormed (q : Request) : Bool :=
  match q.kind with
  | .versions => true
  | .statement => match StatementRequest.ofLines q.lines with
    | .ok x => x.isScannable
    | .error _ => false

/-- Whether all line numbers about a request have 64 bits. -/
def Request.fits (q : Request) (r : Registry) (b : Build) : Bool :=
  match q.kind, StatementRequest.ofLines q.lines with
  | .statement, .ok x => x.fits r b
  | _, _ => true

/-- The build that counts behind requests: that of the last choice, and everything of the registry
if there is none. -/
def buildAfter (r : Registry) (qs : List Request) : Build :=
  match qs.reverse.find? (·.kind == .versions) with
  | some q => ⟨chosenBuild r q.lines, .ofRegistry r⟩
  | none => ⟨.all r, .ofRegistry r⟩

/-- Whether all line numbers about the requests that come behind others have 64 bits, each in the
build that counts behind those before it. -/
def fitBehind (r : Registry) (pre : List Request) : List Request → Bool
  | [] => true
  | q :: qs => q.fits r (buildAfter r pre) && fitBehind r (pre ++ [q]) qs

/-- The reply to a request in a build. A choice of a build is acknowledged; a statement is rendered,
sent back, or nothing of it is left, and the last line says which. -/
inductive Responds (o : Overflow) (r : Registry) (b : Build) (q : Request) : Reply → Prop
  | versions (hk : q.kind = .versions) : Responds o r b q ⟨["VERSIONS-SUCCESS".toList], []⟩
  | built {x : StatementRequest} {output text : List Char} {ws : List Diagnostic}
    (hk : q.kind = .statement) (hx : StatementRequest.ofLines q.lines = .ok x)
    (hb : x.build o r b = .ok (.ok (.built output text ws))) :
    Responds o r b q ⟨"FORMAT-VU".toList ::
      (Text.lines output ++ "FORMAT-VU-TEXT".toList :: Text.lines text) ++
        ["FORMAT-VU-SUCCESS".toList], ws⟩
  | eliminated {x : StatementRequest} {ws : List Diagnostic}
    (hk : q.kind = .statement) (hx : StatementRequest.ofLines q.lines = .ok x)
    (hb : x.build o r b = .ok (.ok (.eliminated ws))) :
    Responds o r b q ⟨["FORMAT-VU".toList, "FORMAT-VU-ELIMINATED".toList], ws⟩
  | rejected {x : StatementRequest} {e : VuError}
    (hk : q.kind = .statement) (hx : StatementRequest.ofLines q.lines = .ok x)
    (hb : x.build o r b = .ok (.error e)) (he : e ≠ .unscannable) :
    Responds o r b q ⟨"FORMAT-VU".toList :: x.lines ++ ["FORMAT-VU-FAIL".toList], e.diagnostics⟩

/-- Whether replies are those to requests: each is the reply to its request alone, in the build that
counts behind the requests before it. -/
structure Answers (o : Overflow) (r : Registry) (qs : List Request) (replies : List Reply) :
    Prop where
  length : replies.length = qs.length
  reply (i : Nat) (hi : i < qs.length) (hi' : i < replies.length) :
    Responds o r (buildAfter r (qs.take i)) qs[i] replies[i]

/-- How lines that open no other request end a session: there are none, the first one ends it, it
opens no request, they send a request for a statement that is malformed, or their request does not
end. Whatever is behind does not count. -/
inductive Ends : List (List Char) → Stage → Prop
  | input : Ends [] .closed
  | exit {l : List Char} (h : Text.trimEnd l = exitLine) (ls : List (List Char)) :
    Ends (l :: ls) .closed
  | command {l : List Char} (h : Text.trimEnd l ≠ exitLine)
    (hk : RequestKind.ofKeyword? (Text.trimEnd l) = none) (ls : List (List Char)) :
    Ends (l :: ls) (.failed (.unknownCommand (Text.trimEnd l)))
  | request {q : Request} {ls : List (List Char)} {f : Failure} (h : q.IsSentBy ls)
    (hk : q.kind = .statement) (hf : StatementRequest.ofLines q.lines = .error f)
    (ls' : List (List Char)) : Ends (ls ++ ls') (.failed f)
  | unterminated {k : RequestKind} {l : List Char} {ls : List (List Char)}
    (h : Text.trimEnd l = k.keyword) (hk : k.terminator ∉ ls.map Text.trimEnd) :
    Ends (l :: ls) (.failed (.unterminated k))

/-! ## Lines of a request -/

private theorem feedAll_append (s : Session) (ls ls' : List (List Char)) :
    s.feedAll (ls ++ ls') =
      (((s.feedAll ls).1.feedAll ls').1, (s.feedAll ls).2 ++ ((s.feedAll ls).1.feedAll ls').2) := by
  induction ls generalizing s with
  | nil => rfl
  | cons l ls ih => simp only [List.cons_append, feedAll, ih, List.append_assoc]

private theorem feedAll_cons (s : Session) (l : List Char) (ls : List (List Char)) :
    s.feedAll (l :: ls) =
      (((s.feed l).1.feedAll ls).1, (s.feed l).2.toList ++ ((s.feed l).1.feedAll ls).2) := rfl

/-- A session that is over takes no lines. -/
theorem feedAll_over {s : Session} (h : s.isOver = true) (ls : List (List Char)) :
    s.feedAll ls = (s, []) := by
  have hfeed (l : List Char) : s.feed l = (s, none) := by
    obtain ⟨o, r, b, stage⟩ := s
    cases stage with
    | ready => exact absurd h Bool.false_ne_true
    | within q => exact absurd h Bool.false_ne_true
    | closed => rfl
    | failed f => rfl
  induction ls with
  | nil => rfl
  | cons l ls ih => rw [feedAll_cons, hfeed, ih]; rfl

/-- Lines that do not end a request are taken as its own, whatever they are. -/
theorem feedAll_within {s : Session} {q : Request} (hs : s.stage = .within q)
    {ls : List (List Char)} (h : q.kind.terminator ∉ ls.map Text.trimEnd) :
    s.feedAll ls =
      ({ s with stage := .within { q with lines := q.lines ++ ls.map Text.trimEnd } }, []) := by
  induction ls generalizing s q with
  | nil =>
    obtain ⟨o, r, b, stage⟩ := s
    obtain rfl : stage = .within q := hs
    simp [feedAll]
  | cons l ls ih =>
    rw [List.map_cons, List.mem_cons, not_or] at h
    have hfeed : s.feed l =
        ({ s with stage := .within { q with lines := q.lines ++ [Text.trimEnd l] } }, none) := by
      rw [feed, hs]
      exact if_neg (Ne.symm h.1)
    rw [feedAll_cons, hfeed, ih (q := { q with lines := q.lines ++ [Text.trimEnd l] }) rfl h.2]
    simp

/-- The line that opens a request is no other one. -/
theorem ofKeyword?_keyword (k : RequestKind) :
    RequestKind.ofKeyword? k.keyword = some k ∧ k.keyword ≠ exitLine := by
  cases k <;> decide

private theorem feed_keyword {s : Session} (hs : s.stage = .ready) {k : RequestKind} {l : List Char}
    (hl : Text.trimEnd l = k.keyword) :
    s.feed l = ({ s with stage := .within ⟨k, []⟩ }, none) := by
  obtain ⟨hk, hne⟩ := ofKeyword?_keyword k
  simp only [feed, hs, hl, if_neg hne, hk]

/-- The lines of a request have it answered. -/
theorem feedAll_request {s : Session} (hs : s.stage = .ready) {q : Request}
    {ls : List (List Char)} (h : q.IsSentBy ls) :
    s.feedAll ls = ((s.serve q).1, (s.serve q).2.toList) := by
  obtain ⟨l, ls, rfl⟩ : ∃ l ls', ls = l :: ls' := by
    cases ls with
    | nil => exact absurd h.lines nofun
    | cons l ls => exact ⟨l, ls, rfl⟩
  have hlines := h.lines
  rw [List.map_cons, Request.sent, List.cons_append] at hlines
  obtain ⟨hkey, hrest⟩ := List.cons.inj hlines
  obtain ⟨inner, last, rfl, hinner, hlast⟩ := List.map_eq_append_iff.1 hrest
  obtain ⟨e, rfl, hend⟩ := List.map_eq_singleton_iff.1 hlast
  have hin : q.kind.terminator ∉ inner.map Text.trimEnd := hinner ▸ h.inside
  have hwithin := feedAll_within (s := { s with stage := .within ⟨q.kind, []⟩ })
    (q := ⟨q.kind, []⟩) rfl hin
  rw [feedAll_cons, feed_keyword hs hkey, feedAll_append, hwithin, hinner]
  have hlastFeed : ({ s with stage := .within q } : Session).feed e = s.serve q := by
    simp only [feed, hend, if_pos]
    obtain ⟨o, r, b, stage⟩ := s
    rfl
  simp only [List.nil_append]
  rw [feedAll_cons, hlastFeed]
  simp [feedAll]

/-! ## Replies -/

private theorem buildAfter_concat (r : Registry) (qs : List Request) (q : Request) :
    buildAfter r (qs ++ [q]) = if q.kind = .versions then ⟨chosenBuild r q.lines, .ofRegistry r⟩
      else buildAfter r qs := by
  rw [buildAfter, List.reverse_append]
  by_cases hk : q.kind = .versions <;> simp [hk, buildAfter]

private theorem buildAfter_availability (r : Registry) (qs : List Request) :
    (buildAfter r qs).availability = .ofRegistry r := by
  unfold buildAfter
  split <;> rfl

/-- Requests for statements choose no build. -/
theorem buildAfter_statements (r : Registry) {mid : List Request}
    (h : ∀ q ∈ mid, q.kind = .statement) (pre post : List Request) :
    buildAfter r (pre ++ mid ++ post) = buildAfter r (pre ++ post) := by
  have hmid : mid.reverse.find? (·.kind == .versions) = none := by
    rw [List.find?_eq_none]
    intro q hq
    rw [h q (List.mem_reverse.1 hq)]
    decide
  simp only [buildAfter, List.reverse_append, List.find?_append, hmid, Option.none_or]

/-! ## Statements that break down -/

/-- Whether something does not break down; it may fail. -/
def Holds {α : Type} (x : Except VuError α) : Prop := x ≠ .error .unscannable

private theorem holds_ok {α : Type} (a : α) : Holds (.ok a) := nofun

/-- Two steps do not break down when neither does. -/
theorem Holds.bind {α β : Type} {x : Except VuError α} {f : α → Except VuError β} (h : Holds x)
    (hf : ∀ a, x = .ok a → Holds (f a)) : Holds (x >>= f) := by
  cases x with
  | error e => exact fun he => h (congrArg Except.error (Except.error.inj he))
  | ok a => exact hf a rfl

private theorem holds_applyMacros {v : Vu} {macros : Table String}
    (h : expand macros v.text ≠ .error .unscannable) : Holds (v.applyMacros macros) := by
  unfold Vu.applyMacros
  split
  next e he =>
    cases e with
    | undefined name pos => nofun
    | unreadable e => nofun
    | unscannable => exact absurd he h
  next => split <;> nofun

private theorem holds_accept (v : Vu) (api : String) (macros : Table String) (r : Registry) :
    Holds (v.accept api macros r) := by
  have hapi : Holds (v.resolveApi api macros) := by
    unfold Vu.resolveApi
    split <;> rintro ⟨⟩
  refine hapi.bind fun api _ => Holds.bind ?_ fun _ _ => holds_ok _
  unfold Vu.verify
  simp only
  split <;> rintro ⟨⟩

/-- Once its macros are replaced, a statement fails or is built. -/
theorem holds_build {v : Vu} {macros : Table String}
    (h : expand macros v.text ≠ .error .unscannable) (api : String) (r : Registry) (b : Build) :
    Holds (v.build api macros r b) := by
  refine (holds_applyMacros h).bind fun v _ => (holds_accept v api macros r).bind fun c _ => ?_
  simp only
  split
  next => exact holds_ok _
  next block _ =>
    refine Holds.bind ?_ fun _ _ => holds_ok _
    cases block.render ⟨r, c.api⟩ .output <;> nofun

/-- A statement that can be scanned for macros is built or fails, unless the process breaks off. -/
theorem StatementRequest.holds_build {x : StatementRequest} (h : x.isScannable = true)
    {o : Overflow} {r : Registry} {b : Build} {y : Except VuError BuildOutcome}
    (hy : x.build o r b = .ok y) : Holds y := by
  obtain ⟨line, rfl⟩ := build_eq_ok hy
  unfold isScannable at h
  unfold Vu.ofLines Vu.ofText
  show Holds (Except.bind (match parse x.prepared.text with
    | .ok b => _
    | .error e => _) _)
  cases hp : parse x.prepared.text with
  | error e => nofun
  | ok c =>
    rw [hp] at h
    refine Session.holds_build (fun he => ?_) x.api r b
    replace he : expand x.macros x.prepared.text = .error .unscannable := he
    simp only [he] at h
    exact absurd h Bool.false_ne_true

/-! ## Replies -/

/-- The reply on a statement whose macros can be scanned, unless the process breaks off. -/
theorem StatementRequest.exists_reply {x : StatementRequest} (h : x.isScannable = true)
    {o : Overflow} {r : Registry} {b : Build} (hf : o = .breaks → x.fits r b = true) :
    ∃ a, x.reply o r b = .ok a := by
  have hok := (x.isOk_build_iff o r b).2 hf
  unfold StatementRequest.reply
  cases hy : x.build o r b with
  | error e =>
    rw [hy] at hok
    exact absurd hok Bool.false_ne_true
  | ok y =>
    have hholds := holds_build h hy
    split
    next he => cases he
    next he => exact absurd (Except.ok.inj he) hholds
    next => exact ⟨_, rfl⟩
    next => exact ⟨_, rfl⟩
    next => exact ⟨_, rfl⟩

/-- The reply on a statement responds to the request for it. -/
theorem StatementRequest.responds_reply {x : StatementRequest} {q : Request}
    (hk : q.kind = .statement) (hx : StatementRequest.ofLines q.lines = .ok x) {o : Overflow}
    {r : Registry} {b : Build} {a : Reply} (h : x.reply o r b = .ok a) : Responds o r b q a := by
  unfold StatementRequest.reply at h
  split at h
  next => cases h
  next => cases h
  next e he hb =>
    cases h
    exact .rejected hk hx hb he
  next ws hb =>
    cases h
    exact .eliminated hk hx hb
  next output text ws hb =>
    cases h
    exact .built hk hx hb

/-- A request that is well formed is answered, and of what came before only the build that was
chosen last matters. -/
theorem answer_of_isWellFormed {q : Request} (h : q.isWellFormed = true) {o : Overflow}
    {r : Registry} {qs : List Request} (hf : o = .breaks → q.fits r (buildAfter r qs) = true) :
    ∃ a, q.answer o r (buildAfter r qs) = .ok (buildAfter r (qs ++ [q]), a) ∧
      Responds o r (buildAfter r qs) q a := by
  rw [buildAfter_concat]
  obtain ⟨kind, lines⟩ := q
  cases kind with
  | versions =>
    exact ⟨.versions, by rw [Request.answer, buildAfter_availability, if_pos rfl], .versions rfl⟩
  | statement =>
    unfold Request.isWellFormed at h
    cases hx : StatementRequest.ofLines lines with
    | error f => rw [hx] at h; exact absurd h Bool.false_ne_true
    | ok x =>
      rw [hx] at h
      have hfits : o = .breaks → x.fits r (buildAfter r qs) = true := by
        intro ho
        have := hf ho
        rwa [Request.fits, hx] at this
      obtain ⟨a, ha⟩ := StatementRequest.exists_reply h hfits
      refine ⟨a, ?_, StatementRequest.responds_reply rfl hx ha⟩
      show (do return (buildAfter r qs, ← (← StatementRequest.ofLines lines).reply o r _)) = _
      rw [hx]
      show (do return (buildAfter r qs, ← x.reply o r (buildAfter r qs))) = _
      rw [ha]
      rfl

/-- The reply to a request that is answered. -/
def replyTo (o : Overflow) (r : Registry) (b : Build) (q : Request) : Reply :=
  match q.answer o r b with
  | .ok (_, a) => a
  | .error _ => ⟨[], []⟩

/-- The replies to requests that come after others. -/
def repliesAfter (o : Overflow) (r : Registry) (pre : List Request) : List Request → List Reply
  | [] => []
  | q :: qs => replyTo o r (buildAfter r pre) q :: repliesAfter o r (pre ++ [q]) qs

variable {o : Overflow} {r : Registry}

private theorem answer_eq {pre : List Request} {q : Request} (h : q.isWellFormed = true)
    (hf : o = .breaks → q.fits r (buildAfter r pre) = true) :
    q.answer o r (buildAfter r pre) =
        .ok (buildAfter r (pre ++ [q]), replyTo o r (buildAfter r pre) q) ∧
      Responds o r (buildAfter r pre) q (replyTo o r (buildAfter r pre) q) := by
  obtain ⟨a, ha, hresponds⟩ := answer_of_isWellFormed h hf
  have hreply : replyTo o r (buildAfter r pre) q = a := by rw [replyTo, ha]
  exact ⟨by rw [hreply, ha], hreply ▸ hresponds⟩

private theorem repliesAfter_append (pre qs qs' : List Request) :
    repliesAfter o r pre (qs ++ qs') =
      repliesAfter o r pre qs ++ repliesAfter o r (pre ++ qs) qs' := by
  induction qs generalizing pre with
  | nil => simp [repliesAfter]
  | cons q qs ih => simp [repliesAfter, ih]

/-- Each request for a statement is answered in the same build as long as no other one is chosen. -/
theorem repliesAfter_statements {mid : List Request} (h : ∀ q ∈ mid, q.kind = .statement)
    (pre : List Request) :
    repliesAfter o r pre mid = mid.map (replyTo o r (buildAfter r pre)) := by
  induction mid generalizing pre with
  | nil => rfl
  | cons q mid ih =>
    have hq : buildAfter r (pre ++ [q]) = buildAfter r pre := by
      rw [buildAfter_concat, h q List.mem_cons_self, if_neg nofun]
    rw [repliesAfter, ih (fun q hq => h q (List.mem_cons_of_mem _ hq)), hq, List.map_cons]

/-- Requests for statements do not affect the replies after them. -/
theorem repliesAfter_skip {mid : List Request} (h : ∀ q ∈ mid, q.kind = .statement)
    (pre post : List Request) : repliesAfter o r (pre ++ mid) post = repliesAfter o r pre post := by
  have hall : ∀ qs,
      repliesAfter o r (pre ++ mid ++ qs) post = repliesAfter o r (pre ++ qs) post := by
    induction post with
    | nil => exact fun _ => rfl
    | cons q post ih =>
      intro qs
      rw [repliesAfter, repliesAfter, buildAfter_statements r h, List.append_assoc (pre ++ mid),
        ih, List.append_assoc]
  simpa using hall []

private theorem fitBehind_append (pre qs qs' : List Request) :
    fitBehind r pre (qs ++ qs') = (fitBehind r pre qs && fitBehind r (pre ++ qs) qs') := by
  induction qs generalizing pre with
  | nil => simp [fitBehind]
  | cons q qs ih => simp [fitBehind, ih, Bool.and_assoc]

/-- The line numbers about requests for statements are those in the build that was chosen last. -/
theorem fitBehind_statements {mid : List Request} (h : ∀ q ∈ mid, q.kind = .statement)
    (pre : List Request) : fitBehind r pre mid = mid.all (·.fits r (buildAfter r pre)) := by
  induction mid generalizing pre with
  | nil => rfl
  | cons q mid ih =>
    have hq : buildAfter r (pre ++ [q]) = buildAfter r pre := by
      rw [buildAfter_concat, h q List.mem_cons_self, if_neg nofun]
    rw [fitBehind, ih (fun q hq => h q (List.mem_cons_of_mem _ hq)), hq, List.all_cons]

/-- Requests for statements do not affect the line numbers about those after them. -/
theorem fitBehind_skip {mid : List Request} (h : ∀ q ∈ mid, q.kind = .statement)
    (pre post : List Request) : fitBehind r (pre ++ mid) post = fitBehind r pre post := by
  have hall : ∀ qs, fitBehind r (pre ++ mid ++ qs) post = fitBehind r (pre ++ qs) post := by
    induction post with
    | nil => exact fun _ => rfl
    | cons q post ih =>
      intro qs
      rw [fitBehind, fitBehind, buildAfter_statements r h, List.append_assoc (pre ++ mid), ih,
        List.append_assoc]
  simpa using hall []

private theorem answers_repliesAfter (pre : List Request) {qs : List Request}
    (h : ∀ q ∈ qs, q.isWellFormed = true) (hf : o = .breaks → fitBehind r pre qs = true) :
    (repliesAfter o r pre qs).length = qs.length ∧
      ∀ (i : Nat) (hi : i < qs.length) (hi' : i < (repliesAfter o r pre qs).length),
        Responds o r (buildAfter r (pre ++ qs.take i)) qs[i] (repliesAfter o r pre qs)[i] := by
  induction qs generalizing pre with
  | nil => exact ⟨rfl, nofun⟩
  | cons q qs ih =>
    have hq : o = .breaks → q.fits r (buildAfter r pre) = true := fun ho =>
      (Bool.and_eq_true_iff.1 (hf ho)).1
    obtain ⟨hlen, hrep⟩ := ih (pre ++ [q]) (fun q hq => h q (List.mem_cons_of_mem _ hq))
      fun ho => (Bool.and_eq_true_iff.1 (hf ho)).2
    refine ⟨congrArg Nat.succ hlen, fun i hi hi' => ?_⟩
    cases i with
    | zero =>
      show Responds o r (buildAfter r (pre ++ [])) q _
      rw [List.append_nil]
      exact (answer_eq (h q List.mem_cons_self) hq).2
    | succ i =>
      have := hrep i (Nat.lt_of_succ_lt_succ hi) (Nat.lt_of_succ_lt_succ hi')
      simpa [repliesAfter] using this

/-! ## The whole of a session -/

/-- A session takes requests one after the other. -/
theorem feedAll_sends {qs : List Request} {ls : List (List Char)} (h : Sends qs ls)
    (hw : ∀ q ∈ qs, q.isWellFormed = true) {pre : List Request}
    (hf : o = .breaks → fitBehind r pre qs = true) :
    feedAll ⟨o, r, buildAfter r pre, .ready⟩ ls =
      (⟨o, r, buildAfter r (pre ++ qs), .ready⟩, repliesAfter o r pre qs) := by
  induction h generalizing pre with
  | nil => simp [feedAll, repliesAfter]
  | @cons q qs ls ls' h hs ih =>
    have hq : o = .breaks → q.fits r (buildAfter r pre) = true := fun ho =>
      (Bool.and_eq_true_iff.1 (hf ho)).1
    have hserve : serve ⟨o, r, buildAfter r pre, .ready⟩ q =
        (⟨o, r, buildAfter r (pre ++ [q]), .ready⟩, some (replyTo o r (buildAfter r pre) q)) := by
      rw [serve, (answer_eq (hw q List.mem_cons_self) hq).1]
    rw [feedAll_append, feedAll_request rfl h, hserve,
      ih (fun q hq => hw q (List.mem_cons_of_mem _ hq))
        fun ho => (Bool.and_eq_true_iff.1 (hf ho)).2]
    simp [repliesAfter]

/-- What ends a session has no reply. -/
theorem feedAll_ends {b : Build} {ls : List (List Char)} {stage : Stage} (h : Ends ls stage) :
    ((feedAll ⟨o, r, b, .ready⟩ ls).1.finish, (feedAll ⟨o, r, b, .ready⟩ ls).2) =
      (⟨o, r, b, stage⟩, []) := by
  cases h with
  | input => rfl
  | @exit l h ls =>
    have hfeed : feed ⟨o, r, b, .ready⟩ l = (⟨o, r, b, .closed⟩, none) := by
      simp only [feed, h, if_pos]
    rw [feedAll_cons, hfeed, feedAll_over rfl]
    rfl
  | @command l h hk ls =>
    have hfeed : feed ⟨o, r, b, .ready⟩ l =
        (⟨o, r, b, .failed (.unknownCommand (Text.trimEnd l))⟩, none) := by
      simp only [feed, if_neg h, hk]
    rw [feedAll_cons, hfeed, feedAll_over rfl]
    rfl
  | @request q ls f h hk hf ls' =>
    have hserve : serve ⟨o, r, b, .ready⟩ q = (⟨o, r, b, .failed f⟩, none) := by
      rw [serve, Request.answer, hk]
      simp only [hf]
      rfl
    rw [feedAll_append, feedAll_request rfl h, hserve, feedAll_over rfl]
    rfl
  | @unterminated k l ls h hk =>
    rw [feedAll_cons, feed_keyword rfl h, feedAll_within (q := ⟨k, []⟩) rfl hk]
    rfl

private def freeRegistry : Registry where
  entities :=
    [{ name := "vkFree", category := .command, members := [⟨"x", "uint32_t", 0, none, none⟩] }]
  interfaces := [⟨"VK_VERSION_1_0", .version, []⟩, ⟨"VK_VERSION_1_1", .version, []⟩]

private def chooseVersion : Request := ⟨.versions, ["VK_VERSION_1_0".toList, []]⟩

/-- A statement about a later version. -/
private def aboutLater : Request :=
  ⟨.statement, ["vkFree", "free.adoc", "9", "", "if is_version(1, 1):", "  require(x == 0)"].map
    (·.toList)⟩

/-- A statement with a macro and with a line like a command, which is sent back. -/
private def commandLike : Request :=
  ⟨.statement, ["vkFree", "free.adoc", "3", "p$pname:x", "VERSIONS", "  if macro(p) == 0:"].map
    (·.toList)⟩

/-- The lines of a session with these requests, which goes on behind its end. -/
private def freeLines : List (List Char) :=
  ["VERSIONS", "VK_VERSION_1_0 ", "", "VERSIONS-END",
   "FORMAT-VU", "vkFree", "free.adoc", "9", "", "if is_version(1, 1):", "  require(x == 0)",
   "FORMAT-VU-END ",
   "FORMAT-VU", "vkFree", "free.adoc", "3", "p$pname:x", "VERSIONS", "  if macro(p) == 0:",
   "FORMAT-VU-END",
   "EXIT ", "FORMAT-VU"].map (·.toList)

end ValidUsage.Session
