import ConfigScript.Proofs.Parser.ValueProgress

/-! # Reading operations makes progress

An operand takes text, or the text has ended, or the closing parenthesis at which its recovery
stopped is kept. In each case the operation around it ends or goes on with less text. -/

namespace ConfigScript.Parser

variable {cs : List Char} {s t u : ParserState} {d : Nat}
  {inner operationInner : Parser (Option Node)}

/-- What reading an operand comes to. -/
structure Settles (cs : List Char) (s t : ParserState) : Prop where
  commits : Commits cs s t
  settled : left t < left s ∨ left t = 0 ∨ Awaits .rightParen t

theorem Onward.settles (h : Onward cs s t) (g : Settles cs t u) : Settles cs s u := by
  refine ⟨h.commits g.commits, ?_⟩
  rcases g.settled with hlt | hr
  · exact .inl (hlt.trans_le h.left_le)
  · exact .inr hr

theorem Settles.still (h : Settles cs s t) (g : Still t u) : Settles cs s u := by
  refine ⟨h.commits.still g, ?_⟩
  rw [g.left, Awaits, g.tokenizer]
  exact h.settled

theorem Goes.settles (h : Goes cs s t) (g : Commits cs t u) : Settles cs s u :=
  ⟨h.1.commits g, .inl (g.left_le.trans_lt h.2)⟩

theorem term_spec (hr : Reader cs d inner) (ho : Reader cs d operationInner) (hs : Ready cs s)
    (hd : left s < d) : Yields (term inner operationInner) s fun _ t => Settles cs s t := by
  unfold term
  refine Yields.modify_bind ?_
  have hleft : left { s with tokenizer := s.tokenizer.discard } = left s := rfl
  refine Yields.bind (ho.finds _ hs.discard (hleft.trans_lt hd)) fun found t ht => ?_
  have hc : Commits cs s t := ⟨ht.commits.ready, ht.commits.le⟩
  split
  · exact Yields.of_pure ⟨hc, .inl (ht.lt rfl)⟩
  · refine Yields.bind (rewind_spec hc.ready false) fun _ u hu => ?_
    have hcu : Commits cs s u := hc.within hu.within
    refine Yields.bind (next_reads hu.ready true .operation) fun token v hv => ?_
    have hcv : Commits cs s v := hcu.within (hv.onward.within hu.ready)
    refine Yields.of_ite (fun hl => ?_) fun _ => ?_
    · refine (primitiveValue_still token).mono fun n w hw => ?_
      exact Settles.still ⟨hcv, .inl ((hv.lt_of_isLiteral hl).trans_le hcu.left_le)⟩ hw
    · refine Yields.bind (error_still _) fun _ w hw => ?_
      refine Yields.bind (rewind_spec (hcv.still hw).ready false) fun _ x hx => ?_
      have hcx : Commits cs s x := (hcv.still hw).within hx.within
      refine Yields.bind (skipTo_spec hr _ _ hx.ready (hcx.left_le.trans_lt hd)) fun b y hy => ?_
      have hcy : Commits cs s y := hcx.trans hy.commits
      refine Yields.of_ite (fun hb => ?_) fun hb => ?_
      · -- the closer that was found is kept for the operation
        have htook : Took .rightParen y := hy.closed _ hb rfl
        refine Yields.bind ((rewind_spec hcy.ready false).and (rewind_awaits htook))
          fun _ z hz => ?_
        refine substitute_still.mono fun n w' hw' => ?_
        exact Settles.still ⟨hcy.within hz.1.within, .inr (.inr hz.2)⟩ hw'
      · refine substitute_still.mono fun n w' hw' => Settles.still ⟨hcy, ?_⟩ hw'
        have := hy.stopped (by simpa using hb)
        have := hcx.left_le
        omega

/-! ## Operators -/

/-- What looking for an operator comes to: without one, the place of the next token stays. -/
structure Looks {α : Type} (cs : List Char) (s : ParserState) (found : Option α)
    (t : ParserState) : Prop where
  commits : Commits cs s t
  lt : found.isSome = true → left t < left s
  stays : found = none → left t = left s

theorem operatorOf?_kind {l : Level} {token : Token} {o : Operator}
    (h : operatorOf? l token = some o) : token.kind = .operator ∨ token.kind = .keyword := by
  unfold operatorOf? at h
  split at h
  · rename_i hk
    simpa only [Token.isOperatorOrKeyword, Bool.or_eq_true, beq_iff_eq] using hk
  · simp at h

theorem operator?_spec (l : Level) (skipBreaks : Bool) (hs : Ready cs s) :
    Yields (operator? l skipBreaks) s (Looks cs s) := by
  unfold operator?
  refine Yields.discard_next hs fun token t ht _ => ?_
  split
  · rename_i o ho
    refine Yields.of_pure ⟨ht.commits, fun _ => ht.lt ?_, by simp⟩
    rcases operatorOf?_kind ho with hk | hk <;> simp [hk]
  · refine Yields.bind (rewind_spec ht.ready false) fun _ u hu => Yields.of_pure ?_
    exact ⟨ht.commits.within hu.within, by simp, fun _ => hu.left.trans ht.uncommitted⟩

theorem operator?_awaits (l : Level) (hs : Ready cs s) (ha : Awaits .rightParen s) :
    Yields (operator? l false) s fun found t => found = none ∧ Awaits .rightParen t := by
  unfold operator?
  refine Yields.discard_next hs fun token t ht hk => ?_
  have hr : token.kind = .rightParen := ht.replayed _ ha (by decide)
  split
  · rename_i o ho
    rcases operatorOf?_kind ho with h | h <;> simp [hr] at h
  · refine Yields.bind (rewind_awaits (hk rfl)) fun _ u hu => Yields.of_pure ⟨rfl, ?_⟩
    rwa [hr] at hu

theorem Settles.operator? (h : Settles cs s t) (l : Level) :
    Yields (operator? l false) t fun found u => Commits cs t u
      ∧ (found.isSome = true → left u < left t) ∧ (found = none → Settles cs s u) := by
  have ht := h.commits.ready
  have hstays {found : Option (Operator × Nat)} {u : ParserState} (hu : Looks cs t found u)
      (hf : found = none) : Commits cs s u ∧ (left t < left s → left u < left s) ∧
      (left t = 0 → left u = 0) := by
    rw [hu.stays hf]
    exact ⟨h.commits.trans hu.commits, id, id⟩
  rcases h.settled with hlt | hz | ha
  · refine (operator?_spec l false ht).mono fun found u hu => ⟨hu.commits, hu.lt, fun hf => ?_⟩
    exact ⟨(hstays hu hf).1, .inl ((hstays hu hf).2.1 hlt)⟩
  · refine (operator?_spec l false ht).mono fun found u hu => ⟨hu.commits, hu.lt, fun hf => ?_⟩
    exact ⟨(hstays hu hf).1, .inr (.inl ((hstays hu hf).2.2 hz))⟩
  · refine ((operator?_spec l false ht).and (operator?_awaits l ht ha)).mono fun found u hu => ?_
    exact ⟨hu.1.commits, hu.1.lt, fun hf => ⟨(hstays hu.1 hf).1, .inr (.inr hu.2.2)⟩⟩

/-! ## Expressions -/

/-- A reader of operands that copes with less than `d` characters. -/
def Operand (cs : List Char) (d : Nat) (operand : Parser Node) : Prop :=
  ∀ s, Ready cs s → left s < d → Yields operand s fun _ t => Settles cs s t

variable {operand : Parser Node}

theorem leftAssociative_spec (l : Level) (hp : Operand cs d operand) :
    Operand cs d (leftAssociative l operand) := by
  intro s hs hd
  unfold leftAssociative
  refine Yields.bind (hp s hs hd) fun a t ht => ?_
  refine Yields.of_loop (I := Settles cs s) (fun _ h => h.commits.ready) (fun a u hu => ?_) ht
  refine Yields.bind (hu.operator? l) fun found v hv => ?_
  obtain ⟨hc, hlt, hend⟩ := hv
  split
  · exact Yields.of_pure (hend rfl)
  · rename_i o position
    have hlt : left v < left u := hlt rfl
    have hle : left u ≤ left s := hu.commits.left_le
    refine Yields.bind (hp v hc.ready ((hlt.trans_le hle).trans hd)) fun b w hw => ?_
    have hgo {x : ParserState} (hx : Still w x) : Settles cs s x ∧ left x < left u := by
      have hlt' : left x < left u := (hx.left.trans_le hw.commits.left_le).trans_lt hlt
      exact ⟨⟨((hu.commits.trans hc).trans hw.commits).still hx, .inl (hlt'.trans_le hle)⟩, hlt'⟩
    refine Yields.of_ite (fun _ => ?_) fun _ => ?_
    · exact Yields.bind (accessorCall_still _ _ _ _) fun n x hx => Yields.of_pure (hgo hx)
    · exact Yields.bind (callMacro_still _ _ _) fun n x hx => Yields.of_pure (hgo hx)

theorem postfixed_spec (l : Level) (hp : Operand cs d operand) :
    Operand cs d (postfixed l operand) := by
  intro s hs hd
  unfold postfixed
  refine Yields.bind (hp s hs hd) fun a t ht => ?_
  refine Yields.of_loop (I := Settles cs s) (fun _ h => h.commits.ready) (fun a u hu => ?_) ht
  refine Yields.bind (hu.operator? l) fun found v hv => ?_
  obtain ⟨hc, hlt, hend⟩ := hv
  split
  · exact Yields.of_pure (hend rfl)
  · rename_i o position
    refine Yields.bind (callMacro_still _ _ _) fun n w hw => Yields.of_pure ⟨?_, ?_⟩
    · have hlt' : left w < left u := hw.left.trans_lt (hlt rfl)
      exact ⟨(hu.commits.trans hc).still hw, .inl (hlt'.trans_le hu.commits.left_le)⟩
    · exact hw.left.trans_lt (hlt rfl)

theorem rightAssociative_spec (l : Level) (hp : Operand cs d operand) (n : Nat)
    (hs : Ready cs s) (hd : left s < d) (hn : left s < n) :
    Yields (rightAssociative l operand n) s fun _ t => Settles cs s t := by
  induction n generalizing s with
  | zero => omega
  | succ n ih =>
    unfold rightAssociative
    refine Yields.bind (hp s hs hd) fun a t ht => ?_
    refine Yields.bind (ht.operator? l) fun found u hu => ?_
    obtain ⟨hc, hlt, hend⟩ := hu
    split
    · exact Yields.of_pure (hend rfl)
    · rename_i o position
      have hlt : left u < left s := (hlt rfl).trans_le ht.commits.left_le
      refine Yields.bind (ih hc.ready (hlt.trans hd) (by omega)) fun b v hv => ?_
      refine (callMacro_still _ _ _).mono fun m w hw => ?_
      have hg : Goes cs s u := ⟨(ht.commits.trans hc).onward hs, hlt⟩
      exact (hg.settles hv.commits).still hw

theorem prefixed_spec (l : Level) (hp : Operand cs d operand) (n : Nat)
    (hs : Ready cs s) (hd : left s < d) (hn : left s < n) :
    Yields (prefixed l operand n) s fun _ t => Settles cs s t := by
  induction n generalizing s with
  | zero => omega
  | succ n ih =>
    unfold prefixed
    refine Yields.bind (operator?_spec l true hs) fun found t ht => ?_
    have ht' : Onward cs s t := ht.commits.onward hs
    split
    · exact (hp t ht'.ready (ht'.left_le.trans_lt hd)).mono fun a u hu => ht'.settles hu
    · rename_i o position
      have hlt : left t < left s := ht.lt rfl
      refine Yields.bind (ih ht'.ready (hlt.trans hd) (by omega)) fun a u hu => ?_
      refine (callMacro_still _ _ _).mono fun m v hv => ?_
      exact (Goes.settles ⟨ht', hlt⟩ hu.commits).still hv

theorem left_lt_bound (hs : Ready cs s) : left s < s.tokenizer.committed.rest.length + 2 := by
  have := hs.left_le
  rw [uncommitted] at this
  omega

theorem expression_spec {term : Parser Node} (ht : Operand cs d term) (ls : List Level) :
    Operand cs d (expression term ls) := by
  induction ls with
  | nil => exact ht
  | cons l ls ih =>
    intro s hs hd
    unfold expression
    split
    · refine Yields.of_ite (fun _ => ?_) fun _ => ?_
      · exact Yields.get_bind (rightAssociative_spec l ih _ hs hd (left_lt_bound hs))
      · exact leftAssociative_spec l ih s hs hd
    · exact postfixed_spec l ih s hs hd
    · exact Yields.get_bind (prefixed_spec l ih _ hs hd (left_lt_bound hs))

/-! ## Operations -/

/-- A term that took nothing ended at the end of the text or at the closer, so that what follows it
ends the operation. -/
theorem operationSeparator_spec (hs : Ready cs s) (items : List Node) {v : ParserState}
    (hv : Settles cs s v) :
    Yields (operationSeparator items) v fun r t => Carries cs s r t := by
  refine Yields.discard_next hv.commits.ready fun token w hw _ => ?_
  have hw' : Onward cs s w := (hv.commits.trans hw.commits).onward hs
  have hgo (hne : token.kind ≠ .endOfFile) : Goes cs s w :=
    ⟨hw', (hw.lt hne).trans_le hv.commits.left_le⟩
  split
  · rename_i hk
    exact passComma_spec (fun _ => false) _ (hgo (by simp [hk]))
  · rename_i hk
    exact Yields.of_pure (hgo (by simp [hk]))
  · exact error_done_spec _ _ hw'
  · exact Yields.of_pure hw'
  · rename_i _ _ hend hclose
    have hlt : left v < left s := by
      have := hw.lt hend
      rcases hv.settled with h | h | h
      · exact h
      · omega
      · exact absurd (hw.replayed _ h (by decide)) hclose
    refine Yields.bind (error_still _) fun _ x hx => ?_
    refine Yields.bind (rewind_spec (hx.ready hw.ready) false) fun _ y hy => Yields.of_pure ?_
    have hy' : Commits cs v y := (hw.commits.still hx).within hy.within
    exact ⟨(hv.commits.trans hy').onward hs, hy'.left_le.trans_lt hlt⟩

theorem operationEntry_spec (hp : Operand cs d operand) (items : List Node) (hs : Ready cs s)
    (hd : left s < d) :
    Yields (operationEntry operand items) s fun r t => Carries cs s r t := by
  unfold operationEntry
  refine Yields.discard_next hs fun token t ht _ => ?_
  have ht' : Onward cs s t := ht.commits.onward hs
  split
  · exact error_done_spec _ items ht'
  · exact Yields.of_pure ht'
  · rename_i hk
    exact error_again_spec _ items ⟨ht', ht.lt (by simp [hk])⟩
  · refine Yields.bind (rewind_spec ht.ready _) fun _ u hu => ?_
    have hu' : Onward cs s u := (ht.commits.within hu.within).onward hs
    refine Yields.bind (hp u hu.ready (hu'.left_le.trans_lt hd)) fun a v hv => ?_
    exact operationSeparator_spec hs _ (hu'.settles hv)

theorem operation_spec (hr : Reader cs d inner) (ho : Reader cs d operationInner) (name : String)
    (start : Nat) (hs : Ready cs s) (hd : left s < d) :
    Yields (operation inner operationInner name start) s fun _ t => Onward cs s t := by
  unfold operation operationItems
  refine Yields.bind (Yields.get_bind (Yields.of_carries hs fun items u hu => ?_))
    fun _ t ht => Yields.of_pure ht
  refine operationEntry_spec (expression_spec ?_ _) items hu.ready (hu.left_le.trans_lt hd)
  exact fun s hs hd => term_spec hr ho hs hd

/-! ## Collections -/

theorem isOpening_cases {kind : TokenKind} (h : isOpening kind = true) :
    kind = .leftBrace ∨ kind = .leftBracket ∨ kind = .leftParen := by
  simpa only [isOpening, Bool.or_eq_true, beq_iff_eq, or_assoc] using h

theorem Reads.finds_some {token : Token} (h : Reads cs (left s) token s t)
    (hne : token.kind ≠ .endOfFile) (hu : Onward cs t u) (n : Node) : Finds cs s (some n) u :=
  ⟨⟨hu.ready, hu.le.trans h.uncommitted.le⟩, fun _ => hu.left_le.trans_lt (h.lt hne)⟩

theorem Reads.opened {token : Token} {p : Parser Node} (f : Node → Node)
    (h : Reads cs (left s) token s t) (hne : token.kind ≠ .endOfFile)
    (hp : Yields p t fun _ u => Onward cs t u) :
    Yields (p >>= fun n => pure (some (f n))) t fun found u =>
      Finds cs s found u ∧ found.isSome = true :=
  Yields.bind hp fun n _ hu => Yields.of_pure ⟨h.finds_some hne hu (f n), rfl⟩

theorem Reads.named {token : Token} {p : Parser Node} {kind : MacroKind}
    (h : Reads cs (left s) token s t) (hne : token.kind ≠ .endOfFile)
    (hp : Yields p u fun _ v => Onward cs t v) :
    Yields (p >>= fun n => namedValue token kind n) u fun found v =>
      Finds cs s found v ∧ found.isSome = true := by
  refine Yields.bind hp fun n v hv => (namedValue_still _ _ _).mono fun found w hw => ?_
  obtain ⟨m, rfl⟩ := Option.isSome_iff_exists.mp hw.1
  exact ⟨h.finds_some hne (hv.still hw.2) m, rfl⟩

/-- A collection takes its opening bracket, so those inside of it have less text. -/
theorem collection_succ_spec (hr : ∀ inOperation, Reader cs d (collection d inOperation))
    (inOperation : Bool) (hs : Ready cs s) (hd : left s < d + 1) :
    Yields (collection (d + 1) inOperation) s fun found t => Finds cs s found t
      ∧ ∀ kind, isOpening kind = true → Awaits kind s → found.isSome = true := by
  unfold collection
  refine Yields.discard_next hs fun token t ht _ => ?_
  have hlt (hne : token.kind ≠ .endOfFile) : left t < d := (ht.lt hne).trans_le (by omega)
  have hsome {found : Option Node} {u : ParserState}
      (h : Finds cs s found u ∧ found.isSome = true) : Finds cs s found u
        ∧ ∀ kind, isOpening kind = true → Awaits kind s → found.isSome = true :=
    ⟨h.1, fun _ _ _ => h.2⟩
  split
  · rename_i hk
    have hne : token.kind ≠ .endOfFile := by simp [hk]
    have hobject := object_spec (hr false) "" token.start ht.ready (hlt hne)
    exact (ht.opened id hne hobject).mono fun _ _ => hsome
  · rename_i hk
    have hne : token.kind ≠ .endOfFile := by simp [hk]
    have hlist := list_spec (hr false) "" token.start ht.ready (hlt hne)
    exact (ht.opened id hne hlist).mono fun _ _ => hsome
  · rename_i hk
    have hne : token.kind ≠ .endOfFile := by simp [hk]
    have hoperation := operation_spec (hr false) (hr true) "" token.start ht.ready (hlt hne)
    exact (ht.opened ungroup hne hoperation).mono fun _ _ => hsome
  · rename_i hbrace hbracket hparen
    -- No opening bracket was awaited, or it would have been taken.
    have hclosed (kind : TokenKind) (ho : isOpening kind = true) (ha : Awaits kind s) : False := by
      have hk : token.kind = kind := ht.replayed kind ha (isOpening_ne_lineBreak ho)
      rcases isOpening_cases ho with rfl | rfl | rfl
      · exact hbrace hk
      · exact hbracket hk
      · exact hparen hk
    have hnone {u : ParserState} (hu : Within cs t u) : Finds cs s none u :=
      ⟨ht.commits.within hu, by simp⟩
    refine Yields.of_ite (fun hl => ?_) fun _ => ?_
    · have hne : token.kind ≠ .endOfFile := fun he => by simp [(ht.ended he).2] at hl
      refine Yields.bind (next_reads ht.ready inOperation .unexpected) fun after u hu => ?_
      have hu' : left u < d := hu.left_le.trans_lt (hlt hne)
      split
      · have hobject := object_spec (hr false) token.text token.start hu.ready hu'
        exact (ht.named hne (hobject.mono fun _ _ => hu.onward.trans)).mono fun _ _ => hsome
      · have hlist := list_spec (hr false) token.text token.start hu.ready hu'
        exact (ht.named hne (hlist.mono fun _ _ => hu.onward.trans)).mono fun _ _ => hsome
      · have hoperation :=
          operation_spec (hr false) (hr true) token.text token.start hu.ready hu'
        exact (ht.named hne (hoperation.mono fun _ _ => hu.onward.trans)).mono fun _ _ => hsome
      · refine Yields.bind (rewind_spec hu.ready true) fun _ v hv => Yields.of_pure ?_
        exact ⟨hnone ((hu.onward.within ht.ready).trans hv.within),
          fun kind ho ha => (hclosed kind ho ha).elim⟩
    · refine Yields.bind (rewind_spec ht.ready false) fun _ u hu => Yields.of_pure ?_
      exact ⟨hnone hu.within, fun kind ho ha => (hclosed kind ho ha).elim⟩

/-- Nested at most `d` deep, collections cope with less than `d` characters. -/
theorem collection_reader (d : Nat) (inOperation : Bool) :
    Reader cs d (collection d inOperation) := by
  induction d generalizing inOperation with
  | zero => exact ⟨fun _ _ hd => absurd hd (by omega), fun _ _ _ hd => absurd hd (by omega)⟩
  | succ d ih =>
    refine ⟨fun s hs hd => ?_, fun s kind hs hd ho ha => ?_⟩
    · exact (collection_succ_spec ih inOperation hs hd).mono fun _ _ h => h.1
    · exact (collection_succ_spec ih inOperation hs hd).mono fun _ _ h => h.2 kind ho ha

theorem topCollection_reader (d : Nat) : Reader cs d topCollection := by
  refine ⟨fun s hs _ => ?_, fun s kind hs _ ho ha => ?_⟩
  · exact Yields.get_bind ((collection_reader _ _).finds s hs (left_lt_bound hs))
  · exact Yields.get_bind ((collection_reader _ _).opens s kind hs (left_lt_bound hs) ho ha)

end ConfigScript.Parser
