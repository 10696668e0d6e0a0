import ConfigScript.Proofs.Macro.Deferred
import ConfigScript.Proofs.Macro.Known
import ConfigScript.Proofs.Macro.Overload
import ConfigScript.Proofs.Parser.GrowthValues

/-! # Calls recorded for calls made

Two runs of the readers of values are compared step by step: one makes every call at once, the
other, in the body of a macro, records it. As long as the first has nothing to report and accesses
nothing that a macro came to, the second goes through the same tokens, reports nothing either, and
its values are those of the first with the calls left open. -/

namespace ConfigScript

/-- A registry of steady macros. -/
def MacroRegistry.Steady (r : MacroRegistry) : Prop := ∀ m ∈ r.macros, m.Steady

namespace Parser

variable {α β : Type} {P P' : Prop} {s t u : ParserState}

/-! ## The two runs -/

/-- A state in which calls are made at once. -/
structure Immediate (s : ParserState) : Prop where
  template : s.template = none
  recovering : s.recovering = false
  trusted : s.visible.macros.Trusted
  steady : s.visible.macros.Steady

theorem Immediate.of_extends (hs : Immediate s) (h : Extends s t) : Immediate t :=
  ⟨h.template hs.template, h.recovering.trans hs.recovering, h.visible ▸ hs.trusted,
    h.visible ▸ hs.steady⟩

/-- Nothing was reported, and nothing made was accessed. -/
structure Silent (s t : ParserState) : Prop where
  reports : t.reports = s.reports
  accessedMade : t.accessedMade = false

theorem Silent.first (h : Extends s t) (g : Extends t u) (hu : Silent s u) : Silent s t := by
  refine ⟨(h.reports.eq_of_length_le ?_).symm, Bool.eq_false_iff.mpr fun ht => ?_⟩
  · rw [← hu.reports]
    exact g.reports.length_le
  · exact Bool.false_ne_true (hu.accessedMade.symm.trans (g.accessedMade ht))

theorem Silent.second (h : Extends s t) (g : Extends t u) (hu : Silent s u) : Silent t u :=
  ⟨hu.reports.trans (hu.first h g).reports.symm, hu.accessedMade⟩

/-- The same state in the body of a constant macro in which some calls have been recorded. -/
def inBody (start : Nat) (name : String) (calls : Calls) (s : ParserState) : ParserState :=
  { s with template := some (.recording start name calls) }

/-- The marks of calls count up from zero. -/
def Numbered (calls : Calls) : Prop := calls.map Prod.fst = List.range calls.length

theorem Numbered.concat {calls : Calls} (h : Numbered calls) (e : Edit) :
    Numbered (calls ++ [(calls.length, e)]) := by
  rw [Numbered, List.map_append, h, List.length_append, List.length_singleton,
    List.range_succ]
  rfl

/-- A parser leads from a state into the body of a macro to a given state in that body, with some
more calls recorded. -/
def Follows (R : Calls → α → α → Prop) (q : Parser α) (s : ParserState) (a : α)
    (t : ParserState) : Prop :=
  ∀ start name calls, Numbered calls → ∃ more, Numbered (calls ++ more)
    ∧ Yields q (inBody start name calls s) fun b v =>
      v = inBody start name (calls ++ more) t ∧ R more b a

/-- Under a condition, the second parser does with recorded calls what the first does with calls
made, as long as the first is silent. The values are related by the calls recorded on the way. -/
structure Defers (P : Prop) (R : Calls → α → α → Prop) (p q : Parser α) : Prop where
  moves : Moves Extends p
  follows : P → ∀ s, Immediate s → Yields p s fun a t => Silent s t → Follows R q s a t

/-- Reads the same, and records nothing. -/
abbrev Same (p : Parser α) : Prop := Defers True (fun d b a => d = [] ∧ b = a) p p

/-! ## Putting steps together -/

variable {R R' : Calls → α → α → Prop} {S : Calls → β → β → Prop} {p q : Parser α}

theorem Defers.mono (h : Defers P R p q) (hP : P' → P)
    (hR : P' → ∀ d b a, R d b a → R' d b a) : Defers P' R' p q := by
  refine ⟨h.moves, fun hp s hs => ?_⟩
  refine (h.follows (hP hp) s hs).mono fun a t ht hst start name calls hc => ?_
  obtain ⟨more, hmore, hq⟩ := ht hst start name calls hc
  exact ⟨more, hmore, hq.mono fun b v hv => ⟨hv.1, hR hp more b a hv.2⟩⟩

theorem Defers.of_not (hm : Moves Extends p) (h : ¬P) : Defers P R p q :=
  ⟨hm, fun hp => absurd hp h⟩

theorem Defers.intro (hm : Moves Extends p) (h : P → Defers True R p q) : Defers P R p q :=
  ⟨hm, fun hp => (h hp).follows trivial⟩

theorem Defers.pure {a b : α} (h : P → R [] b a) : Defers P R (pure a) (pure b) := by
  refine ⟨Moves.pure a, fun hp s _ _ start name calls hc => ⟨[], ?_, ?_⟩⟩
  · rwa [List.append_nil]
  · refine Yields.of_pure ⟨?_, h hp⟩
    rw [List.append_nil]
    rfl

theorem Defers.bind {f g : α → Parser β} (h : Defers P R p q)
    (hf : ∀ d b a, Defers (P ∧ R d b a) (fun e => S (d ++ e)) (f a) (g b)) :
    Defers P S (p >>= f) (q >>= g) := by
  refine ⟨h.moves.bind fun a => (hf [] a a).moves, fun hp s hs => ?_⟩
  refine Yields.bind ((h.moves s).and (h.follows hp s hs)) fun a t hat => ?_
  obtain ⟨ht, hq⟩ := hat
  intro hsu start name calls hc
  have hu := (hf [] a a).moves t
  obtain ⟨d, hd, hv, hR⟩ := hq (hsu.first ht hu) start name calls hc
  obtain ⟨e, he, hw⟩ := (hf d _ a).follows ⟨hp, hR⟩ t (hs.of_extends ht) (hsu.second ht hu)
    start name (calls ++ d) hd
  refine ⟨d ++ e, by rwa [← List.append_assoc], ?_⟩
  rw [← hv, List.append_assoc] at hw
  exact hw

theorem Defers.same_bind {f g : α → Parser β} (h : Same p) (hf : ∀ a, Defers P S (f a) (g a)) :
    Defers P S (p >>= f) (p >>= g) := by
  refine Defers.bind (h.mono (fun _ => trivial) fun _ _ _ _ => id) fun d b a => ?_
  refine Defers.intro (hf a).moves fun hP => ?_
  obtain ⟨hp, rfl, rfl⟩ := hP
  exact (hf b).mono (fun _ => hp) fun _ _ _ _ => id

theorem Defers.get_bind {f g : ParserState → Parser β}
    (hf : ∀ s start name calls, Defers P S (f s) (g (inBody start name calls s))) :
    Defers P S (get >>= f) (get >>= g) := by
  refine ⟨Moves.get_bind fun s => (hf s 0 "" []).moves, fun hp s hs => ?_⟩
  refine Yields.get_bind (fun hst start name calls hc => ?_)
  exact (hf s start name calls).follows hp s hs hst start name calls hc

theorem Defers.ite {c : Prop} [Decidable c] {p' q' : Parser α} (hp : Defers P R p q)
    (hq : Defers P R p' q') : Defers P R (if c then p else p') (if c then q else q') := by
  split
  · exact hp
  · exact hq

theorem Same.of_run (hm : Moves Extends p)
    (hb : ∀ s start name calls, p.run (inBody start name calls s)
      = ((p.run s).1, inBody start name calls (p.run s).2)) : Same p := by
  refine ⟨hm, fun _ s _ _ start name calls hc => ⟨[], ?_, ?_⟩⟩
  · rwa [List.append_nil]
  · rw [Yields, hb, List.append_nil]
    exact ⟨rfl, rfl, rfl⟩

/-- Never silent. -/
structure Noisy (p : Parser α) : Prop where
  moves : Moves Extends p
  loud : ∀ s, Immediate s → Yields p s fun _ t => ¬Silent s t

theorem Noisy.bind {f : α → Parser β} (h : Noisy p) (hf : ∀ a, Moves Extends (f a)) :
    Noisy (p >>= f) := by
  refine ⟨h.moves.bind hf, fun s hs => ?_⟩
  refine Yields.bind ((h.moves s).and (h.loud s hs)) fun a t ht => ?_
  exact (hf a t).mono fun _ u hu hsu => ht.2 (hsu.first ht.1 hu)

theorem Noisy.defers (h : Noisy p) : Defers P R p q :=
  ⟨h.moves, fun _ s hs => (h.loud s hs).mono fun _ _ ht hst => absurd hst ht⟩

/-! ## Loops -/

theorem exhaust_same : Same exhaust :=
  Same.of_run exhaust_extends fun _ _ _ _ => rfl

theorem bound_same : Same bound :=
  Defers.get_bind fun _ _ _ _ => Defers.pure fun _ => ⟨rfl, rfl⟩

theorem Defers.turns {step : α → Parser (Turn α)}
    (h : ∀ d b a, Defers (R d b a) (fun e => TurnsAlike (R (d ++ e))) (step a) (step b)) (n : Nat)
    (d : Calls) (b a : α) :
    Defers (R d b a) (fun e => R (d ++ e)) (turns step n a) (turns step n b) := by
  induction n generalizing d b a with
  | zero =>
    refine Defers.same_bind exhaust_same fun _ => Defers.pure fun hR => ?_
    rwa [List.append_nil]
  | succ n ih =>
    refine (h d b a).bind fun e r' r => ?_
    cases r with
    | again x =>
      cases r' with
      | again y =>
        refine (ih (d ++ e) y x).mono And.right fun _ e' _ _ hR => ?_
        rwa [← List.append_assoc]
      | done y => exact Defers.of_not (ih [] x x).moves fun hP => hP.2
    | done x =>
      cases r' with
      | again y => exact Defers.of_not (Moves.pure x) fun hP => hP.2
      | done y =>
        refine Defers.pure fun hP => ?_
        rw [List.append_nil]
        exact hP.2

theorem Defers.again (d : Calls) (b a : α) :
    Defers (R d b a) (fun e => TurnsAlike (R (d ++ e))) (Pure.pure (.again a))
      (Pure.pure (.again b)) :=
  Defers.pure fun h => by rwa [List.append_nil]

theorem Defers.done (d : Calls) (b a : α) :
    Defers (R d b a) (fun e => TurnsAlike (R (d ++ e))) (Pure.pure (.done a))
      (Pure.pure (.done b)) :=
  Defers.pure fun h => by rwa [List.append_nil]

theorem Defers.loop {step : α → Parser (Turn α)}
    (h : ∀ d b a, Defers (R d b a) (fun e => TurnsAlike (R (d ++ e))) (step a) (step b))
    (d : Calls) (b a : α) :
    Defers (R d b a) (fun e => R (d ++ e)) (Parser.loop step a) (Parser.loop step b) :=
  Defers.same_bind bound_same fun n => Defers.turns h n d b a

/-- Nothing in both runs, or values related by the calls. -/
inductive DeferredOption : Calls → Option Node → Option Node → Prop
  | none : DeferredOption [] none none
  | some {calls : Calls} {m n : Node} (h : Deferred calls m n) :
    DeferredOption calls (some m) (some n)

theorem Defers.option_bind {p q : Parser (Option Node)} {f g : Option Node → Parser β}
    (h : Defers P DeferredOption p q) (hnone : Defers P S (f none) (g none))
    (hsome : ∀ d m n, Defers (P ∧ Deferred d m n) (fun e => S (d ++ e)) (f (some n)) (g (some m))) :
    Defers P S (p >>= f) (q >>= g) := by
  refine h.bind fun d b a => Defers.intro ?_ fun ⟨hp, hab⟩ => ?_
  · cases a with
    | none => exact hnone.moves
    | some n => exact (hsome [] n n).moves
  · cases hab with
    | none => exact hnone.mono (fun _ => hp) fun _ _ _ _ => id
    | some hmn => exact (hsome d _ _).mono (fun _ => ⟨hp, hmn⟩) fun _ _ _ _ => id

/-! ## Tokens and reports -/

theorem addReports_inBody (rs : List Report) (s : ParserState) (start : Nat) (name : String)
    (calls : Calls) : ((addReports rs).run (inBody start name calls s)).2
      = inBody start name calls ((addReports rs).run s).2 := by
  show (if s.recovering then _ else _) = inBody start name calls (if s.recovering then _ else _)
  split
  · rfl
  · rfl

theorem next_same (skipBreaks : Bool) (mode : ReadMode) : Same (next skipBreaks mode) :=
  Same.of_run (next_extends _ _) fun s start name calls =>
    Prod.ext rfl (addReports_inBody
      (s.tokenizer.next skipBreaks mode s.visible.operators).2.takeReports.1
      { s with tokenizer := (s.tokenizer.next skipBreaks mode s.visible.operators).2.takeReports.2 }
      start name calls)

theorem discard_same : Same discard := Same.of_run discard_extends fun _ _ _ _ => rfl

theorem noteLost_same : Same (noteLost []) :=
  Same.of_run (noteLost_extends []) fun _ _ _ _ => by
    rw [noteLost_nil]
    rfl

theorem rewind_same (again : Bool) : Same (rewind again) :=
  Same.of_run (rewind_extends again) fun _ _ _ _ => rfl

theorem substitute_defers : Defers True Deferred substitute substitute :=
  Defers.same_bind (Same.of_run (Moves.modify fun s => substitute_extends s) fun _ _ _ _ => rfl)
    fun _ => Defers.pure fun _ => .primitive ⟨rfl, rfl⟩

theorem addReports_noisy {rs : List Report} (h : rs ≠ []) : Noisy (addReports rs) := by
  refine ⟨addReports_extends rs, fun s hs => Yields.of_modify fun hst => h ?_⟩
  have hreports := hst.reports
  rw [hs.recovering] at hreports
  simpa using hreports

theorem error_noisy (message : String) : Noisy (error message) :=
  addReports_noisy (List.cons_ne_nil _ _)

theorem reportDuplicate_noisy (key : String) (position : Nat) :
    Noisy (reportDuplicate key position) :=
  ⟨reportDuplicate_extends key position, fun s hs =>
    Yields.get_bind ((addReports_noisy (List.cons_ne_nil _ _)).loud s hs)⟩

theorem noteAccess_noisy {n : Node} (h : n.info.made = true) : Noisy (noteAccess n) := by
  refine ⟨noteAccess_extends n, fun s _ => Yields.of_modify fun hst => ?_⟩
  have hmade := hst.accessedMade
  simp [h] at hmade

/-! ## Expansion -/

/-- Nodes that have just been read, the first of them not marked, and that make the same call. -/
structure Callable (kind : MacroKind) (calls : Calls) (m n : Node) : Prop where
  deferred : Deferred calls m n
  plain : m.info.Plain
  word : Template.wordOf m = Template.wordOf n
  search : ∀ group, searchGroup kind group m = searchGroup kind group n

theorem resolveParam?_defers (m n : Node) :
    Defers True (fun d b a => d = [] ∧ b = none ∧ a = none) (resolveParam? n)
      (resolveParam? m) := by
  refine ⟨resolveParam?_extends n, fun _ s hs => ?_⟩
  refine Yields.get_bind ?_
  rw [hs.template]
  refine fun _ start name calls hc => ⟨[], ?_, ?_⟩
  · rwa [List.append_nil]
  · rw [List.append_nil]
    exact ⟨rfl, rfl, rfl, rfl⟩

theorem made_silent (hs : Immediate s) {e : Expansion} (he : e.Speaks) (name : String)
    (position : Nat) :
    Yields (addReports (e.reports.map (Report.orAt (some position))) >>= fun _ =>
      expanded name position e.result) s fun w t => Silent s t → t = s
        ∧ ∃ v, e = Expansion.produced v ∧ w.withoutInfo = v.withoutInfo ∧ w.info.made = true := by
  obtain ⟨result, rs⟩ := e
  cases rs with
  | cons r rs =>
    have hn : Noisy (addReports ((r :: rs).map (Report.orAt (some position)))) :=
      addReports_noisy (List.cons_ne_nil _ _)
    exact ((hn.bind fun _ => expanded_extends name position result).loud s hs).mono
      fun _ _ ht hst => absurd hst ht
  | nil =>
    refine Yields.bind (addReports_nil rfl) fun _ t ht => ?_
    subst ht
    cases result with
    | produced v =>
      refine Yields.of_pure fun _ => ⟨rfl, v, rfl, ?_, ?_⟩
      · rw [Node.withoutInfo_asMade]
        split
        · exact Node.withoutInfo_setPosition _ v
        · rfl
      · generalize (if v.position.isNone then v.placedAt position else v) = w
        cases w <;> rfl
    | refused => exact absurd (he rfl) (by decide)
    | fault f =>
      have hn : Noisy (report (failureReport f position)) := addReports_noisy (List.cons_ne_nil _ _)
      exact ((hn.bind fun _ => substitute_extends).loud t hs).mono fun _ _ ht hst => absurd hst ht
    | crashed message =>
      have hn : Noisy
          (report (failureReport (.failedMacro name (message.getD "panicked")) position)) :=
        addReports_noisy (List.cons_ne_nil _ _)
      exact ((hn.bind fun _ => substitute_extends).loud t hs).mono fun _ _ ht hst => absurd hst ht

/-- In a body the macro that a call means is noted under the next mark. -/
theorem recorded (s : ParserState) {kind : MacroKind} {m : Node} {callee : Macro}
    (hg : (s.visible.macros.group ⟨Template.wordOf m, kind⟩).isEmpty = false)
    (hf : searchGroup kind (s.visible.macros.group ⟨Template.wordOf m, kind⟩) m
      = (some callee, [])) (position start : Nat) (name : String) (calls : Calls) :
    Yields (callMacro m kind position) (inBody start name calls s) fun b v =>
      v = inBody start name (calls ++ [(calls.length, .call [] callee)]) s
        ∧ b = m.setMark (some calls.length) := by
  refine Yields.get_bind ?_
  have hg' : ¬((inBody start name calls s).visible.macros.group
      ⟨Template.wordOf m, kind⟩).isEmpty = true := by rw [Bool.not_eq_true]; exact hg
  have hf' : searchGroup kind ((inBody start name calls s).visible.macros.group
      ⟨Template.wordOf m, kind⟩) m = (some callee, []) := hf
  simp only [if_neg hg', hf', List.map_nil]
  refine Yields.bind (addReports_nil rfl) fun _ t ht => ?_
  subst ht
  simp only [inBody, Template.deferCall_recording]
  exact ⟨rfl, rfl⟩

/-- A call that is recorded is the call that is made. -/
theorem callMacro_defers {kind : MacroKind} {d : Calls} {m n : Node} (hmn : Callable kind d m n)
    (position : Nat) :
    Defers True (fun e => Deferred (d ++ e)) (callMacro n kind position)
      (callMacro m kind position) := by
  refine ⟨callMacro_extends n kind position, fun _ s hs => ?_⟩
  refine Yields.get_bind ?_
  simp only
  cases hg : (s.visible.macros.group ⟨Template.wordOf n, kind⟩).isEmpty with
  | true =>
    -- No macro has the name, so the call stays as it is in both runs.
    refine Yields.of_pure fun _ start name calls hc => ⟨[], ?_, Yields.get_bind ?_⟩
    · rwa [List.append_nil]
    · rw [hmn.word]
      refine Yields.of_ite (fun _ => Yields.of_pure ⟨?_, ?_⟩) fun hne => absurd hg hne
      · rw [List.append_nil]
      · simp only [List.append_nil]
        exact hmn.deferred
  | false =>
    obtain ⟨hspeaks, hmem⟩ := searchGroup_spec kind hg n
    have hsearch := hmn.search (s.visible.macros.group ⟨Template.wordOf n, kind⟩)
    generalize searchGroup kind (s.visible.macros.group ⟨Template.wordOf n, kind⟩) n = found
      at hspeaks hmem hsearch ⊢
    obtain ⟨found, rs⟩ := found
    simp only [Bool.false_eq_true, if_false]
    cases rs with
    | cons r rs =>
      -- What is reported here ends the silence.
      have hn : Noisy (addReports ((r :: rs).map (Report.orAt (some position)))) :=
        addReports_noisy (List.cons_ne_nil _ _)
      rw [hs.template]
      refine ((hn.bind fun _ => ?_).loud s hs).mono fun _ _ ht hst => absurd hst ht
      cases found with
      | none => exact substitute_extends
      | some callee => exact Moves.bind (addReports_extends _) fun _ => expanded_extends _ _ _
    | nil =>
      refine Yields.bind (addReports_nil rfl) fun _ t ht => ?_
      subst ht
      cases found with
      | none => exact absurd (hspeaks rfl) (by decide)
      | some callee =>
        have htrust : callee.Trusted := hs.trusted.group _ callee (hmem callee rfl)
        have hsteady : callee.Steady :=
          hs.steady callee (List.mem_filter.mp (hmem callee rfl)).1
        rw [hs.template]
        refine (made_silent hs (htrust.apply_speaks n t.config.copyConstants) _ position).mono
          fun w u hw hst start name calls hc => ?_
        obtain ⟨rfl, v, hv, hwv, hmade⟩ := hw hst
        refine ⟨_, hc.concat (.call [] callee), ?_⟩
        rw [← hmn.word] at hg hsearch
        refine (recorded u hg hsearch position start name calls).mono fun b x hbx => ?_
        obtain ⟨rfl, rfl⟩ := hbx
        exact ⟨rfl, .call hmn.deferred hmn.plain hsteady hv hwv hmade⟩

theorem Callable.primitive (text : String) (start : Nat) (kind : MacroKind) :
    Callable kind [] ((Node.value text).placedAt start) ((Node.value text).placedAt start) :=
  ⟨.primitive ⟨rfl, rfl⟩, ⟨rfl, rfl⟩, rfl, fun _ => rfl⟩

theorem Callable.object {d : Calls} {ps qs : List (String × Node)}
    (hk : (Properties.keys ps).Nodup) (h : DeferredProperties d ps qs) (name : String)
    (start : Nat) :
    Callable .object d ((Node.object name ps {}).placedAt start)
      ((Node.object name qs {}).placedAt start) :=
  ⟨.object ⟨rfl, rfl⟩ hk h, ⟨rfl, rfl⟩, rfl, fun group =>
    searchGroup_congr rfl group (.object h.keys_eq name _ _)⟩

theorem Callable.list {d : Calls} {xs ys : List Node} {kind : MacroKind}
    (hk : kind.isFunction = false) (op : Bool) (h : DeferredItems d xs ys) (name : String)
    (start : Nat) : Callable kind d ((Node.list name op xs {}).placedAt start)
      ((Node.list name op ys {}).placedAt start) :=
  ⟨.list ⟨rfl, rfl⟩ h, ⟨rfl, rfl⟩, rfl, fun group =>
    searchGroup_congr hk group (.list h.length_eq name op _ _)⟩

theorem primitiveValue_defers (token : Token) :
    Defers True Deferred (primitiveValue token) (primitiveValue token) := by
  unfold primitiveValue
  refine Defers.ite (Defers.pure fun _ => .primitive ⟨rfl, rfl⟩) ?_
  refine Defers.bind (resolveParam?_defers _ _) fun d b a => ?_
  refine Defers.intro ?_ fun h => ?_
  · split
    · exact Moves.pure _
    · exact callMacro_extends _ _ _
  · obtain ⟨-, rfl, rfl, rfl⟩ := h
    exact callMacro_defers (.primitive token.text token.start .constant) token.start

theorem namedValue_defers (token : Token) {kind : MacroKind} {d : Calls} {m n : Node}
    (h : Callable kind d m n) :
    Defers True (fun e => DeferredOption (d ++ e)) (namedValue token kind n)
      (namedValue token kind m) := by
  unfold namedValue
  refine Defers.ite (Defers.pure fun _ => ?_) ?_
  · rw [List.append_nil]
    exact .some h.deferred
  · refine Defers.bind (resolveParam?_defers m n) fun e b a => ?_
    refine Defers.intro ?_ fun hfound => ?_
    · split
      · exact Moves.pure _
      · exact Moves.bind (callMacro_extends _ _ _) fun _ => Moves.pure _
    · obtain ⟨-, rfl, rfl, rfl⟩ := hfound
      refine Defers.bind (callMacro_defers h token.start) fun e b a => Defers.pure fun hb => ?_
      simp only [List.nil_append, List.append_nil]
      exact .some hb.2

theorem operatorCall_defers (o : Operator) (position : Nat) (d : Calls) (xs ys : List Node) :
    Defers (DeferredItems d xs ys) (fun e => Deferred (d ++ e)) (operatorCall o ys position)
      (operatorCall o xs position) :=
  Defers.intro (callMacro_extends _ _ _) fun h =>
    callMacro_defers (.list rfl true h o.produces position) position

theorem Callable.access {d : Calls} {x a : Node} (h : Deferred d x a) (name : String)
    (position : Nat) :
    Callable .access d ((Node.list name false [x] {}).placedAt position)
      ((Node.list name false [a] {}).placedAt position) :=
  ⟨.list ⟨rfl, rfl⟩ (.singleton h), ⟨rfl, rfl⟩, rfl, fun group =>
    searchGroup_congr_bare rfl group _ _⟩

theorem Callable.function {kind : MacroKind} (hk : kind.isFunction = true) {d e : Calls}
    {x y a b : Node} (hx : Deferred d x a) (hy : Deferred e y b) (ho : SameOutline y b)
    (name : String) (position : Nat) :
    Callable kind (d ++ e) ((Node.list name false [x, y] {}).placedAt position)
      ((Node.list name false [a, b] {}).placedAt position) :=
  ⟨.list ⟨rfl, rfl⟩ (.cons hx (.singleton hy)), ⟨rfl, rfl⟩, rfl, fun group =>
    searchGroup_congr_args hk group ho name false _ _⟩

theorem noteAccess_defers {y b : Node} (hy : y.info.Plain) :
    Defers True (fun d _ _ => d = []) (noteAccess b) (noteAccess y) := by
  refine ⟨noteAccess_extends b, fun _ s hi => Yields.of_modify fun hst => ?_⟩
  have hmade : (s.accessedMade || b.info.made) = false := hst.accessedMade
  have hlost : lostWith b.mark.toList s = s.lost := lostWith_of_none _ hi.template
  have hmark : y.mark.toList = [] := by rw [Node.mark, hy.1]; rfl
  refine fun start name calls hc => ⟨[], ?_, Yields.of_modify ⟨?_, rfl⟩⟩
  · rwa [List.append_nil]
  · rw [List.append_nil]
    obtain ⟨hs, hb⟩ := Bool.or_eq_false_iff.mp hmade
    simp only [inBody, hy.2, hs, hb, hlost, hmark, lostWith_nil]

/-- An accessor hands on what stands in its right operand, unless a macro came to that. -/
theorem accessorCall_defers (o : Operator) (position : Nat) (d e : Calls) (x y a b : Node) :
    Defers (Deferred d x a ∧ Deferred e y b) (fun f => Deferred (d ++ e ++ f))
      (accessorCall a b o position) (accessorCall x y o position) := by
  refine Defers.intro (accessorCall_extends _ _ _ _) fun ⟨hx, hy⟩ => ?_
  unfold accessorCall
  cases hy with
  | @primitive text i j hi =>
    refine Defers.bind (noteAccess_defers hi) fun _ _ _ => ?_
    refine (callMacro_defers (.access hx _ position) position).mono (fun _ => trivial)
      fun hd f _ _ hf => ?_
    rwa [hd.2, List.nil_append, List.append_nil]
  | @object _ name ps qs i j hi hk h =>
    have hargs : Deferred e (.object "" ps { i with mark := none })
        (.object "" qs { j with mark := none }) := .object ⟨rfl, hi.2⟩ hk h
    have hkind : MacroKind.objectFn.isFunction = true := rfl
    have hcall := Callable.function hkind hx hargs (.object h.keys_eq "" _ _) (o.produces ++ name)
      position
    refine Defers.bind (noteAccess_defers hi) fun _ _ _ => ?_
    refine (callMacro_defers hcall position).mono (fun _ => trivial) fun hd f _ _ hf => ?_
    rwa [hd.2, List.nil_append]
  | @list _ name op xs ys i j hi h =>
    have hargs : Deferred e (.list "" op xs { i with mark := none })
        (.list "" op ys { j with mark := none }) := .list ⟨rfl, hi.2⟩ h
    have hkind : (if op then MacroKind.operationFn else .listFn).isFunction = true := by
      cases op <;> rfl
    have hcall := Callable.function hkind hx hargs (.list h.length_eq "" op _ _)
      (o.produces ++ name) position
    refine Defers.bind (noteAccess_defers hi) fun _ _ _ => ?_
    refine (callMacro_defers hcall position).mono (fun _ => trivial) fun hd f _ _ hf => ?_
    rwa [hd.2, List.nil_append]
  | call h hn hc hv hw hmade =>
    refine Noisy.defers ((noteAccess_noisy hmade).bind fun _ => ?_)
    split
    · exact callMacro_extends _ _ _
    · exact callMacro_extends _ _ _
    · exact callMacro_extends _ _ _

end Parser

end ConfigScript
