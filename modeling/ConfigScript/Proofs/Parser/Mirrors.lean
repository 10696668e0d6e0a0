import ConfigScript.Proofs.Node.Equality
import ConfigScript.Proofs.Parser.GrowthValues
import ConfigScript.Proofs.Parser.Quiet
import ConfigScript.Proofs.Token.TwinTokens

/-! # One line in two places

Two runs of the readers of values are compared step by step: on a line that is closed as an object
and on the same line closed as a list. As long as the first has nothing to report, both take the
same tokens. Where the first has come to the end of its text, whatever it still expects is
reported. -/

namespace ConfigScript.Parser

variable {α α' β β' : Type} {s t u v : ParserState}

/-! ## Runs that cannot be silent -/

/-- Nothing was reported, and neither run was cut short. -/
structure Smooth (s u : ParserState) : Prop where
  reports : s.reports = []
  complete : s.exhausted = false
  complete' : u.exhausted = false

theorem Smooth.before (hs : Smooth t v) (h : Extends s t) (g : Extends u v) : Smooth s u := by
  refine ⟨List.prefix_nil.mp (hs.reports ▸ h.reports), Bool.eq_false_iff.mpr fun he => ?_,
    Bool.eq_false_iff.mpr fun he => ?_⟩
  · exact Bool.false_ne_true (hs.complete.symm.trans (h.exhausted he))
  · exact Bool.false_ne_true (hs.complete'.symm.trans (g.exhausted he))

/-- From the states with a property, a parser makes a report or is cut short. -/
structure Fails (A : ParserState → Prop) (p : Parser α) : Prop where
  moves : Moves Extends p
  loud : ∀ s, A s → Yields p s fun _ t => t.reports = [] → t.exhausted = true

section

variable {A A' : ParserState → Prop} {B : α → ParserState → Prop} {p : Parser α} {f : α → Parser β}

theorem Fails.weaken (h : Fails A p) (hA : ∀ s, A' s → A s) : Fails A' p :=
  ⟨h.moves, fun s hs => h.loud s (hA s hs)⟩

theorem Fails.intro {P : Prop} (hp : Moves Extends p) (h : P → Fails A p) :
    Fails (fun s => P ∧ A s) p :=
  ⟨hp, fun s hs => (h hs.1).loud s hs.2⟩

theorem Fails.bind (h : Fails A p) (hf : ∀ a, Moves Extends (f a)) : Fails A (p >>= f) := by
  refine ⟨h.moves.bind hf, fun s hs => Yields.bind (h.loud s hs) fun a t ht => ?_⟩
  refine (hf a t).mono fun _ u hu hr => hu.exhausted (ht ?_)
  exact List.prefix_nil.mp (hr ▸ hu.reports)

theorem Fails.after (hp : Moves Extends p) (h : ∀ s, A s → Yields p s B)
    (hf : ∀ a, Fails (B a) (f a)) : Fails A (p >>= f) :=
  ⟨hp.bind fun a => (hf a).moves, fun s hs => Yields.bind (h s hs) fun a t => (hf a).loud t⟩

theorem exhaust_fails : Fails A exhaust := ⟨exhaust_extends, fun _ _ _ => rfl⟩

theorem addReports_silent (rs : List Report) (hs : s.recovering = false) :
    Yields (addReports rs) s fun _ t => t.reports = [] → rs = [] := by
  refine Yields.of_modify fun ht => ?_
  rw [if_neg (by simp [hs])] at ht
  exact List.map_eq_nil_iff.mp (List.append_eq_nil_iff.mp ht).2

theorem addReports_fails {rs : List Report} (h : rs ≠ []) :
    Fails (fun s => s.recovering = false) (addReports rs) :=
  ⟨addReports_extends rs, fun _ hs => (addReports_silent rs hs).mono fun _ _ ht hr =>
    absurd (ht hr) h⟩

theorem error_fails (message : String) : Fails (fun s => s.recovering = false) (error message) :=
  addReports_fails (List.cons_ne_nil _ _)

theorem reportDuplicate_fails (key : String) (position : Nat) :
    Fails (fun s => s.recovering = false) (reportDuplicate key position) :=
  ⟨reportDuplicate_extends key position, fun s =>
    (addReports_fails (List.cons_ne_nil _ _)).loud s⟩

end

/-! ## The two runs -/

/-- Both runs have come to the same place of the line, in silence. -/
structure Alongside (s u : ParserState) : Prop where
  quiet : Quiet [] s
  quiet' : Quiet [] u
  recovering : s.recovering = false
  twins : s.tokenizer.Twins u.tokenizer

/-- The run has come to the end of its text. -/
structure Spent (s : ParserState) : Prop where
  recovering : s.recovering = false
  isOver : s.tokenizer.Over

/-- Both runs have come to the end of their texts. -/
structure BothAtEnd (s u : ParserState) : Prop extends Alongside s u where
  ended : s.tokenizer.here.rest = []

theorem BothAtEnd.spent (h : BothAtEnd s u) : Spent s := ⟨h.recovering, (h.twins.isOver h.ended).1⟩

/-- From states in a relation, the second parser does what the first does, as long as that has
nothing to report: their values and states are in another relation. -/
structure Mirrors (A : ParserState → ParserState → Prop)
    (B : α → α' → ParserState → ParserState → Prop) (p : Parser α) (q : Parser α') : Prop where
  left : Moves Extends p
  right : Moves Extends q
  follows : ∀ s u, A s u → Yields p s fun a t => Yields q u fun b v => Smooth t v → B a b t v

section

variable {P : Prop} {A A' : ParserState → ParserState → Prop}
  {B B' : α → α' → ParserState → ParserState → Prop}
  {C : β → β' → ParserState → ParserState → Prop} {p : Parser α} {q : Parser α'}
  {f : α → Parser β} {g : α' → Parser β'}

theorem Mirrors.mono (h : Mirrors A B p q) (hA : ∀ s u, A' s u → A s u)
    (hB : ∀ a b t v, B a b t v → B' a b t v) : Mirrors A' B' p q :=
  ⟨h.left, h.right, fun s u hs => (h.follows s u (hA s u hs)).mono fun a t ht =>
    ht.mono fun b v hv hsm => hB a b t v (hv hsm)⟩

theorem Mirrors.weaken (h : Mirrors A B p q) (hA : ∀ s u, A' s u → A s u) : Mirrors A' B p q :=
  h.mono hA fun _ _ _ _ => id

theorem Mirrors.pure {a : α} {b : α'} (h : ∀ s u, A s u → B a b s u) :
    Mirrors A B (pure a) (pure b) :=
  ⟨Moves.pure a, Moves.pure b, fun s u hs => Yields.of_pure (Yields.of_pure fun _ => h s u hs)⟩

theorem Mirrors.bind (h : Mirrors A B p q) (hf : ∀ a b, Mirrors (B a b) C (f a) (g b)) :
    Mirrors A C (p >>= f) (q >>= g) := by
  refine ⟨fun s => Yields.bind (h.left s) fun a t ht => ?_,
    fun u => Yields.bind (h.right u) fun b v hv => ?_, fun s u hs => ?_⟩
  · exact ((hf a (q.run s).1).left t).mono fun _ _ hu => ht.trans hu
  · exact ((hf (p.run u).1 b).right v).mono fun _ _ hu => hv.trans hu
  refine Yields.bind ((h.left s).and (h.follows s u hs)) fun a t ht => ?_
  refine Yields.by_run fun c t' hc => Yields.bind ((h.right u).and ht.2) fun b v hv => ?_
  refine Yields.by_run fun d v' hd hsm => ?_
  have ht' : Extends t t' := ((hf a b).left t).of_run hc
  have hv' : Extends v v' := ((hf a b).right v).of_run hd
  have hfollow := (hf a b).follows t v (hv.2 (hsm.before ht' hv'))
  exact (hfollow.of_run hc).of_run hd hsm

theorem Mirrors.of_false (hp : Moves Extends p) (hq : Moves Extends q) (h : ∀ s u, ¬A s u) :
    Mirrors A B p q :=
  ⟨hp, hq, fun s u hs => absurd hs (h s u)⟩

theorem Mirrors.intro (hp : Moves Extends p) (hq : Moves Extends q) (h : P → Mirrors A B p q) :
    Mirrors (fun s u => P ∧ A s u) B p q :=
  ⟨hp, hq, fun s u hs => (h hs.1).follows s u hs.2⟩

theorem Mirrors.or (h : Mirrors A B p q) (h' : Mirrors A' B p q) :
    Mirrors (fun s u => A s u ∨ A' s u) B p q :=
  ⟨h.left, h.right, fun s u hs => hs.elim (h.follows s u) (h'.follows s u)⟩

theorem Fails.mirrors {D : ParserState → Prop} (h : Fails D p) (hq : Moves Extends q)
    (hA : ∀ s u, A s u → D s) : Mirrors A B p q := by
  refine ⟨h.moves, hq, fun s u hs => (h.loud s (hA s u hs)).mono fun a t ht => ?_⟩
  refine Yields.by_run fun b v _ hsm => ?_
  exact absurd (hsm.complete.symm.trans (ht hsm.reports)) Bool.false_ne_true

theorem Mirrors.step (hp : Moves Extends p) (hq : Moves Extends q)
    (h : ∀ s u, A s u → Yields p s fun a t => Yields q u fun b v => B a b t v) : Mirrors A B p q :=
  ⟨hp, hq, fun s u hs => (h s u hs).mono fun _ _ ht => ht.mono fun _ _ hv _ => hv⟩

end

/-! ## Going back and forth -/

theorem Alongside.setTokenizers (h : Alongside s u) {x y : Tokenizer} (ht : x.Twins y) :
    Alongside { s with tokenizer := x } { u with tokenizer := y } :=
  ⟨h.quiet.setTokenizer ht.silent.1, h.quiet'.setTokenizer ht.silent'.1, h.recovering, ht⟩

theorem Alongside.discard (h : Alongside s u) :
    Alongside { s with tokenizer := s.tokenizer.discard }
      { u with tokenizer := u.tokenizer.discard } :=
  h.setTokenizers h.twins.discard

theorem Spent.discard (h : Spent s) : Spent { s with tokenizer := s.tokenizer.discard } :=
  ⟨h.recovering, h.isOver.discard⟩

theorem discard_mirrors :
    Mirrors Alongside (fun _ _ t v => Alongside t v ∧ t.tokenizer.taken = []) discard discard :=
  ⟨discard_extends, discard_extends, fun _ _ h => Yields.of_modify (Yields.of_modify fun _ =>
    ⟨h.discard, rfl⟩)⟩

theorem rewind_mirrors (again : Bool) :
    Mirrors Alongside (fun _ _ => Alongside) (rewind again) (rewind again) := by
  refine ⟨rewind_extends _, rewind_extends _, fun s u h => ?_⟩
  refine Yields.of_modify (Yields.of_modify fun _ => h.setTokenizers ?_)
  cases again with
  | true => exact h.twins.reread
  | false => exact h.twins.replay

/-! ## Tokens -/

theorem next_spent (hs : Spent s) (skipBreaks : Bool) (mode : ReadMode) :
    Yields (next skipBreaks mode) s fun a t => a.kind = .endOfFile ∧ Spent t := by
  obtain ⟨hkind, hover, -⟩ := hs.isOver.next skipBreaks mode s.visible.operators
  have hread : Yields (next skipBreaks mode) s fun a t =>
      a.kind = .endOfFile ∧ t.tokenizer.Over := by
    refine Yields.get_bind (Yields.set_bind (Yields.bind (addReports_still _) fun _ t ht => ?_))
    refine Yields.of_pure ⟨hkind, ?_⟩
    rw [ht.tokenizer]
    exact ⟨hover.ahead, hover.rest⟩
  exact ((next_extends skipBreaks mode s).and hread).mono fun a t ht =>
    ⟨ht.2.1, ht.1.recovering.trans hs.recovering, ht.2.2⟩

theorem next_reported (hs : s.recovering = false) (skipBreaks : Bool) (mode : ReadMode) :
    Yields (next skipBreaks mode) s fun _ t => t.reports = [] →
      (s.tokenizer.next skipBreaks mode s.visible.operators).2.reports = [] := by
  refine Yields.get_bind (Yields.set_bind (Yields.bind (addReports_silent _ hs) fun _ t ht => ?_))
  exact Yields.of_pure ht

/-- Both runs take a token, or the first takes the last token of the object where a key is
expected. -/
theorem next_alongside (h : Alongside s u) (skipBreaks : Bool) (mode : ReadMode) :
    Yields (next skipBreaks mode) s fun a t => Yields (next skipBreaks mode) u fun b v =>
      t.reports = [] →
        (s.tokenizer.HandsTwins a b t.tokenizer v.tokenizer ∧ Alongside t v)
        ∨ mode = .key ∧ Tokenizer.ClosesObject a t.tokenizer ∧ t.recovering = false := by
  have hops : s.visible.operators = {} := by rw [h.quiet.visible]
  refine Yields.by_run fun a t ha => Yields.by_run fun b v hb hr => ?_
  have hsilent := (next_reported h.recovering skipBreaks mode).of_run ha hr
  rw [hops] at hsilent
  have hrec : t.recovering = false :=
    ((next_extends skipBreaks mode s).of_run ha).recovering.trans h.recovering
  obtain ⟨rfl, hqt, htt⟩ := (next_quiet h.quiet hsilent).of_run ha
  refine (h.twins.next skipBreaks mode hsilent).imp (fun hm => ?_) fun hk => ?_
  · obtain ⟨rfl, hqv, hvv⟩ := (next_quiet h.quiet' hm.twins.silent'.1).of_run hb
    rw [htt, hvv]
    exact ⟨hm, hqt, hqv, hrec, by rw [htt, hvv]; exact hm.twins⟩
  · rw [htt]
    exact ⟨hk.1, hk.2, hrec⟩

section

variable {A : ParserState → ParserState → Prop} {C : β → β' → ParserState → ParserState → Prop}
  {f : Token → Parser β} {g : Token → Parser β'} {skipBreaks : Bool} {mode : ReadMode}

/-- Both runs take a token: the same one, one that takes the last bracket, or, where a key is
expected, the first run takes the last token of the object. -/
theorem Mirrors.of_next {L : Token → Prop} (hA : ∀ s u, A s u → Alongside s u)
    (hL : ∀ s u, A s u → Yields (Parser.next skipBreaks mode) s fun a _ => L a)
    (alike : ∀ a b, b.kind = a.kind → b.literal = a.literal →
      Mirrors (fun s u => (a.kind ≠ .lineBreak ∧ L a) ∧ Alongside s u
        ∧ (s.tokenizer.here.rest = [] → a.kind = .endOfFile ∨ a.kind = .unexpected))
        C (f a) (g b))
    (spoilt : ∀ a b, b.kind = a.kind → a.isLiteral = true → b.isLiteral = true →
      a.kind.isSign = false → Mirrors BothAtEnd C (f a) (g b))
    (closers : ∀ a b, a.kind = .rightBrace → b.kind = .rightBracket → a.literal = none →
      b.literal = none → Mirrors (fun t v => BothAtEnd t v ∧ ∃ s u, A s u ∧ ∃ place,
        t.tokenizer.taken = s.tokenizer.taken ++ [(a, place)]
          ∧ (Scan.skipBlank place.pos place.rest).1.rest = ['}']) C (f a) (g b))
    (key : mode = .key → ∀ a b, Mirrors (fun t _ => Tokenizer.ClosesObject a t.tokenizer
      ∧ t.recovering = false) C (f a) (g b)) :
    Mirrors A C (Parser.next skipBreaks mode >>= f) (Parser.next skipBreaks mode >>= g) := by
  have hleft (a : Token) : Moves Extends (f a) := (alike a a rfl rfl).left
  have hright (b : Token) : Moves Extends (g b) := (alike b b rfl rfl).right
  refine ⟨(next_extends _ _).bind hleft, (next_extends _ _).bind hright, fun s u hs => ?_⟩
  refine Yields.bind ((hL s u hs).and (next_alongside (hA s u hs) skipBreaks mode)) fun a t ht => ?_
  refine Yields.by_run fun c t' hc => Yields.bind ht.2 fun b v hv => ?_
  refine Yields.by_run fun d v' hd hsm => ?_
  have hbefore : Smooth t v :=
    hsm.before ((hleft a t).of_run hc) ((hright b v).of_run hd)
  have hfinish {D : ParserState → ParserState → Prop} (h : Mirrors D C (f a) (g b)) (hD : D t v) :
      C c d t' v' := ((h.follows t v hD).of_run hc).of_run hd hsm
  rcases hv hbefore.reports with ⟨⟨-, ⟨place, htaken, htoken⟩, hline⟩, htv⟩ | hk
  · cases htoken with
    | alike kind literal ended =>
      exact hfinish (alike a b kind literal) ⟨⟨hline, ht.1⟩, htv, ended⟩
    | spoilt kind literal word ended =>
      exact hfinish (spoilt a b kind literal.1 literal.2 word) ⟨htv, ended⟩
    | closers kinds literals ended last =>
      exact hfinish (closers a b kinds.1 kinds.2 literals.1 literals.2)
        ⟨⟨htv, ended⟩, s, u, hs, place, htaken, last⟩
  · exact hfinish (key hk.1 a b) hk.2

theorem Mirrors.next_bind (hm : mode ≠ .key)
    (alike : ∀ a b, b.kind = a.kind → b.literal = a.literal →
      Mirrors (fun s u => a.kind ≠ .lineBreak ∧ Alongside s u
        ∧ (s.tokenizer.here.rest = [] → a.kind = .endOfFile ∨ a.kind = .unexpected))
        C (f a) (g b))
    (spoilt : ∀ a b, b.kind = a.kind → a.isLiteral = true → b.isLiteral = true →
      a.kind.isSign = false → Mirrors BothAtEnd C (f a) (g b))
    (closers : ∀ a b, a.kind = .rightBrace → b.kind = .rightBracket → a.literal = none →
      b.literal = none → Mirrors BothAtEnd C (f a) (g b)) :
    Mirrors Alongside C (Parser.next skipBreaks mode >>= f) (Parser.next skipBreaks mode >>= g) :=
  .of_next (L := fun _ => True) (fun _ _ h => h) (fun _ _ _ => trivial)
    (fun a b hk hl => (alike a b hk hl).weaken fun _ _ h => ⟨h.1.1, h.2⟩) spoilt
    (fun a b hk hk' hl hl' => (closers a b hk hk' hl hl').weaken fun _ _ h => h.1)
    fun h => absurd h hm

/-- The last bracket of the object is the only token taken. -/
def HoldsBracket (a : Token) (s : ParserState) : Prop :=
  ∃ place, s.tokenizer.taken = [(a, place)]
    ∧ (Scan.skipBlank place.pos place.rest).1.rest = ['}']

theorem Mirrors.discard_next (hm : mode ≠ .key)
    (alike : ∀ a b, b.kind = a.kind → b.literal = a.literal → Mirrors Alongside C (f a) (g b))
    (spoilt : ∀ a b, b.kind = a.kind → a.isLiteral = true → b.isLiteral = true →
      a.kind.isSign = false → Mirrors BothAtEnd C (f a) (g b))
    (closers : ∀ a b, a.kind = .rightBrace → b.kind = .rightBracket → a.literal = none →
      b.literal = none → Mirrors (fun s u => BothAtEnd s u ∧ HoldsBracket a s) C (f a) (g b)) :
    Mirrors Alongside C (discard >>= fun _ => Parser.next skipBreaks mode >>= f)
      (discard >>= fun _ => Parser.next skipBreaks mode >>= g) := by
  refine Mirrors.bind discard_mirrors fun _ _ => ?_
  refine .of_next (L := fun _ => True) (fun _ _ h => h.1) (fun _ _ _ => trivial)
    (fun a b hk hl => (alike a b hk hl).weaken fun _ _ h => h.2.1) spoilt
    (fun a b hk hk' hl hl' => (closers a b hk hk' hl hl').weaken fun t v h => ⟨h.1, ?_⟩)
    fun h => absurd h hm
  obtain ⟨s, u, hs, place, htaken, hlast⟩ := h.2
  exact ⟨place, by rw [htaken, hs.2, List.nil_append], hlast⟩

theorem Fails.next_spent (hf : ∀ a, Moves Extends (f a))
    (h : ∀ a, a.kind = .endOfFile → Fails Spent (f a)) :
    Fails Spent (Parser.next skipBreaks mode >>= f) :=
  .after (next_extends _ _) (fun _ hs => Parser.next_spent hs skipBreaks mode) fun a =>
    .intro (hf a) (h a)

end

/-! ## Outcomes -/

/-- Both runs come to values in a relation, or the first to the end of its text. -/
def ReadsTwins (R : α → α → Prop) (a b : α) (t v : ParserState) : Prop :=
  (R a b ∧ Alongside t v) ∨ Spent t

/-- Both runs take the same turn, or the first its last one at the end of its text. -/
def TurnsTwins (R : α → α → Prop) (r r' : Turn α) (t v : ParserState) : Prop :=
  (TurnsAlike R r r' ∧ Alongside t v) ∨ (∃ a, r = .done a) ∧ Spent t

/-- Both runs find a value, or the first finds one at the end of its text. -/
inductive ValueTwins : Option Node → Option Node → ParserState → ParserState → Prop
  | some {m n : Node} {t v : ParserState} (twins : m.Twins n) (h : Alongside t v) :
    ValueTwins (some m) (some n) t v
  | spent {m : Node} {found : Option Node} {t v : ParserState} (h : Spent t) :
    ValueTwins (some m) found t v

/-- Both runs find a value or none, or the first finds one at the end of its text. -/
inductive FindsTwins : Option Node → Option Node → ParserState → ParserState → Prop
  | none {t v : ParserState} (h : Alongside t v) : FindsTwins none none t v
  | value {found found' : Option Node} {t v : ParserState} (h : ValueTwins found found' t v) :
    FindsTwins found found' t v

section

variable {A : ParserState → ParserState → Prop} {C : β → β' → ParserState → ParserState → Prop}
  {R : α → α → Prop} {step step' : α → Parser (Turn α)}

theorem Mirrors.of_cut {p : Parser β} {q : Parser β'} (hp : Moves Extends p)
    (hq : Moves Extends q) (h : ∀ u, Yields q u fun _ v => v.exhausted = true) :
    Mirrors A C p q :=
  ⟨hp, hq, fun _ u _ => Yields.by_run fun _ _ _ => (h u).mono fun _ _ hv hsm =>
    absurd (hsm.complete'.symm.trans hv) Bool.false_ne_true⟩

theorem Mirrors.of_left {D : ParserState → Prop} {a : β} {q : Parser β'} (hq : Moves Extends q)
    (h : ∀ b t v, D t → C a b t v) : Mirrors (fun s _ => D s) C (Pure.pure a) q :=
  ⟨Moves.pure a, hq, fun _ _ hs => Yields.of_pure (Yields.by_run fun b v _ _ => h b _ v hs)⟩

theorem Mirrors.turns (h : ∀ a b, Mirrors (fun s u => R a b ∧ Alongside s u) (TurnsTwins R)
      (step a) (step' b)) (n n' : Nat) (a b : α) :
    Mirrors (fun s u => R a b ∧ Alongside s u) (ReadsTwins R) (turns step n a)
      (turns step' n' b) := by
  have hleft (n : Nat) (a : α) : Moves Extends (Parser.turns step n a) :=
    Moves.turns exhaust_extends (fun a => (h a a).left) n a
  have hright (n : Nat) (b : α) : Moves Extends (Parser.turns step' n b) :=
    Moves.turns exhaust_extends (fun b => (h b b).right) n b
  induction n generalizing n' a b with
  | zero =>
    have hcut : Fails (fun _ => True) (Parser.turns step 0 a) :=
      exhaust_fails.bind fun _ => Moves.pure a
    exact hcut.mirrors (hright n' b) fun _ _ _ => trivial
  | succ n ih =>
    cases n' with
    | zero => exact .of_cut (hleft _ a) (hright 0 b) fun _ => rfl
    | succ n' =>
      refine Mirrors.bind (h a b) fun r r' => ?_
      cases r with
      | again x =>
        cases r' with
        | again y =>
          refine (ih n' x y).weaken fun t v ht => ?_
          rcases ht with ht | ⟨⟨_, hd⟩, -⟩
          · exact ht
          · cases hd
        | done y =>
          refine .of_false (hleft n x) (Moves.pure y) fun t v ht => ?_
          rcases ht with ht | ⟨⟨_, hd⟩, -⟩
          · exact ht.1
          · cases hd
      | done x =>
        cases r' with
        | again y =>
          refine (Mirrors.of_left (hright n' y) fun _ _ _ ht => .inr ht).weaken fun t v ht => ?_
          rcases ht with ht | ht
          · exact ht.1.elim
          · exact ht.2
        | done y =>
          exact .pure fun t v ht => ht.imp id And.right

theorem Mirrors.loop (h : ∀ a b, Mirrors (fun s u => R a b ∧ Alongside s u) (TurnsTwins R)
      (step a) (step' b)) (a b : α) :
    Mirrors (fun s u => R a b ∧ Alongside s u) (ReadsTwins R) (loop step a) (loop step' b) :=
  ⟨Moves.loop exhaust_extends (fun a => (h a a).left) a,
    Moves.loop exhaust_extends (fun b => (h b b).right) b,
    fun s u hs => (Mirrors.turns h _ _ a b).follows s u hs⟩

theorem Mirrors.value_bind {p q : Parser α} {f : α → Parser β} {g : α → Parser β'}
    (h : Mirrors A (ReadsTwins R) p q)
    (hf : ∀ a b, Mirrors (fun s u => R a b ∧ Alongside s u) C (f a) (g b))
    (hspent : ∀ a b, Mirrors (fun s _ => Spent s) C (f a) (g b)) :
    Mirrors A C (p >>= f) (q >>= g) :=
  h.bind fun a b => (hf a b).or (hspent a b)

variable {p q : Parser (Option Node)} {f : Option Node → Parser β} {g : Option Node → Parser β'}

theorem Mirrors.of_value (hnone : Moves Extends (f none))
    (hsome : ∀ m n, Mirrors (fun s u => m.Twins n ∧ Alongside s u) C (f (some m)) (g (some n)))
    (hspent : ∀ m found, Mirrors (fun s _ => Spent s) C (f (some m)) (g found))
    (a b : Option Node) : Mirrors (ValueTwins a b) C (f a) (g b) := by
  cases a with
  | none => exact .of_false hnone (hspent Node.errorValue b).right fun _ _ hs => nomatch hs
  | some m =>
    cases b with
    | none =>
      refine (hspent m none).weaken fun s u hs => ?_
      cases hs with
      | spent h => exact h
    | some n =>
      refine ((hsome m n).or (hspent m (some n))).weaken fun s u hs => ?_
      cases hs with
      | some twins h => exact .inl ⟨twins, h⟩
      | spent h => exact .inr h

theorem Mirrors.some_bind (h : Mirrors A ValueTwins p q) (hnone : Moves Extends (f none))
    (hsome : ∀ m n, Mirrors (fun s u => m.Twins n ∧ Alongside s u) C (f (some m)) (g (some n)))
    (hspent : ∀ m found, Mirrors (fun s _ => Spent s) C (f (some m)) (g found)) :
    Mirrors A C (p >>= f) (q >>= g) :=
  h.bind (of_value hnone hsome hspent)

theorem Mirrors.option_bind (h : Mirrors A FindsTwins p q)
    (hnone : Mirrors Alongside C (f none) (g none))
    (hsome : ∀ m n, Mirrors (fun s u => m.Twins n ∧ Alongside s u) C (f (some m)) (g (some n)))
    (hspent : ∀ m found, Mirrors (fun s _ => Spent s) C (f (some m)) (g found)) :
    Mirrors A C (p >>= f) (q >>= g) := by
  refine h.bind fun a b => ?_
  have hvalue : Mirrors (ValueTwins a b) C (f a) (g b) := of_value hnone.left hsome hspent a b
  cases a with
  | none =>
    cases b with
    | none =>
      refine (hnone.or hvalue).weaken fun s u hs => ?_
      cases hs with
      | none h => exact .inl h
      | value h => exact .inr h
    | some n =>
      refine hvalue.weaken fun s u hs => ?_
      cases hs with
      | value h => exact h
  | some m =>
    refine hvalue.weaken fun s u hs => ?_
    cases hs with
    | value h => exact h

end

end ConfigScript.Parser
