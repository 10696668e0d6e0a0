import ConfigScript.Proofs.Parser.GrowthStatements
import ConfigScript.Proofs.Parser.Termination

/-! # The imports that a script asks for

Reading a script hands the state of the resolver from one import to the next and leaves it alone
in between. So what the answers preserve, the whole run preserves, and two resolvers that give the
same answers lead to the same run. -/

namespace ConfigScript.Parser

variable {σ α : Type} {resolve resolve' : Resolver σ} {checked : Prop}

/-- The path that the next statement imports, if it imports one. -/
def request? (s : ParserState) : Option String :=
  match (statement.run s).1 with
  | .importing path _ _ => some path
  | _ => none

/-- The paths that reading at most `n` statements asks for, in order, each with the state of the
resolver at that time. -/
def requests (resolve : Resolver σ) : Nat → ParserState → σ → List (String × σ)
  | 0, _, _ => []
  | n + 1, s, i =>
    ((request? s).map fun path => (path, i)).toList
      ++ match turn resolve s i with
        | (.goesOn, s, i) => requests resolve n s i
        | _ => []

theorem mem_requests_first {s : ParserState} {path : String} (h : request? s = some path) (n : Nat)
    (i : σ) : (path, i) ∈ requests resolve (n + 1) s i := by
  simp [requests, h]

/-- What a turn comes to: it asks for nothing, or takes an answer, or is left without one. -/
inductive Turned (resolve : Resolver σ) (s : ParserState) (i : σ) :
    Progress × ParserState × σ → Prop
  | ended {t : ParserState} (hr : request? s = none) (hs : statement.run s = (.endOfFile, t)) :
    Turned resolve s i (.ended, t, i)
  | complete {t : ParserState} (hr : request? s = none) (hs : statement.run s = (.complete, t)) :
    Turned resolve s i (.goesOn, t, i)
  | answered {t : ParserState} {path : String} {start : Nat} {purpose : Purpose}
    {found : Option Definition} {rs : List Report} {j : σ} (hr : request? s = some path)
    (hs : statement.run s = (.importing path start purpose, t))
    (ha : resolve path i = (.answered found rs, j)) :
    Turned resolve s i (.goesOn, ((takeAnswer start purpose found rs).run t).2, j)
  | brokenDown {t : ParserState} {path : String} {start : Nat} {purpose : Purpose} {j : σ}
    (hr : request? s = some path) (hs : statement.run s = (.importing path start purpose, t))
    (ha : resolve path i = (.crashed, j)) : Turned resolve s i (.brokenDown, t, j)

theorem turn_turned (resolve : Resolver σ) (s : ParserState) (i : σ) :
    Turned resolve s i (turn resolve s i) := by
  unfold turn
  cases hs : statement.run s with
  | mk r t =>
    cases r with
    | endOfFile => exact .ended (by simp [request?, hs]) hs
    | complete => exact .complete (by simp [request?, hs]) hs
    | importing path start purpose =>
      have hr : request? s = some path := by simp [request?, hs]
      cases ha : resolve path i with
      | mk answer j =>
        cases answer with
        | answered found rs =>
          simp only [ha]
          exact .answered hr hs ha
        | crashed =>
          simp only [ha]
          exact .brokenDown hr hs ha

/-! ## What is added -/

theorem turn_grows (hr : checked → resolve.Answers) (s : ParserState) (i : σ) :
    Grows checked s (turn resolve s i).2.1 := by
  have hst : Grows checked s (statement.run s).2 := statement_grows s
  have ht := turn_turned resolve s i
  generalize turn resolve s i = r at ht
  cases ht with
  | ended _ hs =>
    rw [hs] at hst
    exact hst
  | complete _ hs =>
    rw [hs] at hst
    exact hst
  | brokenDown _ hs _ =>
    rw [hs] at hst
    exact hst
  | @answered t path start purpose found rs j _ hs ha =>
    have hfound : checked → OperatorsChecked found := by
      intro hc
      obtain ⟨found', rs', ha', hf⟩ := hr hc path i
      rw [ha] at ha'
      simp only [ImportAnswer.answered.injEq] at ha'
      exact ha'.1 ▸ hf
    rw [hs] at hst
    exact hst.trans (takeAnswer_grows start purpose hfound rs t)

theorem statements_grows (hr : checked → resolve.Answers) (n : Nat) (s : ParserState) (i : σ) :
    Grows checked s (statements resolve n s i).2.1 := by
  induction n generalizing s i with
  | zero => exact .refl s
  | succ n ih =>
    have ht := turn_grows hr s i
    unfold statements
    generalize turn resolve s i = r at ht ⊢
    obtain ⟨p, t, j⟩ := r
    cases p with
    | ended => exact ht
    | goesOn => exact ht.trans (ih t j)
    | brokenDown => exact ht

theorem Reached.grows {s t : ParserState} {i j : σ} (h : Reached resolve s i t j) :
    Grows False s t := by
  induction h with
  | start => exact .refl s
  | @turn t u j k _ ht ih =>
    have hg : Grows False t (Parser.turn resolve t j).2.1 := turn_grows False.elim t j
    rw [ht] at hg
    exact ih.trans hg

/-! ## Definitions -/

/-- Reads the word that a statement starts with. -/
def firstWord : Parser Token := do
  discard
  next true .plainWord

/-- What is read after the first word of a statement that defines something. -/
def definers (start : Nat) : List (String × Parser Unit) :=
  [("macro", macroStatement false start), ("fn", macroStatement true start),
    ("operator", operatorStatement false start), ("keyword", operatorStatement true start)]

theorem firstWord_extends : Moves Extends firstWord :=
  Moves.bind discard_extends fun _ => next_extends _ _

theorem turn_defines (resolve : Resolver σ) {s t : ParserState} {token : Token} {p : Parser Unit}
    (hfirst : firstWord.run s = (token, t)) (hp : (token.statementWord, p) ∈ definers token.start)
    (i : σ) : turn resolve s i = (.goesOn, (p.run t).2, i) := by
  have hkind : token.kind ≠ .endOfFile := by
    intro hend
    simp [definers, Token.statementWord, hend] at hp
  have hnext : Yields firstWord s fun a u => a = token ∧ u = t := by
    rw [Yields, hfirst]
    exact ⟨rfl, rfl⟩
  have hstatement : Yields statement s fun r u => r = .complete ∧ u = (p.run t).2 := by
    unfold statement
    rw [← bind_assoc]
    refine Yields.bind hnext fun a u h => ?_
    obtain ⟨rfl, rfl⟩ := h
    rw [if_neg hkind]
    simp only [definers, List.mem_cons, Prod.mk.injEq, List.not_mem_nil, or_false] at hp
    rcases hp with ⟨hword, rfl⟩ | ⟨hword, rfl⟩ | ⟨hword, rfl⟩ | ⟨hword, rfl⟩
    all_goals
      simp only [hword]
      exact ⟨rfl, rfl⟩
  unfold turn
  rw [show statement.run s = (.complete, (p.run t).2) from Prod.ext hstatement.1 hstatement.2]

/-! ## What the answers preserve -/

theorem statements_keep {I : σ → Prop} (h : ∀ path i, I i → I (resolve path i).2) (n : Nat)
    (s : ParserState) {i : σ} (hi : I i) : I (statements resolve n s i).2.2 := by
  induction n generalizing s i with
  | zero => exact hi
  | succ n ih =>
    have ht := turn_turned resolve s i
    unfold statements
    generalize turn resolve s i = r at ht
    cases ht with
    | ended _ _ => exact hi
    | complete _ _ => exact ih _ hi
    | @answered t path start purpose found rs j _ _ ha =>
      have hj := h path i hi
      rw [ha] at hj
      exact ih _ hj
    | @brokenDown t path start purpose j _ _ ha =>
      have hj := h path i hi
      rw [ha] at hj
      exact hj

theorem requests_keep {I : σ → Prop} (h : ∀ path i, I i → I (resolve path i).2) (n : Nat)
    (s : ParserState) {i : σ} (hi : I i) : ∀ q ∈ requests resolve n s i, I q.2 := by
  induction n generalizing s i with
  | zero => simp [requests]
  | succ n ih =>
    have ht := turn_turned resolve s i
    intro q hq
    unfold requests at hq
    generalize turn resolve s i = r at ht hq
    cases ht with
    | ended hr _ => simp [hr] at hq
    | complete hr _ =>
      simp only [hr, Option.map_none, Option.toList_none, List.nil_append] at hq
      exact ih _ hi q hq
    | @answered t path start purpose found rs j hr _ ha =>
      have hj := h path i hi
      rw [ha] at hj
      simp only [hr, Option.map_some, Option.toList_some, List.singleton_append,
        List.mem_cons] at hq
      rcases hq with rfl | hq
      · exact hi
      · exact ih _ hj q hq
    | @brokenDown t path start purpose j hr _ _ =>
      simp only [hr, Option.map_some, Option.toList_some, List.append_nil,
        List.mem_singleton] at hq
      exact hq ▸ hi

theorem compile_keep {I : σ → Prop} (h : ∀ path i, I i → I (resolve path i).2) (config : Config)
    (visible : Definition) (source : Source) {i : σ} (hi : I i) :
    I (compile config resolve visible source i).2 :=
  statements_keep h (source.length + 2) (start config visible source) hi

/-- If every answer leads from a state of the resolver to one that stands in a relation to it, by
way of some items, then so does a run, by way of the items of its requests. The answers may rely
on an invariant that they keep. -/
theorem statements_along {I : σ → Prop} {items : String × σ → List α}
    {R : σ → List α → σ → Prop} (hrefl : ∀ i, R i [] i)
    (htrans : ∀ i xs j ys k, R i xs j → R j ys k → R i (xs ++ ys) k)
    (hanswer : ∀ path i, I i → I (resolve path i).2 ∧ R i (items (path, i)) (resolve path i).2)
    (n : Nat) (s : ParserState) {i : σ} (hi : I i) :
    R i ((requests resolve n s i).flatMap items) (statements resolve n s i).2.2 := by
  induction n generalizing s i with
  | zero => exact hrefl i
  | succ n ih =>
    have ht := turn_turned resolve s i
    unfold statements requests
    generalize turn resolve s i = r at ht
    cases ht with
    | ended hr _ => simpa [hr] using hrefl i
    | complete hr _ => simpa [hr] using ih _ hi
    | @answered t path start purpose found rs j hr _ ha =>
      obtain ⟨hj, hij⟩ := hanswer path i hi
      rw [ha] at hj hij
      have hjk := ih ((takeAnswer start purpose found rs).run t).2 hj
      simpa [hr] using htrans _ _ _ _ _ hij hjk
    | @brokenDown t path start purpose j hr _ ha =>
      obtain ⟨-, hij⟩ := hanswer path i hi
      rw [ha] at hij
      simpa [hr] using hij

theorem turn_congr {s : ParserState} {i : σ} (h : ∀ path, resolve path i = resolve' path i) :
    turn resolve s i = turn resolve' s i := by
  unfold turn
  split
  · rfl
  · rfl
  · rw [h]

/-- Two resolvers that agree on the states of an invariant that they keep lead to the same run. -/
theorem statements_congr {I : σ → Prop}
    (h : ∀ path i, I i → resolve path i = resolve' path i ∧ I (resolve path i).2)
    (n : Nat) (s : ParserState) {i : σ} (hi : I i) :
    statements resolve n s i = statements resolve' n s i
      ∧ requests resolve n s i = requests resolve' n s i := by
  induction n generalizing s i with
  | zero => exact ⟨rfl, rfl⟩
  | succ n ih =>
    have hturn : turn resolve s i = turn resolve' s i := turn_congr fun path => (h path i hi).1
    have ht := turn_turned resolve s i
    unfold statements requests
    rw [← hturn]
    generalize turn resolve s i = r at ht
    cases ht with
    | ended _ _ => exact ⟨rfl, rfl⟩
    | brokenDown _ _ _ => exact ⟨rfl, rfl⟩
    | complete _ _ =>
      obtain ⟨hrun, hreq⟩ := ih _ hi
      exact ⟨hrun, by simp only [hreq]⟩
    | @answered t path start purpose found rs j _ _ ha =>
      have hj := (h path i hi).2
      rw [ha] at hj
      obtain ⟨hrun, hreq⟩ := ih ((takeAnswer start purpose found rs).run t).2 hj
      exact ⟨hrun, by simp only [hreq]⟩

theorem compile_congr {config : Config} {visible : Definition} {source : Source} {i : σ}
    (h : statements resolve (source.length + 2) (start config visible source) i
      = statements resolve' (source.length + 2) (start config visible source) i) :
    compile config resolve visible source i = compile config resolve' visible source i := by
  unfold compile
  simp only [h]

theorem compile_of_ended {config : Config} {visible : Definition} {source : Source} {i j : σ}
    {s : ParserState}
    (h : statements resolve (source.length + 2) (start config visible source) i = (true, s, j))
    (hs : s.exhausted = false) :
    compile config resolve visible source i = (⟨source, s.root, s.exported, s.reports⟩, j) := by
  simp [compile, h, hs]

/-- Answers as the given resolver does in the states of an invariant, and finds nothing in the
others. -/
noncomputable def answeringIn (I : σ → Prop) (resolve : Resolver σ) : Resolver σ :=
  open Classical in fun path i => if I i then resolve path i else (.answered none [], i)

section

variable {I : σ → Prop} {cs : List Char}

/-- Every request is answered in the states of an invariant that the answers keep. -/
def AnswersIn (I : σ → Prop) (resolve : Resolver σ) : Prop :=
  ∀ path i, I i → ∃ found rs j, resolve path i = (.answered found rs, j)
    ∧ OperatorsChecked found ∧ I j

theorem AnswersIn.keep (h : AnswersIn I resolve) (path : String) (i : σ) (hi : I i) :
    I (resolve path i).2 := by
  obtain ⟨found, rs, j, ha, -, hj⟩ := h path i hi
  rw [ha]
  exact hj

theorem answeringIn_eq {i : σ} (hi : I i) (path : String) :
    resolve path i = answeringIn I resolve path i := by
  simp only [answeringIn, hi, if_true]

theorem AnswersIn.answers (h : AnswersIn I resolve) : (answeringIn I resolve).Answers := by
  intro path i
  by_cases hi : I i
  · obtain ⟨found, rs, j, ha, hf, -⟩ := h path i hi
    exact ⟨found, rs, by rw [← answeringIn_eq hi, ha], hf⟩
  · exact ⟨none, [], by simp only [answeringIn, hi, if_false], by simp [OperatorsChecked]⟩

theorem turn_goesOn (h : AnswersIn I resolve) {s t : ParserState} {i j : σ} (hs : Ready cs s)
    (hi : I i) (ht : turn resolve s i = (.goesOn, t, j)) : Ready cs t ∧ I j := by
  constructor
  · rw [turn_congr (answeringIn_eq hi)] at ht
    obtain ⟨u, k, ⟨he, -⟩ | ⟨hg, hu⟩⟩ := turn_spec h.answers hs i
    · simp [he] at ht
    · rw [hg] at ht
      simp only [Prod.mk.injEq, true_and] at ht
      exact ht.1 ▸ hu.1.ready
  · have hturned := turn_turned resolve s i
    rw [ht] at hturned
    cases hturned with
    | complete _ _ => exact hi
    | @answered t path start purpose found rs j _ _ ha =>
      have hj := h.keep path i hi
      rw [ha] at hj
      exact hj

theorem statements_ends (h : AnswersIn I resolve) {n : Nat} {s : ParserState} {i : σ}
    (hs : Ready cs s) (hn : left s < n) (hi : I i) :
    ∃ t j, statements resolve n s i = (true, t, j) ∧ Ready cs t ∧ Grows True s t ∧ I j := by
  have hsame : statements resolve n s i = statements (answeringIn I resolve) n s i :=
    (statements_congr (fun path i hi => ⟨answeringIn_eq hi path, h.keep path i hi⟩) n s hi).1
  have hinv : I (statements resolve n s i).2.2 := statements_keep h.keep n s hi
  have hgrows : Grows True s (statements (answeringIn I resolve) n s i).2.1 :=
    statements_grows (fun _ => h.answers) n s i
  obtain ⟨t, j, hrun, ht⟩ := statements_spec h.answers hs hn i
  rw [hrun] at hgrows
  rw [hsame, hrun] at hinv
  exact ⟨t, j, hsame.trans hrun, ht, hgrows, hinv⟩

end

end ConfigScript.Parser
