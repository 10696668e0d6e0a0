import ConfigScript.Proofs.Macro.Replay
import ConfigScript.Proofs.Node.Keyed

/-! # Templates as trees to evaluate

The edits of a finished template come to the same as evaluating its marked body from the leaves to
the root: the children of a node first, in order, then what its own mark asks for. -/

namespace ConfigScript

open Expansion

/-! ## Evaluation -/

/-- What is pending for a mark. -/
def pendingFor? (pending : List (Nat × Edit)) (mark : Option Nat) : Option Edit :=
  (mark.bind fun m => pending.find? (·.1 == m)).map Prod.snd

/-- Does what is pending for a mark to a node whose children have been evaluated. -/
def actOnMark (pending : List (Nat × Edit)) (args : List Node) (copy : Bool) (mark : Option Nat)
    (n : Node) : Expansion :=
  match pendingFor? pending mark with
  | none => produced n
  | some e => e.actOn args n copy

mutual

/-- Evaluates a marked tree. What is put in place of a node is not looked into again. -/
def evaluate (pending : List (Nat × Edit)) (args : List Node) (copy : Bool) : Node → Expansion
  | .primitive text i =>
    actOnMark pending args copy i.mark (.primitive text { i with mark := none })
  | .object name props i =>
    evaluateProperties pending args copy props fun ps =>
      actOnMark pending args copy i.mark (.object name ps { i with mark := none })
  | .list name op items i =>
    evaluateItems pending args copy items fun ns =>
      actOnMark pending args copy i.mark (.list name op ns { i with mark := none })

/-- Evaluates the values of properties in order, and hands them all to what follows. -/
def evaluateProperties (pending : List (Nat × Edit)) (args : List Node) (copy : Bool) :
    List (String × Node) → (List (String × Node) → Expansion) → Expansion
  | [], next => next []
  | (key, v) :: ps, next =>
    (evaluate pending args copy v).andThen fun w =>
      evaluateProperties pending args copy ps fun qs => next ((key, w) :: qs)

/-- Evaluates elements in order, and hands them all to what follows. -/
def evaluateItems (pending : List (Nat × Edit)) (args : List Node) (copy : Bool) :
    List Node → (List Node → Expansion) → Expansion
  | [], next => next []
  | x :: xs, next =>
    (evaluate pending args copy x).andThen fun y =>
      evaluateItems pending args copy xs fun ys => next (y :: ys)

end

variable {pending : List (Nat × Edit)} {args : List Node} {copy : Bool}

theorem evaluateProperties_andThen (ps : List (String × Node))
    (next : List (String × Node) → Expansion) (f : Node → Expansion) :
    (evaluateProperties pending args copy ps next).andThen f
      = evaluateProperties pending args copy ps fun qs => (next qs).andThen f := by
  induction ps generalizing next with
  | nil => rfl
  | cons p ps ih =>
    rw [evaluateProperties, evaluateProperties, andThen_assoc]
    exact congrArg (evaluate pending args copy p.2).andThen (funext fun w => ih _)

theorem evaluateItems_andThen (xs : List Node) (next : List Node → Expansion)
    (f : Node → Expansion) :
    (evaluateItems pending args copy xs next).andThen f
      = evaluateItems pending args copy xs fun ys => (next ys).andThen f := by
  induction xs generalizing next with
  | nil => rfl
  | cons x xs ih =>
    rw [evaluateItems, evaluateItems, andThen_assoc]
    exact congrArg (evaluate pending args copy x).andThen (funext fun y => ih _)

/-! ## The edits of a tree -/

/-- What is pending for the marks of nodes, at the paths of the nodes. -/
def editsOf (pending : List (Nat × Edit)) (nodes : List (Path × Node)) : List Edit :=
  nodes.filterMap fun p => (pendingFor? pending p.2.mark).map (Edit.moveTo p.1)

theorem editsOf_append (xs ys : List (Path × Node)) :
    editsOf pending (xs ++ ys) = editsOf pending xs ++ editsOf pending ys :=
  List.filterMap_append

theorem under_moveTo (step : Step) (path : Path) (e : Edit) :
    (e.moveTo path).under step = e.moveTo (step :: path) := by
  cases e <;> rfl

theorem editsOf_seenFrom (step : Step) (nodes : List (Path × Node)) :
    editsOf pending (Node.seenFrom [step] nodes)
      = (editsOf pending nodes).map (Edit.under step) := by
  rw [editsOf, editsOf, Node.seenFrom, List.filterMap_map, List.map_filterMap]
  refine congrArg (List.filterMap · nodes) (funext fun p => ?_)
  simp only [Function.comp_apply, Option.map_map, List.singleton_append]
  exact congrArg (Option.map · _) (funext fun e => (under_moveTo step p.1 e).symm)

theorem editsOf_child (step : Step) (n : Node) :
    editsOf pending (Node.postOrderFrom [step] n)
      = (editsOf pending n.postOrder).map (Edit.under step) := by
  rw [Node.postOrderFrom_eq, ← editsOf_seenFrom]
  rfl

theorem replays_own (pending : List (Nat × Edit)) (m n : Node) :
    Replays (editsOf pending [([], m)]) args n copy (actOnMark pending args copy m.mark n) := by
  unfold editsOf actOnMark
  cases h : pendingFor? pending m.mark with
  | none =>
    simp only [List.filterMap_cons, h, Option.map_none, List.filterMap_nil]
    exact .nil
  | some e =>
    simp only [List.filterMap_cons, h, Option.map_some, List.filterMap_nil]
    exact .own e

mutual

/-- The edits of a tree come to its evaluation. -/
theorem replays_node (n : Node) (hk : n.Keyed) :
    Replays (editsOf pending n.postOrder) args n.clearMarks copy
      (evaluate pending args copy n) := by
  cases n with
  | primitive text i => exact replays_own _ _ _
  | object name props i =>
    rw [Node.Keyed] at hk
    have h := replays_properties name { i with mark := none } [] props hk.1 hk.2
    have hown := h.append fun n => replays_own pending (.object name props i) n
    rw [evaluateProperties_andThen] at hown
    rw [Node.postOrder, Node.postOrderFrom, editsOf_append, Node.clearMarks, evaluate]
    exact hown
  | list name op items i =>
    rw [Node.Keyed] at hk
    have h := replays_items name op { i with mark := none } [] items hk
    have hown := h.append fun n => replays_own pending (.list name op items i) n
    rw [evaluateItems_andThen] at hown
    rw [Node.postOrder, Node.postOrderFrom, editsOf_append, Node.clearMarks, evaluate]
    exact hown

theorem replays_properties (name : String) (i : NodeInfo) (done ps : List (String × Node))
    (hd : (done.map Prod.fst ++ ps.map Prod.fst).Nodup) (hk : Node.KeyedProperties ps) :
    Replays (editsOf pending (Node.postOrderProperties [] ps)) args
      (.object name (done ++ Node.clearMarksProperties ps) i) copy
      (evaluateProperties pending args copy ps fun qs =>
        produced (.object name (done ++ qs) i)) := by
  cases ps with
  | nil => exact .nil
  | cons p ps =>
    obtain ⟨key, v⟩ := p
    rw [Node.KeyedProperties] at hk
    have hnot : key ∉ done.map Prod.fst := by
      intro hmem
      exact (List.nodup_append.mp hd).2.2 key hmem key List.mem_cons_self rfl
    have hhole := Node.hole_property name hnot (Node.clearMarksProperties ps) i
    have hchild := (replays_node v hk.1).under hhole
    have hrest (w : Node) := replays_properties name i (done ++ [(key, w)]) ps
      (by simpa using hd) hk.2
    simp only [List.append_assoc, List.singleton_append] at hrest
    rw [Node.postOrderProperties, editsOf_append, editsOf_child, Node.clearMarksProperties,
      evaluateProperties]
    exact hchild.append_plugged hrest

theorem replays_items (name : String) (op : Bool) (i : NodeInfo) (done xs : List Node)
    (hk : Node.KeyedItems xs) :
    Replays (editsOf pending (Node.postOrderItems [] done.length xs)) args
      (.list name op (done ++ Node.clearMarksItems xs) i) copy
      (evaluateItems pending args copy xs fun ys => produced (.list name op (done ++ ys) i)) := by
  cases xs with
  | nil => exact .nil
  | cons x xs =>
    rw [Node.KeyedItems] at hk
    have hhole := Node.hole_index name op done (Node.clearMarksItems xs) i
    have hchild := (replays_node x hk.1).under hhole
    have hrest (y : Node) := replays_items name op i (done ++ [y]) xs hk.2
    simp only [List.append_assoc, List.singleton_append, List.length_append,
      List.length_singleton] at hrest
    rw [Node.postOrderItems, editsOf_append, editsOf_child, Node.clearMarksItems, evaluateItems]
    exact hchild.append_plugged hrest

end

/-! ## Finished templates -/

theorem find?_eraseP {m k : Nat} (h : k ≠ m) :
    (pending.eraseP (·.1 == m)).find? (·.1 == k) = pending.find? (·.1 == k) := by
  induction pending with
  | nil => rfl
  | cons p ps ih =>
    rw [List.eraseP_cons, List.find?_cons]
    cases hp : p.1 == m with
    | true =>
      have hk : (p.1 == k) = false := by
        rw [beq_iff_eq] at hp
        simpa [hp] using Ne.symm h
      rw [hk]
      rfl
    | false =>
      rw [cond_false, List.find?_cons, ih]

theorem editsOf_eraseP {m : Nat} {nodes : List (Path × Node)}
    (h : ∀ p ∈ nodes, p.2.mark ≠ some m) :
    editsOf (pending.eraseP (·.1 == m)) nodes = editsOf pending nodes := by
  induction nodes with
  | nil => rfl
  | cons p ps ih =>
    have hp : pendingFor? (pending.eraseP (·.1 == m)) p.2.mark = pendingFor? pending p.2.mark := by
      have hne := h p List.mem_cons_self
      cases hm : p.2.mark with
      | none => rfl
      | some k =>
        rw [hm] at hne
        simp only [pendingFor?, Option.bind_some, find?_eraseP fun hk : k = m => hne (hk ▸ rfl)]
    have hps := ih fun q hq => h q (List.mem_cons_of_mem p hq)
    unfold editsOf at hps ⊢
    rw [List.filterMap_cons, List.filterMap_cons, hp, hps]

theorem locate_eq_editsOf {nodes : List (Path × Node)}
    (h : (nodes.filterMap fun p => p.2.mark).Nodup) :
    (Template.locate pending nodes).1 = editsOf pending nodes := by
  induction nodes generalizing pending with
  | nil => rfl
  | cons p ps ih =>
    obtain ⟨path, n⟩ := p
    have hps : (ps.filterMap fun p => p.2.mark).Nodup :=
      h.sublist ((List.sublist_cons_self (path, n) ps).filterMap _)
    rw [Template.locate, editsOf, List.filterMap_cons]
    cases hf : n.mark.bind fun m => pending.find? (·.1 == m) with
    | none =>
      simp only [pendingFor?, hf, Option.map_none]
      exact ih hps
    | some q =>
      obtain ⟨m, e⟩ := q
      obtain ⟨k, hk, hfind⟩ := Option.bind_eq_some_iff.mp hf
      have hkm : m = k := by simpa using List.find?_some hfind
      subst hkm
      simp only [pendingFor?, hf, Option.map_some]
      rw [ih hps]
      refine congrArg (e.moveTo path :: ·) (editsOf_eraseP fun p hp hm => ?_)
      rw [List.filterMap_cons, hk] at h
      exact (List.nodup_cons.mp h).1 (List.mem_filterMap.mpr ⟨p, hp, hm⟩)

/-- Every edit of a list finds its path when the edits before it have run. -/
theorem Resolves.at_turn {es fs : List Edit} {e : Edit} {target : Node}
    (h : Resolves (es ++ e :: fs) args target copy) {n : Node}
    (hn : (applyEdits es args target copy).result = .produced n) :
    ∃ slot, n.get? e.path = some slot := by
  induction es generalizing target with
  | nil =>
    rw [applyEdits] at hn
    simp only [produced, MacroResult.produced.injEq] at hn
    exact hn ▸ h.1
  | cons f es ih =>
    rw [applyEdits] at hn
    obtain ⟨m, hm, hn⟩ := andThen_result hn
    exact ih (h.2 m hm) hn

/-- Running the edits of a finished template, in order, on its body is evaluating the marked body
from the leaves to the root, with the same result and the same reports; so it is for applying the
macro. No edit misses its path. -/
theorem finish_replays {t : Template} {body b : Node} {h : MacroHead} {edits : List Edit}
    {rs : List Report} (hk : body.Keyed) (hm : body.marks.Nodup)
    (hf : t.finish body = (some (.template h b edits), rs)) :
    (∀ args copy, applyEdits edits args b copy = evaluate t.pending args copy body)
      ∧ (∀ arg copy, (Macro.template h b edits).apply arg copy =
        match h.arguments arg with
        | (some args, ss) => (evaluate t.pending args copy body).after ss
        | (none, ss) => ⟨.refused, ss⟩)
      ∧ ∀ es e fs, edits = es ++ e :: fs → ∀ args copy n,
        (applyEdits es args b copy).result = .produced n →
          (∃ slot, n.get? e.path = some slot) ∧ ∀ new, ∃ m, n.replace e.path new = .ok m := by
  have hparts : b = body.clearMarks ∧ edits = editsOf t.pending body.postOrder := by
    unfold Template.finish at hf
    split at hf
    · simp at hf
    · simp only at hf
      split at hf
      · simp at hf
      · split at hf
        · simp only [Prod.mk.injEq, Option.some.injEq, Macro.template.injEq] at hf
          exact ⟨hf.1.2.1.symm, hf.1.2.2.symm.trans (locate_eq_editsOf hm)⟩
        · simp at hf
  obtain ⟨rfl, rfl⟩ := hparts
  have hreplays (args : List Node) (copy : Bool) :
      Replays (editsOf t.pending body.postOrder) args body.clearMarks copy
        (evaluate t.pending args copy body) := replays_node body hk
  refine ⟨fun args copy => (hreplays args copy).result_eq, fun arg copy => ?_,
    fun es e fs hsplit args copy n hn => ?_⟩
  · rw [Macro.apply]
    obtain ⟨found, ss⟩ := h.arguments arg
    cases found with
    | none => rfl
    | some args => exact congrArg (after ss) (hreplays args copy).result_eq
  · have hres := (hreplays args copy).resolves
    rw [hsplit] at hres
    obtain ⟨slot, hslot⟩ := hres.at_turn hn
    refine ⟨⟨slot, hslot⟩, fun new => ?_⟩
    obtain ⟨m, hm⟩ := Node.replace?_of_get? hslot new
    exact ⟨m, by rw [Node.replace, hm]⟩

/-- A template that swaps its arguments does not look into them: the text of the one is not taken
for a reference to the other. -/
theorem finish_replays_swap :
    let t : Template :=
      { start := 0, signature := ⟨"swap", .list⟩, params := [⟨"a", none⟩, ⟨"b", none⟩],
        pending := [(0, .value [] 1), (1, .value [] 0)], nextMark := 2 }
    let body : Node :=
      .list "" false [.primitive "b" { mark := some 0 }, .primitive "a" { mark := some 1 }] {}
    let edits : List Edit := [.value [.index 0] 1, .value [.index 1] 0]
    t.finish body = (some (.template ⟨t.signature, t.params, none⟩ body.clearMarks edits), [])
      ∧ applyEdits edits [.value "b", .value "x"] body.clearMarks false
        = produced (.list "" false [.value "x", .value "b"] {}) := by
  intro t body edits
  have hf : t.finish body
      = (some (.template ⟨t.signature, t.params, none⟩ body.clearMarks edits), []) := rfl
  have hk : body.Keyed := ⟨trivial, trivial, trivial⟩
  have hm : body.marks.Nodup := by decide
  obtain ⟨hrun, -, -⟩ := finish_replays hk hm hf
  exact ⟨hf, (hrun _ false).trans rfl⟩

end ConfigScript
