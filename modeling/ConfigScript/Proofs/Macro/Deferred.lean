import ConfigScript.Proofs.Macro.Evaluation
import ConfigScript.Proofs.Macro.Steady
import ConfigScript.Proofs.Node.Marked

/-! # Deferred calls

While the body of a macro is read, each call is recorded under a new mark instead of made. The
relation below ties a node with such marks to the node that results if the calls are made at once:
the marked node evaluates to it, once all calls are recorded. -/

namespace ConfigScript

open Expansion
open Node (withoutInfo)

/-- Recorded calls, each under its mark. -/
abbrev Calls := List (Nat × Edit)

/-- Neither marked nor what a macro came to. -/
def NodeInfo.Plain (i : NodeInfo) : Prop := i.mark = none ∧ i.made = false

mutual

/-- The first node holds marks under which the given calls are recorded; the second is what it
stands for. -/
inductive Deferred : Calls → Node → Node → Prop
  | primitive {text : String} {i j : NodeInfo} (hi : i.Plain) :
    Deferred [] (.primitive text i) (.primitive text j)
  | object {calls : Calls} {name : String} {ps qs : List (String × Node)}
    {i j : NodeInfo} (hi : i.Plain) (hk : (Properties.keys ps).Nodup)
    (h : DeferredProperties calls ps qs) : Deferred calls (.object name ps i) (.object name qs j)
  | list {calls : Calls} {name : String} {op : Bool} {xs ys : List Node}
    {i j : NodeInfo} (hi : i.Plain) (h : DeferredItems calls xs ys) :
    Deferred calls (.list name op xs i) (.list name op ys j)
  | call {calls : Calls} {n m v w : Node} {callee : Macro} {copy : Bool} {k : Nat}
    (h : Deferred calls n m) (hn : n.info.Plain) (hc : callee.Steady)
    (hv : callee.apply m copy = produced v) (hw : w.withoutInfo = v.withoutInfo)
    (hmade : w.info.made = true) :
    Deferred (calls ++ [(k, .call [] callee)]) (n.setMark (some k)) w

inductive DeferredProperties : Calls → List (String × Node) → List (String × Node) → Prop
  | nil : DeferredProperties [] [] []
  | cons {calls more : Calls} {key : String} {v w : Node}
    {ps qs : List (String × Node)} (h : Deferred calls v w) (hs : DeferredProperties more ps qs) :
    DeferredProperties (calls ++ more) ((key, v) :: ps) ((key, w) :: qs)

inductive DeferredItems : Calls → List Node → List Node → Prop
  | nil : DeferredItems [] [] []
  | cons {calls more : Calls} {x y : Node} {xs ys : List Node} (h : Deferred calls x y)
    (hs : DeferredItems more xs ys) : DeferredItems (calls ++ more) (x :: xs) (y :: ys)

end

/-- Where the calls of a reading are recorded, and nothing else. -/
def Template.recording (start : Nat) (name : String) (calls : Calls) : Template :=
  { Template.begin start name .constant with pending := calls, nextMark := calls.length }

theorem Template.deferCall_recording (start : Nat) (name : String) (calls : Calls) (callee : Macro)
    (n : Node) : (Template.recording start name calls).deferCall callee n
      = (n.setMark (some calls.length),
        Template.recording start name (calls ++ [(calls.length, .call [] callee)])) := by
  simp [Template.deferCall, Template.mark, Template.recording]

theorem DeferredProperties.keys_eq {calls : Calls} {ps qs : List (String × Node)}
    (h : DeferredProperties calls ps qs) : Properties.keys ps = Properties.keys qs := by
  match h with
  | .nil => rfl
  | .cons _ hs => exact congrArg (_ :: ·) hs.keys_eq

theorem DeferredItems.length_eq {calls : Calls} {xs ys : List Node}
    (h : DeferredItems calls xs ys) : xs.length = ys.length := by
  match h with
  | .nil => rfl
  | .cons _ hs => exact congrArg (· + 1) hs.length_eq

theorem DeferredProperties.concat {calls more : Calls} {ps qs : List (String × Node)} {v w : Node}
    (hs : DeferredProperties calls ps qs) (key : String) (h : Deferred more v w) :
    DeferredProperties (calls ++ more) (ps ++ [(key, v)]) (qs ++ [(key, w)]) := by
  match hs with
  | .nil => simpa using DeferredProperties.cons h .nil
  | .cons h₀ hs =>
    rw [List.append_assoc]
    exact .cons h₀ (hs.concat key h)

theorem DeferredItems.concat {calls more : Calls} {xs ys : List Node} {x y : Node}
    (hs : DeferredItems calls xs ys) (h : Deferred more x y) :
    DeferredItems (calls ++ more) (xs ++ [x]) (ys ++ [y]) := by
  match hs with
  | .nil => simpa using DeferredItems.cons h .nil
  | .cons h₀ hs =>
    rw [List.append_assoc]
    exact .cons h₀ (hs.concat h)

theorem DeferredItems.singleton {calls : Calls} {x y : Node} (h : Deferred calls x y) :
    DeferredItems calls [x] [y] :=
  DeferredItems.nil.concat h

/-! ## Marks -/

mutual

theorem Deferred.marks_eq {calls : Calls} {n v : Node} (h : Deferred calls n v) :
    n.marks = calls.map Prod.fst := by
  match h with
  | .primitive hi => rw [Node.marks_primitive, hi.1, List.map_nil, Option.toList_none]
  | .object hi _ h => rw [Node.marks_object, hi.1, h.marks_eq, Option.toList_none, List.append_nil]
  | .list hi h => rw [Node.marks_list, hi.1, h.marks_eq, Option.toList_none, List.append_nil]
  | .call h hn _ _ _ _ => rw [Node.marks_setMark hn.1, h.marks_eq, List.map_append]; rfl

theorem DeferredProperties.marks_eq {calls : Calls} {ps qs : List (String × Node)}
    (h : DeferredProperties calls ps qs) :
    (ps.flatMap fun p => p.2.marks) = calls.map Prod.fst := by
  match h with
  | .nil => rfl
  | .cons h hs => rw [List.flatMap_cons, h.marks_eq, hs.marks_eq, List.map_append]

theorem DeferredItems.marks_eq {calls : Calls} {xs ys : List Node}
    (h : DeferredItems calls xs ys) : xs.flatMap Node.marks = calls.map Prod.fst := by
  match h with
  | .nil => rfl
  | .cons h hs => rw [List.flatMap_cons, h.marks_eq, hs.marks_eq, List.map_append]

end

mutual

theorem Deferred.keyed {calls : Calls} {n v : Node} (h : Deferred calls n v) :
    n.Keyed := by
  match h with
  | .primitive _ => trivial
  | .object _ hk h => exact ⟨hk, h.keyed⟩
  | .list _ h => exact h.keyed
  | .call h _ _ _ _ _ => exact Node.keyed_setMark _ h.keyed

theorem DeferredProperties.keyed {calls : Calls} {ps qs : List (String × Node)}
    (h : DeferredProperties calls ps qs) : Node.KeyedProperties ps := by
  match h with
  | .nil => trivial
  | .cons h hs => exact ⟨h.keyed, hs.keyed⟩

theorem DeferredItems.keyed {calls : Calls} {xs ys : List Node}
    (h : DeferredItems calls xs ys) : Node.KeyedItems xs := by
  match h with
  | .nil => trivial
  | .cons h hs => exact ⟨h.keyed, hs.keyed⟩

end

/-! ## Evaluation -/

variable {pending : Calls} {args : List Node} {copy : Bool}

theorem evaluate_setMark {n : Node} (hn : n.mark = none) (k : Nat) :
    evaluate pending args copy (n.setMark (some k))
      = (evaluate pending args copy n).andThen (actOnMark pending args copy (some k)) := by
  cases n with
  | primitive text i =>
    rw [Node.mark, Node.info] at hn
    rw [evaluate, hn]
    rfl
  | object name ps i =>
    rw [Node.mark, Node.info] at hn
    rw [evaluate, hn, evaluateProperties_andThen]
    rfl
  | list name op xs i =>
    rw [Node.mark, Node.info] at hn
    rw [evaluate, hn, evaluateItems_andThen]
    rfl

/-- Every call is what is pending under its mark. -/
def Pends (pending calls : Calls) : Prop :=
  ∀ p ∈ calls, pending.find? (·.1 == p.1) = some p

theorem Pends.left {calls more : Calls} (h : Pends pending (calls ++ more)) :
    Pends pending calls :=
  fun p hp => h p (List.mem_append_left more hp)

theorem Pends.right {calls more : Calls} (h : Pends pending (calls ++ more)) :
    Pends pending more :=
  fun p hp => h p (List.mem_append_right calls hp)

mutual

/-- The marked node evaluates to what it stands for, up to information. -/
theorem Deferred.evaluates {calls : Calls} {n v : Node} (h : Deferred calls n v)
    (hp : Pends pending calls) :
    ∃ m, evaluate pending args copy n = produced m ∧ m.withoutInfo = v.withoutInfo := by
  match h with
  | .primitive hi =>
    rw [evaluate, hi.1]
    exact ⟨_, rfl, rfl⟩
  | .object hi _ h =>
    rw [evaluate, hi.1]
    obtain ⟨rs, hrs, heq⟩ := h.evaluates hp _
    refine ⟨_, hrs.trans rfl, ?_⟩
    rw [withoutInfo, withoutInfo, Node.withoutInfoProperties_eq, Node.withoutInfoProperties_eq, heq]
  | .list hi h =>
    rw [evaluate, hi.1]
    obtain ⟨zs, hzs, heq⟩ := h.evaluates hp _
    refine ⟨_, hzs.trans rfl, ?_⟩
    rw [withoutInfo, withoutInfo, Node.withoutInfoItems_eq, Node.withoutInfoItems_eq, heq]
  | .call h hn hc hv hw _ =>
    obtain ⟨m, hm, hmm⟩ := h.evaluates hp.left
    obtain ⟨u, hu, huv⟩ := hc.apply_leads hmm _ copy _ hv
    refine ⟨u, ?_, huv.trans hw.symm⟩
    rw [evaluate_setMark hn.1, hm, produced_andThen, actOnMark, pendingFor?, Option.bind_some,
      hp.right _ (List.mem_singleton_self _)]
    exact hu

theorem DeferredProperties.evaluates {calls : Calls} {ps qs : List (String × Node)}
    (h : DeferredProperties calls ps qs) (hp : Pends pending calls)
    (next : List (String × Node) → Expansion) :
    ∃ rs, evaluateProperties pending args copy ps next = next rs
      ∧ (rs.map fun p => (p.1, p.2.withoutInfo)) = qs.map fun p => (p.1, p.2.withoutInfo) := by
  match h with
  | .nil => exact ⟨[], rfl, rfl⟩
  | .cons h hs =>
    obtain ⟨m, hm, hmv⟩ := h.evaluates hp.left
    rw [evaluateProperties, hm, produced_andThen]
    obtain ⟨rs, hrs, heq⟩ := hs.evaluates hp.right _
    exact ⟨_, hrs, by rw [List.map_cons, List.map_cons, heq, hmv]⟩

theorem DeferredItems.evaluates {calls : Calls} {xs ys : List Node}
    (h : DeferredItems calls xs ys) (hp : Pends pending calls) (next : List Node → Expansion) :
    ∃ zs, evaluateItems pending args copy xs next = next zs
      ∧ zs.map withoutInfo = ys.map withoutInfo := by
  match h with
  | .nil => exact ⟨[], rfl, rfl⟩
  | .cons h hs =>
    obtain ⟨m, hm, hmv⟩ := h.evaluates hp.left
    rw [evaluateItems, hm, produced_andThen]
    obtain ⟨zs, hzs, heq⟩ := hs.evaluates hp.right _
    exact ⟨_, hzs, by rw [List.map_cons, List.map_cons, heq, hmv]⟩

end

/-! ## Finished recordings -/

theorem locate_in_order {nodes : List (Path × Node)}
    (h : (nodes.filterMap fun p => p.2.mark) = pending.map Prod.fst) :
    (Template.locate pending nodes).2 = [] := by
  induction nodes generalizing pending with
  | nil => exact List.map_eq_nil_iff.mp h.symm
  | cons p nodes ih =>
    obtain ⟨path, n⟩ := p
    rw [Template.locate]
    cases hm : n.mark with
    | none =>
      rw [List.filterMap_cons, hm] at h
      exact ih h
    | some k =>
      rw [List.filterMap_cons, hm] at h
      obtain ⟨q, pending, rfl, hq, hrest⟩ := List.map_eq_cons_iff.mp h.symm
      have hfind : (q :: pending).find? (·.1 == k) = some q := by simp [hq]
      have herase : (q :: pending).eraseP (·.1 == q.1) = pending := by simp
      rw [Option.bind_some, hfind]
      simp only [herase]
      exact ih hrest.symm

theorem pends_self {calls : Calls} (h : (calls.map Prod.fst).Nodup) :
    Pends calls calls := by
  induction calls with
  | nil => exact fun p hp => absurd hp List.not_mem_nil
  | cons c calls ih =>
    rw [List.map_cons, List.nodup_cons] at h
    intro p hp
    rcases List.mem_cons.mp hp with rfl | hp
    · exact List.find?_cons_of_pos (beq_self_eq_true p.1)
    · have hne : (c.1 == p.1) = false :=
        beq_eq_false_iff_ne.mpr fun heq => h.1 (heq ▸ List.mem_map_of_mem hp)
      rw [List.find?_cons, hne]
      exact ih h.2 p hp

/-- A recording finishes without a word, and the macro gives what the node stands for. -/
theorem Deferred.finishes {calls : Calls} {n v : Node} (h : Deferred calls n v)
    (hc : (calls.map Prod.fst).Nodup) (start : Nat) (name : String) :
    ∃ m, (Template.recording start name calls).finish n = (some m, [])
      ∧ ∀ arg copy, ∃ w, m.apply arg copy = produced w ∧ w.withoutInfo = v.withoutInfo := by
  have hmarks : n.marks.Nodup := h.marks_eq ▸ hc
  have hleft : (Template.locate calls n.postOrder).2 = [] := locate_in_order h.marks_eq
  have hedits : (Template.locate calls n.postOrder).1 = editsOf calls n.postOrder :=
    locate_eq_editsOf hmarks
  have hlocate : Template.locate calls n.postOrder = (editsOf calls n.postOrder, []) :=
    Prod.ext hedits hleft
  refine ⟨.template ⟨⟨name, .constant⟩, [], none⟩ n.clearMarks (editsOf calls n.postOrder), ?_,
    fun arg copy => ?_⟩
  · rw [Template.finish]
    simp only [Template.recording, hlocate]
    rfl
  · obtain ⟨w, hw, hwv⟩ : ∃ w, evaluate calls [] copy n = produced w
        ∧ w.withoutInfo = v.withoutInfo := h.evaluates (pends_self hc)
    refine ⟨w, ?_, hwv⟩
    have hreplay : applyEdits (editsOf calls n.postOrder) [] n.clearMarks copy = produced w :=
      (replays_node n h.keyed).result_eq.trans hw
    rw [Macro.apply]
    exact congrArg (after []) hreplay

end ConfigScript
