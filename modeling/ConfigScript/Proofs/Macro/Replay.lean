import ConfigScript.Macro.Apply
import ConfigScript.Macro.Template
import ConfigScript.Proofs.Node.Path

/-! # Replaying edits

Edits run one after the other, each on a tree that the earlier ones have changed. Edits of one
child act on that child alone, whatever stands around it, so that their effects can be put together
along the tree. -/

namespace ConfigScript

/-! ## Expansions in sequence -/

namespace Expansion

theorem after_after (rs ss : List Report) (e : Expansion) :
    (e.after rs).after ss = e.after (ss ++ rs) := by
  simp [after, List.append_assoc]

theorem after_andThen (rs : List Report) (e : Expansion) (f : Node → Expansion) :
    (e.after rs).andThen f = (e.andThen f).after rs := by
  obtain ⟨r, ss⟩ := e
  cases r with
  | produced n => exact (after_after ss rs (f n)).symm
  | refused => rfl
  | fault f => rfl
  | crashed message => rfl

theorem produced_andThen (n : Node) (f : Node → Expansion) : (produced n).andThen f = f n := rfl

theorem andThen_produced (e : Expansion) : e.andThen produced = e := by
  obtain ⟨r, rs⟩ := e
  cases r with
  | produced n => simp [andThen, produced, after]
  | refused => rfl
  | fault f => rfl
  | crashed message => rfl

theorem andThen_assoc (e : Expansion) (f g : Node → Expansion) :
    (e.andThen f).andThen g = e.andThen fun n => (f n).andThen g := by
  obtain ⟨r, rs⟩ := e
  cases r with
  | produced n => exact after_andThen rs (f n) g
  | refused => rfl
  | fault f => rfl
  | crashed message => rfl

theorem andThen_congr {e : Expansion} {f g : Node → Expansion}
    (h : ∀ n, e.result = .produced n → f n = g n) : e.andThen f = e.andThen g := by
  obtain ⟨r, rs⟩ := e
  cases r with
  | produced n => exact congrArg (after rs) (h n rfl)
  | refused => rfl
  | fault f => rfl
  | crashed message => rfl

theorem andThen_result {e : Expansion} {f : Node → Expansion} {n : Node}
    (h : (e.andThen f).result = .produced n) :
    ∃ m, e.result = .produced m ∧ (f m).result = .produced n := by
  obtain ⟨r, rs⟩ := e
  cases r with
  | produced m => exact ⟨m, rfl, h⟩
  | refused => simp [andThen] at h
  | fault f => simp [andThen] at h
  | crashed message => simp [andThen] at h

end Expansion

open Expansion

/-! ## Edits -/

/-- What an edit makes of the node at its path. -/
def Edit.actOn : Edit → List Node → Node → Bool → Expansion
  | .value _ i, args, _, _ => argumentAt args i produced
  | .rename _ i, args, n, _ =>
    argumentAt args i fun
      | .primitive name _ => produced (n.setName name)
      | a => ⟨.refused,
          [Report.error s!"Cannot use {a.shape.name} as a name; expected primitive"]⟩
  | .call _ callee, _, n, copy => callee.apply n copy

theorem argumentAt_andThen (args : List Node) (i : Nat) (f g : Node → Expansion) :
    (argumentAt args i f).andThen g = argumentAt args i fun a => (f a).andThen g := by
  unfold argumentAt
  split
  · rfl
  · rfl

theorem Edit.apply_eq {e : Edit} {target slot : Node} (h : target.get? e.path = some slot)
    (args : List Node) (copy : Bool) :
    e.apply args target copy = (e.actOn args slot copy).andThen (placeAt e.path target) := by
  cases e with
  | value path i =>
    simp only [Edit.path] at h
    rw [Edit.apply, Edit.actOn, argumentAt_andThen, h]
    rfl
  | rename path i =>
    simp only [Edit.path] at h
    rw [Edit.apply, Edit.actOn, argumentAt_andThen, h]
    refine congrArg (argumentAt args i) (funext fun a => ?_)
    cases a with
    | primitive name j => rfl
    | object name props j => rfl
    | list name op items j => rfl
  | call path callee =>
    simp only [Edit.path] at h
    rw [Edit.apply, Edit.actOn, h]
    rfl

@[simp] theorem Edit.path_moveTo (path : Path) (e : Edit) : (e.moveTo path).path = path := by
  cases e <;> rfl

@[simp] theorem Edit.actOn_moveTo (path : Path) (e : Edit) :
    (e.moveTo path).actOn = e.actOn := by
  cases e <;> rfl

/-- The same edit, seen from the parent. -/
def Edit.under (step : Step) (e : Edit) : Edit := e.moveTo (step :: e.path)

/-- Under a step, an edit changes what is plugged in there and nothing else. -/
theorem Edit.apply_under {step : Step} {plug : Node → Node} (hole : Node.Hole step plug)
    {e : Edit} {c slot : Node} (h : c.get? e.path = some slot) (args : List Node) (copy : Bool) :
    (e.under step).apply args (plug c) copy
      = (e.apply args c copy).andThen fun d => produced (plug d) := by
  have hget : (plug c).get? (e.under step).path = some slot := by
    rw [Edit.under, Edit.path_moveTo, hole.get, h]
  rw [Edit.apply_eq hget, Edit.apply_eq h, andThen_assoc, Edit.under, Edit.actOn_moveTo]
  refine congrArg (e.actOn args slot copy).andThen (funext fun n => ?_)
  obtain ⟨m, hm⟩ := Node.replace?_of_get? h n
  rw [Edit.path_moveTo, placeAt, placeAt, Node.replace, Node.replace, hole.replace, hm]
  rfl

/-! ## Replaying edits -/

/-- Every edit finds its path when its turn comes. -/
def Resolves : List Edit → List Node → Node → Bool → Prop
  | [], _, _, _ => True
  | e :: es, args, target, copy =>
    (∃ slot, target.get? e.path = some slot)
      ∧ ∀ n, (e.apply args target copy).result = .produced n → Resolves es args n copy

/-- The edits find their paths, and come to a given expansion. -/
structure Replays (es : List Edit) (args : List Node) (target : Node) (copy : Bool)
    (result : Expansion) : Prop where
  resolves : Resolves es args target copy
  result_eq : applyEdits es args target copy = result

variable {args : List Node} {copy : Bool} {es fs : List Edit} {target : Node} {r : Expansion}

theorem Replays.nil : Replays [] args target copy (produced target) := ⟨trivial, rfl⟩

theorem applyEdits_append (es fs : List Edit) (args : List Node) (target : Node) (copy : Bool) :
    applyEdits (es ++ fs) args target copy
      = (applyEdits es args target copy).andThen fun n => applyEdits fs args n copy := by
  induction es generalizing target with
  | nil => rw [List.nil_append, applyEdits.eq_def [], produced_andThen]
  | cons e es ih =>
    rw [List.cons_append, applyEdits, applyEdits, andThen_assoc]
    exact congrArg (e.apply args target copy).andThen (funext fun n => ih n)

theorem Resolves.append (h : Resolves es args target copy)
    (g : ∀ n, (applyEdits es args target copy).result = .produced n → Resolves fs args n copy) :
    Resolves (es ++ fs) args target copy := by
  induction es generalizing target with
  | nil => exact g target (by rw [applyEdits]; rfl)
  | cons e es ih =>
    refine ⟨h.1, fun n hn => ih (h.2 n hn) fun m hm => g m ?_⟩
    rw [applyEdits, andThen, hn]
    exact hm

theorem Replays.append {f : Node → Expansion} (h : Replays es args target copy r)
    (g : ∀ n, Replays fs args n copy (f n)) :
    Replays (es ++ fs) args target copy (r.andThen f) := by
  refine ⟨h.resolves.append fun n _ => (g n).resolves, ?_⟩
  rw [applyEdits_append, h.result_eq]
  exact andThen_congr fun n _ => (g n).result_eq

theorem Replays.append_plugged {plug : Node → Node} {f : Node → Expansion}
    (h : Replays es args target copy (r.andThen fun d => produced (plug d)))
    (g : ∀ d, Replays fs args (plug d) copy (f d)) :
    Replays (es ++ fs) args target copy (r.andThen f) := by
  refine ⟨h.resolves.append fun n hn => ?_, ?_⟩
  · rw [h.result_eq] at hn
    obtain ⟨d, -, hd⟩ := andThen_result hn
    simp only [produced, MacroResult.produced.injEq] at hd
    exact hd ▸ (g d).resolves
  · rw [applyEdits_append, h.result_eq, andThen_assoc]
    exact andThen_congr fun d _ => (g d).result_eq

theorem Replays.under {step : Step} {plug : Node → Node} (hole : Node.Hole step plug) {c : Node}
    (h : Replays es args c copy r) :
    Replays (es.map (Edit.under step)) args (plug c) copy
      (r.andThen fun d => produced (plug d)) := by
  obtain ⟨hres, rfl⟩ := h
  induction es generalizing c with
  | nil =>
    rw [applyEdits, produced_andThen]
    exact .nil
  | cons e es ih =>
    obtain ⟨⟨slot, hslot⟩, hrest⟩ := hres
    have happly := Edit.apply_under hole hslot args copy
    refine ⟨⟨⟨slot, ?_⟩, fun n hn => ?_⟩, ?_⟩
    · rw [Edit.under, Edit.path_moveTo, hole.get, hslot]
    · rw [happly] at hn
      obtain ⟨d, hd, hn⟩ := andThen_result hn
      simp only [produced, MacroResult.produced.injEq] at hn
      exact hn ▸ (ih (hrest d hd)).resolves
    · rw [List.map_cons, applyEdits, applyEdits, happly, andThen_assoc, andThen_assoc]
      exact andThen_congr fun d hd => (ih (hrest d hd)).result_eq

theorem Replays.own (e : Edit) :
    Replays [e.moveTo []] args target copy (e.actOn args target copy) := by
  have hget : target.get? (e.moveTo []).path = some target := by rw [Edit.path_moveTo]; rfl
  refine ⟨⟨⟨target, hget⟩, fun _ _ => trivial⟩, ?_⟩
  rw [applyEdits, Edit.apply_eq hget, Edit.actOn_moveTo, Edit.path_moveTo, andThen_assoc]
  exact andThen_produced _

end ConfigScript
