import ConfigScript.Node.Basic
import ConfigScript.Proofs.Operator.Levels

/-! # The grammar of operator expressions

Levels of operators, from the loosest to the tightest, are the rules of a grammar: each makes
expressions from those of the next one, and below the last stand words. What follows a complete
expression decides where it ends, so that no text has two derivations. -/

namespace ConfigScript

/-- How the operators of a level stand to their operands. -/
inductive Level.Form
  | left
  | right
  | prefixed
  | postfixed
  deriving DecidableEq, Repr

def Level.form (l : Level) : Level.Form :=
  match l.fixity with
  | .binary => if l.rightAssociative then .right else .left
  | .prefixed => .prefixed
  | .postfixed => .postfixed

theorem Level.form_eq_prefixed {l : Level} : l.form = .prefixed ↔ l.fixity = .prefixed := by
  unfold Level.form
  cases l.fixity with
  | binary => cases l.rightAssociative <;> decide
  | prefixed => simp
  | postfixed => simp

/-- An operator of a level. -/
abbrev Level.Sign (l : Level) : Type := { o : Operator // o ∈ l.operators }

/-- The rules of a level over the expressions `E` of the next one. -/
inductive Layer (l : Level) (E : Type) : Type
  /-- `E (op E)*` -/
  | left (h : l.form = .left) (first : E) (rest : List (l.Sign × E))
  /-- `E` without its optional `op Layer` -/
  | rightmost (h : l.form = .right) (a : E)
  /-- `E op Layer` -/
  | right (h : l.form = .right) (a : E) (o : l.Sign) (b : Layer l E)
  /-- `E` alone -/
  | unprefixed (h : l.form = .prefixed) (a : E)
  /-- `op Layer` -/
  | prefixed (h : l.form = .prefixed) (o : l.Sign) (a : Layer l E)
  /-- `E op*` -/
  | postfixed (h : l.form = .postfixed) (first : E) (rest : List l.Sign)

/-- The expressions that levels derive; a word where no level is left. -/
def Derivation : List Level → Type
  | [] => String
  | l :: ls => Layer l (Derivation ls)

/-- The node of an operator and its operands. -/
def Operator.applied (o : Operator) (operands : List Node) : Node :=
  .list o.produces true operands {}

namespace Layer

variable {α E : Type} {l : Level}

/-- From left to right, what stands for the operators and for the operands. -/
def flatten (sign : Operator → α) (operand : E → List α) : Layer l E → List α
  | left _ first rest => operand first ++ rest.flatMap fun p => sign p.1 :: operand p.2
  | rightmost _ a => operand a
  | right _ a o b => operand a ++ sign o :: b.flatten sign operand
  | unprefixed _ a => operand a
  | prefixed _ o a => sign o :: a.flatten sign operand
  | postfixed _ first rest => operand first ++ rest.map fun o : l.Sign => sign o

def tree (operand : E → Node) : Layer l E → Node
  | left _ first rest =>
    rest.foldl (fun a p => p.1.val.applied [a, operand p.2]) (operand first)
  | rightmost _ a => operand a
  | right _ a o b => o.val.applied [operand a, b.tree operand]
  | unprefixed _ a => operand a
  | prefixed _ o a => o.val.applied [a.tree operand]
  | postfixed _ first rest => rest.foldl (fun a o => o.val.applied [a]) (operand first)

theorem exists_left (h : l.form = .left) (d : Layer l E) :
    ∃ first rest, d = .left h first rest := by
  cases d with
  | left _ first rest => exact ⟨first, rest, rfl⟩
  | _ => grind

theorem exists_right (h : l.form = .right) (d : Layer l E) :
    (∃ a, d = .rightmost h a) ∨ ∃ a o b, d = .right h a o b := by
  cases d with
  | rightmost _ a => exact .inl ⟨a, rfl⟩
  | right _ a o b => exact .inr ⟨a, o, b, rfl⟩
  | _ => grind

theorem exists_prefixed (h : l.form = .prefixed) (d : Layer l E) :
    (∃ a, d = .unprefixed h a) ∨ ∃ o a, d = .prefixed h o a := by
  cases d with
  | unprefixed _ a => exact .inl ⟨a, rfl⟩
  | prefixed _ o a => exact .inr ⟨o, a, rfl⟩
  | _ => grind

theorem exists_postfixed (h : l.form = .postfixed) (d : Layer l E) :
    ∃ first rest, d = .postfixed h first rest := by
  cases d with
  | postfixed _ first rest => exact ⟨first, rest, rfl⟩
  | _ => grind

end Layer

/-- What a token of an expression is spelled as. -/
inductive Terminal
  | word (text : String)
  | operator (name : String) (keyword : Bool)
  deriving DecidableEq, Repr

namespace Terminal

def ofOperator (o : Operator) : Terminal := .operator o.name o.keyword

def text : Terminal → String
  | word text => text
  | operator name _ => name

end Terminal

namespace Derivation

/-- From left to right, what stands for the operators and for the words. -/
def flatten {α : Type} (sign : Operator → α) (word : String → List α) :
    (ls : List Level) → Derivation ls → List α
  | [], text => word text
  | _ :: ls, d => Layer.flatten sign (flatten sign word ls) d

def terminals {ls : List Level} (d : Derivation ls) : List Terminal :=
  d.flatten Terminal.ofOperator (fun text => [.word text]) ls

def operators {ls : List Level} (d : Derivation ls) : List Operator :=
  d.flatten id (fun _ => []) ls

/-- The node that the expression stands for. -/
def tree : {ls : List Level} → Derivation ls → Node
  | [], text => Node.value text
  | _ :: _, d => Layer.tree tree d

end Derivation

/-! ## Where expressions start and end -/

/-- The operator of a level with the spelling. -/
def Level.find? (l : Level) : Terminal → Option Operator
  | .word _ => none
  | .operator name keyword => l.get? name keyword

/-- The spelling is none of an operator of the level. -/
def Level.Misses (l : Level) (t : Terminal) : Prop := l.find? t = none

/-- The terminal can be the first one of an expression. -/
inductive Opens (ls : List Level) : Terminal → Prop
  | word (text : String) : Opens ls (.word text)
  | sign {l : Level} (hl : l ∈ ls) (h : l.form = .prefixed) (o : l.Sign) :
    Opens ls (.ofOperator o)

/-- No expression goes on with the terminals: they are over, or go on with one that no level looks
for behind an operand. -/
def Bars (ls : List Level) (ts : List Terminal) : Prop :=
  ∀ t ∈ ts.head?, ∀ l ∈ ls, l.form ≠ .prefixed → l.Misses t

section

variable {l : Level} {ls : List Level} {t : Terminal} {ts : List Terminal}

theorem bars_nil (ls : List Level) : Bars ls [] := by simp [Bars]

theorem Bars.tail (h : Bars (l :: ls) ts) : Bars ls ts :=
  fun t ht m hm => h t ht m (List.mem_cons_of_mem l hm)

theorem Bars.misses (h : Bars (l :: ls) ts) (hl : l.form ≠ .prefixed) :
    ∀ t ∈ ts.head?, l.Misses t :=
  fun t ht => h t ht l List.mem_cons_self hl

namespace Layered

theorem find?_sign (h : Layered (l :: ls)) (o : l.Sign) : l.find? (.ofOperator o) = some o.val :=
  h.get?_self List.mem_cons_self o.2

theorem not_misses (h : Layered (l :: ls)) (o : l.Sign) : ¬l.Misses (.ofOperator o) :=
  fun hm => Option.some_ne_none _ ((h.find?_sign o).symm.trans hm)

/-- An operator between or behind operands ends the expressions of the levels below its own. -/
theorem bars_sign (h : Layered (l :: ls)) (hl : l.form ≠ .prefixed) (o : l.Sign)
    (ts : List Terminal) : Bars ls (.ofOperator o :: ts) := by
  intro t ht m hm hmf
  simp only [List.head?_cons, Option.mem_def, Option.some.injEq] at ht
  subst ht
  have hside : l.fixity = .prefixed ↔ m.fixity = .prefixed := by
    simp only [← Level.form_eq_prefixed, hl, hmf]
  exact h.get?_above hm hside o.2

/-- An operator in front of an operand is not that of a first terminal of a level below. -/
theorem misses_opening (h : Layered (l :: ls)) (hl : l.form = .prefixed) (ht : Opens ls t) :
    l.Misses t := by
  cases ht with
  | word text => rfl
  | @sign m hm hmf o =>
    have hside : l.fixity = .prefixed ↔ m.fixity = .prefixed := by
      simp only [← Level.form_eq_prefixed, hl, hmf]
    exact h.get?_below hm hside o.2

theorem sign_eq (h : Layered (l :: ls)) {o p : l.Sign}
    (hop : Terminal.ofOperator o.val = .ofOperator p) : o = p := by
  have ho := h.find?_sign o
  rw [hop, h.find?_sign p] at ho
  exact Subtype.ext (Option.some.inj ho).symm

end Layered

theorem Opens.cons (h : Opens ls t) : Opens (l :: ls) t := by
  cases h with
  | word text => exact .word text
  | sign hl hf o => exact .sign (List.mem_cons_of_mem l hl) hf o

theorem Layer.opens {E : Type} {operand : E → List Terminal}
    (hE : ∀ a, ∃ t ts, operand a = t :: ts ∧ Opens ls t) (d : Layer l E) :
    ∃ t ts, d.flatten .ofOperator operand = t :: ts ∧ Opens (l :: ls) t := by
  have happ (a : E) (us : List Terminal) :
      ∃ t ts, operand a ++ us = t :: ts ∧ Opens (l :: ls) t := by
    obtain ⟨t, ts, ha, ht⟩ := hE a
    exact ⟨t, ts ++ us, by rw [ha, List.cons_append], ht.cons⟩
  cases d with
  | left _ first rest => exact happ first _
  | rightmost _ a => simpa [Layer.flatten] using happ a []
  | right _ a o b => exact happ a _
  | unprefixed _ a => simpa [Layer.flatten] using happ a []
  | prefixed h o a => exact ⟨_, _, rfl, .sign List.mem_cons_self h o⟩
  | postfixed _ first rest => exact happ first _

theorem Derivation.opens : {ls : List Level} → (d : Derivation ls) →
    ∃ t ts, d.terminals = t :: ts ∧ Opens ls t
  | [], text => ⟨.word text, [], rfl, .word text⟩
  | _ :: _, d => Layer.opens opens d

end

/-! ## One derivation for a text -/

/-- What is written, if something that ends it follows, is where it is and what it is. -/
def Splits {E : Type} (write : E → List Terminal) (Ends : List Terminal → Prop) : Prop :=
  ∀ a b r s, Ends r → Ends s → write a ++ r = write b ++ s → a = b ∧ r = s

namespace Layered

variable {E X : Type} {l : Level} {ls : List Level} {write : E → List Terminal}
  {sign : X → l.Sign} {body : X → List Terminal}

/-- Operators of a level, each with what stands behind it. -/
def signed (sign : X → l.Sign) (body : X → List Terminal) (xs : List X) : List Terminal :=
  xs.flatMap fun x => .ofOperator (sign x) :: body x

theorem bars_signed (h : Layered (l :: ls)) (hl : l.form ≠ .prefixed) (xs : List X)
    {r : List Terminal} (hr : Bars (l :: ls) r) : Bars ls (signed sign body xs ++ r) := by
  cases xs with
  | nil => exact hr.tail
  | cons x xs => exact h.bars_sign hl (sign x) _

theorem signed_cons_ne (h : Layered (l :: ls)) (hl : l.form ≠ .prefixed) {x : X} {xs : List X}
    {r s : List Terminal} (hr : Bars (l :: ls) r) : r ≠ signed sign body (x :: xs) ++ s := by
  rintro rfl
  exact h.not_misses (sign x) (hr.misses hl _ rfl)

theorem splits_signed (h : Layered (l :: ls)) (hl : l.form ≠ .prefixed)
    (hbody : ∀ x y r s, sign x = sign y → Bars ls r → Bars ls s → body x ++ r = body y ++ s →
      x = y ∧ r = s) :
    Splits (signed sign body) (Bars (l :: ls)) := by
  intro xs
  induction xs with
  | nil =>
    intro ys r s hr hs heq
    cases ys with
    | nil => exact ⟨rfl, heq⟩
    | cons y ys => exact absurd heq (h.signed_cons_ne hl hr)
  | cons x xs ih =>
    intro ys r s hr hs heq
    cases ys with
    | nil => exact absurd heq.symm (h.signed_cons_ne hl hs)
    | cons y ys =>
      simp only [signed, List.flatMap_cons, List.cons_append, List.append_assoc,
        List.cons.injEq] at heq
      obtain ⟨hsign, heq⟩ := heq
      obtain ⟨rfl, hmore⟩ := hbody x y _ _ (h.sign_eq hsign) (h.bars_signed hl xs hr)
        (h.bars_signed hl ys hs) heq
      obtain ⟨rfl, hrs⟩ := ih ys r s hr hs hmore
      exact ⟨rfl, hrs⟩

theorem splits_left (h : Layered (l :: ls)) (hE : Splits write (Bars ls)) (hl : l.form = .left) :
    Splits (Layer.flatten (l := l) .ofOperator write) (Bars (l :: ls)) := by
  have hne : l.form ≠ .prefixed := by simp [hl]
  have hpairs : Splits (signed Prod.fst fun p : l.Sign × E => write p.2) (Bars (l :: ls)) := by
    refine h.splits_signed hne fun x y r s hsign hr hs heq => ?_
    obtain ⟨hoperand, hrs⟩ := hE _ _ _ _ hr hs heq
    exact ⟨Prod.ext hsign hoperand, hrs⟩
  intro a b r s hr hs heq
  obtain ⟨first, rest, rfl⟩ := a.exists_left hl
  obtain ⟨first', rest', rfl⟩ := b.exists_left hl
  simp only [Layer.flatten, List.append_assoc] at heq
  obtain ⟨rfl, hmore⟩ := hE _ _ _ _ (h.bars_signed hne rest hr) (h.bars_signed hne rest' hs) heq
  obtain ⟨rfl, hrs⟩ := hpairs rest rest' r s hr hs hmore
  exact ⟨rfl, hrs⟩

theorem splits_right (h : Layered (l :: ls)) (hE : Splits write (Bars ls)) (hl : l.form = .right) :
    Splits (Layer.flatten (l := l) .ofOperator write) (Bars (l :: ls)) := by
  have hne : l.form ≠ .prefixed := by simp [hl]
  intro a
  induction a with
  | rightmost _ a =>
    intro b r s hr hs heq
    rcases b.exists_right hl with ⟨a', rfl⟩ | ⟨a', o, b, rfl⟩
    · obtain ⟨rfl, hrs⟩ := hE _ _ _ _ hr.tail hs.tail heq
      exact ⟨rfl, hrs⟩
    · -- The other one goes on with an operator where this one has ended.
      simp only [Layer.flatten, List.append_assoc, List.cons_append] at heq
      obtain ⟨-, rfl⟩ := hE _ _ _ _ hr.tail (h.bars_sign hne o _) heq
      exact absurd (hr.misses hne _ rfl) (h.not_misses o)
  | right _ a o b ih =>
    intro c r s hr hs heq
    simp only [Layer.flatten, List.append_assoc, List.cons_append] at heq
    rcases c.exists_right hl with ⟨a', rfl⟩ | ⟨a', o', b', rfl⟩
    · obtain ⟨-, rfl⟩ := hE _ _ _ _ (h.bars_sign hne o _) hs.tail heq
      exact absurd (hs.misses hne _ rfl) (h.not_misses o)
    · simp only [Layer.flatten, List.append_assoc, List.cons_append] at heq
      obtain ⟨rfl, hmore⟩ := hE _ _ _ _ (h.bars_sign hne o _) (h.bars_sign hne o' _) heq
      rw [List.cons.injEq] at hmore
      obtain ⟨rfl, hrs⟩ := ih b' r s hr hs hmore.2
      rw [h.sign_eq hmore.1]
      exact ⟨rfl, hrs⟩
  | _ => grind

theorem opening_ne_sign (h : Layered (l :: ls)) (hl : l.form = .prefixed)
    (hopens : ∀ a, ∃ t ts, write a = t :: ts ∧ Opens ls t) (a : E) (o : l.Sign)
    (r s : List Terminal) : write a ++ r ≠ .ofOperator o.val :: s := by
  intro heq
  obtain ⟨t, ts, ha, ht⟩ := hopens a
  rw [ha, List.cons_append, List.cons.injEq] at heq
  exact h.not_misses o (heq.1 ▸ h.misses_opening hl ht)

theorem splits_prefixed (h : Layered (l :: ls)) (hE : Splits write (Bars ls))
    (hl : l.form = .prefixed) (hopens : ∀ a, ∃ t ts, write a = t :: ts ∧ Opens ls t) :
    Splits (Layer.flatten (l := l) .ofOperator write) (Bars (l :: ls)) := by
  intro a
  induction a with
  | unprefixed _ a =>
    intro b r s hr hs heq
    rcases b.exists_prefixed hl with ⟨a', rfl⟩ | ⟨o, b, rfl⟩
    · obtain ⟨rfl, hrs⟩ := hE _ _ _ _ hr.tail hs.tail heq
      exact ⟨rfl, hrs⟩
    · exact absurd heq (h.opening_ne_sign hl hopens a o _ _)
  | prefixed _ o a ih =>
    intro b r s hr hs heq
    rcases b.exists_prefixed hl with ⟨a', rfl⟩ | ⟨o', b, rfl⟩
    · exact absurd heq.symm (h.opening_ne_sign hl hopens a' o _ _)
    · simp only [Layer.flatten, List.cons_append, List.cons.injEq] at heq
      obtain ⟨rfl, hrs⟩ := ih b r s hr hs heq.2
      rw [h.sign_eq heq.1]
      exact ⟨rfl, hrs⟩
  | _ => grind

theorem splits_postfixed (h : Layered (l :: ls)) (hE : Splits write (Bars ls))
    (hl : l.form = .postfixed) :
    Splits (Layer.flatten (l := l) .ofOperator write) (Bars (l :: ls)) := by
  have hne : l.form ≠ .prefixed := by simp [hl]
  have hsigns : Splits (signed id fun _ : l.Sign => []) (Bars (l :: ls)) :=
    h.splits_signed hne fun x y r s hsign _ _ heq => ⟨hsign, heq⟩
  intro a b r s hr hs heq
  obtain ⟨first, rest, rfl⟩ := a.exists_postfixed hl
  obtain ⟨first', rest', rfl⟩ := b.exists_postfixed hl
  simp only [Layer.flatten, List.append_assoc, List.map_eq_flatMap] at heq
  obtain ⟨rfl, hmore⟩ := hE _ _ _ _ (h.bars_signed hne rest hr) (h.bars_signed hne rest' hs) heq
  obtain ⟨rfl, hrs⟩ := hsigns rest rest' r s hr hs hmore
  exact ⟨rfl, hrs⟩

theorem splits_layer (h : Layered (l :: ls)) (hE : Splits write (Bars ls))
    (hopens : ∀ a, ∃ t ts, write a = t :: ts ∧ Opens ls t) :
    Splits (Layer.flatten (l := l) .ofOperator write) (Bars (l :: ls)) := by
  cases hl : l.form with
  | left => exact h.splits_left hE hl
  | right => exact h.splits_right hE hl
  | prefixed => exact h.splits_prefixed hE hl hopens
  | postfixed => exact h.splits_postfixed hE hl

end Layered

theorem Derivation.splits : {ls : List Level} → Layered ls →
    Splits (@terminals ls) (Bars ls)
  | [], _ => fun a b r s _ _ heq => by
    simp only [terminals, flatten, List.cons_append, List.nil_append, List.cons.injEq] at heq
    exact ⟨Terminal.word.inj heq.1, heq.2⟩
  | _ :: _, h => h.splits_layer (splits h.tail) opens

theorem Derivation.unique {ls : List Level} (h : Layered ls) {d d' : Derivation ls}
    (heq : d.terminals = d'.terminals) : d = d' :=
  (splits h d d' [] [] (bars_nil ls) (bars_nil ls) (by rw [heq])).1

end ConfigScript
