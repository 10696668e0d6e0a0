import ConfigScript.Library.Format
import ConfigScript.Proofs.Number.Characters

/-! # Patterns

A pattern is written segment by segment: literal texts with their braces doubled, and placeholders.
Where it is filled, each literal text stands as it is, and each placeholder gives way to the
argument that it addresses, or stays if there is no such argument. -/

namespace ConfigScript.Library

open FormatArgs

inductive Segment
  | literal (text : String)
  /-- Addresses the next argument. -/
  | positional
  | index (n : Nat)
  | key (name : String)
  deriving DecidableEq, Repr

/-- All arguments in order. -/
def FormatArgs.values : FormatArgs → List Node
  | .single s => [Node.value s]
  | .list items => items
  | .object props => props.map Prod.snd

/-- The arguments that have a key. -/
def FormatArgs.named : FormatArgs → List (String × Node)
  | .object props => props
  | _ => []

namespace Segment

/-- A brace of a literal text is written twice. -/
def writeChar : Char → List Char
  | '{' => ['{', '{']
  | '}' => ['}', '}']
  | c => [c]

/-- A segment as it stands in a pattern. -/
def written : Segment → String
  | literal text => String.ofList (text.toList.flatMap writeChar)
  | positional => "\x7b\x7d"
  | index n => "\x7b" ++ toString n ++ "\x7d"
  | key name => "\x7b" ++ name ++ "\x7d"

/-- An index fits 64 bits. A key is no index, and its braces are not mistaken for those around
it. -/
def WellFormed : Segment → Prop
  | literal _ => True
  | positional => True
  | index n => n < Number.twoPow 64
  | key name => name ≠ "" ∧ Number.readIndex? name = none ∧ '}' ∉ name.toList
    ∧ name.toList.head? ≠ some '{'

instance : DecidablePred WellFormed
  | literal _ => inferInstanceAs (Decidable True)
  | positional => inferInstanceAs (Decidable True)
  | index n => inferInstanceAs (Decidable (n < Number.twoPow 64))
  | key name => inferInstanceAs (Decidable (name ≠ "" ∧ Number.readIndex? name = none
      ∧ '}' ∉ name.toList ∧ name.toList.head? ≠ some '{'))

/-- The argument that a placeholder addresses, behind `before` positional ones. -/
def argument? (args : FormatArgs) (before : Nat) : Segment → Option Node
  | literal _ => none
  | positional => args.values[before]?
  | index n => args.values[n]?
  | key name => args.named.lookup name

/-- What a segment comes to, behind `before` positional placeholders. -/
def filled (args : FormatArgs) (before : Nat) : Segment → String
  | literal text => text
  | s => ((s.argument? args before).map plainText).getD s.written

end Segment

variable {args : FormatArgs} {before : Nat} {rest : List Char}

theorem FormatArgs.atIndex?_eq (args : FormatArgs) (i : Nat) :
    args.atIndex? i = args.values[i]?.map plainText := by
  cases args with
  | single s =>
    cases i with
    | zero => rfl
    | succ i => simp [atIndex?, values]
  | list items => rfl
  | object props => simp [atIndex?, values, Function.comp_def]

theorem FormatArgs.atKey?_eq (args : FormatArgs) (key : String) :
    args.atKey? key = (args.named.lookup key).map plainText := by
  cases args <;> rfl

/-! ## Segments -/

theorem fill_writeChar (args : FormatArgs) (before : Nat) (c : Char) (rest : List Char) :
    fill args none before (Segment.writeChar c ++ rest) = c :: fill args none before rest := by
  unfold Segment.writeChar
  split
  · rfl
  · rfl
  · rename_i hopen hclose
    rw [List.singleton_append, fill.eq_8]
    · exact fun _ h => absurd h hopen
    · exact fun _ h => absurd h hclose
    · exact hopen

theorem fill_literal (args : FormatArgs) (before : Nat) (cs rest : List Char) :
    fill args none before (cs.flatMap Segment.writeChar ++ rest)
      = cs ++ fill args none before rest := by
  induction cs with
  | nil => rfl
  | cons c cs ih => rw [List.flatMap_cons, List.append_assoc, fill_writeChar, ih, List.cons_append]

/-- What a placeholder comes to. -/
def placeholderChars (args : FormatArgs) (before : Nat) (body : List Char) : List Char :=
  match placeholderText? args before (String.ofList body) with
  | some s => s.toList
  | none => '{' :: body ++ ['}']

theorem fill_seen (args : FormatArgs) (before : Nat) {body : List Char} (h : '}' ∉ body)
    (seen rest : List Char) :
    fill args (some seen) before (body ++ '}' :: rest)
      = placeholderChars args before (seen.reverse ++ body)
        ++ fill args none (if (seen.reverse ++ body).isEmpty then before + 1 else before) rest := by
  induction body generalizing seen with
  | nil =>
    rw [List.nil_append, fill, List.append_nil, List.isEmpty_reverse]
    rfl
  | cons c body ih =>
    simp only [List.mem_cons, not_or] at h
    rw [List.cons_append, fill.eq_4 _ _ _ _ _ (Ne.symm h.1), ih h.2]
    simp

theorem fill_placeholder (args : FormatArgs) (before : Nat) {body : List Char} (h : '}' ∉ body)
    (hopen : body.head? ≠ some '{') (rest : List Char) :
    fill args none before ('{' :: (body ++ '}' :: rest)) = placeholderChars args before body
      ++ fill args none (if body.isEmpty then before + 1 else before) rest := by
  have hstart : fill args none before ('{' :: (body ++ '}' :: rest))
      = fill args (some []) before (body ++ '}' :: rest) := by
    rw [fill]
    rintro cs hcs
    cases body with
    | nil => simp at hcs
    | cons c body => simp_all
  rw [hstart, fill_seen args before h]
  rfl

theorem fill_addressed {s : Segment} {body : String} (hne : body ≠ "") (hclose : '}' ∉ body.toList)
    (hopen : body.toList.head? ≠ some '{') (hwritten : s.written = "\x7b" ++ body ++ "\x7d")
    (hfilled : s.filled args before = (placeholderText? args before body).getD s.written) :
    fill args none before (s.written.toList ++ rest)
      = (s.filled args before).toList ++ fill args none before rest := by
  have hchars : placeholderChars args before body.toList = (s.filled args before).toList := by
    rw [hfilled, hwritten, placeholderChars, String.ofList_toList]
    cases placeholderText? args before body <;> simp
  have hbody : body.toList.isEmpty = false := by simpa using hne
  calc fill args none before (s.written.toList ++ rest)
      = fill args none before ('{' :: (body.toList ++ '}' :: rest)) := by simp [hwritten]
    _ = (s.filled args before).toList ++ fill args none before rest := by
      rw [fill_placeholder args before hclose hopen, hchars, hbody, if_neg Bool.false_ne_true]

/-- Reading a segment at the front of what is left of a pattern fills it. -/
theorem fill_segment {s : Segment} (h : s.WellFormed) (args : FormatArgs) (before : Nat)
    (rest : List Char) :
    fill args none before (s.written.toList ++ rest) = (s.filled args before).toList
      ++ fill args none (before + if s = .positional then 1 else 0) rest := by
  cases s with
  | literal text =>
    rw [Segment.written, String.toList_ofList, fill_literal]
    rfl
  | positional =>
    have hchars :
        placeholderChars args before [] = (Segment.positional.filled args before).toList := by
      have hempty : placeholderText? args before "" = args.atIndex? before := rfl
      rw [placeholderChars, String.ofList_nil, hempty, atIndex?_eq]
      simp only [Segment.filled, Segment.argument?]
      cases args.values[before]? <;> rfl
    rw [← hchars]
    exact fill_placeholder args before List.not_mem_nil (by decide) rest
  | index n =>
    have hdigit : ∀ c ∈ (toString n).toList, c.isDigit = true := fun c => Number.isDigit_of_mem_repr
    have hread : Number.readIndex? (toString n) = some n := Number.readIndex?_toString h
    have hne : toString n ≠ "" := by
      intro he
      rw [he, show Number.readIndex? "" = none by decide] at hread
      exact absurd hread.symm (Option.some_ne_none n)
    refine fill_addressed hne (fun hc => absurd (hdigit _ hc) (by decide)) (fun hc => ?_) rfl ?_
    · exact absurd (hdigit _ (List.mem_of_head? hc)) (by decide)
    · rw [placeholderText?, if_neg (by simp), hread]
      simp only [atIndex?_eq, Segment.filled, Segment.argument?]
  | key name =>
    obtain ⟨hne, hread, hclose, hopen⟩ := h
    refine fill_addressed hne hclose hopen rfl ?_
    rw [placeholderText?, if_neg (by simp [hne]), hread]
    simp only [atKey?_eq, Segment.filled, Segment.argument?]

/-- A pattern is filled segment by segment, a positional placeholder with the argument whose
position is the number of positional ones before it. -/
theorem format_written (args : FormatArgs) {segments : List Segment}
    (h : ∀ s ∈ segments, s.WellFormed) :
    format (String.join (segments.map Segment.written)) args
      = String.join (segments.mapIdx fun i s =>
          s.filled args ((segments.take i).count .positional)) := by
  have hfill (before : Nat) : fill args none before (segments.flatMap fun s => s.written.toList)
      = (segments.mapIdx fun i s =>
          s.filled args (before + (segments.take i).count .positional)).flatMap String.toList := by
    induction segments generalizing before with
    | nil => rfl
    | cons s segments ih =>
      rw [List.forall_mem_cons] at h
      rw [List.flatMap_cons, fill_segment h.1, ih h.2, List.mapIdx_cons, List.flatMap_cons]
      simp only [List.take_zero, List.take_succ_cons, List.count_nil, List.count_cons, Nat.add_zero,
        beq_iff_eq]
      simp only [Nat.add_assoc, Nat.add_comm (List.count _ _)]
  have hpattern : (String.join (segments.map Segment.written)).toList
      = segments.flatMap fun s => s.written.toList := by
    rw [String.toList_join, List.flatMap_map]
  apply String.toList_injective
  rw [format, String.toList_ofList, hpattern, hfill 0, String.toList_join]
  simp only [Nat.zero_add]

/-- Doubled braces next to placeholders, an index that addresses nothing, and a key. -/
theorem format_written_braces :
    let args := FormatArgs.object [("a", Node.value "1"), ("b", Node.value "2")]
    let segments := [Segment.literal "\x7b", .positional, .literal "\x7d", .index 7, .positional,
      .key "b"]
    (∀ s ∈ segments, s.WellFormed)
      ∧ String.join (segments.map Segment.written)
        = "\x7b\x7b\x7b\x7d\x7d\x7d\x7b7\x7d\x7b\x7d\x7bb\x7d"
      ∧ format (String.join (segments.map Segment.written)) args = "\x7b1\x7d\x7b7\x7d22" :=
  ⟨by decide, by decide, format_written _ (by decide)⟩

end ConfigScript.Library
