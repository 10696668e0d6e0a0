import ConfigScript.Proofs.Parser.Noted

/-! # Objects with defects

An object is read to its end although values are missing in it and keys are repeated. The first
entry of each key counts, the error value stands for a missing value, and each defect is reported
once, in the order of the entries. -/

namespace ConfigScript.Parser

open Scan Text Node

variable {config : Config} {root : List Node} {rs : List (Severity × String)} {s : ParserState}
  {rest lead : List Char}

/-! ## Entries as they are written -/

/-- A key, with the value behind it unless that is missing. -/
structure Entry where
  key : String
  value : Option Node

namespace Entry

def text (e : Entry) : String := writeName e.key ++ ": " ++ (e.value.map Node.text).getD ""

/-- The characters behind the key and its colon. -/
def valueChars (e : Entry) : List Char := ' ' :: (e.value.map Node.chars).getD []

def chars (e : Entry) : List Char := (writeName e.key).toList ++ ':' :: e.valueChars

theorem toList_text (e : Entry) : e.text.toList = e.chars := by
  obtain ⟨key, value⟩ := e
  cases value with
  | none => simp [text, chars, valueChars]
  | some v => simp [text, chars, valueChars, Node.chars]

/-- The values that are there read back. -/
def Readable (e : Entry) : Prop := ∀ v ∈ e.value, v.Keyed ∧ v.Ungrouped

/-- What is reported on an entry behind others with these keys. -/
def faults (config : Config) (seen : List String) (e : Entry) : List (Severity × String) :=
  (if e.key ∈ seen then
    [(if config.allowDuplicateProperty then .warning else .error,
      s!"Property '{e.key}' is already defined")]
  else [])
    ++ if e.value.isNone then [(.error, "Expected value")] else []

end Entry

/-- The text of an object with the entries. -/
def objectText (es : List Entry) : String :=
  "\x7b" ++ String.intercalate ", " (es.map Entry.text) ++ "\x7d"

/-- What is reported on entries, in their order. -/
def faultsOf (config : Config) : List String → List Entry → List (Severity × String)
  | _, [] => []
  | seen, e :: es => e.faults config seen ++ faultsOf config (seen ++ [e.key]) es

/-- The value of the first entry of a key, or `ERROR` if it is missing. -/
def firstValue (es : List Entry) (key : String) : Node :=
  ((es.find? (·.key == key)).bind Entry.value).getD (.value "ERROR")

/-- The keys of the entries, in the order of their first occurrences, with their values. -/
def propertiesOf (es : List Entry) : List (String × Node) :=
  (es.map Entry.key).eraseDups.map fun key => (key, firstValue es key)

theorem keys_propertiesOf (es : List Entry) :
    Properties.keys (propertiesOf es) = (es.map Entry.key).eraseDups := by
  simp [Properties.keys, propertiesOf, Function.comp_def]

theorem firstValue_append {es : List Entry} {key : String} (h : key ∈ es.map Entry.key)
    (e : Entry) : firstValue (es ++ [e]) key = firstValue es key := by
  obtain ⟨d, hd, rfl⟩ := List.mem_map.mp h
  obtain ⟨f, hf⟩ : ∃ f, es.find? (·.key == d.key) = some f := by
    rw [← Option.isSome_iff_exists, List.find?_isSome]
    exact ⟨d, hd, by simp⟩
  rw [firstValue, firstValue, List.find?_append, hf, Option.some_or]

theorem firstValue_new {es : List Entry} {e : Entry} (h : e.key ∉ es.map Entry.key) :
    firstValue (es ++ [e]) e.key = e.value.getD (.value "ERROR") := by
  have hnone : es.find? (·.key == e.key) = none := by
    rw [List.find?_eq_none]
    intro d hd hkey
    exact h (List.mem_map.mpr ⟨d, hd, by simpa using hkey⟩)
  rw [firstValue, List.find?_append, hnone]
  simp

theorem propertiesOf_append (es : List Entry) (e : Entry) :
    propertiesOf (es ++ [e]) = if e.key ∈ es.map Entry.key then propertiesOf es
      else propertiesOf es ++ [(e.key, e.value.getD (.value "ERROR"))] := by
  have hold : (es.map Entry.key).eraseDups.map (fun key => (key, firstValue (es ++ [e]) key))
      = propertiesOf es := by
    refine List.map_congr_left fun key hkey => ?_
    rw [firstValue_append (List.mem_eraseDups.mp hkey)]
  split
  · rename_i h
    rw [propertiesOf, List.map_append, List.eraseDups_append]
    have hnone : ([e].map Entry.key).removeAll (es.map Entry.key) = [] := by
      simpa [List.removeAll] using h
    rw [hnone, List.eraseDups_nil, List.append_nil, hold]
  · rename_i h
    rw [propertiesOf, List.map_append, List.eraseDups_append]
    have hnew : ([e].map Entry.key).removeAll (es.map Entry.key) = [e.key] := by
      simpa [List.removeAll] using h
    rw [hnew, List.map_append, hold]
    simp [List.eraseDups_cons, firstValue_new h]

theorem nodup_keys_propertiesOf (es : List Entry) :
    (Properties.keys (propertiesOf es)).Nodup := by
  induction es using List.reverseRecOn with
  | nil => simp [propertiesOf, Properties.keys]
  | append_singleton es e ih =>
    rw [propertiesOf_append]
    split
    · exact ih
    · rename_i h
      rw [keys_propertiesOf] at ih
      have hnew : e.key ∉ (es.map Entry.key).eraseDups := fun hm => h (List.mem_eraseDups.mp hm)
      rw [Properties.keys, List.map_append]
      simp only [List.map_cons, List.map_nil]
      change (Properties.keys (propertiesOf es) ++ [e.key]).Nodup
      rw [keys_propertiesOf]
      exact List.nodup_append.mpr ⟨ih, by simp, by
        rintro a ha b hb rfl
        exact hnew (List.mem_singleton.mp hb ▸ ha)⟩

theorem keyed_propertiesOf {es : List Entry} (hes : ∀ e ∈ es, e.Readable) (i : NodeInfo) :
    (Node.object "" (propertiesOf es) i).Keyed := by
  rw [Keyed]
  refine ⟨nodup_keys_propertiesOf es, keyedProperties_iff.mpr fun p hp => ?_⟩
  obtain ⟨key, -, rfl⟩ := List.mem_map.mp hp
  rw [firstValue]
  cases hfind : es.find? (·.key == key) with
  | none => trivial
  | some e =>
    obtain ⟨name, value⟩ := e
    cases value with
    | none => trivial
    | some v => exact (hes _ (List.mem_of_find?_eq_some hfind) v rfl).1

/-! ## Characters -/

def entriesChars (es : List Entry) : List Char := List.intercalate [',', ' '] (es.map Entry.chars)

theorem toList_objectText (es : List Entry) :
    (objectText es).toList = '{' :: (entriesChars es ++ ['}']) := by
  simp [objectText, entriesChars, String.toList_append, String.toList_intercalate,
    Function.comp_def, Entry.toList_text]

theorem entriesChars_cons_cons (e f : Entry) (es : List Entry) :
    entriesChars (e :: f :: es) = e.chars ++ ',' :: ' ' :: entriesChars (f :: es) := by
  simp [entriesChars]

theorem entriesChars_singleton (e : Entry) : entriesChars [e] = e.chars := by
  simp [entriesChars]

theorem length_le_entriesChars (es : List Entry) :
    es.length ≤ (entriesChars es).length
      ∧ ∀ e ∈ es, ∀ v ∈ e.value, v.chars.length ≤ (entriesChars es).length := by
  induction es with
  | nil => simp
  | cons e es ih =>
    have hchars : e.chars.length ≤ (entriesChars (e :: es)).length
        ∧ (e :: es).length ≤ (entriesChars (e :: es)).length
        ∧ (entriesChars es).length ≤ (entriesChars (e :: es)).length := by
      cases es with
      | nil =>
        rw [entriesChars_singleton]
        simp only [entriesChars, Entry.chars, List.length_append, List.length_cons, List.map_nil,
          List.intercalate_nil, List.length_nil]
        omega
      | cons f fs =>
        rw [entriesChars_cons_cons]
        simp only [List.length_append, List.length_cons] at ih ⊢
        omega
    refine ⟨hchars.2.1, fun f hf v hv => ?_⟩
    rcases List.mem_cons.mp hf with rfl | hf
    · have hvalue : v.chars.length ≤ f.chars.length := by
        rw [Option.mem_def] at hv
        simp [Entry.chars, Entry.valueChars, hv]
        omega
      omega
    · exact Nat.le_trans (ih.2 f hf v hv) hchars.2.2

theorem not_mem_chars_objectText (es : List Entry) : '\r' ∉ (objectText es).toList := by
  have hentry (e : Entry) : '\r' ∉ e.chars := by
    obtain ⟨key, value⟩ := e
    have hkey : '\r' ∉ (writeName key).toList := fun h => ((written_writeName key).inLine h).2 rfl
    cases value with
    | none => simp [Entry.chars, Entry.valueChars, hkey]
    | some v =>
      have hvalue : '\r' ∉ v.chars := fun h => (inLine_chars v h).2 rfl
      simp [Entry.chars, Entry.valueChars, hkey, hvalue]
  have hentries : '\r' ∉ entriesChars es := by
    induction es with
    | nil => simp [entriesChars]
    | cons e es ih =>
      cases es with
      | nil =>
        rw [entriesChars_singleton]
        exact hentry e
      | cons f fs =>
        rw [entriesChars_cons_cons]
        simp [hentry e, ih]
  rw [toList_objectText]
  simp [hentries]

/-! ## Missing values -/

theorem collection_missing (depth : Nat) {kind : TokenKind} {text : List Char}
    (hs : Noted config root rs s) (hr : s.tokenizer.Rests text)
    (hl : Lexes .value text kind none rest) (hk : kind = .comma ∨ kind = .rightBrace) :
    Yields (collection (depth + 1) false) s fun v t =>
      v = none ∧ Noted config root rs t ∧ t.tokenizer.committed.rest = text := by
  have hne (k : TokenKind) (hc : k ≠ .comma) (hb : k ≠ .rightBrace) : kind ≠ k := by
    rintro rfl
    rcases hk with rfl | rfl
    · exact hc rfl
    · exact hb rfl
  refine hs.discard_next (hr.poised .value) hl (fun _ => hne _ (by decide) (by decide))
    fun start t hst ht => ?_
  split
  · exact absurd ‹_› (hne _ (by decide) (by decide))
  · exact absurd ‹_› (hne _ (by decide) (by decide))
  · exact absurd ‹_› (hne _ (by decide) (by decide))
  · refine Yields.of_ite (fun h => absurd h (by simp [Token.isLiteral])) fun _ => ?_
    exact Yields.modify_bind ⟨rfl, hst.rewind false, ht.since.committed⟩

theorem exprOrError_missing (depth : Nat) {kind : TokenKind} {text : List Char}
    (hs : Noted config root rs s) (hr : s.tokenizer.Rests text)
    (hl : Lexes .value text kind none rest) (hk : kind = .comma ∨ kind = .rightBrace) :
    Yields (exprOrError (collection (depth + 1) false)) s fun m t => m = Node.errorValue
      ∧ Noted config root (rs ++ [(.error, "Expected value")]) t ∧ t.tokenizer.Rests text := by
  have hne : kind ≠ .lineBreak := by rcases hk with rfl | rfl <;> decide
  have hexpr : Yields (expr (collection (depth + 1) false)) s fun v t => v = none
      ∧ Noted config root (rs ++ [(.error, "Expected value")]) t ∧ t.tokenizer.Rests text := by
    refine Yields.modify_bind (Yields.bind (collection_missing depth hs.discard
      ⟨hr.ahead, hr.rest⟩ hl hk) fun v t ht => ?_)
    obtain ⟨rfl, hst, hcommitted⟩ := ht
    have hfresh : t.tokenizer.reread.Fresh text := ⟨⟨rfl, hcommitted⟩, rfl⟩
    refine Yields.modify_bind (Yields.bind ((hst.rewind true).next
      (hfresh.toRests.poised .value) hl fun _ => hne) fun token u hu => ?_)
    obtain ⟨⟨start, rfl, hands⟩, hsu⟩ := hu
    refine Yields.of_ite (fun h => absurd h (by simp [Token.isLiteral])) fun _ => ?_
    refine Yields.bind (hsu.error _) fun _ v hv => Yields.modify_bind ?_
    have hsince := hfresh.since.hands hands
    refine ⟨rfl, hv.1.rewind true, ?_⟩
    rw [← hv.2] at hsince
    exact hsince.reread.toRests
  refine Yields.bind hexpr fun v t ht => ?_
  obtain ⟨rfl, hst, hrt⟩ := ht
  refine hst.substitute.mono fun m u hu => ?_
  exact ⟨hu.1, hu.2.1, hu.2.2 ▸ hrt⟩

/-! ## Entries -/

theorem exprOrError_entry {depth : Nat} {e : Entry} (he : e.Readable)
    (hlen : ∀ v ∈ e.value, v.chars.length ≤ depth) {c : Char} (hc : c = ',' ∨ c = '}')
    (hs : Noted config root rs s) (hr : s.tokenizer.Rests (e.valueChars ++ c :: rest)) :
    Yields (exprOrError (collection (depth + 1) false)) s fun m t =>
      m.withoutInfo = (e.value.getD (.value "ERROR")).withoutInfo
        ∧ Noted config root (rs ++ if e.value.isNone then [(.error, "Expected value")] else []) t
        ∧ ∃ lead, Overlooked lead ∧ t.tokenizer.Rests (lead ++ c :: rest) := by
  obtain ⟨key, value⟩ := e
  cases value with
  | none =>
    obtain ⟨kind, hk, hl⟩ : ∃ kind, (kind = .comma ∨ kind = .rightBrace)
        ∧ Lexes .value (c :: rest) kind none rest := by
      rcases hc with rfl | rfl
      · exact ⟨.comma, .inl rfl, lexes_sign rfl rest⟩
      · exact ⟨.rightBrace, .inr rfl, lexes_sign rfl rest⟩
    refine (exprOrError_missing depth hs hr hl.blank hk).mono fun m t ht => ?_
    obtain ⟨rfl, hst, hrt⟩ := ht
    exact ⟨rfl, hst, [' '], overlooked_blank, hrt⟩
  | some v =>
    have hv := he v rfl
    have hf : Follow false (c :: rest) := follow_of_closer (by decide) hc false rest
    have hread : Yields (exprOrError (collection (depth + 1) false)) s fun m t =>
        (m.withoutInfo = v.withoutInfo ∧ t.tokenizer.Rests (c :: rest))
          ∧ Noted config root rs t := by
      refine hs.yields (Q := fun m t => m.withoutInfo = v.withoutInfo ∧ t.Rests (c :: rest))
        (heedless_rules.exprOrError (heedless_rules.collection _ _))
        (exprOrError_extends (extends_rules.collection _ _).moves) fun t hq ht => ?_
      have hrt : t.tokenizer.Rests ([' '] ++ (v.chars ++ c :: rest)) := ht ▸ hr
      have hcollection : Yields (collection (depth + 1) false)
          { t with tokenizer := t.tokenizer.discard } fun found u =>
            Collected v ([' '] ++ (v.chars ++ c :: rest)) (c :: rest) found u ∧ Quiet root u :=
        collection_behind overlooked_blank hv.1 hv.2
          (fun m b hk hu hlt => collection_back hk hu (Nat.lt_of_lt_of_le hlt (hlen v rfl)) b)
          hq.discard (hrt.poised .value).discard fun _ => hf
      have hexpr := expr_collected hcollection (by
        rintro word i rfl
        have hliteral : ∃ kind : TokenKind, kind.holdsText = true
            ∧ Lexes .value ((Node.primitive word i).chars ++ c :: rest) kind (some word)
              (c :: rest) := lexes_primitive rfl rfl word i hf.delimited
        exact hliteral.imp fun kind hk => ⟨hk.1, hk.2.blank⟩)
      refine Yields.bind hexpr fun found u hu => ?_
      obtain ⟨⟨m, rfl, hm⟩, hqu, hru⟩ := hu
      exact ⟨⟨hm, hru⟩, hqu⟩
    refine hread.mono fun m t ht => ?_
    refine ⟨ht.1.1, ?_, [], overlooked_nil, ht.1.2⟩
    simpa using ht.2

theorem objectSeparator_noted {inner : Parser (Option Node)} (hlead : Overlooked lead)
    (props : List (String × Node)) {c : Char} (hc : c = ',' ∨ c = '}')
    (hs : Noted config root rs s) (hr : s.tokenizer.Rests (lead ++ c :: rest)) :
    Yields (objectSeparator inner props) s fun r t =>
      r = turnAt c props ∧ Noted config root rs t ∧ t.tokenizer.Rests rest := by
  rcases hc with rfl | rfl
  · refine Yields.bind (hs.next (hr.poised .unexpected)
      (hlead _ _ _ _ _ (lexes_sign rfl rest)) (by simp)) fun token t ht => ?_
    obtain ⟨⟨start, rfl, hands⟩, hst⟩ := ht
    exact ⟨rfl, hst, hands.toRests⟩
  · refine Yields.bind (hs.next (hr.poised .unexpected)
      (hlead _ _ _ _ _ (lexes_sign rfl rest)) (by simp)) fun token t ht => ?_
    obtain ⟨⟨start, rfl, hands⟩, hst⟩ := ht
    exact ⟨rfl, hst, hands.toRests⟩

theorem noteLost_noted (hs : Noted config root rs s) (marks : List Nat) :
    Yields (noteLost marks) s fun _ t => t = s := by
  have hlost : lostWith marks s = s.lost := lostWith_of_none marks hs.quiet.template
  refine Yields.of_modify ?_
  rw [hlost]

/-- The properties kept of the entries read so far, up to the information on nodes. -/
def Kept (es : List Entry) (props : List (String × Node)) : Prop :=
  props.map propertyValue = (propertiesOf es).map propertyValue

theorem Kept.contains_iff {es : List Entry} {props : List (String × Node)} (h : Kept es props)
    (key : String) : Properties.contains key props = true ↔ key ∈ es.map Entry.key := by
  have hkeys : Properties.keys props = Properties.keys (propertiesOf es) := by
    have hfst := congrArg (List.map Prod.fst) h
    simpa [propertyValue, Properties.keys, Function.comp_def] using hfst
  rw [Properties.contains_iff, hkeys, keys_propertiesOf, List.mem_eraseDups]

theorem Kept.step {es : List Entry} {props : List (String × Node)} (h : Kept es props) (e : Entry)
    {m : Node} (hm : m.withoutInfo = (e.value.getD (.value "ERROR")).withoutInfo) :
    Kept (es ++ [e]) (if Properties.contains e.key props then props
      else Properties.put e.key m props) := by
  rw [Kept, propertiesOf_append]
  by_cases hc : e.key ∈ es.map Entry.key
  · rw [if_pos ((h.contains_iff _).mpr hc), if_pos hc]
    exact h
  · have hnew : ¬Properties.contains e.key props = true := fun hd => hc ((h.contains_iff _).mp hd)
    rw [if_neg hnew, if_neg hc,
      Properties.put_append fun hk => hnew (Properties.contains_iff.mpr hk),
      List.map_append, List.map_append, h]
    simp [propertyValue, hm]

/-- The value of an entry is kept if its key is new, and what is wrong with the entry is
reported. -/
theorem objectProperty_entry {depth : Nat} {es : List Entry} {props : List (String × Node)}
    {e : Entry} (hk : Kept es props) (he : e.Readable)
    (hlen : ∀ v ∈ e.value, v.chars.length ≤ depth) {c : Char} (hc : c = ',' ∨ c = '}')
    (kind : TokenKind) (start : Nat) (hs : Noted config root rs s)
    (hr : s.tokenizer.Rests (':' :: (e.valueChars ++ c :: rest))) :
    Yields (objectProperty (collection (depth + 1) false) ⟨kind, start, some e.key⟩ props) s
      fun r t => (∃ ps, r = turnAt c ps ∧ Kept (es ++ [e]) ps)
        ∧ Noted config root (rs ++ e.faults config (es.map Entry.key)) t
        ∧ t.tokenizer.Rests rest := by
  refine hs.discard_next (hr.poised .unexpected) (lexes_sign rfl _) (by simp)
    fun start' t hst ht => ?_
  refine Yields.of_ite (fun h => absurd h (by simp)) fun _ => ?_
  extract_lets duplicate goOn
  have hdup : (duplicate = true) = (e.key ∈ es.map Entry.key) := propext (hk.contains_iff e.key)
  -- What follows the report on a repeated key, if there is one.
  have hvalue (rs' : List (Severity × String)) (u : ParserState) (hsu : Noted config root rs' u)
      (hru : u.tokenizer.Rests (e.valueChars ++ c :: rest)) :
      Yields (goOn ()) u fun r v => (∃ ps, r = turnAt c ps ∧ Kept (es ++ [e]) ps)
        ∧ Noted config root
          (rs' ++ if e.value.isNone then [(.error, "Expected value")] else []) v
        ∧ v.tokenizer.Rests rest := by
    refine Yields.bind (exprOrError_entry he hlen hc hsu hru) fun m v hv => ?_
    obtain ⟨hm, hsv, lead, hlead, hrv⟩ := hv
    refine Yields.bind (noteLost_noted hsv _) fun _ w hw => ?_
    subst hw
    refine (objectSeparator_noted hlead _ hc hsv hrv).mono fun r x hx => ?_
    exact ⟨⟨_, hx.1, hk.step e hm⟩, hx.2⟩
  rw [Entry.faults, ← List.append_assoc]
  refine Yields.of_ite (fun h => ?_) fun h => ?_
  · have hreport : Yields (reportDuplicate e.key start) t fun _ u =>
        Noted config root (rs ++ [(if config.allowDuplicateProperty then .warning else .error,
          s!"Property '{e.key}' is already defined")]) u ∧ u.tokenizer = t.tokenizer := by
      refine Yields.get_bind ?_
      rw [hst.config_eq]
      exact hst.report _
    rw [if_pos (hdup ▸ h)]
    refine Yields.bind hreport fun _ u hu => hvalue _ u hu.1 (hu.2 ▸ ht.toRests)
  · rw [if_neg (hdup ▸ h), List.append_nil]
    exact hvalue rs t hst ht.toRests

theorem objectEntry_entry {depth : Nat} {es : List Entry} {props : List (String × Node)}
    {e : Entry} (hk : Kept es props) (he : e.Readable)
    (hlen : ∀ v ∈ e.value, v.chars.length ≤ depth) {c : Char} (hc : c = ',' ∨ c = '}')
    (hlead : Overlooked lead) (hs : Noted config root rs s)
    (hr : s.tokenizer.Rests (lead ++ (e.chars ++ c :: rest))) :
    Yields (objectEntry (collection (depth + 1) false) props) s fun r t =>
      (∃ ps, r = turnAt c ps ∧ Kept (es ++ [e]) ps)
        ∧ Noted config root (rs ++ e.faults config (es.map Entry.key)) t
        ∧ t.tokenizer.Rests rest := by
  rw [Entry.chars, List.append_assoc, List.cons_append] at hr
  have hend : Ends (rulesOf .key) (':' :: (e.valueChars ++ c :: rest)) := by
    intro d hd
    simp only [List.head?_cons, Option.mem_def, Option.some.injEq] at hd
    subst hd
    rfl
  obtain ⟨kind, hholds, hl⟩ := lexes_written .key rfl (written_writeName e.key) hend
  refine Yields.bind (hs.next (hr.poised .key) (hlead _ _ _ _ _ hl)
    fun _ => TokenKind.ne_of_holdsText hholds rfl) fun token t ht => ?_
  obtain ⟨⟨start, rfl, hands⟩, hst⟩ := ht
  split
  · exact absurd ‹_› (TokenKind.ne_of_holdsText hholds rfl)
  · exact absurd ‹_› (TokenKind.ne_of_holdsText hholds rfl)
  · exact absurd ‹_› (TokenKind.ne_of_holdsText hholds rfl)
  · refine Yields.of_ite (fun _ => ?_) fun h => absurd rfl h
    exact objectProperty_entry hk he hlen hc kind start hst hands.toRests

/-! ## Objects -/

/-- The turns of an object read one entry each; the last one reads the closing brace, too. -/
theorem turns_objectEntry {depth n : Nat} {before es : List Entry} {props : List (String × Node)}
    (hk : Kept before props) (hes : ∀ e ∈ es, e.Readable)
    (hlen : ∀ e ∈ es, ∀ v ∈ e.value, v.chars.length ≤ depth) (hn : es.length < n)
    (hlead : Overlooked lead) (hs : Noted config root rs s)
    (hr : s.tokenizer.Rests (lead ++ (entriesChars es ++ '}' :: rest))) :
    Yields (turns (objectEntry (collection (depth + 1) false)) n props) s fun ps t =>
      Kept (before ++ es) ps
        ∧ Noted config root (rs ++ faultsOf config (before.map Entry.key) es) t
        ∧ t.tokenizer.Rests rest := by
  induction n generalizing before es props rs s lead with
  | zero => omega
  | succ n ih =>
    cases es with
    | nil =>
      -- Only without entries does the brace take a turn of its own.
      refine Yields.bind (Yields.bind (hs.next (hr.poised .key)
        (hlead _ _ _ _ _ (lexes_sign rfl rest)) (by simp)) fun token t ht => ?_)
        (P := fun r t => r = .done props ∧ Noted config root rs t ∧ t.tokenizer.Rests rest)
        fun r t ht => ?_
      · obtain ⟨⟨start, rfl, hands⟩, hst⟩ := ht
        exact ⟨rfl, hst, hands.toRests⟩
      · obtain ⟨rfl, hst, hrt⟩ := ht
        rw [List.append_nil, faultsOf, List.append_nil]
        exact ⟨hk, hst, hrt⟩
    | cons e es =>
      have he := hes e List.mem_cons_self
      have hle := hlen e List.mem_cons_self
      cases es with
      | nil =>
        rw [entriesChars_singleton] at hr
        refine Yields.bind (objectEntry_entry hk he hle (.inr rfl) hlead hs hr) fun r t ht => ?_
        obtain ⟨⟨ps, rfl, hps⟩, hst, hrt⟩ := ht
        rw [turnAt, if_neg (by decide), faultsOf, faultsOf, List.append_nil]
        exact ⟨hps, hst, hrt⟩
      | cons f fs =>
        rw [entriesChars_cons_cons, List.append_assoc, List.cons_append] at hr
        refine Yields.bind (objectEntry_entry hk he hle (.inl rfl) hlead hs hr) fun r t ht => ?_
        obtain ⟨⟨ps, rfl, hps⟩, hst, hrt⟩ := ht
        rw [turnAt, if_pos rfl]
        have hcount : (f :: fs).length < n := by
          simp only [List.length_cons] at hn ⊢
          omega
        refine (ih hps (fun g hg => hes g (List.mem_cons_of_mem e hg))
          (fun g hg => hlen g (List.mem_cons_of_mem e hg)) hcount overlooked_blank hst hrt).mono
          fun qs u hu => ?_
        rw [faultsOf, ← List.append_assoc]
        simpa [List.append_assoc] using hu

theorem topCollection_entries {es : List Entry} (hes : ∀ e ∈ es, e.Readable)
    (hs : Noted config root rs s)
    (hp : s.tokenizer.Poised .value ('{' :: (entriesChars es ++ ['}'])))
    (hcommitted : s.tokenizer.committed.rest = '{' :: (entriesChars es ++ ['}'])) :
    Yields topCollection s fun v t => ∃ m, v = some m
      ∧ m.withoutInfo = (Node.object "" (propertiesOf es) {}).withoutInfo
      ∧ Noted config root (rs ++ faultsOf config [] es) t ∧ t.tokenizer.Rests [] := by
  obtain ⟨hcount, hlen⟩ := length_le_entriesChars es
  have hlength : (entriesChars es ++ ['}']).length = (entriesChars es).length + 1 := by simp
  refine Yields.get_bind ?_
  rw [hcommitted, List.length_cons, hlength]
  refine hs.discard_next hp (lexes_leftBrace .value _) (by simp) fun start t hst ht => ?_
  have hloop : Yields (loop (objectEntry (collection ((entriesChars es).length + 3) false)) []) t
      fun ps u => Kept ([] ++ es) ps ∧ Noted config root (rs ++ faultsOf config [] es) u
        ∧ u.tokenizer.Rests [] := by
    refine Yields.get_bind ?_
    rw [ht.since.committed, List.length_cons, hlength]
    have hkept : Kept [] [] := rfl
    refine turns_objectEntry hkept hes (fun e he v hv => ?_) (by omega) overlooked_nil hst
      ht.toRests
    exact Nat.le_trans (hlen e he v hv) (by omega)
  refine Yields.bind (Yields.bind hloop fun ps u hu => ?_) (P := fun m u =>
    m.withoutInfo = (Node.object "" (propertiesOf es) {}).withoutInfo
      ∧ Noted config root (rs ++ faultsOf config [] es) u ∧ u.tokenizer.Rests [])
    fun m u hu => ⟨m, rfl, hu⟩
  have hobject : ((Node.object "" ps {}).placedAt start).withoutInfo
      = (Node.object "" (propertiesOf es) {}).withoutInfo := by
    rw [withoutInfo_placedAt, withoutInfo, withoutInfo, withoutInfoProperties_eq,
      withoutInfoProperties_eq]
    exact congrArg (Node.object "" · {}) hu.1
  exact ⟨hobject, hu.2⟩

variable {σ : Type}

/-- An object with missing values and repeated keys comes to the first values of its keys, in the
order of their first occurrences, with `ERROR` for a missing one. Each repeated key and each
missing value is reported once, in the order of the entries, and nothing else is. -/
theorem compile_objectText (config : Config) (resolve : Resolver σ) (imports : σ)
    (es : List Entry) (hes : ∀ e ∈ es, e.Readable) :
    let c := (compile config resolve {} (Source.ofText (objectText es)) imports).1
    ∃ m, c.root = [m]
      ∧ m.withoutInfo = (Node.object "" (propertiesOf es) {}).withoutInfo
      ∧ same m (.object "" (propertiesOf es) {}) = true
      ∧ c.reports.map Report.summary = faultsOf config [] es := by
  have hchars : (Source.ofText (objectText es)).chars = '{' :: (entriesChars es ++ ['}']) := by
    rw [chars_ofText (not_mem_chars_objectText es), toList_objectText]
  have hfirst : First "" ('{' :: (entriesChars es ++ ['}'])) .leftBrace none
      (entriesChars es ++ ['}']) :=
    .opening rfl rfl fun _ _ => lexes_leftBrace _ _
  have hstatement := statement_collection (start_noted config (Source.ofText (objectText es)))
    ⟨rfl, hchars⟩ (lexes_leftBrace .plainWord _) hfirst (by decide)
    fun t hst hp hcommitted => topCollection_entries hes hst hp hcommitted
  obtain ⟨m, hroot, hm, hreports⟩ := compile_single resolve imports hstatement
  exact ⟨m, hroot, hm, same_of_withoutInfo _ _ (keyed_propertiesOf hes _) hm, hreports⟩

/-- A key that is repeated, once with its value missing, and a last value that is missing. -/
theorem compile_objectText_repeated :
    let resolve : Resolver Unit := fun _ i => (.crashed, i)
    let es : List Entry := [⟨"a", none⟩, ⟨"b", some (.list "f" true [.value "1"] {})⟩,
      ⟨"a", some (.value "2")⟩, ⟨"a", none⟩, ⟨"c d", none⟩]
    (∀ e ∈ es, e.Readable) ∧
      let c := (compile {} resolve {} (Source.ofText (objectText es)) ()).1
      ∃ m, c.root = [m]
        ∧ m.withoutInfo = .object "" [("a", .value "ERROR"),
          ("b", .list "f" true [.value "1"] {}), ("c d", .value "ERROR")] {}
        ∧ same m (.object "" (propertiesOf es) {}) = true
        ∧ c.reports.map Report.summary = [(.error, "Expected value"),
          (.error, "Property 'a' is already defined"), (.error, "Property 'a' is already defined"),
          (.error, "Expected value"), (.error, "Expected value")] := by
  intro resolve es
  have hes : ∀ e ∈ es, e.Readable := by
    intro e he v hv
    simp only [es, List.mem_cons, List.not_mem_nil, or_false] at he
    rcases he with rfl | rfl | rfl | rfl | rfl
    · cases hv
    · obtain rfl := Option.some.inj hv
      refine ⟨?_, ?_⟩
      · simp [Keyed, KeyedItems, Node.value]
      · simp [Ungrouped, UngroupedItems, Node.value]
    · obtain rfl := Option.some.inj hv
      exact ⟨trivial, trivial⟩
    · cases hv
    · cases hv
  obtain ⟨m, hroot, hm, hsame, hreports⟩ := compile_objectText {} resolve () es hes
  exact ⟨hes, m, hroot, hm.trans (by rfl), hsame, hreports.trans (by decide)⟩

end ConfigScript.Parser
