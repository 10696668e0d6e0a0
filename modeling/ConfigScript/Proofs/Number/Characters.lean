import ConfigScript.Number.Reading
import ConfigScript.Number.Shortest
import ConfigScript.Proofs.Text.Literal

/-! # Characters of written numbers

A number is written with digits, a sign, a point and letters, and so in one bare word. -/

namespace ConfigScript

open Text

namespace Number

theorem bare_toDigits (n : Nat) : Bare (Nat.toDigits 10 n) :=
  fun _ hc => bareChar_of_isDigit (Nat.isDigit_of_mem_toDigits (by decide) (by decide) hc)

theorem bare_zeros (n : Nat) : Bare (List.replicate n '0') := by
  intro c hc
  rw [List.eq_of_mem_replicate hc]
  decide

theorem bare_positional (digits : Nat) (exponent : Int) :
    Bare (positional digits exponent).toList := by
  have hdigits : Bare (((Nat.toDigits 10 digits).reverse.dropWhile (· == '0')).reverse) := by
    intro c hc
    rw [List.mem_reverse] at hc
    exact bare_toDigits digits c (List.mem_reverse.mp ((List.dropWhile_suffix _).subset hc))
  have hzero : Bare "0.".toList := by decide
  have hpoint : Bare ".".toList := by decide
  unfold positional
  extract_lets cs point
  split
  · exact (by decide : Bare "0".toList)
  · split
    · simp only [String.toList_append, String.toList_ofList]
      exact bare_append.mpr ⟨hzero, bare_append.mpr ⟨bare_zeros _, hdigits⟩⟩
    · split
      · rw [String.toList_ofList]
        exact bare_append.mpr ⟨hdigits, bare_zeros _⟩
      · simp only [String.toList_append, String.toList_ofList]
        refine bare_append.mpr ⟨bare_append.mpr ⟨?_, hpoint⟩, ?_⟩
        · exact fun c hc => hdigits c (List.mem_of_mem_take hc)
        · exact fun c hc => hdigits c (List.mem_of_mem_drop hc)

theorem bare_text (x : Number) : Bare x.text.toList := by
  have hbody (body : String) (h : Bare body.toList) :
      Bare (if x.isNegative then "-" ++ body else body).toList := by
    split
    · rw [String.toList_append]
      exact bare_append.mpr ⟨(by decide : Bare "-".toList), h⟩
    · exact h
  unfold text
  split
  · exact (by decide : Bare "NaN".toList)
  · refine hbody _ ?_
    split
    · exact (by decide : Bare "inf".toList)
    · split
      · exact (by decide : Bare "0".toList)
      · exact bare_positional _ _

/-! ## Indices -/

theorem digitsValue_toDigits (n : Nat) : digitsValue (Nat.toDigits 10 n) = n := by
  have hvalue : digitsValue (Nat.toDigits 10 n) = Nat.ofDigitChars 10 (Nat.toDigits 10 n) 0 := by
    simp only [digitsValue, Nat.ofDigitChars, Nat.mul_comm 10]
  rw [hvalue, Nat.ofDigitChars_toDigits (by decide) (by decide)]

theorem isDigit_of_mem_repr {n : Nat} {c : Char} (h : c ∈ (toString n).toList) :
    c.isDigit = true := by
  rw [Nat.toString_eq_repr, Nat.toList_repr] at h
  exact Nat.isDigit_of_mem_toDigits (by decide) (by decide) h

theorem readIndex?_toString {n : Nat} (h : n < twoPow 64) : readIndex? (toString n) = some n := by
  have hdigits : ∀ c ∈ (toString n).toList, c.isDigit = true := fun c => isDigit_of_mem_repr
  have hall : (toString n).toList.all Char.isDigit = true := List.all_eq_true.mpr hdigits
  have hvalue : digitsValue (toString n).toList = n := by
    rw [Nat.toString_eq_repr, Nat.toList_repr, digitsValue_toDigits]
  have hne : (toString n).toList ≠ [] := by
    rw [Nat.toString_eq_repr, Nat.toList_repr]
    exact Nat.toDigits_ne_nil
  unfold readIndex? readInt?
  cases hs : (toString n).toList with
  | nil => exact absurd hs hne
  | cons c cs =>
    rw [hs] at hdigits hall hvalue
    have hc : c ≠ '-' ∧ c ≠ '+' := by
      have hdigit := hdigits c List.mem_cons_self
      constructor <;> rintro rfl <;> exact absurd hdigit (by decide)
    have hsign : takeSign (c :: cs) = (false, c :: cs) := by
      unfold takeSign
      split <;> simp_all
    have hfits : decide (n < twoPow 64) = true := decide_eq_true h
    simp [hsign, hc.1, hall, hvalue, hfits]

theorem ne_nil_of_readTrimmed? {s : String} {x : Number} (h : readTrimmed? s = some x) :
    s.toList ≠ [] := by
  intro he
  have hn : read? (trimBlank []) = none := by decide
  simp [readTrimmed?, he, hn] at h

end Number

end ConfigScript
