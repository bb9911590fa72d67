import RoundRobin.Proofs.Rendering

/-!
# The texts of a quantum

A decimal numeral is the digits of its value behind some zeros (`exists_digitsOf`), so reading and
writing a quantum are two sides of one thing: the texts that are read as a word are exactly its
renderings (`denotes_iff_padded`), and those that are refused are listed in `Unreadable`. Main
statement: `parse_exact`.
-/

namespace RoundRobin

namespace Numeral

/-- A digit is the character of a number below ten. -/
theorem exists_digitChar {c : Char} (h : c.isDigit = true) : ∃ d < 10, c = d.digitChar := by
  have hrange := isDigit_iff.1 h
  refine ⟨c.toNat - 48, by omega, ?_⟩
  apply Char.toNat_inj.1
  rw [Nat.toNat_digitChar_of_lt_ten (by omega)]
  omega

/-- Digits that are read behind a positive number stand behind its own digits. -/
theorem toDigits_ofDigitChars {cs : List Char} (h : ∀ c ∈ cs, c.isDigit = true) {n : Nat}
    (hn : 0 < n) : Nat.toDigits 10 (Nat.ofDigitChars 10 cs n) = Nat.toDigits 10 n ++ cs := by
  induction cs generalizing n with
  | nil => rw [Nat.ofDigitChars_nil, List.append_nil]
  | cons c cs ih =>
    rw [List.forall_mem_cons] at h
    obtain ⟨d, hd, rfl⟩ := exists_digitChar h.1
    rw [Nat.ofDigitChars_cons_digitChar_of_lt_ten hd, ih h.2 (by omega),
      ← Nat.toDigits_append_toDigits (by decide) hn hd, Nat.toDigits_of_lt_base hd,
      List.append_assoc, List.singleton_append]

/-- A numeral is the digits of its value, behind some zeros. -/
theorem exists_digitsOf {cs : List Char} (hne : cs ≠ []) (h : ∀ c ∈ cs, c.isDigit = true) :
    ∃ zeros, cs = digitsOf zeros (Nat.ofDigitChars 10 cs 0) := by
  induction cs with
  | nil => exact absurd rfl hne
  | cons c cs ih =>
    rw [List.forall_mem_cons] at h
    obtain ⟨d, hd, rfl⟩ := exists_digitChar h.1
    rw [Nat.ofDigitChars_cons_digitChar_of_lt_ten hd, Nat.mul_zero, Nat.zero_add]
    rcases Nat.eq_zero_or_pos d with rfl | hpos
    · -- a leading zero is one of the extra ones, unless it is all there is
      by_cases hcs : cs = []
      · exact ⟨0, by rw [hcs]; rfl⟩
      · obtain ⟨zeros, hzeros⟩ := ih hcs h.2
        refine ⟨zeros + 1, ?_⟩
        rw [digitsOf, List.replicate_succ, List.cons_append, ← digitsOf, ← hzeros]
        rfl
    · refine ⟨0, ?_⟩
      rw [digitsOf, List.replicate_zero, List.nil_append, toDigits_ofDigitChars h.2 hpos,
        Nat.toDigits_of_lt_base hd, List.singleton_append]

end Numeral

namespace Quantum

variable {text : String} {v : Nat}

/-- A numeral is a rendering of its value. -/
theorem exists_padded (h : IsNumeral text) :
    ∃ zeros, text = Numeral.padded zeros (valueOf text) := by
  have hne : text.toList ≠ [] := mt String.toList_eq_nil_iff.1 h.1
  obtain ⟨zeros, hzeros⟩ := Numeral.exists_digitsOf hne h.2
  refine ⟨zeros, ?_⟩
  rw [Numeral.padded, valueOf, ← hzeros, String.ofList_toList]

/-- The texts that denote a positive word are its renderings. -/
theorem denotes_iff_padded :
    Denotes text v ↔ (0 < v ∧ v < UInt64.size) ∧ ∃ zeros, text = Numeral.padded zeros v := by
  constructor
  · rintro ⟨hnumeral, rfl, hpos, hlt⟩
    exact ⟨⟨hpos, hlt⟩, exists_padded hnumeral⟩
  · rintro ⟨⟨hpos, hlt⟩, zeros, rfl⟩
    exact Numeral.denotes_padded zeros hpos hlt

/-- Why a text denotes no positive word. -/
inductive Unreadable (text : String) : Prop where
  | empty (hempty : text = "")
  /-- A sign, a space or a digit outside ASCII is such a character. -/
  | foreign {c : Char} (hmem : c ∈ text.toList) (hdigit : c.isDigit = false)
  | zero {zeros : Nat} (hzero : text = Numeral.padded zeros 0)
  | tooLarge {zeros n : Nat} (hlarge : UInt64.size ≤ n) (hnumeral : text = Numeral.padded zeros n)

/-- There is no other reason. -/
theorem unreadable_iff : Unreadable text ↔ ¬ ∃ v, Denotes text v := by
  constructor
  · rintro h ⟨v, hnumeral, hvalue, hpos, hlt⟩
    cases h with
    | empty hempty => exact hnumeral.1 hempty
    | foreign hmem hdigit => simp [hnumeral.2 _ hmem] at hdigit
    | zero hzero =>
      rw [hzero, Numeral.valueOf_padded] at hvalue
      omega
    | tooLarge hlarge htext =>
      rw [htext, Numeral.valueOf_padded] at hvalue
      omega
  · intro h
    by_cases hempty : text = ""
    · exact .empty hempty
    · by_cases hdigits : ∀ c ∈ text.toList, c.isDigit = true
      · have hnumeral : IsNumeral text := ⟨hempty, hdigits⟩
        obtain ⟨zeros, hzeros⟩ := exists_padded hnumeral
        by_cases hzero : valueOf text = 0
        · exact .zero (hzero ▸ hzeros)
        · refine .tooLarge (Nat.le_of_not_lt fun hlt => h ?_) hzeros
          exact ⟨_, hnumeral, rfl, Nat.pos_of_ne_zero hzero, hlt⟩
      · obtain ⟨c, hc⟩ := Classical.not_forall.1 hdigits
        obtain ⟨hmem, hnot⟩ := Classical.not_imp.1 hc
        exact .foreign hmem (Bool.eq_false_iff.2 hnot)

/-- A text is refused exactly if there is such a reason, and the error shows the text as it is. -/
theorem parse_eq_error_iff {e : InputError} :
    parse text = .error e ↔ e = .invalidQuantum text ∧ Unreadable text := by
  rw [unreadable_iff]
  constructor
  · intro h
    by_cases hdenotes : ∃ v, Denotes text v
    · obtain ⟨v, hv⟩ := hdenotes
      have hword : (UInt64.ofNat v).toNat = v := UInt64.toNat_ofNat_of_lt' hv.lt_size
      have hok : parse text = .ok (.ofNat v) := parse_eq_ok_iff.2 (hword.symm ▸ hv)
      rw [hok] at h
      cases h
    · rw [parse_eq_error hdenotes, Except.error.injEq] at h
      exact ⟨h.symm, hdenotes⟩
  · rintro ⟨rfl, hdenotes⟩
    exact parse_eq_error hdenotes

/-- A text is read as the positive word that it denotes, and that is the word of which it is a
rendering. All other texts are refused, and the error shows them as they are. -/
theorem parse_exact (text : String) :
    (∀ quantum, parse text = .ok quantum ↔ Denotes text quantum.toNat) ∧
      (∀ quantum, parse text = .ok quantum ↔
        0 < quantum ∧ ∃ zeros, text = Numeral.padded zeros quantum.toNat) ∧
      ∀ e, parse text = .error e ↔ e = .invalidQuantum text ∧ Unreadable text := by
  refine ⟨fun quantum => parse_eq_ok_iff, fun quantum => ?_, fun e => parse_eq_error_iff⟩
  rw [parse_eq_ok_iff, denotes_iff_padded, and_iff_left quantum.toNat_lt_size,
    UInt64.lt_iff_toNat_lt, UInt64.toNat_zero]

example : parse "000018446744073709551615" = .ok Word.top := by cbv

example : parse "018446744073709551616" = .error (.invalidQuantum "018446744073709551616") := by
  cbv

end Quantum

end RoundRobin
