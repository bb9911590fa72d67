import RoundRobin.Pipeline

/-!
# Which texts are a quantum

A quantum is read from the bytes of a text. Said of its characters: they are decimal digits, at
least one of them, and the value of the numeral is positive and below `2 ^ 64` (`parse_eq_ok_iff`).
-/

namespace RoundRobin

theorem toList_loop (bytes : ByteArray) (i : Nat) (before : List UInt8) :
    ByteArray.toList.loop bytes i before = before.reverse ++ bytes.data.toList.drop i := by
  induction i, before using ByteArray.toList.loop.induct bytes with
  | case1 i before hlt ih =>
    have hlen : i < bytes.data.toList.length := hlt
    have hbyte : bytes.get! i = bytes.data.toList[i] := by
      rw [Array.getElem_toList]
      exact getElem!_pos bytes.data i hlt
    rw [ByteArray.toList.loop, if_pos hlt, ih, hbyte, List.reverse_cons, List.append_assoc,
      List.singleton_append, List.getElem_cons_drop]
  | case2 i before hge =>
    have hlen : bytes.data.toList.length ≤ i := Nat.le_of_not_lt hge
    rw [ByteArray.toList.loop, if_neg hge, List.drop_eq_nil_of_le hlen, List.append_nil]

/-- The bytes of a text are those of its characters. -/
theorem toList_toUTF8 (text : String) :
    text.toUTF8.toList = text.toList.flatMap String.utf8EncodeChar := by
  have hbytes : text.toUTF8 = text.toList.utf8Encode := by
    conv => lhs; rw [← String.ofList_toList (s := text)]
    exact String.toByteArray_ofList
  rw [hbytes, ByteArray.toList, toList_loop, List.utf8Encode, List.data_toByteArray]
  rfl

theorem isDigit_iff {c : Char} : c.isDigit = true ↔ 48 ≤ c.toNat ∧ c.toNat ≤ 57 :=
  Char.isDigit_iff_toNat

namespace Numeral

theorem isDigit_ofNat {n : Nat} (hn : n < 256) :
    isDigit (UInt8.ofNat n) = true ↔ 48 ≤ n ∧ n ≤ 57 := by
  rw [isDigit, Bool.and_eq_true, decide_eq_true_iff, decide_eq_true_iff, UInt8.le_iff_toNat_le,
    UInt8.le_iff_toNat_le, UInt8.toNat_ofNat_of_lt' hn]
  rfl

theorem utf8EncodeChar_of_le {c : Char} (hc : c.toNat ≤ 127) :
    String.utf8EncodeChar c = [UInt8.ofNat c.toNat] := by
  unfold String.utf8EncodeChar
  exact if_pos hc

/-- Outside ASCII, the first byte of a character is no digit. -/
theorem utf8EncodeChar_of_lt {c : Char} (hc : 127 < c.toNat) :
    ∃ byte rest, String.utf8EncodeChar c = byte :: rest ∧ isDigit byte = false := by
  have hfirst : ∀ n, n < 64 → isDigit (UInt8.ofNat (n + 192)) = false := by
    intro n hn
    rw [← Bool.not_eq_true, isDigit_ofNat (by omega)]
    omega
  have hnot : ¬ c.val.toNat ≤ 127 := Nat.not_le_of_lt hc
  simp only [String.utf8EncodeChar, if_neg hnot]
  split
  · exact ⟨_, _, rfl, hfirst _ (by omega)⟩
  · split
    · exact ⟨_, _, rfl, hfirst (c.val.toNat / 4096 % 16 + 32) (by omega)⟩
    · exact ⟨_, _, rfl, hfirst (c.val.toNat / 262144 % 8 + 48) (by omega)⟩

/-- The bytes of a character are digits exactly if it is one. -/
theorem all_isDigit_utf8EncodeChar (c : Char) :
    (String.utf8EncodeChar c).all isDigit = c.isDigit := by
  rw [Bool.eq_iff_iff, isDigit_iff]
  by_cases hc : c.toNat ≤ 127
  · rw [utf8EncodeChar_of_le hc, List.all_cons, List.all_nil, Bool.and_true,
      isDigit_ofNat (by omega)]
  · obtain ⟨byte, rest, hbytes, hbyte⟩ := utf8EncodeChar_of_lt (Nat.lt_of_not_le hc)
    rw [hbytes, List.all_cons, hbyte, Bool.false_and]
    simp only [Bool.false_eq_true, false_iff]
    omega

end Numeral

namespace Quantum

/-- A text is a numeral: its characters are digits, and there is at least one. -/
def IsNumeral (text : String) : Prop :=
  text ≠ "" ∧ ∀ c ∈ text.toList, c.isDigit = true

/-- The value of a text as a decimal numeral. -/
def valueOf (text : String) : Nat :=
  Nat.ofDigitChars 10 text.toList 0

/-- A text denotes a positive word: it is a numeral with a positive value below `2 ^ 64`. -/
structure Denotes (text : String) (v : Nat) : Prop where
  numeral : IsNumeral text
  value : valueOf text = v
  pos : 0 < v
  lt_size : v < UInt64.size

variable {text : String}

theorem toUTF8_eq_nil_iff : text.toUTF8.toList = [] ↔ text = "" := by
  rw [toList_toUTF8, List.flatMap_eq_nil_iff, ← String.toList_eq_nil_iff,
    List.eq_nil_iff_forall_not_mem]
  exact forall₂_congr fun c _ => iff_false_intro String.utf8EncodeChar_ne_nil

theorem all_isDigit_toUTF8 (text : String) :
    text.toUTF8.toList.all Numeral.isDigit = text.toList.all Char.isDigit := by
  rw [toList_toUTF8, List.all_flatMap]
  simp only [Numeral.all_isDigit_utf8EncodeChar]

/-- The look at the bytes finds out whether a text is a numeral. -/
theorem isNumeral_iff : IsNumeral text ↔
    (text.toUTF8.toList.isEmpty || !text.toUTF8.toList.all Numeral.isDigit) = false := by
  rw [all_isDigit_toUTF8, Bool.or_eq_false_iff, Bool.not_eq_false', List.all_eq_true,
    ← Bool.not_eq_true, List.isEmpty_iff, toUTF8_eq_nil_iff]
  rfl

/-- The value of the bytes of a numeral is that of its characters. -/
theorem value_toUTF8 (h : IsNumeral text) : Numeral.value text.toUTF8.toList = valueOf text := by
  obtain ⟨_, hdigits⟩ := h
  rw [toList_toUTF8, Numeral.value, valueOf, Nat.ofDigitChars]
  generalize 0 = v
  generalize text.toList = cs at hdigits
  induction cs generalizing v with
  | nil => rfl
  | cons c cs ih =>
    rw [List.forall_mem_cons] at hdigits
    have hdigit := isDigit_iff.1 hdigits.1
    have hbyte : c.toNat < UInt8.size := Nat.lt_of_le_of_lt hdigit.2 (by decide)
    have hvalue : Numeral.digitValue (UInt8.ofNat c.toNat) = c.toNat - '0'.toNat := by
      rw [Numeral.digitValue, UInt8.toNat_ofNat_of_lt' hbyte]
      rfl
    rw [List.flatMap_cons, Numeral.utf8EncodeChar_of_le (by omega), List.singleton_append,
      List.foldl_cons, List.foldl_cons, hvalue, ih _ hdigits.2]

theorem parse_of_numeral (h : IsNumeral text) :
    parse text =
      if 0 < valueOf text ∧ valueOf text < UInt64.size then .ok (.ofNat (valueOf text))
      else .error (.invalidQuantum text) := by
  simp only [parse, isNumeral_iff.1 h, Bool.false_eq_true, if_false]
  rw [Numeral.below_eq (by decide), value_toUTF8 h]
  by_cases hlt : valueOf text < UInt64.size
  · by_cases hzero : valueOf text = 0
    · simp only [if_pos hlt, if_pos hzero]
      rw [if_neg fun hrange => absurd hzero (Nat.ne_of_gt hrange.1)]
    · simp only [if_pos hlt, if_neg hzero]
      rw [if_pos ⟨Nat.pos_of_ne_zero hzero, hlt⟩]
  · simp only [if_neg hlt]
    rw [if_neg fun hrange => hlt hrange.2]

theorem parse_of_not_numeral (h : ¬ IsNumeral text) :
    parse text = .error (.invalidQuantum text) := by
  rw [isNumeral_iff, Bool.not_eq_false] at h
  simp only [parse, h, if_true]

/-- A text is read as the positive word that it denotes. -/
theorem parse_eq_ok_iff {quantum : Ticks} :
    parse text = .ok quantum ↔ Denotes text quantum.toNat := by
  by_cases hnumeral : IsNumeral text
  · rw [parse_of_numeral hnumeral]
    constructor
    · intro h
      split at h
      · next hrange =>
        cases h
        rw [UInt64.toNat_ofNat_of_lt' hrange.2]
        exact ⟨hnumeral, rfl, hrange.1, hrange.2⟩
      · cases h
    · intro h
      rw [h.value, if_pos ⟨h.pos, h.lt_size⟩, UInt64.ofNat_toNat]
  · rw [parse_of_not_numeral hnumeral]
    constructor
    · intro h
      cases h
    · intro h
      exact absurd h.numeral hnumeral

/-- A text that denotes no positive word is refused. -/
theorem parse_eq_error (h : ¬ ∃ v, Denotes text v) :
    parse text = .error (.invalidQuantum text) := by
  by_cases hnumeral : IsNumeral text
  · rw [parse_of_numeral hnumeral, if_neg]
    intro hrange
    exact h ⟨valueOf text, hnumeral, rfl, hrange.1, hrange.2⟩
  · exact parse_of_not_numeral hnumeral

end Quantum

end RoundRobin
