import JuliaReleases.Json.Typed
import JuliaReleases.Proofs.Reading
import JuliaReleases.Proofs.Version.Spelling

/-!
# Literals are read back

A text is written between quotation marks, and a number in decimal digits. The reader of a literal
has to find its end by itself, so the statements are about literals with a text behind them:

* a text may have any text behind it (`JuliaReleases.Json.readString_writeString`), since no mark
  in it stands for itself. The argument goes character by character
  (`JuliaReleases.Json.go_writeChar`);
* a number must have a text behind it that does not carry the number on
  (`JuliaReleases.Json.Ends`, `JuliaReleases.Json.readNumber_write`).
-/

namespace JuliaReleases.Json

/-! ### Texts -/

/-- The characters of an escape are passed over once it has been read. -/
theorem go_length_append (letters rest : Text) :
    readString.go letters.length (letters ++ rest) = readString.go 0 rest := by
  induction letters with
  | nil => rfl
  | cons c letters ih => exact ih

theorem go_escape {c : Char} {letters rest : Text}
    (h : escape (letters ++ rest) = .ok (c, letters.length)) :
    readString.go 0 ('\\' :: letters ++ rest) =
      (fun read => (c :: read.1, read.2)) <$> readString.go 0 rest := by
  rw [List.cons_append, readString.go]
  simp only [if_neg (by decide : ¬ '\\' = '"'), if_true, h]
  rw [← go_length_append letters rest]
  rfl

/-- The digits that a control character is escaped with are those of its number. -/
theorem value?_control : ∀ n < 32,
    Hexadecimal.value? ['0', '0', Nat.digitChar (n / 16), Nat.digitChar (n % 16)] = some n := by
  decide

/-- The escape of a control character stands for it. -/
theorem escape_control {c : Char} (h : c.toNat < 32) (rest : Text) :
    escape ((writeControl c).tail ++ rest) = .ok (c, 5) := by
  have htrailing : isTrailingSurrogate c.toNat = false := by
    simp only [isTrailingSurrogate, Bool.and_eq_false_iff, decide_eq_false_iff_not]
    omega
  have hleading : isLeadingSurrogate c.toNat = false := by
    simp only [isLeadingSurrogate, Bool.and_eq_false_iff, decide_eq_false_iff_not]
    omega
  simp only [writeControl, List.tail_cons, List.cons_append, escape, hexQuad,
    value?_control c.toNat h]
  simp [htrailing, hleading, bind, Except.bind, pure, Except.pure]

/-- **A character is read back**, escaped or not. -/
theorem go_writeChar (c : Char) (rest : Text) :
    readString.go 0 (writeChar c ++ rest) =
      (fun read => (c :: read.1, read.2)) <$> readString.go 0 rest := by
  unfold writeChar
  split
  case h_8 _ hmark hbackslash _ _ _ _ _ =>
    split_ifs with hcontrol
    · have hlt : c.toNat < 32 := by simpa [isControl] using hcontrol
      exact go_escape (escape_control hlt rest)
    · rw [List.singleton_append, readString.go]
      simp only [if_neg hmark, if_neg hbackslash, if_neg hcontrol]
      rfl
  -- What is left are the characters with a letter of their own.
  all_goals exact go_escape rfl

/-- **A text is read back**, whatever it consists of. -/
theorem readString_writeString (text rest : Text) :
    readString (text.flatMap writeChar ++ '"' :: rest) = .ok (text, rest) := by
  induction text with
  | nil => rfl
  | cons c text ih =>
    rw [readString] at ih
    rw [List.flatMap_cons, List.append_assoc, readString, go_writeChar, ih]
    rfl

/-! ### Numbers -/

/-- Whether a text does not carry on a number in front of it. -/
def Ends (rest : Text) : Prop :=
  ∀ c ∈ rest.head?, c.isDigit = false ∧ c ≠ '.' ∧ c ≠ 'e' ∧ c ≠ 'E'

theorem readDigits_append {digits rest : Text} (hne : digits ≠ [])
    (hdigits : ∀ c ∈ digits, c.isDigit = true) (hrest : Ends rest) :
    readDigits (digits ++ rest) = .ok (digits, rest) := by
  obtain ⟨c, more, rfl⟩ := List.exists_cons_of_ne_nil hne
  have hstop : rest.takeWhile Char.isDigit = [] ∧ rest.dropWhile Char.isDigit = rest := by
    cases rest with
    | nil => exact ⟨rfl, rfl⟩
    | cons d rest =>
      have hd : ¬ d.isDigit = true := by simpa using (hrest d rfl).1
      exact ⟨List.takeWhile_cons_of_neg hd, List.dropWhile_cons_of_neg hd⟩
  rw [List.cons_append, readDigits, if_pos (hdigits c List.mem_cons_self), ← List.cons_append,
    List.takeWhile_append_of_pos hdigits, List.dropWhile_append_of_pos hdigits, hstop.1, hstop.2,
    List.append_nil]

theorem readFraction_of_ends {rest : Text} (h : Ends rest) :
    readFraction rest = .ok (none, rest) := by
  unfold readFraction
  split
  · exact absurd rfl (h '.' rfl).2.1
  · rfl

theorem readExponent_of_ends {rest : Text} (h : Ends rest) :
    readExponent rest = .ok (none, rest) := by
  cases rest with
  | nil => rfl
  | cons c rest =>
    obtain ⟨-, -, he, hE⟩ := h c rfl
    exact if_neg (by simp [he, hE])

/-- **A number is read back.** -/
theorem readNumber_write {n : Nat} {rest : Text} (h : n ≤ maxNumber) (hrest : Ends rest) :
    readNumber (Decimal.write n ++ rest) = .ok (some n, rest) := by
  have hdigits := readDigits_append (Decimal.write_ne_nil n)
    (fun c hc => Decimal.isDigit_of_mem_write hc) hrest
  have hwhole : readWhole (Decimal.write n ++ rest) = .ok (Decimal.write n, rest) := by
    rw [readWhole, hdigits]
    simp [Decimal.hasLeadingZero_write, bind, Except.bind, pure, Except.pure]
  obtain ⟨c, digits, hwrite⟩ := List.exists_cons_of_ne_nil (Decimal.write_ne_nil n)
  have hsign : c ≠ '-' := by
    rintro rfl
    exact absurd (Decimal.isDigit_of_mem_write (hwrite ▸ List.mem_cons_self)) (by decide)
  unfold readNumber
  split
  next negative unsigned hunsigned =>
    obtain ⟨rfl, rfl⟩ : negative = false ∧ unsigned = Decimal.write n ++ rest := by
      rw [hwrite, List.cons_append] at hunsigned ⊢
      split at hunsigned
      · next heq => exact absurd (List.cons.inj heq).1 hsign
      · exact ⟨(Prod.mk.inj hunsigned).1.symm, (Prod.mk.inj hunsigned).2.symm⟩
    refine bind_eq_ok_iff.mpr ⟨(Decimal.write n, rest), hwhole, ?_⟩
    refine bind_eq_ok_iff.mpr ⟨(none, rest), readFraction_of_ends hrest, ?_⟩
    refine bind_eq_ok_iff.mpr ⟨(none, rest), readExponent_of_ends hrest, ?_⟩
    simp [Decimal.value_write, h, pure, Except.pure]

end JuliaReleases.Json
