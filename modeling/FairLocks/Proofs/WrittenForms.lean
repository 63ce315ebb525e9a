import Mathlib.Data.List.TakeWhile
import FairLocks.Json.Record
import FairLocks.Json.Writer

/-!
# What is written can be read

A written value stands alone, or it is followed by a comma, by the bracket that closes what it is
part of, or by blank space. Its reader passes over blank space in front of it, takes exactly the
text that was written for it and leaves what follows. That goes for texts, for named alternatives
and for integers.
-/
namespace FairLocks.Json

set_option autoImplicit false

def Blank (l : List Char) : Prop := ∀ c ∈ l, isSpace c = true

instance (l : List Char) : Decidable (Blank l) :=
  decidable_of_iff (l.all isSpace = true) List.all_eq_true

/-- What may follow a value. -/
inductive Delimited : List Char → Prop
  | nothing : Delimited []
  | comma (rest : List Char) : Delimited (',' :: rest)
  | listEnd (rest : List Char) : Delimited (']' :: rest)
  | objectEnd (rest : List Char) : Delimited ('}' :: rest)
  | space {c : Char} (hc : isSpace c = true) (rest : List Char) : Delimited (c :: rest)

/-- The text is a written form of the value for the reader. -/
structure Written {α : Type} (value : Reader α) (text : List Char) (a : α) : Prop where
  /-- Neither blank space nor the end of a list comes first. -/
  starts : ∃ c l, text = c :: l ∧ isSpace c = false ∧ c ≠ ']'
  reads : ∀ {b rest : List Char}, Blank b → Delimited rest →
    value (b ++ (text ++ rest)) = .ok (a, rest)

theorem blank_nil : Blank [] := fun _ hc => absurd hc List.not_mem_nil

theorem skipSpace_cons {c : Char} (hc : isSpace c = false) (l : List Char) :
    skipSpace (c :: l) = c :: l :=
  List.dropWhile_cons_of_neg (by simp [hc])

/-- Blank space in front is passed over. -/
theorem Blank.skipSpace_append {b : List Char} (hb : Blank b) (l : List Char) :
    skipSpace (b ++ l) = skipSpace l :=
  List.dropWhile_append_of_pos hb

theorem Blank.skipSpace_eq {b : List Char} (hb : Blank b) {c : Char} (hc : isSpace c = false)
    (l : List Char) :
    skipSpace (b ++ c :: l) = c :: l := by
  rw [hb.skipSpace_append, skipSpace_cons hc]

theorem Blank.skipSpace_eq_nil {b : List Char} (hb : Blank b) : skipSpace b = [] :=
  List.dropWhile_eq_nil_iff.2 hb

/-- Blank space in front of what may follow a value may follow it too. -/
theorem Blank.delimited {b rest : List Char} (hb : Blank b) (h : Delimited rest) :
    Delimited (b ++ rest) := by
  cases b with
  | nil => exact h
  | cons c b => exact .space (hb c List.mem_cons_self) _

theorem eq_of_isSpace {c : Char} (hc : isSpace c = true) :
    c = ' ' ∨ c = '\n' ∨ c = '\t' ∨ c = '\r' := by
  simpa only [isSpace, Bool.or_eq_true, decide_eq_true_eq, or_assoc] using hc

/-- A whole text may be a value's written form with blank space around it. -/
theorem Written.readWhole_blank {α : Type} {value : Reader α} {b text b' : List Char} {a : α}
    (h : Written value text a) (hb : Blank b) (hb' : Blank b') :
      Json.readWhole value (b ++ (text ++ b')) = .ok a := by
  have hrest := hb'.delimited .nothing
  rw [List.append_nil] at hrest
  simp only [Json.readWhole, h.reads hb hrest, hb'.skipSpace_eq_nil]

theorem Written.readWhole {α : Type} {value : Reader α} {text : List Char} {a : α}
    (h : Written value text a) : Json.readWhole value text = .ok a := by
  simpa using h.readWhole_blank blank_nil blank_nil

/-! ## Texts -/

section

variable (read l : List Char)

theorem readQuoted_quote : readQuoted read ('"' :: l) = .ok (read.reverse, l) := by
  rw [readQuoted]

theorem readQuoted_backslash {c : Char} {r : List Char} (h : readEscape l = .ok (c, r)) :
    readQuoted read ('\\' :: l) = readQuoted (c :: read) r := by
  rw [readQuoted]
  split
  · rename_i hf
    cases h.symm.trans hf
  · rename_i hr
    cases h.symm.trans hr
    rfl

theorem readQuoted_plain {c : Char} (hquote : c ≠ '"') (hback : c ≠ '\\') (hc : ¬ c.toNat < 0x20) :
    readQuoted read (c :: l) = readQuoted (c :: read) l := by
  rw [readQuoted]
  · rw [if_neg hc]
  · exact hquote
  · exact hback

end

/-- What may stand between quotes for a text: its characters, or escapes of them. The escape of a
character beyond the first 65536 is a pair. -/
inductive Spells : List Char → List Char → Prop
  | nil : Spells [] []
  | plain {c : Char} {l s : List Char} (hquote : c ≠ '"') (hback : c ≠ '\\') (hc : ¬ c.toNat < 0x20)
      (more : Spells l s) : Spells (c :: l) (c :: s)
  | short {c e : Char} {l s : List Char} (he : shortEscape? c = some e) (more : Spells l s) :
      Spells ('\\' :: c :: l) (e :: s)
  | hex {w x y z : Char} {n : Nat} {l s : List Char} (digits : fourHex? w x y z = some n)
      (hlow : ¬ IsLowSurrogate n) (hhigh : ¬ IsHighSurrogate n) (more : Spells l s) :
      Spells ('\\' :: 'u' :: w :: x :: y :: z :: l) (Char.ofNat n :: s)
  | pair {w x y z w' x' y' z' : Char} {high low : Nat} {l s : List Char}
      (digits : fourHex? w x y z = some high) (hhigh : IsHighSurrogate high)
      (digits' : fourHex? w' x' y' z' = some low) (hlow : IsLowSurrogate low)
      (more : Spells l s) : Spells
        ('\\' :: 'u' :: w :: x :: y :: z :: '\\' :: 'u' :: w' :: x' :: y' :: z' :: l)
        (ofSurrogates high low :: s)

theorem readEscape_short {c e : Char} (he : shortEscape? c = some e) (l : List Char) :
    readEscape (c :: l) = .ok (e, l) := by
  simp only [readEscape, he]

section

variable {w x y z : Char} {n : Nat} (digits : fourHex? w x y z = some n) (l : List Char)

include digits

theorem readHex_digits : readHex (w :: x :: y :: z :: l) = .ok (n, l) := by simp [readHex, digits]

theorem readEscape_hex (hlow : ¬ IsLowSurrogate n) (hhigh : ¬ IsHighSurrogate n) :
    readEscape ('u' :: w :: x :: y :: z :: l) = .ok (Char.ofNat n, l) := by
  simp [readEscape, shortEscape?, readCodePoint, readHex_digits digits, hlow, hhigh]

theorem readEscape_low (hlow : IsLowSurrogate n) :
    readEscape ('u' :: w :: x :: y :: z :: l) = .error (.before .loneSurrogate l) := by
  simp [readEscape, shortEscape?, readCodePoint, readHex_digits digits, hlow]

theorem readEscape_high (hhigh : IsHighSurrogate n) :
    readEscape ('u' :: w :: x :: y :: z :: l) = readPair n l := by
  have hlow : ¬ IsLowSurrogate n := fun hlow => by
    have := hhigh.2
    have := hlow.1
    omega
  simp [readEscape, shortEscape?, readCodePoint, readHex_digits digits, hlow, hhigh]

theorem readPair_low {high : Nat} (hlow : IsLowSurrogate n) :
    readPair high ('\\' :: 'u' :: w :: x :: y :: z :: l) = .ok (ofSurrogates high n, l) := by
  simp [readPair, expectBetween, readLow, readHex_digits digits, hlow]

end

theorem readEscape_pair {w x y z w' x' y' z' : Char} {high low : Nat}
    (digits : fourHex? w x y z = some high) (hhigh : IsHighSurrogate high)
    (digits' : fourHex? w' x' y' z' = some low) (hlow : IsLowSurrogate low)
    (l : List Char) : readEscape ('u' :: w :: x :: y :: z :: '\\' :: 'u' :: w' :: x' ::
      y' :: z' :: l) =
      .ok (ofSurrogates high low, l) :=
  (readEscape_high digits _ hhigh).trans (readPair_low digits' l hlow)

theorem Spells.readQuoted {body s : List Char} (h : Spells body s) (read l : List Char) :
    readQuoted read (body ++ '"' :: l) = .ok (read.reverse ++ s, l) := by
  induction h generalizing read with
  | nil => simpa using readQuoted_quote read l
  | plain hquote hback hc _ ih =>
    rw [List.cons_append, readQuoted_plain read _ hquote hback hc, ih]
    simp
  | short he _ ih =>
    simp only [List.cons_append]
    rw [readQuoted_backslash read _ (readEscape_short he _), ih]
    simp
  | hex digits hlow hhigh _ ih =>
    simp only [List.cons_append]
    rw [readQuoted_backslash read _ (readEscape_hex digits _ hlow hhigh), ih]
    simp
  | pair digits hhigh digits' hlow _ ih =>
    simp only [List.cons_append]
    rw [readQuoted_backslash read _ (readEscape_pair digits hhigh digits' hlow _), ih]
    simp

/-- A text is read up to the closing quote. -/
theorem Spells.readText {body : List Char} {s : String} (h : Spells body s.toList) (l : List Char) :
    readText (body ++ '"' :: l) = .ok (s, l) := by
  simp [Json.readText, h.readQuoted]

theorem hexDigit?_digitChar : ∀ n < 16, hexDigit? (Nat.digitChar n) = some n := by decide

/-- The digits of a control character. -/
theorem fourHex?_control {c : Char} (hc : c.toNat < 0x20) :
    fourHex? '0' '0' (Nat.digitChar (c.toNat / 16)) (Nat.digitChar (c.toNat % 16)) =
      some c.toNat := by
  have hhigh := hexDigit?_digitChar (c.toNat / 16) (by omega)
  have hlow := hexDigit?_digitChar (c.toNat % 16) (by omega)
  have hzero : hexDigit? '0' = some 0 := by decide
  have hvalue : c.toNat / 16 * 16 + c.toNat % 16 = c.toNat := by omega
  simp [fourHex?, hhigh, hlow, hzero, hvalue]

theorem Spells.escape (c : Char) {l s : List Char} (h : Spells l s) :
    Spells (escape c ++ l) (c :: s) := by
  unfold Json.escape
  split
  case h_8 hquote hback _ _ _ _ _ =>
    split
    · rename_i hc
      have hnotLow : ¬ IsLowSurrogate c.toNat := fun h => absurd h.1 (by omega)
      have hnotHigh : ¬ IsHighSurrogate c.toNat := fun h => absurd h.1 (by omega)
      have hspells := Spells.hex (fourHex?_control hc) hnotLow hnotHigh h
      rwa [Char.ofNat_toNat] at hspells
    · rename_i hc
      exact .plain hquote hback hc h
  -- the escapes of one letter
  all_goals exact .short rfl h

theorem spells_flatMap_escape (s : List Char) : Spells (s.flatMap Json.escape) s := by
  induction s with
  | nil => exact .nil
  | cons c s ih => exact ih.escape c

theorem readText_writeText (l : List Char) (s : String) :
    readText (s.toList.flatMap escape ++ '"' :: l) = .ok (s, l) :=
  (spells_flatMap_escape s.toList).readText l

theorem writeText_append (s : String) (rest : List Char) :
    writeText s ++ rest = '"' :: (s.toList.flatMap escape ++ '"' :: rest) := by
  simp [writeText]

theorem starts_writeText (s : String) : ∃ c l, writeText s = c :: l ∧ isSpace c = false ∧ c ≠ ']' :=
  ⟨'"', _, rfl, by decide, by decide⟩

theorem written_writeText (s : String) : Written readString (writeText s) s where
  starts := starts_writeText s
  reads := by
    intro b rest hb _
    rw [writeText_append, readString, hb.skipSpace_eq (by decide)]
    exact readText_writeText rest s

/-- A named alternative is written as its name. -/
theorem written_name {α : Type} {known : List (String × α)} {name : String} {a : α}
    (h : (known.find? fun v => v.1 = name) = some (name, a)) :
      Written (readVariant known) (writeText name) a where
  starts := starts_writeText name
  reads := by
    intro b rest hb _
    rw [writeText_append, readVariant, hb.skipSpace_eq (by decide)]
    simp [readText_writeText, pick, h]

/-! ## Integers -/

theorem isDigit_digitChar : ∀ n < 10, (Nat.digitChar n).isDigit = true := by decide

theorem digitValue_digitChar : ∀ n < 10, digitValue (Nat.digitChar n) = n := by decide

theorem digitChar_ne_zero : ∀ n < 10, 0 < n → Nat.digitChar n ≠ '0' := by decide

/-- The digits of a number beyond nine are those of its tenth part and one more. -/
theorem toDigits_ten {n : Nat} (hn : 10 ≤ n) :
    Nat.toDigits 10 n = Nat.toDigits 10 (n / 10) ++ [Nat.digitChar (n % 10)] := by
  have happend := Nat.toDigits_append_toDigits (b := 10) (n := n / 10)
    (d := n % 10) (by decide) (by omega)
    (Nat.mod_lt n (by decide))
  rw [Nat.div_add_mod, Nat.toDigits_of_lt_base (Nat.mod_lt n (by decide))] at happend
  exact happend.symm

theorem isDigit_of_mem_toDigits (n : Nat) : ∀ c ∈ Nat.toDigits 10 n, c.isDigit = true := by
  induction n using Nat.strongRecOn with
  | ind n ih =>
    intro c hc
    by_cases hn : n < 10
    · rw [Nat.toDigits_of_lt_base hn, List.mem_singleton] at hc
      rw [hc]
      exact isDigit_digitChar n hn
    · rw [toDigits_ten (by omega), List.mem_append, List.mem_singleton] at hc
      rcases hc with hc | rfl
      · exact ih (n / 10) (by omega) c hc
      · exact isDigit_digitChar _ (by omega)

/-- No number but zero starts with the digit zero. -/
theorem exists_toDigits_eq_cons (n : Nat) :
    ∃ c ds, Nat.toDigits 10 n = c :: ds ∧ c.isDigit = true ∧ (0 < n → c ≠ '0') := by
  induction n using Nat.strongRecOn with
  | ind n ih =>
    by_cases hlt : n < 10
    · exact ⟨_, [], Nat.toDigits_of_lt_base hlt, isDigit_digitChar n hlt, digitChar_ne_zero n hlt⟩
    · obtain ⟨c, ds, hds, hdigit, hzero⟩ := ih (n / 10) (by omega)
      exact ⟨c, _,
        by rw [toDigits_ten (by omega), hds, List.cons_append], hdigit, fun _ => hzero (by omega)⟩

/-- The digits of a number that fits 64 bits are all taken in. -/
theorem ofDigits_toDigits {n : Nat} (hn : n < Nat.pow 2 64) :
    (Significand.ofDigits 0 (Nat.toDigits 10 n)).value = n ∧
      (Significand.ofDigits 0 (Nat.toDigits 10 n)).dropped = 0 := by
  induction n using Nat.strongRecOn with
  | ind n ih =>
    by_cases hlt : n < 10
    · rw [Nat.toDigits_of_lt_base hlt]
      simp [Significand.ofDigits, Significand.push, digitValue_digitChar n hlt, hn]
    · obtain ⟨hvalue, hdropped⟩ := ih (n / 10) (by omega) (by omega)
      have hsum : n / 10 * 10 + n % 10 = n := by omega
      rw [toDigits_ten (by omega)]
      simp only [Significand.ofDigits, List.foldl_append, List.foldl_cons,
        List.foldl_nil] at hvalue hdropped ⊢
      simp [Significand.push, hvalue, hdropped, digitValue_digitChar (n % 10) (by omega), hsum, hn]

/-- The text does not go on with a digit. -/
def NoDigit (l : List Char) : Prop := ∀ c ∈ l.head?, c.isDigit = false

theorem Delimited.noDigit {rest : List Char} (h : Delimited rest) : NoDigit rest := by
  intro c hc
  cases h with
  | nothing => cases hc
  | comma | listEnd | objectEnd =>
    cases hc
    rfl
  | space hspace =>
    cases hc
    obtain rfl | rfl | rfl | rfl := eq_of_isSpace hspace <;> rfl

theorem NoDigit.any_head? {l : List Char} (h : NoDigit l) : l.head?.any Char.isDigit = false := by
  cases l with
  | nil => rfl
  | cons c l => exact h c rfl

theorem NoDigit.dropWhile_eq {rest : List Char} (h : NoDigit rest) {ds : List Char}
    (hds : ∀ c ∈ ds, c.isDigit = true) : (ds ++ rest).dropWhile Char.isDigit = rest := by
  rw [List.dropWhile_append_of_pos hds]
  cases rest with
  | nil => rfl
  | cons c rest => exact List.dropWhile_cons_of_neg (by simp [h c rfl])

/-- The digits end where there is no digit. -/
theorem NoDigit.splitDigits {rest : List Char} (h : NoDigit rest) {ds : List Char}
    (hds : ∀ c ∈ ds, c.isDigit = true) : splitDigits (ds ++ rest) = (ds, rest) := by
  have hstop : rest.takeWhile Char.isDigit = [] := by
    cases rest with
    | nil => rfl
    | cons c rest => exact List.takeWhile_cons_of_neg (by simp [h c rfl])
  rw [Json.splitDigits, h.dropWhile_eq hds, List.takeWhile_append_of_pos hds, hstop,
    List.append_nil]

/-- In front of a delimiter a number has neither point nor exponent. -/
theorem Delimited.readTail {rest : List Char} (h : Delimited rest) (negative : Bool)
    (s : Significand) :
    readTail negative s rest = integer negative s rest := by
  cases h with
  | nothing | comma | listEnd | objectEnd => rfl
  | space hspace => obtain rfl | rfl | rfl | rfl := eq_of_isSpace hspace <;> rfl

theorem Delimited.readNumber {rest : List Char} (h : Delimited rest) (negative : Bool) {n : Nat}
    (hn : n < Nat.pow 2 64) : ∃ s : Significand, s.value = n ∧ s.dropped = 0 ∧
      readNumber negative (Nat.toDigits 10 n ++ rest) = integer negative s rest := by
  rcases Nat.eq_zero_or_pos n with rfl | hpos
  · refine ⟨{}, rfl, rfl, ?_⟩
    have hhead : rest.head?.any Char.isDigit = false := h.noDigit.any_head?
    rw [Nat.toDigits_zero, List.singleton_append, Json.readNumber, if_pos rfl, hhead,
      if_neg (by decide), h.readTail]
  · obtain ⟨c, ds, hds, hdigit, hzero⟩ := exists_toDigits_eq_cons n
    have hsplit := h.noDigit.splitDigits (isDigit_of_mem_toDigits n)
    have hvalue := ofDigits_toDigits hn
    rw [hds] at hsplit hvalue ⊢
    refine ⟨Significand.ofDigits 0 (c :: ds), hvalue.1, hvalue.2, ?_⟩
    rw [List.cons_append] at hsplit ⊢
    rw [Json.readNumber, if_neg (hzero hpos), if_pos hdigit, hsplit]
    exact h.readTail _ _

theorem Delimited.readNumber_natural {rest : List Char} (h : Delimited rest) {n : Nat}
    (hn : n < Nat.pow 2 64) : Json.readNumber false (Nat.toDigits 10 n ++ rest) =
      .ok (.natural n, rest) := by
  obtain ⟨s, hvalue, hdropped, hread⟩ := h.readNumber false hn
  simp [hread, integer, hdropped, hvalue]

/-- Zero has no sign, and a sign takes one bit. -/
theorem Delimited.readNumber_negative {rest : List Char} (h : Delimited rest) {n : Nat}
    (hpos : 0 < n) (hn : n ≤ Nat.pow 2 63) :
    Json.readNumber true (Nat.toDigits 10 n ++ rest) = .ok (.negative (-n), rest) := by
  have hbits : n < Nat.pow 2 64 := Nat.lt_of_le_of_lt hn (by decide)
  have hsign : ¬ (n = 0 ∨ Nat.pow 2 63 < n) := by omega
  obtain ⟨s, hvalue, hdropped, hread⟩ := h.readNumber true hbits
  rw [hread, integer, hvalue, if_neg (by simpa using hdropped), if_neg (by decide), if_neg hsign]

theorem isSpace_eq_false_of_isDigit {c : Char} (hc : c.isDigit = true) : isSpace c = false := by
  rw [Bool.eq_false_iff]
  intro hspace
  simp only [isSpace, Bool.or_eq_true, decide_eq_true_eq] at hspace
  obtain ((rfl | rfl) | rfl) | rfl := hspace <;> cases hc

/-- The integer is one of the kind. -/
def IntegerKind.Has (kind : IntegerKind) (i : Int) : Prop := kind.least ≤ i ∧ i ≤ kind.greatest

instance (kind : IntegerKind) (i : Int) : Decidable (kind.Has i) :=
  inferInstanceAs (Decidable (_ ∧ _))

/-- An integer of a kind within 64 bits, with or without sign, can be read. -/
theorem written_writeInt {kind : IntegerKind} {i : Int} (hi : kind.Has i)
    (hleast : -9223372036854775808 ≤ i)
    (hgreatest : i ≤ 18446744073709551615) : Written (readInteger kind) (writeInt i) i := by
  have hsigned : Nat.pow 2 63 = 9223372036854775808 := rfl
  have hunsigned : Nat.pow 2 64 = 18446744073709551616 := rfl
  cases i with
  | ofNat n =>
    have hn : n < Nat.pow 2 64 := by
      rw [Int.ofNat_eq_natCast] at hgreatest
      omega
    obtain ⟨c, ds, hds, hdigit, -⟩ := exists_toDigits_eq_cons n
    have hspace := isSpace_eq_false_of_isDigit hdigit
    have hclose : c ≠ ']' := by
      rintro rfl
      cases hdigit
    have hsign : c ≠ '-' := by
      rintro rfl
      cases hdigit
    refine ⟨⟨c, ds, hds, hspace, hclose⟩, ?_⟩
    intro b rest hb hrest
    have hread := hrest.readNumber_natural hn
    rw [hds, List.cons_append] at hread
    rw [writeInt, hds, List.cons_append, readInteger, hb.skipSpace_eq hspace]
    simp only [if_neg hsign, if_pos hdigit, hread]
    exact if_pos hi
  | negSucc n =>
    have hn : n + 1 ≤ Nat.pow 2 63 := by
      rw [Int.negSucc_eq] at hleast
      omega
    refine ⟨⟨'-', _, rfl, by decide, by decide⟩, ?_⟩
    intro b rest hb hrest
    have hread := hrest.readNumber_negative (Nat.succ_pos n) hn
    rw [writeInt, List.cons_append, readInteger, hb.skipSpace_eq (by decide)]
    simp only [if_pos, hread]
    exact if_pos hi

theorem written_id {i : Int} (hi : signed64.Has i) : Written readId (writeInt i) i := by
  have hrange : -9223372036854775808 ≤ i ∧ i ≤ 9223372036854775807 := hi
  exact written_writeInt hi (by omega) (by omega)

theorem written_count {n : Nat} (hn : unsigned64.Has n) : Written readCount (writeInt n) n := by
  have hrange : 0 ≤ (n : Int) ∧ (n : Int) ≤ 18446744073709551615 := hn
  have hwritten := written_writeInt hn (by omega) (by omega)
  refine ⟨hwritten.starts, ?_⟩
  intro b rest hb hrest
  rw [readCount, hwritten.reads hb hrest]
  rfl

end FairLocks.Json
