import Mathlib.Data.List.DropRight
import FairLocks.Proofs.Grammar

/-!
# A value is taken or refused

What a reader does with a well-formed value does not depend on what follows it: it takes exactly the
value, or it refuses it. That goes for the readers of texts, integers and named alternatives. What
stands between quotes is refused as a text exactly when it spells none.
-/
namespace FairLocks.Json

set_option autoImplicit false

/-! ## Numbers -/

/-- The reader takes exactly the text, or refuses it, whatever follows. -/
def Settled {β : Type} (read : Reader β) (text : List Char) : Prop :=
  (∃ a, ∀ {rest : List Char}, Delimited rest → read (text ++ rest) = .ok (a, rest)) ∨
    ∀ {rest : List Char}, Delimited rest → ∃ f, read (text ++ rest) = .error f

/-- What reads on like something else is settled with it. -/
theorem Settled.congr {β : Type} {read read' : Reader β} {text text' : List Char}
    (h : Settled read text)
    (same : ∀ {rest : List Char}, Delimited rest → read' (text' ++ rest) = read (text ++ rest)) :
    Settled read' text' := by
  rcases h with ⟨a, h⟩ | h
  · exact .inl ⟨a, fun hrest => (same hrest).trans (h hrest)⟩
  · refine .inr fun hrest => ?_
    rw [same hrest]
    exact h hrest

/-- What comes after a text that is taken may refuse what was read. -/
theorem Settled.bind {β γ : Type} {read : Reader β} {next : β → Reader γ} {text : List Char}
    (h : Settled read text)
    (more : ∀ x, Settled (next x) []) : Settled (fun l =>
      match read l with
      | .error f => .error f
      | .ok (x, r) => next x r) text := by
  rcases h with ⟨x, hx⟩ | h
  · refine (more x).congr fun hrest => ?_
    simp only [hx hrest, List.nil_append]
  · refine .inr fun hrest => ?_
    obtain ⟨f, hf⟩ := h hrest
    exact ⟨f, by simp only [hf]⟩

theorem settled_floatOf (negative : Bool) (significand : Nat) (exponent : Int) :
    Settled (floatOf negative significand exponent) [] := by
  unfold floatOf
  cases Decimal.Binary64.ofDecimal? significand exponent with
  | some x => exact .inl ⟨_, fun _ => rfl⟩
  | none => exact .inr fun _ => ⟨_, rfl⟩

theorem settled_integer (negative : Bool) (s : Significand) : Settled (integer negative s) [] := by
  unfold integer
  by_cases hdropped : s.dropped ≠ 0
  · simp only [if_pos hdropped]
    exact settled_floatOf negative s.value s.dropped
  simp only [if_neg hdropped]
  by_cases hpositive : (!negative) = true
  · simp only [if_pos hpositive]
    exact .inl ⟨.natural s.value, fun _ => rfl⟩
  simp only [if_neg hpositive]
  by_cases hwide : s.value = 0 ∨ Nat.pow 2 63 < s.value
  · simp only [if_pos hwide]
    exact settled_floatOf negative s.value 0
  · simp only [if_neg hwide]
    exact .inl ⟨.negative (-s.value), fun _ => rfl⟩

theorem settled_readExponent (great : Bool) (exponent : Nat) {ds : List Char} (hds : Digits ds) :
    Settled (readExponent great exponent) ds := by
  induction ds generalizing exponent with
  | nil =>
    refine .inl ⟨some exponent, fun {rest} hrest => ?_⟩
    cases rest with
    | nil => rfl
    | cons c rest => simp [readExponent, hrest.noDigit c rfl]
  | cons d ds ih =>
    obtain ⟨hd, hds⟩ := List.forall_mem_cons.1 hds
    by_cases hnext : exponent * 10 + digitValue d ≤ greatestExponent
    · simpa [Settled, readExponent, hd, hnext] using ih (exponent * 10 + digitValue d) hds
    · cases great with
      | true => exact .inr fun {rest} _ => ⟨_, by simp [readExponent, hd, hnext]; rfl⟩
      | false =>
        refine .inl ⟨none, fun {rest} hrest => ?_⟩
        simp [readExponent, hd, hnext, hrest.noDigit.dropWhile_eq hds]

theorem settled_readScaled (negative : Bool) (significand : Nat) (power : Int)
    {sign ds : List Char} {d : Char}
    (hsign : sign ∈ [[], ['+'], ['-']]) (hd : d.isDigit = true) (hds : Digits ds) :
    Settled (readScaled negative significand power) (sign ++ d :: ds) := by
  -- the sign and the first digit are read whatever follows
  have hsplit (rest : List Char) :
      exponentSign (sign ++ d :: ds ++ rest) = (decide (sign = ['-']), d :: (ds ++ rest)) := by
    rw [List.append_assoc, List.cons_append, exponentSign_append hsign hd]
  rcases settled_readExponent (significand ≠ 0 && !decide (sign = ['-']))
    (digitValue d) hds with ⟨e, he⟩ | he
  · cases e with
    | none =>
      exact .inl ⟨.float negative Decimal.Binary64.zero, fun hrest => by
        simp only [readScaled, hsplit, hd, if_true, he hrest]⟩
    | some e =>
      refine (settled_floatOf negative significand
        (if decide (sign = ['-']) then power - e else power + e)).congr ?_
      intro rest hrest
      simp only [readScaled, hsplit, hd, if_true, he hrest, List.nil_append]
  · refine .inr fun hrest => ?_
    obtain ⟨f, hf⟩ := he hrest
    exact ⟨f, by simp only [readScaled, hsplit, hd, if_true, hf]⟩

/-- With an exponent or without, a number is read to its end. -/
theorem IsExponent.settled {exponent : List Char} (h : IsExponent exponent) (negative : Bool)
    (s : Significand) :
    Settled (readTail negative s) exponent := by
  cases h with
  | none => exact (settled_integer negative s).congr fun hrest => hrest.readTail negative s
  | some he hsign hd hds =>
    have hscaled := settled_readScaled negative s.value s.dropped hsign hd hds
    rcases he with rfl | rfl <;> exact hscaled

theorem IsFraction.settled {fraction exponent : List Char} (h : IsFraction fraction)
    (hexponent : IsExponent exponent)
    (negative : Bool) (s : Significand) : Settled (readTail negative s) (fraction ++ exponent) := by
  cases h with
  | none => exact hexponent.settled negative s
  | @some d ds hd hds =>
    let s' := Significand.ofDigits s.value (d :: ds)
    have hsplit {rest : List Char} (hrest : Delimited rest) :
        splitDigits (d :: (ds ++ (exponent ++ rest))) = (d :: ds, exponent ++ rest) :=
      (hexponent.noDigit hrest).splitDigits (List.forall_mem_cons.2 ⟨hd, hds⟩)
    cases hexponent with
    | none =>
      refine (settled_floatOf negative s'.value (s.dropped - s'.taken)).congr fun {rest} hrest => ?_
      have hsplit := hsplit hrest
      simp only [List.append_nil, List.nil_append, List.cons_append] at hsplit ⊢
      simp only [readTail, readFraction, hsplit]
      cases hrest with
      | nothing | comma | listEnd | objectEnd => rfl
      | space hspace => obtain rfl | rfl | rfl | rfl := eq_of_isSpace hspace <;> rfl
    | some he hsign hd' hds' =>
      refine (settled_readScaled negative s'.value (s.dropped - s'.taken) hsign hd' hds').congr
        fun {rest} hrest => ?_
      have hsplit := hsplit hrest
      simp only [List.append_assoc, List.cons_append] at hsplit ⊢
      simp only [readTail, readFraction, hsplit]
      rcases he with rfl | rfl <;> rfl

theorem IsUnsigned.settled {l : List Char} (h : IsUnsigned l) (negative : Bool) :
    Settled (readNumber negative) l := by
  obtain ⟨hwhole, hfraction, hexponent⟩ := h
  have hend {rest : List Char} (hrest : Delimited rest) :=
    hfraction.noDigit (hexponent.noDigit hrest)
  cases hwhole with
  | zero =>
    refine (hfraction.settled hexponent negative {}).congr fun {rest} hrest => ?_
    simp only [List.append_assoc, List.cons_append, List.nil_append, readNumber, if_true,
      (hend hrest).any_head?]
    exact if_neg (by decide)
  | @digits d ds hd hzero hds =>
    have hall : Digits (d :: ds) := List.forall_mem_cons.2 ⟨hd, hds⟩
    refine (hfraction.settled hexponent negative (Significand.ofDigits 0 (d :: ds))).congr
      fun {rest} hrest => ?_
    have hsplit := (hend hrest).splitDigits hall
    simp only [List.append_assoc, List.cons_append] at hsplit ⊢
    simp only [readNumber, if_neg hzero, hd, if_true, hsplit]

/-! ## Texts -/

theorem readQuoted_refused {l : List Char} {f : Fault} (h : readEscape l = .error f)
    (read : List Char) :
    readQuoted read ('\\' :: l) = .error f := by
  rw [readQuoted]
  split
  · rename_i hf
    cases h.symm.trans hf
    rfl
  · rename_i hr
    cases h.symm.trans hr

/-- Half of a pair does not go on as one, or the pair stands for a character. -/
theorem IsBody.readPair {l : List Char} (h : IsBody l) (high : Nat) :
    (∃ w x y z low r, l = '\\' :: 'u' :: w :: x :: y :: z :: r ∧ fourHex? w x y z = some low ∧
      IsLowSurrogate low ∧
      IsBody r) ∨ ∀ rest, ∃ f, readPair high (l ++ '"' :: rest) = .error f := by
  cases h with
  | nil => exact .inr fun rest => ⟨_, rfl⟩
  | plain _ hback => exact .inr fun rest => ⟨_, by simp [Json.readPair, expectBetween, hback]; rfl⟩
  | @short c _ _ he =>
    have hletter : c ≠ 'u' := by
      rintro rfl
      cases he
    exact .inr fun rest => ⟨_, by simp [Json.readPair, expectBetween, hletter]; rfl⟩
  | @hex w x y z low r digits more =>
    by_cases hlow : IsLowSurrogate low
    · exact .inl ⟨w, x, y, z, low, r, rfl, digits, hlow, more⟩
    · exact .inr fun rest => ⟨_, by
        simp [Json.readPair, expectBetween, readLow, readHex_digits digits, hlow]; rfl⟩

/-- What stands between quotes spells a text, or it is refused. -/
theorem IsBody.spells_or {body : List Char} (h : IsBody body) :
    (∃ s, Spells body s) ∨ ∀ read rest, ∃ f, readQuoted read (body ++ '"' :: rest) = .error f := by
  -- a pair takes two escapes at once, so the induction is on the length
  induction hlength : body.length using Nat.strongRecOn generalizing body with
  | ind n ih =>
    subst hlength
    have hmore {c : Char} {l : List Char} (hl : IsBody l) (hlt : l.length < body.length)
        (spells : ∀ {s}, Spells l s → Spells body (c :: s))
        (step : ∀ read rest, readQuoted read (body ++ '"' :: rest) =
          readQuoted (c :: read) (l ++ '"' :: rest)) :
        (∃ s, Spells body s) ∨
          ∀ read rest, ∃ f, readQuoted read (body ++ '"' :: rest) = .error f := by
      rcases ih _ hlt hl rfl with ⟨s, hs⟩ | hf
      · exact .inl ⟨c :: s, spells hs⟩
      · refine .inr fun read rest => ?_
        rw [step]
        exact hf _ rest
    cases h with
    | nil => exact .inl ⟨[], .nil⟩
    | plain hquote hback hc more =>
      exact hmore more (by simp) (.plain hquote hback hc) fun read _ =>
        readQuoted_plain read _ hquote hback hc
    | short he more =>
      exact hmore more (by simp only [List.length_cons]; omega) (.short he) fun read _ =>
        readQuoted_backslash read _ (readEscape_short he _)
    | @hex w x y z n l digits more =>
      by_cases hlow : IsLowSurrogate n
      · exact .inr fun read rest => ⟨_, readQuoted_refused (readEscape_low digits _ hlow) read⟩
      by_cases hhigh : IsHighSurrogate n
      · rcases more.readPair n with ⟨w', x', y', z', low, r, rfl, digits', hlow', hr⟩ | hf
        · refine hmore hr (by simp only [List.length_cons]; omega)
            (.pair digits hhigh digits' hlow') fun read _ => ?_
          exact readQuoted_backslash read _ (readEscape_pair digits hhigh digits' hlow' _)
        · refine .inr fun read rest => ?_
          obtain ⟨f, hf⟩ := hf rest
          exact ⟨f, readQuoted_refused ((readEscape_high digits _ hhigh).trans hf) read⟩
      · refine hmore more (by simp only [List.length_cons]; omega) (.hex digits hlow hhigh)
          fun read _ => ?_
        exact readQuoted_backslash read _ (readEscape_hex digits _ hlow hhigh)

/-- The key of a member names something, or it is refused. -/
theorem IsBody.names_or {key : List Char} (h : IsBody key) :
    (∃ name : String, Spells key name.toList) ∨
      ∀ l, ∃ f, readText (key ++ '"' :: l) = .error f := by
  rcases h.spells_or with ⟨s, hs⟩ | hf
  · exact .inl ⟨String.ofList s, by rwa [String.toList_ofList]⟩
  · refine .inr fun l => ?_
    obtain ⟨f, hf⟩ := hf [] l
    exact ⟨f, by rw [readText, hf]⟩

theorem IsBody.settled {body : List Char} (h : IsBody body) : Settled readText (body ++ ['"']) := by
  rcases h.names_or with ⟨name, hname⟩ | hf
  · exact .inl ⟨name, fun {rest} _ => by simpa using hname.readText rest⟩
  · exact .inr fun {rest} _ => by simpa using hf rest

/-! ## Values -/

/-- The reader refuses the text, whatever follows it. -/
def Refuses {α : Type} (value : Reader α) (text : List Char) : Prop :=
  ∀ ⦃b rest : List Char⦄, Blank b → Delimited rest → ∃ f, value (b ++ (text ++ rest)) = .error f

theorem Refuses.readWhole {α : Type} {value : Reader α} {text b b' : List Char}
    (h : Refuses value text) (hb : Blank b)
    (hb' : Blank b') : ∃ f, readWhole value (b ++ (text ++ b')) = .error f := by
  have hrest := hb'.delimited .nothing
  rw [List.append_nil] at hrest
  obtain ⟨f, hf⟩ := h hb hrest
  exact ⟨f, by simp only [Json.readWhole, hf]⟩

/-- Every well-formed value is taken or refused. -/
def Settles {α : Type} (value : Reader α) : Prop :=
  ∀ text : List Char, IsValue text → (∃ a, Written value text a) ∨ Refuses value text

/-- A reader takes or refuses a text if what it does with it is settled. -/
theorem Settled.taken_or {α : Type} {value read : Reader α} {text text' : List Char}
    (h : Settled read text')
    (starts : ∃ c l, text = c :: l ∧ isSpace c = false ∧ c ≠ ']')
    (same : ∀ {b rest : List Char}, Blank b → value (b ++ (text ++ rest)) = read (text' ++ rest)) :
    (∃ a, Written value text a) ∨ Refuses value text := by
  rcases h with ⟨a, h⟩ | h
  · exact .inl ⟨a, starts, fun hb hrest => (same hb).trans (h hrest)⟩
  · refine .inr fun _ _ hb hrest => ?_
    rw [same hb]
    exact h hrest

/-- A reader that goes by the first character refuses a value that begins with another. -/
theorem settles_of_head {α : Type} {value : Reader α} (start : Char → Prop) [DecidablePred start]
    (skips : ∀ l, value (skipSpace l) = value l)
    (wrong : ∀ {c : Char} (rest : List Char), isSpace c = false → ¬ start c → ∃ f,
      value (c :: rest) = .error f)
    (right : ∀ {c : Char} {l : List Char}, start c → IsValue (c :: l) →
      (∃ a, Written value (c :: l) a) ∨ Refuses value (c :: l)) : Settles value := by
  intro text h
  obtain ⟨c, l, rfl, hspace, -⟩ := h.starts
  by_cases hc : start c
  · exact right hc h
  · refine .inr fun {b rest} hb _ => ?_
    rw [← skips, hb.skipSpace_append, List.cons_append, skipSpace_cons hspace]
    exact wrong _ hspace hc

theorem skipSpace_skipSpace (l : List Char) : skipSpace (skipSpace l) = skipSpace l :=
  List.dropWhile_idempotent _ _

/-- A well-formed value by its first character. -/
inductive Headed : Char → List Char → Prop
  | null : Headed 'n' ['u', 'l', 'l']
  | yes : Headed 't' ['r', 'u', 'e']
  | no : Headed 'f' ['a', 'l', 's', 'e']
  | number {c : Char} {l : List Char} (hc : c = '-' ∨ c.isDigit = true) (h : IsNumber (c :: l)) :
      Headed c l
  | string {body : List Char} (h : IsBody body) : Headed '"' (body ++ ['"'])
  | list {items : List (List Char)} {inner : List Char} (row : Row true items inner)
      (values : ∀ item ∈ items, IsValue item) : Headed '[' (inner ++ [']'])
  | object {members : List Member} {parts : List (List Char)} {inner : List Char}
      (texts : List.Forall₂ Member.Text members parts) (row : Row true parts inner)
      (keys : ∀ m ∈ members, IsBody m.key) (values : ∀ m ∈ members, IsValue m.value) :
        Headed '{' (inner ++ ['}'])

theorem IsValue.headed {c : Char} {l : List Char} (h : IsValue (c :: l)) : Headed c l := by
  generalize htext : c :: l = text at h
  cases h with
  | null =>
    cases htext
    exact .null
  | yes =>
    cases htext
    exact .yes
  | no =>
    cases htext
    exact .no
  | number h =>
    obtain ⟨d, r, rfl, hd⟩ := h.starts
    cases htext
    exact .number hd h
  | string h =>
    cases htext
    exact .string h
  | list layout values =>
    obtain ⟨inner, row, rfl⟩ := layout
    cases htext
    exact .list row values
  | object layout keys values =>
    obtain ⟨parts, inner, texts, row, rfl⟩ := layout
    cases htext
    exact .object texts row keys values

/-- A number starts like none of the other values. -/
theorem not_number_start {c : Char} {p : Prop} (hc : c = '-' ∨ c.isDigit = true) (hminus : c ≠ '-')
    (hdigit : c.isDigit = false) : p := by
  rcases hc with hc | hc
  · exact absurd hc hminus
  · cases hdigit.symm.trans hc

theorem settles_readString : Settles readString := by
  refine settles_of_head (· = '"') (fun l => ?skips) (fun {c} rest hspace hc => ?wrong)
    fun {c l} hc h => ?right
  case skips => simp only [readString, skipSpace_skipSpace]
  case wrong =>
    simp [readString, skipSpace_cons hspace, hc]
  case right =>
    obtain rfl := hc
    cases h.headed with
    | number hc => exact not_number_start hc (by decide) rfl
    | string hbody =>
      refine hbody.settled.taken_or h.starts fun hb => ?_
      rw [List.cons_append, readString, hb.skipSpace_eq (by decide)]
      rfl

/-- A number is of the kind or not, whatever follows it. -/
theorem settled_take (kind : IntegerKind) (n : Number) : Settled (kind.take n) [] := by
  have hrange (i : Int) : Settled (fun rest => if kind.least ≤ i ∧
      i ≤ kind.greatest then .ok (i, rest) else .error
        (.before (.invalidValue (.integer i) kind.name) rest)) [] := by
    by_cases hi : kind.least ≤ i ∧ i ≤ kind.greatest
    · exact .inl ⟨i, fun _ => if_pos hi⟩
    · exact .inr fun _ => ⟨_, if_neg hi⟩
  cases n with
  | natural n => exact hrange n
  | negative n => exact hrange n
  | float negative x => exact .inr fun _ => ⟨_, rfl⟩

theorem settles_readInteger (kind : IntegerKind) : Settles (readInteger kind) := by
  refine settles_of_head (fun c => c = '-' ∨ c.isDigit = true) (fun l => ?skips)
    (fun {c} rest hspace hc => ?wrong)
    fun {c l} hc h => ?right
  case skips => simp only [readInteger, skipSpace_skipSpace]
  case wrong =>
    obtain ⟨hminus, hdigit⟩ := not_or.1 hc
    simp only [readInteger, skipSpace_cons hspace, if_neg hminus, if_neg hdigit]
    exact ⟨_, rfl⟩
  case right =>
    have hnumber {l : List Char} (h : IsUnsigned l) (negative : Bool) :=
      (h.settled negative).bind fun n => settled_take kind n
    cases h.headed with
    | null | yes | no | string | list | object => exact not_number_start hc (by decide) rfl
    | number _ hread =>
      cases hread with
      | unsigned hl =>
        refine (hnumber hl false).taken_or h.starts fun hb => ?_
        obtain ⟨d, ds, hd, hdigit⟩ := hl.starts
        cases hd
        have hminus : c ≠ '-' := by
          rintro rfl
          cases hdigit
        simp only [List.cons_append, readInteger,
          hb.skipSpace_eq (isSpace_eq_false_of_isDigit hdigit), if_neg hminus, hdigit, if_true]
        cases readNumber false (c :: (l ++ _)) <;> rfl
      | negative hl =>
        refine (hnumber hl true).taken_or h.starts fun hb => ?_
        simp only [List.cons_append, readInteger,
          hb.skipSpace_eq (show isSpace '-' = false by decide), if_true]
        cases readNumber true (_ ++ _) <;> rfl

theorem Refuses.map {α β : Type} {value : Reader α} {text : List Char} (h : Refuses value text)
    (f : α → β) :
    Refuses (fun l => (value l).map fun (a, r) => (f a, r)) text := by
  intro b rest hb hrest
  obtain ⟨fault, hfault⟩ := h hb hrest
  exact ⟨fault, by simp only [hfault]; rfl⟩

/-- What is done with what was taken makes no difference. -/
theorem Settles.map {α β : Type} {value : Reader α} (h : Settles value) (f : α → β) :
    Settles fun l => (value l).map fun (a, r) => (f a, r) := by
  intro text htext
  rcases h text htext with ⟨a, ha⟩ | hf
  · refine .inl ⟨f a, ha.starts, fun hb hrest => ?_⟩
    rw [ha.reads hb hrest]
    rfl
  · exact .inr (hf.map f)

theorem settles_readCount : Settles readCount := (settles_readInteger unsigned64).map Int.toNat

theorem settles_readNull : Settles readNull := by
  refine settles_of_head (· = 'n') (fun l => ?skips) (fun {c} rest hspace hc => ?wrong)
    fun {c l} hc h => ?right
  case skips => simp only [readNull, skipSpace_skipSpace]
  case wrong =>
    simp [readNull, skipSpace_cons hspace, hc]
  case right =>
    obtain rfl := hc
    cases h.headed with
    | number hc => exact not_number_start hc (by decide) rfl
    | null =>
      refine .inl ⟨(), h.starts, fun hb _ => ?_⟩
      rw [List.cons_append, readNull, hb.skipSpace_eq (by decide)]
      rfl

/-- A name is known or not, whatever follows it. -/
theorem settled_pick {α : Type} (known : List (String × α)) (name : String) :
    Settled (pick known name) [] := by
  unfold pick
  cases known.find? fun v => v.1 = name with
  | some v => exact .inl ⟨v.2, fun _ => rfl⟩
  | none => exact .inr fun _ => ⟨_, rfl⟩

/-- An alternative may be written as an object with null under its name, and as no other object. -/
theorem settled_readTagged {α : Type} (known : List (String × α)) {members : List Member}
    {parts : List (List Char)} {inner : List Char} (texts : List.Forall₂ Member.Text members parts)
    (row : Row true parts inner) (keys : ∀ m ∈ members, IsBody m.key)
    (values : ∀ m ∈ members, IsValue m.value) :
    Settled (readTagged known) (inner ++ ['}']) := by
  cases row with
  | done blank =>
    refine .inr fun {rest} _ => ⟨.peek .expectedValue ('}' :: rest), ?_⟩
    rw [List.append_assoc, readTagged, List.singleton_append, blank.skipSpace_eq (by decide)]
    rfl
  | @first b part text parts before more =>
    cases texts with
    | @cons m _ members _ hpart htexts =>
      obtain ⟨hkey, -⟩ := List.forall_mem_cons.1 keys
      obtain ⟨hvalue, -⟩ := List.forall_mem_cons.1 values
      obtain @⟨b₁, b₂, hb, hb'⟩ := hpart
      have hquote := before.skipSpace_eq (show isSpace '"' = false by decide)
      have hend (rest : List Char) := more.delimited (.objectEnd rest)
      have htext (rest : List Char) :
          b ++ ('"' :: (m.key ++ '"' :: (b₁ ++ ':' :: (b₂ ++ m.value))) ++ text) ++ ['}'] ++ rest =
            b ++ '"' :: (m.key ++ '"' ::
              (b₁ ++ ':' :: (b₂ ++ (m.value ++ (text ++ '}' :: rest))))) := by simp
      -- the key is read, its name looked up, and null read under it; then only the brace may come
      rcases hkey.names_or with ⟨name, hname⟩ | hnameless
      · cases hfind : known.find? fun v => v.1 = name with
        | none =>
          refine .inr fun {rest} _ => ⟨.before (.unknownVariant name (known.map Prod.fst))
            (b₁ ++ ':' :: (b₂ ++ (m.value ++ (text ++ '}' :: rest)))), ?_⟩
          simp only [htext, readTagged, hquote, if_true, hname.readText, pick, hfind]
        | some v =>
          have hpick : ∀ r, pick known name r = .ok (v.2, r) := fun r => by simp only [pick, hfind]
          rcases settles_readNull _ hvalue with ⟨u, hnull⟩ | hnull
          · cases more with
            | done blank =>
              refine .inl ⟨v.2, fun {rest} _ => ?_⟩
              have hread := hnull.reads hb' (hend rest)
              have hclose := blank.skipSpace_eq (show isSpace '}' = false by decide) rest
              simp only [htext, readTagged, hquote, if_true, hname.readText, hpick,
                skipColon_colon hb, hread, hclose]
            | more before' after more' =>
              refine .inr fun {rest} _ => ?_
              have hread := hnull.reads hb' (hend rest)
              have hcomma := before'.skipSpace_eq (show isSpace ',' = false by decide)
              simp only [htext, readTagged, hquote, if_true, hname.readText, hpick,
                skipColon_colon hb, hread]
              simp only [List.append_assoc, List.cons_append, hcomma]
              exact ⟨_, rfl⟩
          · refine .inr fun {rest} _ => ?_
            obtain ⟨f, hread⟩ := hnull hb' (hend rest)
            exact ⟨f, by
              simp only [htext, readTagged, hquote, if_true, hname.readText, hpick,
                skipColon_colon hb, hread]⟩
      · refine .inr fun {rest} _ => ?_
        obtain ⟨f, hread⟩ := hnameless (b₁ ++ ':' :: (b₂ ++ (m.value ++ (text ++ '}' :: rest))))
        exact ⟨f, by simp only [htext, readTagged, hquote, if_true, hread]⟩

/-- An alternative is written as its name or as an object. -/
theorem settles_readVariant {α : Type} (known : List (String × α)) :
    Settles (readVariant known) := by
  refine settles_of_head (fun c => c = '"' ∨ c = '{') (fun l => ?skips)
    (fun {c} rest hspace hc => ?wrong)
    fun {c l} hc h => ?right
  case skips => simp only [readVariant, skipSpace_skipSpace]
  case wrong =>
    obtain ⟨hquote, hbrace⟩ := not_or.1 hc
    simp only [readVariant, skipSpace_cons hspace, if_neg hquote, if_neg hbrace]
    exact ⟨_, rfl⟩
  case right =>
    rcases hc with rfl | rfl
    · cases h.headed with
      | number hc => exact not_number_start hc (by decide) rfl
      | string hbody =>
        refine (hbody.settled.bind fun name => settled_pick known name).taken_or h.starts
          fun {b rest} hb => ?_
        simp only [List.cons_append, readVariant,
          hb.skipSpace_eq (show isSpace '"' = false by decide), if_true]
        cases readText (_ ++ ['"'] ++ rest) <;> rfl
    · cases h.headed with
      | number hc => exact not_number_start hc (by decide) rfl
      | object texts row keys values =>
        refine (settled_readTagged known texts row keys values).taken_or h.starts fun hb => ?_
        simp only [List.cons_append, readVariant,
          hb.skipSpace_eq (show isSpace '{' = false by decide), if_true]
        rfl

end FairLocks.Json
