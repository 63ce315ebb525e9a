import FairLocks.Proofs.Layouts

/-!
# Well-formed values

The grammar of the format: words, numbers, texts, and lists and objects of values. In a text an
escape need not stand for a character, and in an object a key may come again. Whatever is
well-formed is passed over to its very end, however deep it nests.
-/
namespace FairLocks.Json

set_option autoImplicit false

/-- What may stand between quotes. An escape of four digits may be half of a pair without the
other. -/
inductive IsBody : List Char → Prop
  | nil : IsBody []
  | plain {c : Char} {l : List Char} (hquote : c ≠ '"') (hback : c ≠ '\\') (hc : ¬ c.toNat < 0x20)
      (more : IsBody l) : IsBody (c :: l)
  | short {c e : Char} {l : List Char} (he : shortEscape? c = some e) (more : IsBody l) :
      IsBody ('\\' :: c :: l)
  | hex {w x y z : Char} {n : Nat} {l : List Char} (digits : fourHex? w x y z = some n)
      (more : IsBody l) :
      IsBody ('\\' :: 'u' :: w :: x :: y :: z :: l)

theorem Spells.isBody {body s : List Char} (h : Spells body s) : IsBody body := by
  induction h with
  | nil => exact .nil
  | plain hquote hback hc _ ih => exact .plain hquote hback hc ih
  | short he _ ih => exact .short he ih
  | hex digits _ _ _ ih => exact .hex digits ih
  | pair digits _ digits' _ _ ih => exact .hex digits (.hex digits' ih)

def Digits (l : List Char) : Prop := ∀ c ∈ l, c.isDigit = true

/-- The whole part of a number, without a needless zero in front. -/
inductive IsWhole : List Char → Prop
  | zero : IsWhole ['0']
  | digits {d : Char} {ds : List Char} (hd : d.isDigit = true) (hzero : d ≠ '0') (hds : Digits ds) :
      IsWhole (d :: ds)

/-- The point and the digits behind it, or nothing. -/
inductive IsFraction : List Char → Prop
  | none : IsFraction []
  | some {d : Char} {ds : List Char} (hd : d.isDigit = true) (hds : Digits ds) :
      IsFraction ('.' :: d :: ds)

/-- The exponent with its letter, or nothing. -/
inductive IsExponent : List Char → Prop
  | none : IsExponent []
  | some {e d : Char} {sign ds : List Char} (he : e = 'e' ∨ e = 'E')
      (hsign : sign ∈ [[], ['+'], ['-']])
      (hd : d.isDigit = true) (hds : Digits ds) : IsExponent (e :: (sign ++ d :: ds))

/-- A number without a sign in front. -/
inductive IsUnsigned : List Char → Prop
  | mk {whole fraction exponent : List Char} (hwhole : IsWhole whole)
      (hfraction : IsFraction fraction)
      (hexponent : IsExponent exponent) : IsUnsigned (whole ++ (fraction ++ exponent))

inductive IsNumber : List Char → Prop
  | unsigned {l : List Char} (h : IsUnsigned l) : IsNumber l
  | negative {l : List Char} (h : IsUnsigned l) : IsNumber ('-' :: l)

inductive IsValue : List Char → Prop
  | null : IsValue ['n', 'u', 'l', 'l']
  | yes : IsValue ['t', 'r', 'u', 'e']
  | no : IsValue ['f', 'a', 'l', 's', 'e']
  | number {l : List Char} (h : IsNumber l) : IsValue l
  | string {body : List Char} (h : IsBody body) : IsValue ('"' :: (body ++ ['"']))
  | list {items : List (List Char)} {text : List Char} (layout : ListText items text)
      (values : ∀ item ∈ items, IsValue item) : IsValue text
  | object {members : List Member} {text : List Char} (layout : ObjectText members text)
      (keys : ∀ m ∈ members, IsBody m.key) (values : ∀ m ∈ members, IsValue m.value) : IsValue text

/-! ## What is written is well-formed -/

theorem isValue_writeText (s : String) : IsValue (writeText s) := by
  have h := IsValue.string (spells_flatMap_escape s.toList).isBody
  simpa [writeText] using h

theorem isValue_writeList {α : Type} {write : α → List Char} {as : List α}
    (h : ∀ a ∈ as, IsValue (write a)) :
    IsValue (writeList write as) :=
  .list (listText_writeList write as) (List.forall_mem_map.2 h)

theorem isBody_key_ofField {fields : List (String × List Char)} : ∀ m ∈ fields.map Member.ofField,
    IsBody m.key :=
  List.forall_mem_map.2 fun _ _ => (spells_flatMap_escape _).isBody

theorem isValue_writeObject {fields : List (String × List Char)} (h : ∀ f ∈ fields, IsValue f.2) :
    IsValue (writeObject fields) :=
  .object (objectText_writeObject fields) isBody_key_ofField (List.forall_mem_map.2 h)

/-! ## The first character of a value -/

theorem IsUnsigned.starts {l : List Char} (h : IsUnsigned l) :
    ∃ c r, l = c :: r ∧ c.isDigit = true := by
  obtain ⟨hwhole, -, -⟩ := h
  cases hwhole with
  | zero => exact ⟨'0', _, rfl, rfl⟩
  | digits hd => exact ⟨_, _, rfl, hd⟩

theorem IsNumber.starts {l : List Char} (h : IsNumber l) :
    ∃ c r, l = c :: r ∧ (c = '-' ∨ c.isDigit = true) := by
  cases h with
  | unsigned h =>
    obtain ⟨c, r, hl, hc⟩ := h.starts
    exact ⟨c, r, hl, .inr hc⟩
  | negative => exact ⟨'-', _, rfl, .inl rfl⟩

/-- Neither blank space nor a closing bracket comes first. -/
theorem IsValue.starts {l : List Char} (h : IsValue l) :
    ∃ c r, l = c :: r ∧ isSpace c = false ∧ c ≠ ']' := by
  cases h with
  | null | yes | no | string => exact ⟨_, _, rfl, by decide, by decide⟩
  | number h =>
    obtain ⟨c, r, rfl, rfl | hc⟩ := h.starts
    · exact ⟨'-', r, rfl, by decide, by decide⟩
    · refine ⟨c, r, rfl, isSpace_eq_false_of_isDigit hc, ?_⟩
      rintro rfl
      cases hc
  | list layout =>
    obtain ⟨inner, -, rfl⟩ := layout
    exact ⟨'[', _, rfl, by decide, by decide⟩
  | object layout =>
    obtain ⟨parts, inner, -, -, rfl⟩ := layout
    exact ⟨'{', _, rfl, by decide, by decide⟩

/-! ## Passing over scalars -/

theorem skipText_hex {w x y z : Char} {n : Nat} (digits : fourHex? w x y z = some n)
    (l : List Char) :
    skipText ('\\' :: 'u' :: w :: x :: y :: z :: l) = skipText l := by
  have hread := readHex_digits digits l
  rw [skipText, if_neg (by decide), if_pos rfl]
  split
  · rename_i hf
    cases hread.symm.trans hf
  · rename_i hr
    cases hread.symm.trans hr
    rfl

/-- A text is passed over up to and with its closing quote. -/
theorem IsBody.skipText {body : List Char} (h : IsBody body) (l : List Char) :
    skipText (body ++ '"' :: l) = .ok l := by
  induction h with
  | nil => simp [Json.skipText]
  | plain hquote hback hc more ih =>
    rw [List.cons_append, Json.skipText.eq_def]
    split <;> simp_all
  | short he more ih => simp [Json.skipText, he, ih]
  | hex digits more ih =>
    simp only [List.cons_append]
    rw [skipText_hex digits, ih]

theorem NoDigit.skipNumber {tail : List Char} (h : NoDigit tail) {whole : List Char}
    (hwhole : IsWhole whole) :
    skipNumber (whole ++ tail) = skipTail tail := by
  cases hwhole with
  | zero =>
    simp [Json.skipNumber, h.any_head?]
  | digits hd hzero hds =>
    simp [Json.skipNumber, hzero, hd, h.dropWhile_eq hds]

theorem IsExponent.noDigit {exponent rest : List Char} (h : IsExponent exponent)
    (hrest : Delimited rest) :
    NoDigit (exponent ++ rest) := by
  cases h with
  | none => exact hrest.noDigit
  | some he =>
    intro c hc
    cases hc
    rcases he with rfl | rfl <;> rfl

theorem IsFraction.noDigit {fraction rest : List Char} (h : IsFraction fraction)
    (hrest : NoDigit rest) :
    NoDigit (fraction ++ rest) := by
  cases h with
  | none => exact hrest
  | some =>
    intro c hc
    cases hc
    rfl

theorem exponentSign_append {sign : List Char} (hsign : sign ∈ [[], ['+'], ['-']]) {d : Char}
    (hd : d.isDigit = true) (l : List Char) :
    exponentSign (sign ++ d :: l) = (decide (sign = ['-']), d :: l) := by
  simp only [List.mem_cons, List.not_mem_nil, or_false] at hsign
  rcases hsign with rfl | rfl | rfl
  · unfold exponentSign
    split
    · rename_i heq
      cases heq
      cases hd
    · rename_i heq
      cases heq
      cases hd
    · rfl
  · rfl
  · rfl

theorem IsExponent.skipTail {exponent rest : List Char} (h : IsExponent exponent)
    (hrest : Delimited rest) :
    skipTail (exponent ++ rest) = .ok rest := by
  cases h with
  | none =>
    cases hrest with
    | nothing | comma | listEnd | objectEnd => rfl
    | space hspace => obtain rfl | rfl | rfl | rfl := eq_of_isSpace hspace <;> rfl
  | @some e d sign ds he hsign hd hds =>
    have hskip : skipExponent (sign ++ d :: (ds ++ rest)) = .ok rest := by
      simp only [skipExponent, exponentSign_append hsign hd, hd, if_true,
        hrest.noDigit.dropWhile_eq hds]
    rcases he with rfl | rfl <;> simpa [Json.skipTail] using hskip

/-- What follows a fraction is passed over as if there were none. -/
theorem IsFraction.skipTail {fraction exponent rest : List Char} (h : IsFraction fraction)
    (hexponent : IsExponent exponent) (hrest : Delimited rest) :
    skipTail (fraction ++ (exponent ++ rest)) = .ok rest := by
  have hskip := hexponent.skipTail hrest
  cases h with
  | none => exact hskip
  | @some d ds hd hds =>
    have hsplit := (hexponent.noDigit hrest).splitDigits (List.forall_mem_cons.2 ⟨hd, hds⟩)
    rw [List.cons_append] at hsplit
    simp only [List.cons_append, Json.skipTail, hsplit]
    cases hexponent with
    | none =>
      cases hrest with
      | nothing | comma | listEnd | objectEnd => rfl
      | space hspace => obtain rfl | rfl | rfl | rfl := eq_of_isSpace hspace <;> rfl
    | some he hsign hd hds => rcases he with rfl | rfl <;> simpa [Json.skipTail] using hskip

theorem IsUnsigned.skipNumber {l rest : List Char} (h : IsUnsigned l) (hrest : Delimited rest) :
    skipNumber (l ++ rest) = .ok rest := by
  obtain ⟨hwhole, hfraction, hexponent⟩ := h
  have hend := hexponent.noDigit hrest
  rw [List.append_assoc, List.append_assoc, (hfraction.noDigit hend).skipNumber hwhole]
  exact hfraction.skipTail hexponent hrest

/-! ## Passing over values -/

namespace Pending

theorem finish_of_step {p q : Pending} (hp : ¬ p.Ended) (h : p.step = .ok q) :
    p.finish = q.finish := by
  rw [finish, dif_neg hp]
  split
  · rename_i hf
    cases h.symm.trans hf
  · rename_i hq
    cases h.symm.trans hq
    rfl

theorem not_ended {due : Due} (h : due ≠ .more) (inside : List Container) (l : List Char) :
    ¬ (Pending.mk due inside l).Ended := fun hended => h hended.1

end Pending

/-- A value is passed over, inside whatever it is and whatever follows it. -/
def Passes (due : Due) (l : List Char) : Prop :=
  ∀ (inside : List Container) {b rest : List Char}, Blank b → Delimited rest →
    (Pending.mk due inside (b ++ (l ++ rest))).finish = (Pending.mk .more inside rest).finish

theorem passes_of_skipOpening {l : List Char}
    (starts : ∃ c r, l = c :: r ∧ isSpace c = false ∧ c ≠ ']')
    (h : ∀ {rest}, Delimited rest → skipOpening (l ++ rest) = .ok (.scalar rest)) :
      Passes .value l := by
  intro inside b rest hb hrest
  obtain ⟨c, r, rfl, hspace, -⟩ := starts
  refine Pending.finish_of_step (Pending.not_ended (by decide) _ _) ?_
  have hskip := h hrest
  rw [List.cons_append] at hskip ⊢
  simp only [Pending.step, hb.skipSpace_eq hspace, hskip]

theorem IsNumber.skipOpening {l rest : List Char} (h : IsNumber l) (hrest : Delimited rest) :
    skipOpening (l ++ rest) = .ok (.scalar rest) := by
  cases h with
  | unsigned h =>
    have hskip := h.skipNumber hrest
    obtain ⟨c, r, rfl, hc⟩ := h.starts
    have hne (k : Char) (hk : k.isDigit = false) : c ≠ k := by
      rintro rfl
      cases hc.symm.trans hk
    rw [List.cons_append] at hskip ⊢
    simp only [Json.skipOpening, if_neg (hne 'n' rfl), if_neg (hne 't' rfl), if_neg (hne 'f' rfl),
      if_neg (hne '-' rfl), hc, if_true, hskip]
    rfl
  | negative h =>
    have hskip := h.skipNumber hrest
    simp [Json.skipOpening, hskip, Except.map]

namespace Container

theorem delimited_closing (c : Container) (rest : List Char) : Delimited (c.closing :: rest) := by
  cases c with
  | list => exact .listEnd rest
  | object => exact .objectEnd rest

theorem isSpace_closing (c : Container) : isSpace c.closing = false := by cases c <;> rfl

theorem closing_ne_comma (c : Container) : c.closing ≠ ',' := by cases c <;> decide

end Container

section

variable {c : Container} {parts : List (List Char)} {text : List Char}

theorem Row.finish_more (h : Row false parts text) (passes : ∀ part ∈ parts, Passes c.item part)
    (inside : List Container) (rest : List Char) :
    (Pending.mk .more (c :: inside) (text ++ c.closing :: rest)).finish =
      (Pending.mk .more inside rest).finish := by
  induction parts generalizing text with
  | nil =>
    cases h with
    | done blank =>
      refine Pending.finish_of_step (fun hended => by cases hended.2) ?_
      simp [Pending.step, blank.skipSpace_eq c.isSpace_closing, c.closing_ne_comma]
  | cons part parts ih =>
    obtain ⟨hpart, hparts⟩ := List.forall_mem_cons.1 passes
    cases h with
    | more before after more =>
      rw [← ih more hparts, ← hpart (c :: inside) after (more.delimited (c.delimited_closing rest))]
      refine Pending.finish_of_step (fun hended => by cases hended.2) ?_
      simp only [List.append_assoc, List.cons_append, Pending.step,
        before.skipSpace_eq (show isSpace ',' = false by decide), if_true]

/-- A container is passed over if its parts are. -/
theorem Row.finish_first (h : Row true parts text) (passes : ∀ part ∈ parts, Passes c.item part)
    (starts : ∀ part ∈ parts, ∃ d r, part = d :: r ∧ isSpace d = false ∧ d ≠ c.closing)
    (inside : List Container) (rest : List Char) :
    (Pending.mk (.first c) inside (text ++ c.closing :: rest)).finish =
      (Pending.mk .more inside rest).finish := by
  cases h with
  | done blank =>
    refine Pending.finish_of_step (Pending.not_ended (by simp) _ _) ?_
    simp [Pending.step, blank.skipSpace_eq c.isSpace_closing]
  | first before more =>
    obtain ⟨hpart, hparts⟩ := List.forall_mem_cons.1 passes
    obtain ⟨d, r, rfl, hspace, hclose⟩ := starts _ List.mem_cons_self
    have hfirst := hpart (c :: inside) blank_nil (more.delimited (c.delimited_closing rest))
    rw [← more.finish_more hparts inside rest, ← hfirst]
    refine Pending.finish_of_step (Pending.not_ended (by simp) _ _) ?_
    simp only [List.append_assoc, List.cons_append, Pending.step, before.skipSpace_eq hspace,
      if_neg hclose, List.nil_append]

end

theorem Member.Text.starts {m : Member} {part : List Char} (h : m.Text part) :
    ∃ c r, part = c :: r ∧ isSpace c = false ∧ c ≠ '}' := by
  obtain ⟨-, -⟩ := h
  exact ⟨'"', _, rfl, by decide, by decide⟩

theorem Member.Text.passes {m : Member} {part : List Char} (h : m.Text part) (key : IsBody m.key)
    (value : Passes .value m.value) : Passes .key part := by
  intro inside b rest hb hrest
  cases h with
  | @mk b₁ b₂ before after =>
    rw [← value inside after hrest]
    refine Pending.finish_of_step (Pending.not_ended (by decide) _ _) ?_
    have hkey : skipKey (b ++ '"' :: (m.key ++ '"' :: (b₁ ++ ':' :: (b₂ ++ (m.value ++ rest))))) =
        .ok (b₂ ++ (m.value ++ rest)) := by
      simp only [skipKey, hb.skipSpace_eq (show isSpace '"' = false by decide), if_true,
        key.skipText, skipColon_colon before]
    simp only [List.append_assoc, List.cons_append, Pending.step, hkey]

/-- A part of an object is one of its members. -/
theorem exists_member_of_mem {members : List Member} {parts : List (List Char)}
    (h : List.Forall₂ Member.Text members parts) {part : List Char} (hpart : part ∈ parts) :
    ∃ m ∈ members, m.Text part := by
  induction h with
  | nil => cases hpart
  | cons hm _ ih =>
    rcases List.mem_cons.1 hpart with rfl | hpart
    · exact ⟨_, List.mem_cons_self, hm⟩
    · obtain ⟨m, hmem, htext⟩ := ih hpart
      exact ⟨m, List.mem_cons_of_mem _ hmem, htext⟩

/-- A well-formed value is passed over. -/
theorem IsValue.passes {l : List Char} (h : IsValue l) : Passes .value l := by
  induction h with
  | null | yes | no => exact passes_of_skipOpening ⟨_, _, rfl, by decide, by decide⟩ fun _ => rfl
  | number h => exact passes_of_skipOpening (IsValue.number h).starts fun hrest =>
    h.skipOpening hrest
  | @string body h =>
    refine passes_of_skipOpening ⟨_, _, rfl, by decide, by decide⟩ fun {rest} _ => ?_
    simp [Json.skipOpening, h.skipText, Except.map]
  | list layout values ih =>
    obtain ⟨inner, row, rfl⟩ := layout
    intro inside b rest hb _
    rw [← @Row.finish_first .list _ _ row ih (fun item hitem => (values item hitem).starts)
      inside rest]
    refine Pending.finish_of_step (Pending.not_ended (by decide) _ _) ?_
    simp [Pending.step, hb.skipSpace_eq (show isSpace '[' = false by decide), Json.skipOpening,
      Container.closing]
  | object layout keys values ih =>
    obtain ⟨parts, inner, texts, row, rfl⟩ := layout
    intro inside b rest hb _
    have hstarts : ∀ part ∈ parts, ∃ c r, part = c :: r ∧ isSpace c = false ∧ c ≠ '}' :=
      fun part hpart => by
      obtain ⟨m, -, htext⟩ := exists_member_of_mem texts hpart
      exact htext.starts
    have hpasses : ∀ part ∈ parts, Passes .key part := fun part hpart => by
      obtain ⟨m, hm, htext⟩ := exists_member_of_mem texts hpart
      exact htext.passes (keys m hm) (ih m hm)
    rw [← @Row.finish_first .object _ _ row hpasses hstarts inside rest]
    refine Pending.finish_of_step (Pending.not_ended (by decide) _ _) ?_
    simp [Pending.step, hb.skipSpace_eq (show isSpace '{' = false by decide), Json.skipOpening,
      Container.closing]

/-- The text behind a well-formed value is what is left when it has been passed over. -/
theorem IsValue.skipped {l : List Char} (h : IsValue l) : Skipped l := by
  intro b rest hb hrest
  rw [skipValue, h.passes [] hb hrest, Pending.finish, dif_pos ⟨rfl, rfl⟩]

end FairLocks.Json
