import Mathlib.Data.List.Forall2
import FairLocks.Proofs.WrittenForms

/-!
# Lists and records in any layout

A list or an object may have blank space around each of its parts, and an object may have its fields
in any order with others in between. Readers take all of it: a list is read if its items can be
read, and a record if its fields can be and what else there is can be passed over. What is written
without blank space is one of these layouts.
-/
namespace FairLocks.Json

set_option autoImplicit false

/-! ## Parts -/

/-- Parts up to the bracket that closes the whole. The first follows the opening bracket, any other
a comma. -/
inductive Row : Bool → List (List Char) → List Char → Prop
  | done {first : Bool} {b : List Char} (blank : Blank b) : Row first [] b
  | first {b part text : List Char} {parts : List (List Char)} (before : Blank b)
      (rest : Row false parts text) :
      Row true (part :: parts) (b ++ (part ++ text))
  | more {b b' part text : List Char} {parts : List (List Char)} (before : Blank b)
      (after : Blank b')
      (rest : Row false parts text) : Row false (part :: parts) (b ++ ',' :: (b' ++ (part ++ text)))

section

variable {parts : List (List Char)} {text : List Char}

/-- More parts, or the end of what they are part of. -/
theorem Row.delimited (h : Row false parts text) {rest : List Char} (hrest : Delimited rest) :
    Delimited (text ++ rest) := by
  cases h with
  | done blank => exact blank.delimited hrest
  | more before =>
    rw [List.append_assoc]
    exact before.delimited (.comma _)

theorem Row.length_le {first : Bool} (h : Row first parts text) :
    parts.length ≤ text.length + 1 := by
  have hmore : ∀ {parts text}, Row false parts text → parts.length ≤ text.length := by
    intro parts
    induction parts with
    | nil => exact fun _ => Nat.zero_le _
    | cons part parts ih =>
      intro text h
      cases h with
      | more before after rest =>
        have hrest := ih rest
        simp only [List.length_append, List.length_cons]
        omega
  cases h with
  | done => exact Nat.zero_le _
  | first before rest | more before after rest =>
    have hrest := hmore rest
    simp only [List.length_append, List.length_cons]
    omega

end

/-- Parts with nothing but commas between them. -/
theorem row_flatMap (parts : List (List Char)) :
    Row false parts (parts.flatMap fun part => ',' :: part) := by
  induction parts with
  | nil => exact .done blank_nil
  | cons part parts ih => exact .more blank_nil blank_nil ih

theorem joined_cons (part : List Char) (parts : List (List Char)) :
    joined (part :: parts) = part ++ parts.flatMap fun part => ',' :: part := by
  induction parts generalizing part with
  | nil => simp [joined]
  | cons next parts ih => simp [joined, ih]

theorem row_joined (parts : List (List Char)) : Row true parts (joined parts) := by
  cases parts with
  | nil => exact .done blank_nil
  | cons part parts =>
    rw [joined_cons]
    exact .first blank_nil (row_flatMap parts)

/-! ## Lists -/

/-- A list with its items as they stand in the text. -/
def ListText (items : List (List Char)) (text : List Char) : Prop :=
  ∃ inner, Row true items inner ∧ text = '[' :: (inner ++ [']'])

theorem listText_writeList {α : Type} (write : α → List Char) (as : List α) :
    ListText (as.map write) (writeList write as) := ⟨_, row_joined _, rfl⟩

theorem nextItem_closed {b : List Char} (hb : Blank b) (first : Bool) (rest : List Char) :
    nextItem first (b ++ ']' :: rest) = .ok (.closed rest) := by
  simp only [nextItem, hb.skipSpace_eq (show isSpace ']' = false by decide), if_true]

/-- An item is found where it stands. -/
theorem Row.nextItem {first : Bool} {part text : List Char} {parts : List (List Char)}
    (h : Row first (part :: parts) text) (starts : ∃ c l, part = c :: l ∧
      isSpace c = false ∧ c ≠ ']') :
    ∃ text', Row false parts text' ∧ ∀ rest, nextItem first (text ++ ']' :: rest) =
      .ok (.item (part ++ (text' ++ ']' :: rest))) := by
  obtain ⟨c, l, rfl, hspace, hclose⟩ := starts
  cases h with
  | first before more =>
    refine ⟨_, more, fun rest => ?_⟩
    simp [Json.nextItem, before.skipSpace_eq hspace, hclose]
  | more before after more =>
    refine ⟨_, more, fun rest => ?_⟩
    simp [Json.nextItem, before.skipSpace_eq (show isSpace ',' = false by decide),
      after.skipSpace_eq hspace, hclose]

section

variable {α : Type} {item : Reader α} {as : List α} {items : List (List Char)} {text : List Char}

theorem Row.readItems {first : Bool} (h : Row first items text)
    (written : List.Forall₂ (Written item) items as)
    {n : Nat} (hn : items.length < n) (rest : List Char) :
    readItems item n first (text ++ ']' :: rest) = .ok (as, rest) := by
  induction written generalizing first text n with
  | nil =>
    obtain ⟨n, rfl⟩ := Nat.exists_eq_succ_of_ne_zero (Nat.ne_of_gt hn)
    cases h with
    | done blank => rw [Json.readItems, nextItem_closed blank]
  | cons ha _ ih =>
    obtain ⟨n, rfl⟩ := Nat.exists_eq_succ_of_ne_zero (Nat.ne_zero_of_lt hn)
    obtain ⟨text', more, hitem⟩ := h.nextItem ha.starts
    have hread := ha.reads blank_nil (more.delimited (.listEnd rest))
    rw [List.nil_append] at hread
    simp only [Json.readItems, hitem rest, hread, ih more (Nat.lt_of_succ_lt_succ hn)]

/-- A list can be read if its items can. -/
theorem written_list (h : ListText items text) (written : List.Forall₂ (Written item) items as) :
    Written (readList item) text as := by
  obtain ⟨inner, row, rfl⟩ := h
  refine ⟨⟨'[', _, rfl, by decide, by decide⟩, ?_⟩
  intro b rest hb _
  have hlength := row.length_le
  rw [List.cons_append, readList, hb.skipSpace_eq (by decide), List.append_assoc,
    List.singleton_append]
  apply row.readItems written
  simp only [List.length_append, List.length_cons]
  omega

theorem written_writeList {write : α → List Char} (h : ∀ a ∈ as, Written item (write a) a) :
    Written (readList item) (writeList write as) as := by
  refine written_list (listText_writeList write as) ?_
  rw [List.forall₂_map_left_iff]
  exact List.forall₂_same.2 h

end

/-! ## Records -/

/-- A member of an object: what stands between the quotes of its key, and its value. -/
structure Member where
  key : List Char
  value : List Char
  deriving DecidableEq

/-- The member as it stands in an object. -/
inductive Member.Text (m : Member) : List Char → Prop
  | mk {b b' : List Char} (before : Blank b) (after : Blank b') :
      m.Text ('"' :: (m.key ++ '"' :: (b ++ ':' :: (b' ++ m.value))))

/-- An object with its members as they stand in the text. -/
def ObjectText (members : List Member) (text : List Char) : Prop :=
  ∃ parts inner, List.Forall₂ Member.Text members parts ∧ Row true parts inner ∧
    text = '{' :: (inner ++ ['}'])

/-- What stands between the quotes is read as the name. -/
def Names (key : List Char) (name : String) : Prop :=
  ∀ l, readText (key ++ '"' :: l) = .ok (name, l)

theorem Names.unique {key : List Char} {name name' : String} (h : Names key name)
    (h' : Names key name') :
    name = name' := by
  have heq := (h []).symm.trans (h' [])
  simp only [Except.ok.injEq, Prod.mk.injEq, and_true] at heq
  exact heq

/-- The value is passed over, whatever follows it. -/
def Skipped (value : List Char) : Prop :=
  ∀ {b rest : List Char}, Blank b → Delimited rest → skipValue (b ++ (value ++ rest)) = .ok rest

section

variable {δ α : Type} {s : Shape δ α}

/-- No two fields go by the same name. -/
def Named (fields : List (Field δ)) : Prop := (fields.map Field.name).Nodup

instance (fields : List (Field δ)) : Decidable (Named fields) :=
  inferInstanceAs (Decidable (List.Nodup _))

/-- A field is found by its name. -/
theorem Named.find? {fields : List (Field δ)} (h : Named fields) {field : Field δ}
    (hmem : field ∈ fields) :
    (fields.find? fun f => f.name = field.name) = some field := by
  induction fields with
  | nil => cases hmem
  | cons head fields ih =>
    obtain ⟨hhead, hfields⟩ := List.nodup_cons.1 h
    rcases List.mem_cons.1 hmem with rfl | hmem
    · simp
    · have hne : head.name ≠ field.name := fun heq => hhead (heq ▸ List.mem_map_of_mem hmem)
      rw [List.find?_cons_of_neg (by simpa using hne)]
      exact ih hfields hmem

/-- The keys that are known. -/
def Shape.names (s : Shape δ α) : List String := s.fields.map Field.name

/-- What becomes of the draft when the member is read. It is a field that the draft does not have
yet, or it is passed over. -/
inductive Takes (s : Shape δ α) (draft : δ) (m : Member) : δ → Prop
  | field {next : δ} {field : Field δ} (mem : field ∈ s.fields) (named : Names m.key field.name)
      (free : field.given draft = false) (written : Written (field.read draft) m.value next) :
        Takes s draft m next
  | other {name : String} (named : Names m.key name) (unknown : name ∉ s.names)
      (skipped : Skipped m.value) :
      Takes s draft m draft

/-- The members fill the first draft up to the last. -/
inductive Fills (s : Shape δ α) : δ → List Member → δ → Prop
  | done (draft : δ) : Fills s draft [] draft
  | member {draft next last : δ} {m : Member} {members : List Member} (takes : Takes s draft m next)
      (more : Fills s next members last) : Fills s draft (m :: members) last

theorem nextKey_closed {b : List Char} (hb : Blank b) (first : Bool) (rest : List Char) :
    nextKey first (b ++ '}' :: rest) = .ok (.closed rest) := by
  simp only [nextKey, hb.skipSpace_eq (show isSpace '}' = false by decide), if_true]

theorem skipColon_colon {b : List Char} (hb : Blank b) (l : List Char) :
    skipColon (b ++ ':' :: l) = .ok l := by
  rw [skipColon, hb.skipSpace_eq (by decide)]
  rfl

/-- A key is found where its member stands. -/
theorem Row.nextKey {first : Bool} {m : Member} {part text : List Char} {parts : List (List Char)}
    (h : Row first (part :: parts) text) (hpart : m.Text part) (rest : List Char) :
    ∃ text' b b', Row false parts text' ∧ Blank b ∧ Blank b' ∧ nextKey first (text ++ '}' :: rest) =
      .ok (.item (m.key ++ '"' :: (b ++ ':' :: (b' ++ (m.value ++ (text' ++ '}' :: rest)))))) := by
  obtain ⟨hb, hb'⟩ := hpart
  have hquote : isSpace '"' = false := by decide
  cases h with
  | first before more =>
    refine ⟨_, _, _, more, hb, hb', ?_⟩
    simp [Json.nextKey, before.skipSpace_eq hquote]
  | more before after more =>
    refine ⟨_, _, _, more, hb, hb', ?_⟩
    simp [Json.nextKey, before.skipSpace_eq (show isSpace ',' = false by decide),
      after.skipSpace_eq hquote]

/-- A member is read behind its key. -/
theorem Takes.readMember (hs : Named s.fields) {draft next : δ} {m : Member}
    (h : Takes s draft m next) {name : String} (named : Names m.key name) {b b' rest : List Char}
    (hb : Blank b) (hb' : Blank b') (hrest : Delimited rest) :
    s.readMember draft name (b ++ ':' :: (b' ++ (m.value ++ rest))) = .ok (next, rest) := by
  cases h with
  | field mem named' free written =>
    obtain rfl := named.unique named'
    simp [Shape.readMember, hs.find? mem, free, skipColon_colon hb, written.reads hb' hrest]
  | other named' unknown skipped =>
    obtain rfl := named.unique named'
    have hnone : s.fields.find? (fun f => decide (f.name = name)) = none := by
      refine List.find?_eq_none.2 fun f hf heq => unknown ?_
      rw [← of_decide_eq_true heq]
      exact List.mem_map_of_mem hf
    simp only [Shape.readMember, hnone, skipColon_colon hb, skipped hb' hrest]
    rfl

theorem Takes.named {draft next : δ} {m : Member} (h : Takes s draft m next) : ∃ name,
    Names m.key name := by
  cases h with
  | field _ named | other named => exact ⟨_, named⟩

theorem Fills.readMembers (hs : Named s.fields) {draft last : δ} {members : List Member}
    (h : Fills s draft members last) {parts : List (List Char)} {first : Bool} {text : List Char}
    (texts : List.Forall₂ Member.Text members parts) (row : Row first parts text) {n : Nat}
    (hn : parts.length < n)
    (rest : List Char) : s.readMembers n first draft (text ++ '}' :: rest) = .ok (last, rest) := by
  induction h generalizing parts first text n with
  | done draft =>
    cases texts
    obtain ⟨n, rfl⟩ := Nat.exists_eq_succ_of_ne_zero (Nat.ne_of_gt hn)
    cases row with
    | done blank => rw [Shape.readMembers, nextKey_closed blank]
  | member takes _ ih =>
    cases texts with
    | cons hpart htexts =>
      obtain ⟨n, rfl⟩ := Nat.exists_eq_succ_of_ne_zero (Nat.ne_zero_of_lt hn)
      obtain ⟨name, named⟩ := takes.named
      obtain ⟨text', b, b', more, hb, hb', hkey⟩ := row.nextKey hpart rest
      have hread := takes.readMember hs named hb hb' (more.delimited (.objectEnd rest))
      simp only [Shape.readMembers, hkey, named _, hread]
      exact ih htexts more (Nat.lt_of_succ_lt_succ hn)

/-- When the members have been read, the draft is completed. The length of the text bounds their
number. -/
theorem Fills.read (hs : Named s.fields) {last : δ} {members : List Member}
    (h : Fills s s.blank members last) {text : List Char} (layout : ObjectText members text)
    {b : List Char} (hb : Blank b) (rest : List Char) :
    (∀ a, s.complete last = .ok a → s.read (b ++ (text ++ rest)) = .ok (a, rest)) ∧
      ∀ missing, s.complete last = .error missing →
        s.read (b ++ (text ++ rest)) = .error (.before (.missingField missing) rest) := by
  obtain ⟨parts, inner, texts, row, rfl⟩ := layout
  have hread : s.readMembers ((inner ++ '}' :: rest).length + 1) true s.blank
    (inner ++ '}' :: rest) = .ok (last, rest) := by
    have hlength := row.length_le
    apply h.readMembers hs texts row
    simp only [List.length_append, List.length_cons]
    omega
  rw [List.cons_append, Shape.read, hb.skipSpace_eq (by decide), List.append_assoc,
    List.singleton_append]
  refine ⟨fun a ha => ?_, fun missing hmissing => ?_⟩
  · simp only [Shape.readObject, hread, ha]
  · simp only [Shape.readObject, hread, hmissing]

/-- A record is read from an object whose members fill a draft that is complete. -/
theorem Fills.written (hs : Named s.fields) {last : δ} {members : List Member}
    (h : Fills s s.blank members last)
    {a : α} (ha : s.complete last = .ok a) {text : List Char} (layout : ObjectText members text) :
    Written s.read text a := by
  refine ⟨?_, fun hb _ => (h.read hs layout hb _).1 a ha⟩
  obtain ⟨parts, inner, -, -, rfl⟩ := layout
  exact ⟨'{', _, rfl, by decide, by decide⟩

end

/-- The member as the writer puts it. -/
def Member.ofField (field : String × List Char) : Member := ⟨field.1.toList.flatMap escape, field.2⟩

theorem names_escape (name : String) : Names (name.toList.flatMap escape) name :=
  fun l => readText_writeText l name

theorem objectText_writeObject (fields : List (String × List Char)) :
    ObjectText (fields.map Member.ofField) (writeObject fields) := by
  refine ⟨fields.map writeMember, _, ?_, row_joined _, rfl⟩
  rw [List.forall₂_map_left_iff, List.forall₂_map_right_iff]
  refine List.forall₂_same.2 fun field _ => ?_
  have htext : writeMember field =
      '"' :: (field.1.toList.flatMap escape ++ '"' :: ([] ++ ':' :: ([] ++ field.2))) := by
    simp [writeMember, writeText]
  rw [htext]
  exact .mk blank_nil blank_nil

section

variable {δ α : Type} {s : Shape δ α}

/-- The members are the fields in their order, and reading them fills the first draft up to the
last. -/
inductive FillsInOrder : List (Field δ) → δ → List (String × List Char) → δ → Prop
  | done (draft : δ) : FillsInOrder [] draft [] draft
  | member {draft next last : δ} {field : Field δ} {fields : List (Field δ)} {text : List Char}
      {members : List (String × List Char)} (free : field.given draft = false)
      (written : Written (field.read draft) text next)
      (more : FillsInOrder fields next members last) :
      FillsInOrder (field :: fields) draft ((field.name, text) :: members) last

theorem FillsInOrder.fills {fields : List (Field δ)} {draft last : δ}
    {members : List (String × List Char)}
    (h : FillsInOrder fields draft members last) (hsub : fields ⊆ s.fields) :
    Fills s draft (members.map Member.ofField) last := by
  induction h with
  | done draft => exact .done draft
  | member free written more ih =>
    obtain ⟨hmem, hsub⟩ := List.cons_subset.1 hsub
    exact .member (.field hmem (names_escape _) free written) (ih hsub)

/-- A record is read back if its fields are. -/
theorem FillsInOrder.written {last : δ} {members : List (String × List Char)}
    (h : FillsInOrder s.fields s.blank members last) (hs : Named s.fields) {a : α}
    (ha : s.complete last = .ok a) :
    Written s.read (writeObject members) a :=
  (h.fills (List.Subset.refl _)).written hs ha (objectText_writeObject members)

end

end FairLocks.Json
