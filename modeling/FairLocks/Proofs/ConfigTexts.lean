import FairLocks.Proofs.FaultyRecords
import FairLocks.Proofs.RoundTrips

/-!
# What a configuration's text may look like

A configuration's text is an object whose fields may stand in any order, with blank space between
its parts and with further fields that are passed over to the end of their values. A field with a
default may be left out. Any such text is read as the configuration. The draft that the members fill
goes by the names that have been read, not by their order, and the members between them leave it as
it is.

An object is refused if an entry in its list lacks a field, if it or an entry has a field twice, or
if a key stands for no text. The last is why a further field needs more than good form.
-/
namespace FairLocks

set_option autoImplicit false

open Json

namespace Json

variable {δ α : Type} {s : Shape δ α}

/-- A member that is no field: its key spells another text, and its value is anything
well-formed. -/
structure Member.Further (s : Shape δ α) (m : Member) : Prop where
  key : ∃ name : String, Spells m.key name.toList ∧ name ∉ s.names
  value : IsValue m.value

theorem further_ofField {f : String × List Char} (unknown : f.1 ∉ s.names) (value : IsValue f.2) :
    (Member.ofField f).Further s := ⟨⟨f.1, spells_flatMap_escape _, unknown⟩, value⟩

/-- Some of the written fields in any order with other members in between, and the names of these
fields. -/
inductive Chosen (s : Shape δ α) (fields : List (String × List Char)) :
    List Member → List String → Prop
  | nil : Chosen s fields [] []
  | field {f : String × List Char} {members : List Member} {names : List String} (mem : f ∈ fields)
      (more : Chosen s fields members names) : Chosen s fields (.ofField f :: members)
      (f.1 :: names)
  | further {m : Member} {members : List Member} {names : List String} (further : m.Further s)
      (more : Chosen s fields members names) : Chosen s fields (m :: members) names

theorem chosen_append {fields kept : List (String × List Char)} {further : List Member}
    (hkept : ∀ f ∈ kept, f ∈ fields) (hfurther : ∀ m ∈ further, m.Further s) :
    Chosen s fields (kept.map Member.ofField ++ further) (kept.map Prod.fst) := by
  induction kept with
  | nil =>
    induction further with
    | nil => exact .nil
    | cons m further ih =>
      obtain ⟨hm, hfurther⟩ := List.forall_mem_cons.1 hfurther
      exact .further hm (ih hfurther)
  | cons f kept ih =>
    obtain ⟨hf, hkept⟩ := List.forall_mem_cons.1 hkept
    exact .field hf (ih hkept)

theorem Chosen.perm {fields : List (String × List Char)} {members members' : List Member}
    {names : List String} (h : Chosen s fields members names) (perm : members.Perm members') :
    ∃ names', names.Perm names' ∧ Chosen s fields members' names' := by
  induction perm generalizing names with
  | nil => exact ⟨names, .refl _, h⟩
  | cons m _ ih =>
    cases h with
    | field mem more =>
      obtain ⟨names', hperm, hmore⟩ := ih more
      exact ⟨_, hperm.cons _, .field mem hmore⟩
    | further further more =>
      obtain ⟨names', hperm, hmore⟩ := ih more
      exact ⟨_, hperm, .further further hmore⟩
  | swap m m' l =>
    cases h with
    | field mem more =>
      cases more with
      | field mem' more => exact ⟨_, .swap _ _ _, .field mem' (.field mem more)⟩
      | further further more => exact ⟨_, .refl _, .further further (.field mem more)⟩
    | further further more =>
      cases more with
      | field mem more => exact ⟨_, .refl _, .field mem (.further further more)⟩
      | further further' more => exact ⟨_, .refl _, .further further' (.further further more)⟩
  | trans _ _ ih ih' =>
    obtain ⟨names₁, hperm₁, h₁⟩ := ih h
    obtain ⟨names₂, hperm₂, h₂⟩ := ih' h₁
    exact ⟨names₂, hperm₁.trans hperm₂, h₂⟩

/-- The drafts that the written fields fill, told by the names that have been read. -/
def Drafted (s : Shape δ α) (fields : List (String × List Char)) (draft : List String → δ) : Prop :=
  ∀ f ∈ fields, ∀ names, f.1 ∉ names → ∃ field ∈ s.fields, field.name = f.1 ∧
    field.given (draft names) = false ∧
    Written (field.read (draft names)) f.2 (draft (f.1 :: names))

theorem Drafted.fills {fields : List (String × List Char)} {draft : List String → δ}
    (h : Drafted s fields draft) {members : List Member} {names : List String}
    (chosen : Chosen s fields members names) (nodup : names.Nodup) {before : List String}
    (apart : ∀ name ∈ names, name ∉ before) :
    Fills s (draft before) members (draft (names.reverse ++ before)) := by
  induction chosen generalizing before with
  | nil => exact .done _
  | @field f members names mem more ih =>
    obtain ⟨hnotMem, hnodup⟩ := List.nodup_cons.1 nodup
    obtain ⟨hname, happart⟩ := List.forall_mem_cons.1 apart
    obtain ⟨field, hfield, hnames, hfree, hwritten⟩ := h f mem before hname
    have hmore := @ih hnodup (f.1 :: before) fun name hname hbefore => by
      rcases List.mem_cons.1 hbefore with rfl | hbefore
      · exact hnotMem hname
      · exact happart name hname hbefore
    rw [List.reverse_cons, List.append_assoc]
    refine .member (.field hfield ?_ hfree hwritten) hmore
    rw [hnames]
    exact names_escape f.1
  | further further more ih =>
    obtain ⟨name, hspells, hunknown⟩ := further.key
    exact .member (.other hspells.readText hunknown further.value.skipped) (ih nodup apart)

/-- A record is read from some of its written fields, in any order and with other members in
between, if no field comes twice and the draft that they fill is complete. -/
theorem Drafted.written {fields kept : List (String × List Char)} {draft : List String → δ}
    (h : Drafted s fields draft) (hs : Named s.fields) (blank : draft [] = s.blank)
    (hkept : ∀ f ∈ kept, f ∈ fields) (nodup : (kept.map Prod.fst).Nodup) {a : α}
    (complete : ∀ names, (∀ name, name ∈ names ↔ name ∈ kept.map Prod.fst) →
      s.complete (draft names) = .ok a)
    {members further : List Member} (perm : (kept.map Member.ofField ++ further).Perm members)
    (hfurther : ∀ m ∈ further, m.Further s) {text : List Char} (layout : ObjectText members text) :
    Written s.read text a := by
  obtain ⟨names, hnames, chosen⟩ := (chosen_append hkept hfurther).perm perm
  have hfills := @Drafted.fills _ _ _ _ _ h _ _ chosen (hnames.nodup_iff.1 nodup) [] fun _ _ =>
    List.not_mem_nil
  rw [blank] at hfills
  refine hfills.written hs (complete _ fun name => ?_) layout
  rw [List.append_nil, List.mem_reverse, hnames.mem_iff]

/-- An object without a field that it had in its written form is at fault, whatever is added to
it. -/
theorem faulty_of_left_out {kept : List (String × List Char)} {members further : List Member}
    (perm : (kept.map Member.ofField ++ further).Perm members)
    (hfurther : ∀ m ∈ further, m.Further s)
    {known needed : List String} {name : String} (hname : name ∈ s.names) (hneeded : name ∈ needed)
    (left : name ∉ kept.map Prod.fst) : Faulty known needed members := by
  refine .missing hneeded fun m hm hspells => ?_
  rcases List.mem_append.1 (perm.mem_iff.2 hm) with hm | hm
  · obtain ⟨f, hf, rfl⟩ := List.mem_map.1 hm
    refine left ?_
    rw [← (names_escape f.1).unique hspells.readText]
    exact List.mem_map_of_mem hf
  · obtain ⟨name', hspells', hunknown⟩ := (hfurther m hm).key
    refine hunknown ?_
    rwa [Names.unique hspells'.readText hspells.readText]

end Json

namespace ResourceType

/-- The fields as they are written. -/
def fields (t : ResourceType) : List (String × List Char) :=
  [("name", writeText t.name), ("capacity", writeInt t.capacity),
    ("sharing_mode", t.sharingMode.write)]

/-- The text is that of the type, with its fields in any order, other members in between, and blank
space. -/
def Text (t : ResourceType) (text : List Char) : Prop :=
  ∃ members further, ObjectText members text ∧
    (t.fields.map Member.ofField ++ further).Perm members ∧
    ∀ m ∈ further, m.Further shape

theorem text_write (t : ResourceType) : t.Text t.write :=
  ⟨_, [], objectText_writeObject t.fields, .of_eq (List.append_nil _),
    fun _ hm => absurd hm List.not_mem_nil⟩

/-- What is known of the type when some names have been read. -/
def draftOf (t : ResourceType) (names : List String) : Draft where
  name := if "name" ∈ names then some t.name else none
  capacity := if "capacity" ∈ names then some t.capacity else none
  sharingMode := if "sharing_mode" ∈ names then some t.sharingMode else none

theorem drafted {t : ResourceType} (h : t.Fits) : Drafted shape t.fields t.draftOf := by
  intro f hf names hnotMem
  simp only [fields, List.mem_cons, List.not_mem_nil, or_false] at hf
  rcases hf with rfl | rfl | rfl
  · have hset : t.draftOf ("name" :: names) = { t.draftOf names with name := some t.name } := by
      simp [draftOf]
    refine ⟨_, .head _, rfl, by simp [fieldOf, draftOf, hnotMem], ?_⟩
    rw [hset]
    exact written_fieldOf (written_writeText t.name) _
  · have hset : t.draftOf ("capacity" :: names) =
        { t.draftOf names with capacity := some t.capacity } := by
      simp [draftOf]
    refine ⟨_, .tail _ (.head _), rfl, by simp [fieldOf, draftOf, hnotMem], ?_⟩
    rw [hset]
    exact written_fieldOf (written_count h) _
  · have hset : t.draftOf ("sharing_mode" :: names) =
        { t.draftOf names with sharingMode := some t.sharingMode } := by
      simp [draftOf]
    refine ⟨_, .tail _ (.tail _ (.head _)), rfl, by simp [fieldOf, draftOf, hnotMem], ?_⟩
    rw [hset]
    exact written_fieldOf t.sharingMode.written _

theorem Text.written {t : ResourceType} (h : t.Fits) {text : List Char} (htext : t.Text text) :
    Written read text t := by
  obtain ⟨members, further, layout, perm, hfurther⟩ := htext
  refine (drafted h).written (by decide) rfl (fun _ => id) (by simp [fields])
    (fun names hnames => ?_) perm hfurther
    layout
  have hname : "name" ∈ names := (hnames _).2 (by simp [fields])
  have hcapacity : "capacity" ∈ names := (hnames _).2 (by simp [fields])
  have hmode : "sharing_mode" ∈ names := (hnames _).2 (by simp [fields])
  simp only [shape, draftOf, if_pos hname, if_pos hcapacity, if_pos hmode]
  rfl

end ResourceType

namespace Config

/-- The fields as they are written, the types in some layout. -/
def fields (c : Config) (types : List Char) : List (String × List Char) :=
  [("group_timeout", c.groupTimeout.write), ("resource_types", types)]

/-- The text is that of the configuration, with its fields in any order, other members in between,
and blank space. A field may be left out that has its default value. -/
def Text (c : Config) (text : List Char) : Prop :=
  ∃ (items : List (List Char)) (types : List Char) (members : List Member)
    (kept : List (String × List Char)) (further : List Member),
    List.Forall₂ ResourceType.Text c.resourceTypes items ∧ ListText items types ∧
      kept.Sublist (c.fields types) ∧
    (c.groupTimeout = default.groupTimeout ∨ "group_timeout" ∈ kept.map Prod.fst) ∧
    (c.resourceTypes = default.resourceTypes ∨ "resource_types" ∈ kept.map Prod.fst) ∧
    ObjectText members text ∧ (kept.map Member.ofField ++ further).Perm members ∧ ∀ m ∈ further,
    m.Further shape

theorem text_write (c : Config) : c.Text c.write := by
  have hitems : List.Forall₂ ResourceType.Text c.resourceTypes
      (c.resourceTypes.map ResourceType.write) :=
    List.forall₂_map_right_iff.2 (List.forall₂_same.2 fun t _ => t.text_write)
  have hlist := listText_writeList ResourceType.write c.resourceTypes
  exact ⟨_, _, _, _, [], hitems, hlist, .refl _, .inr (by simp [fields]), .inr (by simp [fields]),
    objectText_writeObject (c.fields _), .of_eq (List.append_nil _), fun _ hm =>
      absurd hm List.not_mem_nil⟩

/-- What is left out has the default value. -/
theorem getD_of_or {α : Type} {p : Prop} [Decidable p] {a d : α} (h : a = d ∨ p) :
    (if p then some a else none).getD d = a := by
  by_cases hp : p
  · simp [hp]
  · simp [hp, h.resolve_right hp]

/-- What is known of the configuration when some names have been read. -/
def draftOf (c : Config) (names : List String) : Draft where
  groupTimeout := if "group_timeout" ∈ names then some c.groupTimeout else none
  resourceTypes := if "resource_types" ∈ names then some c.resourceTypes else none

theorem drafted {c : Config} {types : List Char}
    (htypes : Written (readList ResourceType.read) types c.resourceTypes) :
    Drafted shape (c.fields types) c.draftOf := by
  intro f hf names hnotMem
  simp only [fields, List.mem_cons, List.not_mem_nil, or_false] at hf
  rcases hf with rfl | rfl
  · have hset : c.draftOf ("group_timeout" :: names) =
        { c.draftOf names with groupTimeout := some c.groupTimeout } := by
      simp [draftOf]
    refine ⟨_, .head _, rfl, by simp [fieldOf, draftOf, hnotMem], ?_⟩
    rw [hset]
    exact written_fieldOf c.groupTimeout.written _
  · have hset : c.draftOf ("resource_types" :: names) =
        { c.draftOf names with resourceTypes := some c.resourceTypes } := by
      simp [draftOf]
    refine ⟨_, .tail _ (.head _), rfl, by simp [fieldOf, draftOf, hnotMem], ?_⟩
    rw [hset]
    exact written_fieldOf htypes _

theorem Text.written {c : Config} (h : c.Fits) {text : List Char}
    (htext : c.Text text) : Written read text c := by
  obtain ⟨items, types, members, kept, further, hitems, htypes, hkept, htimeout, hlisted, layout,
    perm, hfurther⟩ := htext
  have hread : List.Forall₂ (Written ResourceType.read) items c.resourceTypes := by
    have hfits : ∀ t ∈ c.resourceTypes, t.Fits := h
    clear hlisted htypes hkept
    generalize c.resourceTypes = ts at hitems hfits ⊢
    induction hitems with
    | nil => exact .nil
    | cons ht _ ih =>
      obtain ⟨hfit, hfits⟩ := List.forall_mem_cons.1 hfits
      exact .cons (ht.written hfit) (ih hfits)
  refine (drafted (written_list htypes hread)).written (by decide) rfl (fun f hf => hkept.subset hf)
    ((hkept.map _).nodup (by simp [fields])) (fun names hnames => ?_) perm hfurther layout
  rw [← hnames] at htimeout hlisted
  have htimeout := getD_of_or htimeout
  have hlisted := getD_of_or hlisted
  simp only [shape, draftOf, htimeout, hlisted]

end Config

/-! ## Texts that are refused -/

section

variable {δ α : Type} {name : String} {get : δ → Option α} {set : δ → α → δ} {value : Reader α}

theorem settles_fieldOf (h : Settles value) (draft : δ) :
    Settles ((fieldOf name get set value).read draft) := h.map _

theorem refuses_fieldOf {text : List Char} (h : Refuses value text) (draft : δ) :
    Refuses ((fieldOf name get set value).read draft) text := h.map _

theorem eq_set_of_read {draft next : δ} {l r : List Char}
    (h : (fieldOf name get set value).read draft l = .ok (next, r)) : ∃ a, next = set draft a := by
  simp only [fieldOf] at h
  cases hread : value l with
  | error f =>
    rw [hread] at h
    cases h
  | ok x =>
    rw [hread] at h
    cases h
    exact ⟨x.1, rfl⟩

end

theorem SharingMode.settles : Settles read := settles_readVariant _

theorem GroupTimeout.settles : Settles read := settles_readVariant _

namespace ResourceType

theorem fieldsSettle : shape.FieldsSettle := by
  intro f hf
  simp only [shape, List.mem_cons, List.not_mem_nil, or_false] at hf
  rcases hf with rfl | rfl | rfl
  · exact settles_fieldOf settles_readString
  · exact settles_fieldOf settles_readCount
  · exact settles_fieldOf SharingMode.settles

theorem settles : Settles read := Json.Shape.settles (by decide) fieldsSettle

theorem tracked : shape.Tracked where
  blank := by simp [shape, fieldOf]
  read := by
    intro f hf draft next l r hread g hg
    simp only [shape, List.mem_cons, List.not_mem_nil, or_false] at hf hg
    rcases hf with rfl | rfl | rfl <;> obtain ⟨a, rfl⟩ := eq_set_of_read hread <;>
      rcases hg with rfl | rfl | rfl <;> simp [fieldOf]

/-- A draft without one of the fields is not completed. -/
theorem given_of_complete {draft : Draft} {t : ResourceType} (h : shape.complete draft = .ok t) :
    ∀ f ∈ shape.fields, f.given draft = true := by
  obtain ⟨_ | name, _ | capacity, _ | mode⟩ := draft
  case some.some.some => simp [shape, fieldOf]
  all_goals cases h

theorem needs : ∀ name ∈ shape.names, shape.Needs name := by
  intro name hname
  obtain ⟨f, hf, hfname⟩ := List.mem_map.1 hname
  exact ⟨f, hf, hfname, fun _ _ h => given_of_complete h f hf⟩

end ResourceType

namespace Config

theorem fieldsSettle : shape.FieldsSettle := by
  intro f hf
  simp only [shape, List.mem_cons, List.not_mem_nil, or_false] at hf
  rcases hf with rfl | rfl
  · exact settles_fieldOf GroupTimeout.settles
  · exact settles_fieldOf (settles_readList ResourceType.settles)

theorem tracked : shape.Tracked where
  blank := by simp [shape, fieldOf]
  read := by
    intro f hf draft next l r hread g hg
    simp only [shape, List.mem_cons, List.not_mem_nil, or_false] at hf hg
    rcases hf with rfl | rfl <;> obtain ⟨a, rfl⟩ := eq_set_of_read hread <;>
      rcases hg with rfl | rfl <;> simp [fieldOf]

/-- An object is at fault as a configuration, or an object in its list of types is at fault as a
type. -/
inductive Faulty (members : List Member) : Prop
  | top (h : Json.Faulty ["group_timeout", "resource_types"] [] members)
  | entry {m : Member} (hm : m ∈ members) (key : Spells m.key "resource_types".toList)
      {items : List (List Char)} (list : ListText items m.value)
      (items_values : ∀ x ∈ items, IsValue x) {text : List Char} (mem : text ∈ items)
      {fields : List Member} (layout : ObjectText fields text) (keys : ∀ f ∈ fields, IsBody f.key)
      (values : ∀ f ∈ fields, IsValue f.value)
      (h : Json.Faulty ["name", "capacity", "sharing_mode"] ["name", "capacity", "sharing_mode"]
        fields) :
      Faulty members

theorem Faulty.refuses {members : List Member} (keys : ∀ m ∈ members, IsBody m.key)
    (values : ∀ m ∈ members, IsValue m.value) (faulty : Faulty members) {text : List Char}
    (layout : ObjectText members text) : Refuses read text := by
  cases faulty with
  | top h =>
    have hneeds : ∀ name ∈ [], shape.Needs name := fun _ hmem => absurd hmem List.not_mem_nil
    exact h.refuses (by decide) fieldsSettle tracked hneeds keys values layout
  | entry hm key list hitems mem object keys' values' h =>
    have hrefuses : Refuses ResourceType.read _ :=
      h.refuses (by decide) ResourceType.fieldsSettle ResourceType.tracked ResourceType.needs keys'
        values' object
    have hlist := refuses_list ResourceType.settles list hitems mem hrefuses
    exact refuses_of_value (by decide) fieldsSettle keys values hm (.tail _ (.head _)) key.readText
      (refuses_fieldOf hlist) layout

end Config

/-- What a configuration's text is read as depends on its known fields only. Any layout of it is
read as the configuration, in whatever order the fields stand and whatever else is there. A text
with a fault is refused with an error of the configuration. -/
theorem config_of_known_fields :
    (∀ (c : Config) (b text b' : List Char), c.Fits → c.Text text → Blank b → Blank b' →
        Config.ofText (String.ofList (b ++ (text ++ b'))) = .ok c) ∧
      ∀ (members : List Member) (b text b' : List Char), ObjectText members text →
        (∀ m ∈ members, IsBody m.key) →
        (∀ m ∈ members, IsValue m.value) → Blank b → Blank b' → Config.Faulty members →
        ∃ reason, Config.ofText (String.ofList (b ++ (text ++ b'))) = .error (.config reason) := by
  refine ⟨fun c b text b' hc htext hb hb' => ?_,
    fun members b text b' layout keys values hb hb' hfaulty => ?_⟩
  · rw [Config.ofText, String.toList_ofList, (htext.written hc).readWhole_blank hb hb']
  · obtain ⟨f, hf⟩ := (hfaulty.refuses keys values layout).readWhole hb hb'
    refine ⟨f.message (b ++ (text ++ b')), ?_⟩
    rw [Config.ofText, String.toList_ofList, hf]

/-- A rack of two, shared by groups. -/
def rack : ResourceType := ⟨"rack", 2, .sharedGroup⟩

def racks : Config := ⟨.perMember, [rack]⟩

/-- The key is half of a pair. It is well-formed, but it stands for no text. -/
def halfPair : Member := ⟨['\\', 'u', 'd', '8', '0', '0'], ['n', 'u', 'l', 'l']⟩

def halfPairText : List Char :=
  '{' :: '"' :: (halfPair.key ++ '"' :: ':' :: (halfPair.value ++ ['}']))

theorem isBody_halfPair : IsBody halfPair.key :=
  .hex (show fourHex? 'd' '8' '0' '0' = some 0xd800 by decide) .nil

theorem halfPair_nameless (name : String) : ¬ Spells halfPair.key name.toList := by
  intro h
  have hescape : readEscape ['u', 'd', '8', '0', '0', '"'] = .error (.peek .surrogateAlone ['"']) :=
    rfl
  cases (readQuoted_refused hescape []).symm.trans (h.readQuoted [] [])

theorem isValue_null : IsValue halfPair.value := .null

theorem objectText_halfPair : ObjectText [halfPair] halfPairText :=
  ⟨_, _, .cons (.mk blank_nil blank_nil) .nil, .first blank_nil (.done blank_nil), rfl⟩

theorem isValue_halfPair : IsValue halfPairText :=
  .object objectText_halfPair (by simpa using isBody_halfPair) (by simpa using isValue_null)

/-- It is refused as the key of a field that is not known. So it takes more than good form for a
field to be passed over. -/
theorem half_pair_refused :
    Config.default.Fits ∧ IsBody halfPair.key ∧
      (∀ name ∈ Config.shape.names, ¬ Spells halfPair.key name.toList) ∧
      IsValue halfPair.value ∧ ObjectText [halfPair] halfPairText ∧
      Config.ofText (String.ofList halfPairText) =
        .error (.config "unexpected end of hex escape at line 1 column 9") :=
  ⟨by decide, isBody_halfPair, fun name _ => halfPair_nameless name, isValue_null,
    objectText_halfPair, by decide +kernel⟩

/-- Half of a pair deep inside, and a number with all its parts. -/
def spare : String × List Char :=
  ("spare", '[' :: (halfPairText ++ [',', ' ', '-', '0', '.', '5', 'E', '+', '1', ']']))

theorem isValue_spare : IsValue spare.2 := by
  have hdigits : Digits [] := fun _ h => absurd h List.not_mem_nil
  have hunsigned : IsUnsigned (['0'] ++ ('.' :: ['5'] ++ 'E' :: (['+'] ++ ['1']))) :=
    .mk .zero (.some rfl hdigits) (.some (.inr rfl) (by decide) rfl hdigits)
  have hspace : Blank [' '] := by decide
  refine @IsValue.list [halfPairText, ['-', '0', '.', '5', 'E', '+', '1']] _
    ⟨_, .first blank_nil (.more blank_nil hspace (.done blank_nil)), rfl⟩ ?_
  simpa using ⟨isValue_halfPair, IsValue.number (.negative hunsigned)⟩

/-- An entry for racks with its fields in another order and one more. -/
def rackFields : List (String × List Char) :=
  [("capacity", writeInt 2), ("colour", writeObject []), ("sharing_mode", writeText "shared_group"),
    ("name", writeText "rack")]

theorem text_rackFields : rack.Text (writeObject rackFields) := by
  have hempty : IsValue (writeObject []) := isValue_writeObject (by simp)
  refine ⟨_, [.ofField ("colour", writeObject [])], objectText_writeObject rackFields,
    by decide, ?_⟩
  simpa using further_ofField (by decide) hempty

/-- The default is left out, and something is added. -/
def racksFields : List (String × List Char) :=
  [spare, ("resource_types", '[' :: ([' '] ++ (writeObject rackFields ++ [' ']) ++ [']']))]

theorem text_racksFields : racks.Text (writeObject racksFields) := by
  have hspace : Blank [' '] := by decide
  refine ⟨_, _, _, [_], [.ofField spare], .cons text_rackFields .nil,
    ⟨_, .first hspace (.done hspace), rfl⟩, .cons _ (.refl _), .inl rfl, .inr ?_,
    objectText_writeObject racksFields, .swap _ _ _, ?_⟩
  · simp
  · simpa using further_ofField (by decide) isValue_spare

/-- An entry for racks without their capacity. -/
def capacityless : List (String × List Char) :=
  [("sharing_mode", writeText "shared_group"), ("name", writeText "rack")]

theorem isValue_capacityless : ∀ f ∈ capacityless, IsValue f.2 := by
  simp [capacityless, isValue_writeText]

def shortened : List (String × List Char) :=
  [("resource_types", writeList writeObject [capacityless])]

theorem isValue_shortened : ∀ f ∈ shortened, IsValue f.2 := by
  have hvalue := isValue_writeObject isValue_capacityless
  simpa [shortened] using isValue_writeList (List.forall_mem_singleton.2 hvalue)

theorem faulty_shortened : Config.Faulty (shortened.map Member.ofField) := by
  have hlist := listText_writeList writeObject [capacityless]
  have hvalue := isValue_writeObject isValue_capacityless
  refine .entry List.mem_cons_self (spells_flatMap_escape _) hlist
    (by simpa using hvalue) List.mem_cons_self
    (objectText_writeObject capacityless) isBody_key_ofField
      (List.forall_mem_map.2 isValue_capacityless) ?_
  exact @faulty_of_left_out _ _ ResourceType.shape capacityless _ [] (.of_eq (List.append_nil _))
    (by simp) _ _
    "capacity" (by decide) (by decide) (by decide)

/-- The same field twice. -/
def timedTwice : List (String × List Char) :=
  [("group_timeout", GroupTimeout.perMember.write), ("group_timeout", GroupTimeout.perMember.write)]

theorem isValue_timedTwice : ∀ f ∈ timedTwice, IsValue f.2 := by
  simp [timedTwice, GroupTimeout.write, isValue_writeText]

theorem faulty_timedTwice : Config.Faulty (timedTwice.map Member.ofField) :=
  .top (.twice (.head _) (.refl _) (spells_flatMap_escape _) (spells_flatMap_escape _))

theorem config_of_known_fields_racks :
    (racks.Fits ∧
      Config.ofText
          ("\n \x7b\"spare\":[\x7b\"\\ud800\":null\x7d, -0.5E+1],\"resource_types\":[ " ++
            ("\x7b\"capacity\":2,\"colour\":\x7b\x7d,\"sharing_mode\":\"shared_group\"," ++
              "\"name\":\"rack\"\x7d ]\x7d ")) =
        .ok racks) ∧
    (∃ reason, Config.ofText
        "\x7b\"resource_types\":[\x7b\"sharing_mode\":\"shared_group\",\"name\":\"rack\"\x7d]\x7d" =
      .error (.config reason)) ∧
    (∃ reason,
      Config.ofText "\x7b\"group_timeout\":\"per_member\",\"group_timeout\":\"per_member\"\x7d" =
        .error (.config reason)) ∧
    ∃ reason, Config.ofText "\x7b\"\\ud800\":null\x7d" = .error (.config reason) := by
  refine ⟨⟨by decide, ?racks⟩, ?missing, ?twice, ?nameless⟩
  case racks =>
    have hread := config_of_known_fields.1 racks ['\n', ' '] _ [' ']
      (by decide) text_racksFields (by decide)
      (by decide)
    exact Eq.trans (congrArg Config.ofText (by decide +kernel)) hread
  case missing =>
    obtain ⟨reason, hread⟩ := config_of_known_fields.2 _ [] _ [] (objectText_writeObject _)
      isBody_key_ofField (List.forall_mem_map.2 isValue_shortened) blank_nil blank_nil
      faulty_shortened
    exact ⟨reason, (congrArg Config.ofText (by decide +kernel)).trans hread⟩
  case twice =>
    obtain ⟨reason, hread⟩ := config_of_known_fields.2 _ [] _ [] (objectText_writeObject _)
      isBody_key_ofField (List.forall_mem_map.2 isValue_timedTwice) blank_nil blank_nil
      faulty_timedTwice
    exact ⟨reason, (congrArg Config.ofText (by decide +kernel)).trans hread⟩
  case nameless =>
    obtain ⟨reason, hread⟩ := config_of_known_fields.2 [halfPair] [] _ [] objectText_halfPair
      (by simpa using isBody_halfPair) (by simpa using isValue_null) blank_nil blank_nil
      (.top (.nameless List.mem_cons_self halfPair_nameless))
    exact ⟨reason, (congrArg Config.ofText (by decide +kernel)).trans hread⟩

end FairLocks
