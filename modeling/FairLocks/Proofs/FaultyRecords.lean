import FairLocks.Proofs.Settled

/-!
# Lists and records are taken or refused

A list is refused with its first item that is. A record written as an object is refused with its
first member that is: the key stands for no text, the field has been given before, or the field's
reader refuses the value. Behind the members a record is refused for what is missing. So a
well-formed object cannot be read as a record if a field comes twice in it, or one is not there that
the record cannot do without, whatever else it has.
-/
namespace FairLocks.Json

set_option autoImplicit false

/-! ## Lists -/

section

variable {α : Type} {item : Reader α} {items : List (List Char)} {text : List Char}

/-- The items before the one that is refused are taken, or one of them is refused. -/
theorem Row.readItems_refused (settles : Settles item) {first : Bool} (row : Row first items text)
    (values : ∀ x ∈ items, IsValue x) {x : List Char} (hx : x ∈ items)
    (refuses : Refuses item x) (n : Nat)
    (rest : List Char) : ∃ f, Json.readItems item n first (text ++ ']' :: rest) = .error f := by
  induction items generalizing first text n with
  | nil => cases hx
  | cons y items ih =>
    obtain ⟨hy, values⟩ := List.forall_mem_cons.1 values
    cases n with
    | zero => exact ⟨_, rfl⟩
    | succ n =>
      obtain ⟨text', more, hitem⟩ := row.nextItem hy.starts
      have hend := more.delimited (.listEnd rest)
      by_cases hrefuses : Refuses item y
      · obtain ⟨f, hread⟩ := hrefuses blank_nil hend
        rw [List.nil_append] at hread
        exact ⟨f, by simp only [Json.readItems, hitem rest, hread]⟩
      · obtain ⟨a, ha⟩ := (settles y hy).resolve_right hrefuses
        have hread := ha.reads blank_nil hend
        rw [List.nil_append] at hread
        have hmem : x ∈ items := by
          refine List.mem_of_ne_of_mem ?_ hx
          rintro rfl
          exact hrefuses refuses
        obtain ⟨f, hmore⟩ := ih more values hmem n
        exact ⟨f, by simp only [Json.readItems, hitem rest, hread, hmore]⟩

theorem refuses_list (settles : Settles item) (layout : ListText items text)
    (values : ∀ x ∈ items, IsValue x)
    {x : List Char} (hx : x ∈ items) (refuses : Refuses item x) : Refuses (readList item) text := by
  obtain ⟨inner, row, rfl⟩ := layout
  intro b rest hb _
  rw [List.cons_append, readList, hb.skipSpace_eq (by decide), List.append_assoc,
    List.singleton_append]
  exact row.readItems_refused settles values hx refuses _ rest

theorem exists_forall₂_of_forall {β γ : Type} {r : β → γ → Prop} {l : List β}
    (h : ∀ x ∈ l, ∃ y, r x y) :
    ∃ l', List.Forall₂ r l l' := by
  induction l with
  | nil => exact ⟨[], .nil⟩
  | cons x l ih =>
    obtain ⟨⟨y, hy⟩, h⟩ := List.forall_mem_cons.1 h
    obtain ⟨l', hl'⟩ := ih h
    exact ⟨y :: l', .cons hy hl'⟩

theorem settles_readList (settles : Settles item) : Settles (readList item) := by
  refine settles_of_head (· = '[') (fun l => ?skips) (fun {c} rest hspace hc => ?wrong)
    fun {c l} hc h => ?right
  case skips => simp only [readList, skipSpace_skipSpace]
  case wrong =>
    simp [readList, skipSpace_cons hspace, hc]
  case right =>
    obtain rfl := hc
    cases h.headed with
    | number hc => exact not_number_start hc (by decide) rfl
    | @list items inner row values =>
      by_cases hrefuses : ∃ x ∈ items, Refuses item x
      · obtain ⟨x, hx, hrefuses⟩ := hrefuses
        exact .inr (refuses_list settles ⟨inner, row, rfl⟩ values hx hrefuses)
      · have htaken : ∀ x ∈ items, ∃ a, Written item x a := fun x hx =>
          (settles x (values x hx)).resolve_right fun h => hrefuses ⟨x, hx, h⟩
        obtain ⟨as, has⟩ := exists_forall₂_of_forall htaken
        exact .inl ⟨as, written_list ⟨inner, row, rfl⟩ has⟩

end

/-! ## Records written as objects -/

section

variable {δ α : Type} {s : Shape δ α}

/-- Why a member is refused. -/
inductive Rejects (s : Shape δ α) (draft : δ) (m : Member) : Prop
  | nameless (h : ∀ l, ∃ f, readText (m.key ++ '"' :: l) = .error f)
  | twice {field : Field δ} (mem : field ∈ s.fields) (named : Names m.key field.name)
      (given : field.given draft = true)
  | value {field : Field δ} (mem : field ∈ s.fields) (named : Names m.key field.name)
      (refuses : Refuses (field.read draft) m.value)

/-- Some members are taken, and then one is refused. -/
inductive Fails (s : Shape δ α) : δ → List Member → Prop
  | here {draft : δ} {m : Member} (members : List Member) (rejects : Rejects s draft m) :
      Fails s draft (m :: members)
  | later {draft next : δ} {m : Member} {members : List Member} (takes : Takes s draft m next)
      (more : Fails s next members) : Fails s draft (m :: members)

/-- Whatever becomes of well-formed values, the fields' readers take or refuse them. -/
def Shape.FieldsSettle (s : Shape δ α) : Prop := ∀ f ∈ s.fields, ∀ draft, Settles (f.read draft)

/-- Well-formed members are all taken, or one is refused. -/
theorem fills_or_fails (settle : s.FieldsSettle) {members : List Member}
    (keys : ∀ m ∈ members, IsBody m.key) (values : ∀ m ∈ members, IsValue m.value) (draft : δ) :
    (∃ last, Fills s draft members last) ∨ Fails s draft members := by
  induction members generalizing draft with
  | nil => exact .inl ⟨draft, .done draft⟩
  | cons m members ih =>
    obtain ⟨hkey, keys⟩ := List.forall_mem_cons.1 keys
    obtain ⟨hvalue, values⟩ := List.forall_mem_cons.1 values
    have hmore {next : δ} (takes : Takes s draft m next) :
        (∃ last, Fills s draft (m :: members) last) ∨ Fails s draft (m :: members) :=
      (ih keys values next).imp (Exists.imp fun _ => .member takes) (.later takes)
    rcases hkey.names_or with ⟨name, hspells⟩ | hnameless
    · by_cases hknown : ∃ field ∈ s.fields, field.name = name
      · obtain ⟨field, hfield, rfl⟩ := hknown
        by_cases hgiven : field.given draft = true
        · exact .inr (.here members (.twice hfield hspells.readText hgiven))
        · rcases settle field hfield draft m.value hvalue with ⟨next, hnext⟩ | hrefuses
          · exact hmore (.field hfield hspells.readText (Bool.eq_false_iff.2 hgiven) hnext)
          · exact .inr (.here members (.value hfield hspells.readText hrefuses))
      · refine hmore (.other hspells.readText (fun hmem => hknown ?_) hvalue.skipped)
        obtain ⟨field, hfield, hname⟩ := List.mem_map.1 hmem
        exact ⟨field, hfield, hname⟩
    · exact .inr (.here members (.nameless hnameless))

/-- A member with a name is refused behind its key. -/
theorem Rejects.readMember (hs : Named s.fields) {draft : δ} {m : Member} (h : Rejects s draft m)
    {name : String} (named : Names m.key name) {b b' rest : List Char} (hb : Blank b)
    (hb' : Blank b') (hrest : Delimited rest) :
    ∃ f, s.readMember draft name (b ++ ':' :: (b' ++ (m.value ++ rest))) = .error f := by
  cases h with
  | nameless h =>
    obtain ⟨f, hf⟩ := h []
    cases hf.symm.trans (named [])
  | twice mem named' given =>
    obtain rfl := named.unique named'
    exact ⟨_, by simp [Shape.readMember, hs.find? mem, given]; rfl⟩
  | @value field mem named' refuses =>
    obtain rfl := named.unique named'
    obtain ⟨f, hf⟩ := refuses hb' hrest
    by_cases hgiven : field.given draft = true
    · exact ⟨_, by simp [Shape.readMember, hs.find? mem, hgiven]; rfl⟩
    · exact ⟨f, by simp [Shape.readMember, hs.find? mem, hgiven, skipColon_colon hb, hf]⟩

theorem Rejects.named_or {draft : δ} {m : Member} (h : Rejects s draft m) :
    (∃ name, Names m.key name) ∨ ∀ l, ∃ f, readText (m.key ++ '"' :: l) = .error f := by
  cases h with
  | nameless h => exact .inr h
  | twice _ named | value _ named => exact .inl ⟨_, named⟩

theorem Fails.readMembers (hs : Named s.fields) {draft : δ} {members : List Member}
    (h : Fails s draft members) {parts : List (List Char)} {first : Bool} {text : List Char}
    (texts : List.Forall₂ Member.Text members parts) (row : Row first parts text) (n : Nat)
    (rest : List Char) :
    ∃ f, s.readMembers n first draft (text ++ '}' :: rest) = .error f := by
  induction h generalizing parts first text n with
  | @here draft m members rejects =>
    cases texts with
    | cons hpart htexts =>
      cases n with
      | zero => exact ⟨_, rfl⟩
      | succ n =>
        obtain ⟨text', b, b', more, hb, hb', hkey⟩ := row.nextKey hpart rest
        rcases rejects.named_or with ⟨name, named⟩ | hnameless
        · obtain ⟨f, hf⟩ := rejects.readMember hs named hb hb' (more.delimited (.objectEnd rest))
          exact ⟨f, by simp only [Shape.readMembers, hkey, named _, hf]⟩
        · obtain ⟨f, hf⟩ := hnameless (b ++ ':' :: (b' ++ (m.value ++ (text' ++ '}' :: rest))))
          exact ⟨f, by simp only [Shape.readMembers, hkey, hf]⟩
  | later takes _ ih =>
    cases texts with
    | cons hpart htexts =>
      cases n with
      | zero => exact ⟨_, rfl⟩
      | succ n =>
        obtain ⟨name, named⟩ := takes.named
        obtain ⟨text', b, b', more, hb, hb', hkey⟩ := row.nextKey hpart rest
        have hread := takes.readMember hs named hb hb' (more.delimited (.objectEnd rest))
        obtain ⟨f, hf⟩ := ih htexts more n
        exact ⟨f, by simp only [Shape.readMembers, hkey, named _, hread, hf]⟩

theorem Fails.refuses (hs : Named s.fields) {members : List Member} (h : Fails s s.blank members)
    {text : List Char}
    (layout : ObjectText members text) : Refuses s.read text := by
  obtain ⟨parts, inner, texts, row, rfl⟩ := layout
  intro b rest hb _
  obtain ⟨f, hf⟩ := h.readMembers hs texts row ((inner ++ '}' :: rest).length + 1) rest
  refine ⟨f, ?_⟩
  rw [List.cons_append, Shape.read, hb.skipSpace_eq (by decide), List.append_assoc,
    List.singleton_append]
  simp only [Shape.readObject, hf]

/-- Members that leave something missing are refused when they have been read. -/
theorem Fills.refuses (hs : Named s.fields) {last : δ} {members : List Member}
    (h : Fills s s.blank members last)
    {missing : String} (incomplete : s.complete last = .error missing) {text : List Char}
    (layout : ObjectText members text) : Refuses s.read text := by
  intro b rest hb _
  exact ⟨.before (.missingField missing) rest, (h.read hs layout hb rest).2 missing incomplete⟩

/-- A record written as an object is taken or refused. -/
theorem settled_object (hs : Named s.fields) (settle : s.FieldsSettle) {members : List Member}
    (keys : ∀ m ∈ members, IsBody m.key) (values : ∀ m ∈ members, IsValue m.value)
    {text : List Char}
    (layout : ObjectText members text) : (∃ a, Written s.read text a) ∨ Refuses s.read text := by
  rcases fills_or_fails settle keys values s.blank with ⟨last, hfills⟩ | hfails
  · cases hcomplete : s.complete last with
    | ok a => exact .inl ⟨a, hfills.written hs hcomplete layout⟩
    | error missing => exact .inr (hfills.refuses hs hcomplete layout)
  · exact .inr (hfails.refuses hs layout)

end

/-! ## Records written as lists -/

section

variable {δ α : Type} {items : List (List Char)} {text : List Char}

theorem closeList_closed {b : List Char} (hb : Blank b) (rest : List Char) :
    Shape.closeList (b ++ ']' :: rest) = .ok rest := by
  rw [Shape.closeList, hb.skipSpace_eq (by decide)]
  rfl

/-- No item may be left when all fields have been read. -/
theorem Row.closeList_refused {first : Bool} {x : List Char} (row : Row first (x :: items) text)
    (value : IsValue x)
    (rest : List Char) : ∃ f, Shape.closeList (text ++ ']' :: rest) = .error f := by
  cases row with
  | first before more =>
    obtain ⟨c, l, rfl, hspace, hclose⟩ := value.starts
    simp only [List.append_assoc, List.cons_append, Shape.closeList, before.skipSpace_eq hspace,
      if_neg hclose]
    split
    · split <;> exact ⟨_, rfl⟩
    · exact ⟨_, rfl⟩
  | more before after more =>
    simp only [List.append_assoc, List.cons_append, Shape.closeList,
      before.skipSpace_eq (show isSpace ',' = false by decide)]
    rw [if_neg (by decide), if_pos trivial]
    split <;> exact ⟨_, rfl⟩

/-- Fields are taken from a list in their order, until one is refused or the list ends. -/
theorem Row.settled_readFields {fields : List (Field δ)}
    (settle : ∀ f ∈ fields, ∀ draft, Settles (f.read draft))
    (values : ∀ x ∈ items, IsValue x) {first : Bool} (row : Row first items text) (draft : δ) :
    Settled (Shape.readFields first draft fields) (text ++ [']']) := by
  induction fields generalizing items text first draft with
  | nil =>
    cases items with
    | nil =>
      cases row with
      | done blank =>
        exact .inl ⟨draft, fun {rest} _ => by simp [Shape.readFields, closeList_closed blank]; rfl⟩
    | cons x items =>
      refine .inr fun {rest} _ => ?_
      obtain ⟨f, hf⟩ := row.closeList_refused (values x List.mem_cons_self) rest
      exact ⟨f, by simp [Shape.readFields, hf]; rfl⟩
  | cons field fields ih =>
    obtain ⟨hfield, settle⟩ := List.forall_mem_cons.1 settle
    cases items with
    | nil =>
      cases row with
      | done blank =>
        exact .inl ⟨draft, fun {rest} _ => by simp [Shape.readFields, nextItem_closed blank]⟩
    | cons x items =>
      obtain ⟨hx, values⟩ := List.forall_mem_cons.1 values
      obtain ⟨text', more, hitem⟩ := row.nextItem hx.starts
      rcases hfield draft x hx with ⟨next, hnext⟩ | hrefuses
      · refine (ih settle values more next).congr fun {rest} hrest => ?_
        have hread := hnext.reads blank_nil (more.delimited (.listEnd rest))
        rw [List.nil_append] at hread
        simp only [List.append_assoc, List.singleton_append, Shape.readFields, hitem rest, hread]
      · refine .inr fun {rest} _ => ?_
        obtain ⟨f, hread⟩ := hrefuses blank_nil (more.delimited (.listEnd rest))
        rw [List.nil_append] at hread
        refine ⟨f, ?_⟩
        simp only [List.append_assoc, List.singleton_append, Shape.readFields, hitem rest, hread]

/-- What was read may be too little for a record. -/
theorem settled_readListed {s : Shape δ α} (settle : s.FieldsSettle)
    (values : ∀ x ∈ items, IsValue x)
    (row : Row true items text) : Settled s.readListed (text ++ [']']) := by
  rcases row.settled_readFields settle values s.blank with ⟨last, hlast⟩ | hrefuses
  · cases hcomplete : s.complete last with
    | ok a => exact .inl ⟨a, fun hrest => by simp only [Shape.readListed, hlast hrest, hcomplete]⟩
    | error missing =>
      exact .inr fun hrest => ⟨_, by simp only [Shape.readListed, hlast hrest, hcomplete]; rfl⟩
  · refine .inr fun hrest => ?_
    obtain ⟨f, hf⟩ := hrefuses hrest
    exact ⟨f, by simp only [Shape.readListed, hf]⟩

end

/-- A record is taken or refused if its fields are. -/
theorem Shape.settles {δ α : Type} {s : Shape δ α} (hs : Named s.fields) (settle : s.FieldsSettle) :
    Settles s.read := by
  refine settles_of_head (fun c => c = '[' ∨ c = '{') (fun l => ?skips)
    (fun {c} rest hspace hc => ?wrong)
    fun {c l} hc h => ?right
  case skips => simp only [Shape.read, skipSpace_skipSpace]
  case wrong =>
    obtain ⟨hbracket, hbrace⟩ := not_or.1 hc
    simp [Shape.read, skipSpace_cons hspace, hbracket, hbrace]
  case right =>
    rcases hc with rfl | rfl
    · cases h.headed with
      | number hc => exact not_number_start hc (by decide) rfl
      | list row values =>
        refine (settled_readListed settle values row).taken_or h.starts fun hb => ?_
        rw [List.cons_append, Shape.read, hb.skipSpace_eq (by decide)]
        rfl
    · cases h.headed with
      | number hc => exact not_number_start hc (by decide) rfl
      | object texts row keys values =>
        exact settled_object hs settle keys values ⟨_, _, texts, row, rfl⟩

/-! ## What refuses an object as a record -/

section

variable {δ α : Type} {s : Shape δ α}

/-- Reading a field gives the draft that field, and no other. -/
structure Shape.Tracked (s : Shape δ α) : Prop where
  blank : ∀ f ∈ s.fields, f.given s.blank = false
  read : ∀ f ∈ s.fields, ∀ {draft next : δ} {l r : List Char}, f.read draft l = .ok (next, r) →
    ∀ g ∈ s.fields, g.given next = true ↔ g.given draft = true ∨ g.name = f.name

/-- Every draft that can be completed has the field. -/
def Shape.Needs (s : Shape δ α) (name : String) : Prop :=
  ∃ f ∈ s.fields, f.name = name ∧ ∀ draft a, s.complete draft = .ok a → f.given draft = true

/-- A field that is needed is not there, a known one comes twice, or a key stands for no text. -/
inductive Faulty (known needed : List String) (members : List Member) : Prop
  | missing {name : String} (mem : name ∈ needed)
      (absent : ∀ m ∈ members, ¬ Spells m.key name.toList)
  | twice {name : String} (mem : name ∈ known) {m m' : Member} (both : [m, m'].Sublist members)
      (hm : Spells m.key name.toList) (hm' : Spells m'.key name.toList)
  | nameless {m : Member} (mem : m ∈ members) (h : ∀ name : String, ¬ Spells m.key name.toList)

theorem IsBody.spells {key : List Char} (h : IsBody key) {name : String} (named : Names key name) :
    Spells key name.toList := by
  rcases h.names_or with ⟨name', hspells⟩ | hf
  · rwa [named.unique hspells.readText]
  · obtain ⟨f, hf⟩ := hf []
    cases hf.symm.trans (named [])

variable {draft next last : δ} {m : Member} {members : List Member} {g : Field δ}

theorem Named.eq_of_name {fields : List (Field δ)} (h : Named fields) {f g : Field δ}
    (hf : f ∈ fields)
    (hg : g ∈ fields) (heq : f.name = g.name) : f = g := by
  have hfind := h.find? hf
  rw [heq, h.find? hg] at hfind
  exact (Option.some.inj hfind).symm

theorem Takes.given_iff (tracked : s.Tracked) (h : Takes s draft m next) (hg : g ∈ s.fields) :
    g.given next = true ↔ g.given draft = true ∨ Names m.key g.name := by
  cases h with
  | @field _ field mem named free written =>
    rw [tracked.read field mem (written.reads blank_nil .nothing) g hg]
    exact or_congr_right ⟨fun heq => heq ▸ named, fun h => h.unique named⟩
  | other named unknown skipped =>
    refine ⟨.inl, fun h => h.resolve_right fun h => unknown ?_⟩
    rw [named.unique h]
    exact List.mem_map_of_mem hg

/-- Only what is not given yet can be taken. -/
theorem Takes.free (hs : Named s.fields) (h : Takes s draft m next) (hg : g ∈ s.fields)
    (named : Names m.key g.name) :
    g.given draft = false := by
  cases h with
  | field mem named' free written =>
    rwa [hs.eq_of_name hg mem (named.unique named')]
  | other named' unknown skipped =>
    refine absurd ?_ unknown
    rw [named'.unique named]
    exact List.mem_map_of_mem hg

/-- In the end a field is given that was given at first or that a member names. -/
theorem Fills.given_iff (tracked : s.Tracked) (h : Fills s draft members last) (hg : g ∈ s.fields) :
    g.given last = true ↔ g.given draft = true ∨ ∃ m ∈ members, Names m.key g.name := by
  induction h with
  | done draft => simp
  | member takes more ih => rw [ih, takes.given_iff tracked hg, List.exists_mem_cons_iff, or_assoc]

theorem Fills.not_names (hs : Named s.fields) (tracked : s.Tracked) (h : Fills s draft members last)
    (hg : g ∈ s.fields) (given : g.given draft = true) : ∀ m ∈ members, ¬ Names m.key g.name := by
  induction h with
  | done draft => exact fun _ hm => absurd hm List.not_mem_nil
  | member takes more ih =>
    refine List.forall_mem_cons.2 ⟨fun named => ?_,
      ih ((takes.given_iff tracked hg).2 (.inl given))⟩
    cases given.symm.trans (takes.free hs hg named)

/-- No two members name the same field. -/
theorem Fills.pairwise (hs : Named s.fields) (tracked : s.Tracked) (h : Fills s draft members last)
    (hg : g ∈ s.fields) : members.Pairwise fun m m' => Names m.key g.name →
      ¬ Names m'.key g.name := by
  induction h with
  | done draft => exact .nil
  | member takes more ih =>
    refine .cons (fun m' hm' named => ?_) ih
    exact more.not_names hs tracked hg ((takes.given_iff tracked hg).2 (.inr named)) m' hm'

theorem Fills.takes (h : Fills s draft members last) (hm : m ∈ members) : ∃ d d',
    Takes s d m d' := by
  induction h with
  | done draft => cases hm
  | member takes more ih =>
    rcases List.mem_cons.1 hm with rfl | hm
    · exact ⟨_, _, takes⟩
    · exact ih hm

variable {needed : List String} {text : List Char}

/-- An object is refused if a field that is needed is missing in it, if it has a field twice, or if
a key is no text. -/
theorem Faulty.refuses (hs : Named s.fields) (settle : s.FieldsSettle) (tracked : s.Tracked)
    (needs : ∀ name ∈ needed, s.Needs name) (keys : ∀ m ∈ members, IsBody m.key)
    (values : ∀ m ∈ members, IsValue m.value) (faulty : Faulty s.names needed members)
    (layout : ObjectText members text) : Refuses s.read text := by
  rcases fills_or_fails settle keys values s.blank with ⟨last, hfills⟩ | hfails
  · cases faulty with
    | @missing name mem absent =>
      obtain ⟨f, hf, rfl, hneeds⟩ := needs name mem
      have hgiven : f.given last = false := by
        refine Bool.eq_false_iff.2 fun hgiven => ?_
        rcases (hfills.given_iff tracked hf).1 hgiven with hblank | ⟨m, hm, named⟩
        · cases hblank.symm.trans (tracked.blank f hf)
        · exact absent m hm ((keys m hm).spells named)
      cases hcomplete : s.complete last with
      | ok a => cases hgiven.symm.trans (hneeds last a hcomplete)
      | error missing => exact hfills.refuses hs hcomplete layout
    | twice mem both hm hm' =>
      obtain ⟨f, hf, rfl⟩ := List.mem_map.1 mem
      exact absurd hm'.readText (List.pairwise_iff_forall_sublist.1 (hfills.pairwise hs tracked hf)
        both hm.readText)
    | @nameless m mem h =>
      obtain ⟨d, d', takes⟩ := hfills.takes mem
      obtain ⟨name, named⟩ := takes.named
      exact absurd ((keys m mem).spells named) (h name)
  · exact hfails.refuses hs layout

/-- A text is not taken and refused at once. -/
theorem Written.not_refuses {β : Type} {value : Reader β} {a : β} (h : Written value text a) :
    ¬ Refuses value text := by
  intro hrefuses
  obtain ⟨f, hf⟩ := hrefuses blank_nil .nothing
  cases hf.symm.trans (h.reads blank_nil .nothing)

/-- An object is refused if the value of a field is. -/
theorem refuses_of_value (hs : Named s.fields) (settle : s.FieldsSettle)
    (keys : ∀ m ∈ members, IsBody m.key) (values : ∀ m ∈ members, IsValue m.value)
    (hm : m ∈ members) (hg : g ∈ s.fields) (named : Names m.key g.name)
    (refuses : ∀ draft, Refuses (g.read draft) m.value) (layout : ObjectText members text) :
      Refuses s.read text := by
  rcases fills_or_fails settle keys values s.blank with ⟨last, hfills⟩ | hfails
  · obtain ⟨d, d', takes⟩ := hfills.takes hm
    cases takes with
    | field mem named' free written =>
      obtain rfl := hs.eq_of_name hg mem (named.unique named')
      exact absurd (refuses d) written.not_refuses
    | other named' unknown skipped =>
      refine absurd ?_ unknown
      rw [named'.unique named]
      exact List.mem_map_of_mem hg
  · exact hfails.refuses hs layout

end

end FairLocks.Json
