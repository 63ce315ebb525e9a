import FairLocks.Codec
import FairLocks.Proofs.Layouts

/-!
# Every value is read back from its written form

A configuration, a resource type, an event and a slot state come back unchanged, whatever characters
are in the names, as long as the numbers are within the range of their kind.
-/
namespace FairLocks

set_option autoImplicit false

open Json (FillsInOrder Written signed64 unsigned64)

theorem written_fieldOf {δ α : Type} {name : String} {get : δ → Option α} {set : δ → α → δ}
    {value : Json.Reader α} {text : List Char} {a : α} (h : Written value text a) (draft : δ) :
    Written ((fieldOf name get set value).read draft) text (set draft a) where
  starts := h.starts
  reads := by
    intro b rest hb hrest
    simp only [fieldOf, h.reads hb hrest]
    rfl

theorem SharingMode.written (m : SharingMode) : Written read m.write m := by
  cases m <;> exact Json.written_name rfl

theorem GroupTimeout.written (g : GroupTimeout) : Written read g.write g := by
  cases g <;> exact Json.written_name rfl

/-- The capacity fits its kind. -/
def ResourceType.Fits (t : ResourceType) : Prop := unsigned64.Has t.capacity

instance (t : ResourceType) : Decidable t.Fits := inferInstanceAs (Decidable (_ ∧ _))

theorem ResourceType.written {t : ResourceType} (h : t.Fits) : Written read t.write t := by
  have hfills : FillsInOrder shape.fields shape.blank _
      ⟨some t.name, some t.capacity, some t.sharingMode⟩ :=
    .member rfl (written_fieldOf (Json.written_writeText t.name) _) <|
    .member rfl (written_fieldOf (Json.written_count h) _) <|
    .member rfl (written_fieldOf t.sharingMode.written _) <| .done _
  exact hfills.written (by decide) rfl

/-- The id and the owners fit their kind. -/
structure LockEvent.Fits (e : LockEvent) : Prop where
  resourceId : signed64.Has e.resourceId
  owners : ∀ o ∈ e.owners, signed64.Has o

/-- A list of ids or owners is read back. -/
theorem written_ids {ids : List Int} (h : ∀ i ∈ ids, signed64.Has i) :
    Written (Json.readList Json.readId) (Json.writeList Json.writeInt ids) ids :=
  Json.written_writeList fun i hi => Json.written_id (h i hi)

theorem LockEvent.written {e : LockEvent} (h : e.Fits) : Written read e.write e := by
  have hfills : FillsInOrder shape.fields shape.blank _
      ⟨some e.typeName, some e.resourceId, some e.owners⟩ :=
    .member rfl (written_fieldOf (Json.written_writeText e.typeName) _) <|
    .member rfl (written_fieldOf (Json.written_id h.resourceId) _) <|
    .member rfl (written_fieldOf (written_ids h.owners) _) <| .done _
  exact hfills.written (by decide) rfl

/-- The id, the counts and all owners fit their kinds. They need not fit together. -/
structure SlotState.Fits (s : SlotState) : Prop where
  resourceId : signed64.Has s.resourceId
  capacity : unsigned64.Has s.capacity
  available : unsigned64.Has s.available
  owners : ∀ o ∈ s.owners, signed64.Has o
  holders : ∀ os ∈ s.holders, ∀ o ∈ os, signed64.Has o
  waiting : unsigned64.Has s.waiting

theorem SlotState.written {s : SlotState} (h : s.Fits) : Written read s.write s := by
  have hholders := Json.written_writeList fun os hos => written_ids (h.holders os hos)
  have hfills : FillsInOrder shape.fields shape.blank _ ⟨some s.typeName, some s.resourceId,
      some s.sharingMode, some s.capacity, some s.available, some s.owners, some s.holders,
      some s.waiting⟩ :=
    .member rfl (written_fieldOf (Json.written_writeText s.typeName) _) <|
    .member rfl (written_fieldOf (Json.written_id h.resourceId) _) <|
    .member rfl (written_fieldOf s.sharingMode.written _) <|
    .member rfl (written_fieldOf (Json.written_count h.capacity) _) <|
    .member rfl (written_fieldOf (Json.written_count h.available) _) <|
    .member rfl (written_fieldOf (written_ids h.owners) _) <|
    .member rfl (written_fieldOf hholders _) <|
    .member rfl (written_fieldOf (Json.written_count h.waiting) _) <| .done _
  exact hfills.written (by decide) rfl

/-- Every capacity fits its kind. -/
def Config.Fits (c : Config) : Prop := ∀ t ∈ c.resourceTypes, t.Fits

instance (c : Config) : Decidable c.Fits :=
  inferInstanceAs (Decidable (∀ t ∈ c.resourceTypes, t.Fits))

theorem Config.written {c : Config} (h : c.Fits) : Written read c.write c := by
  have htypes := Json.written_writeList fun t ht => ResourceType.written (h t ht)
  have hfills : FillsInOrder shape.fields shape.blank _
      ⟨some c.groupTimeout, some c.resourceTypes⟩ :=
    .member rfl (written_fieldOf c.groupTimeout.written _) <|
    .member rfl (written_fieldOf htypes _) <| .done _
  exact hfills.written (by decide) rfl

theorem Config.ofText_write {c : Config} (h : c.Fits) : ofText (String.ofList c.write) = .ok c := by
  rw [ofText, String.toList_ofList, (Config.written h).readWhole]

/-- Reading what was written gives the value back. For a configuration that is the reading of a
file's text. -/
theorem read_write :
    (∀ c : Config, c.Fits → Config.ofText (String.ofList c.write) = .ok c) ∧
      (∀ t : ResourceType, t.Fits → Json.readWhole ResourceType.read t.write = .ok t) ∧
      (∀ e : LockEvent, e.Fits → Json.readWhole LockEvent.read e.write = .ok e) ∧
      ∀ s : SlotState, s.Fits → Json.readWhole SlotState.read s.write = .ok s :=
  ⟨fun _ h => Config.ofText_write h, fun _ h => (ResourceType.written h).readWhole,
    fun _ h => (LockEvent.written h).readWhole, fun _ h => (SlotState.written h).readWhole⟩

/-- Names that need every kind of escape, or none, and the bounds of the capacities. -/
def oddlyNamed : Config :=
  ⟨.sharedBudget, [⟨"", 0, .exclusivePerOwner⟩,
    ⟨"\"\\/\x00\x08\x0c\x1f\x7f\n\r\té😀", 18446744073709551615, .sharedGroup⟩]⟩

/-- No owner, and the least id. -/
def unowned : LockEvent := ⟨"a\"b", -9223372036854775808, []⟩

/-- Numbers that do not fit together, at the bounds of their kinds. -/
def incoherent : SlotState :=
  ⟨"\\", 9223372036854775807, .sharedGroup, 0, 18446744073709551615, [-1, 0],
    [[], [9223372036854775807, -9223372036854775808], [7]], 10⟩

theorem read_write_bounds :
    (oddlyNamed.Fits ∧ Config.ofText (String.ofList oddlyNamed.write) = .ok oddlyNamed) ∧
      (∀ t ∈ oddlyNamed.resourceTypes, t.Fits ∧ Json.readWhole ResourceType.read t.write = .ok t) ∧
      (unowned.Fits ∧ Json.readWhole LockEvent.read unowned.write = .ok unowned) ∧
      incoherent.Fits ∧ Json.readWhole SlotState.read incoherent.write = .ok incoherent := by
  have htypes : oddlyNamed.Fits := by decide
  have hevent : unowned.Fits := ⟨by decide, by decide⟩
  have hstate : incoherent.Fits :=
    ⟨by decide, by decide, by decide, by decide, by decide, by decide⟩
  refine ⟨⟨htypes, read_write.1 _ htypes⟩, ?_, ⟨hevent, read_write.2.2.1 _ hevent⟩, hstate,
    read_write.2.2.2 _ hstate⟩
  intro t ht
  exact ⟨htypes t ht, read_write.2.1 t (htypes t ht)⟩

end FairLocks
