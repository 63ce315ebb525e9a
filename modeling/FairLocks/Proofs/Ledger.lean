import Mathlib.Data.List.Induction
import FairLocks.Dict
import FairLocks.Fact
import FairLocks.Proofs.Slot

/-!
# The facts as a ledger of the slots

Each fact either leaves all slots as they are or tells of one change of the table. `Entry` says
which change goes with which fact, and `Ledger` adds the entries up from the empty table. Only of a
caller that goes back to sleep no fact tells, since nothing comes of it. What the facts tell of a
resource is then compared with its slot: who waits, which permits are out, and whether the slot is
still the one that a permit was taken from.
-/
namespace FairLocks

set_option autoImplicit false

/-- A deed that changes no slot. -/
def Deed.Silent : Deed → Prop
  | registered _ _ => True
  | opened _ _ => False
  | queued _ _ _ _ => False
  | granted _ _ _ _ _ => False
  | gaveUp _ _ _ _ => False
  | returned _ _ _ => False
  | notReturned _ _ => True
  | rolledBack _ _ _ _ => True
  | evicted _ _ => False
  | announced _ _ _ => True
  | answered _ => True

/-- Found once: `decide` looks through lists of keys by it. -/
instance : LawfulBEq Key := inferInstance

namespace Fact

def grants (key : Key) (f : Fact) : Bool :=
  match f.deed with
  | .granted k _ _ _ _ => decide (k = key)
  | _ => false

def returns (key : Key) (f : Fact) : Bool :=
  match f.deed with
  | .returned k _ _ => decide (k = key)
  | _ => false

/-- The fact tells that the slot of the resource was dropped. -/
def evicts (key : Key) (f : Fact) : Bool :=
  match f.deed with
  | .evicted keys _ => decide (key ∈ keys)
  | _ => false

end Fact

namespace Deed.Silent

variable {f : Fact}

theorem grants (h : f.deed.Silent) (key : Key) : f.grants key = false := by
  obtain ⟨call, deed⟩ := f
  cases deed <;> first | rfl | exact h.elim

theorem returns (h : f.deed.Silent) (key : Key) : f.returns key = false := by
  obtain ⟨call, deed⟩ := f
  cases deed <;> first | rfl | exact h.elim

theorem evicts (h : f.deed.Silent) (key : Key) : f.evicts key = false := by
  obtain ⟨call, deed⟩ := f
  cases deed <;> first | rfl | exact h.elim

end Deed.Silent

/-- The fact, told when the slots are the first ones, leaves the second ones. -/
inductive Entry : Dict Key Slot → Fact → Dict Key Slot → Prop
  | silent {d : Dict Key Slot} {f : Fact} (changesNothing : f.deed.Silent) : Entry d f d
  | opened {d : Dict Key Slot} {call : CallId} {t : ResourceType} {id : ResourceId}
      (free : d.get? (t.name, id) = none) (permits : 0 < t.capacity) :
      Entry d ⟨call, .opened (t.name, id) (Slot.fresh t id)⟩
        (d.insert (t.name, id) (Slot.fresh t id))
  | queued {d : Dict Key Slot} {call : CallId} {key : Key} {slot : Slot} {ahead : Nat}
      {waits : Bool} (found : d.get? key = some slot) :
      Entry d ⟨call, .queued key slot.nextTicket ahead waits⟩ (d.insert key slot.enqueue.2)
  | granted {d : Dict Key Slot} {call : CallId} {key : Key} {slot : Slot} {ticket : Nat}
      {party : Party} {budget : Option Nat}
      (found : d.get? key = some slot) (serves : slot.Serves ticket) :
      Entry d ⟨call, .granted key ticket (slot.grant party.owners call).1 party budget⟩
        (d.insert key (slot.grant party.owners call).2)
  | gaveUp {d : Dict Key Slot} {call : CallId} {key : Key} {slot : Slot} {ticket : Nat}
      {party : Party} {budget : Option Nat} (found : d.get? key = some slot) :
      Entry d ⟨call, .gaveUp key ticket party budget⟩ (d.insert key (slot.leave ticket))
  | returned {d : Dict Key Slot} {call : CallId} {key : Key} {slot slot' : Slot}
      {p : Holding → Bool} {holding : Holding} {party : Party}
      (found : d.get? key = some slot) (released : slot.release? p = some (holding, slot')) :
      Entry d ⟨call, .returned key holding party⟩ (d.insert key slot')
  | evicted {d : Dict Key Slot} {call : CallId} {remaining : Nat} :
      Entry d ⟨call, .evicted (d.filter fun _ slot => decide slot.Idle).keys remaining⟩
        (d.filter fun _ slot => !decide slot.Idle)

/-- A caller that was woken and cannot be served goes back to sleep. -/
inductive Dozes : Dict Key Slot → Dict Key Slot → Prop
  | intro {d : Dict Key Slot} {key : Key} {slot : Slot} {ticket : Nat}
      (found : d.get? key = some slot)
      (waits : ¬ slot.Serves ticket) : Dozes d (d.insert key (slot.doze ticket))

/-- The facts, from the beginning on, and the slots they leave. -/
inductive Ledger : List Fact → Dict Key Slot → Prop
  | nil : Ledger [] ∅
  | snoc {past : List Fact} {d d' : Dict Key Slot} {f : Fact} :
      Ledger past d → Entry d f d' → Ledger (past ++ [f]) d'
  | dozed {past : List Fact} {d d' : Dict Key Slot} : Ledger past d → Dozes d d' → Ledger past d'

/-- The facts, told one after another when the slots are the first ones, leave the second ones. -/
inductive Entries : Dict Key Slot → List Fact → Dict Key Slot → Prop
  | nil {d : Dict Key Slot} : Entries d [] d
  | cons {d d' d'' : Dict Key Slot} {f : Fact} {fs : List Fact} (first : Entry d f d')
      (more : Entries d' fs d'') : Entries d (f :: fs) d''

/-- The permits that are out on the resource. -/
def holdingsAt (d : Dict Key Slot) (key : Key) : List Holding :=
  ((d.get? key).map Slot.holdings).getD []

def queueAt (d : Dict Key Slot) (key : Key) : List Nat :=
  ((d.get? key).map Slot.queue).getD []

/-- Each slot stands under its own key. -/
def Keyed (d : Dict Key Slot) : Prop := ∀ key slot, d.get? key = some slot → slot.key = key

section Views

variable {d : Dict Key Slot} {key : Key} {slot : Slot}

theorem holdingsAt_eq (h : d.get? key = some slot) : holdingsAt d key = slot.holdings := by
  rw [holdingsAt, h]
  rfl

theorem queueAt_eq (h : d.get? key = some slot) : queueAt d key = slot.queue := by
  rw [queueAt, h]
  rfl

theorem holdingsAt_insert (d : Dict Key Slot) (k : Key) (slot : Slot) (key : Key) :
    holdingsAt (d.insert k slot) key = if k = key then slot.holdings else holdingsAt d key := by
  rw [holdingsAt, Dict.get?_insert]
  split <;> rfl

theorem queueAt_insert (d : Dict Key Slot) (k : Key) (slot : Slot) (key : Key) :
    queueAt (d.insert k slot) key = if k = key then slot.queue else queueAt d key := by
  rw [queueAt, Dict.get?_insert]
  split <;> rfl

theorem holdingsAt_insert_same {k : Key} (h : slot.holdings = holdingsAt d k) (key : Key) :
    holdingsAt (d.insert k slot) key = holdingsAt d key := by
  rw [holdingsAt_insert]
  split
  · rename_i heq
    rw [h, heq]
  · rfl

theorem queueAt_insert_same {k : Key} (h : slot.queue = queueAt d k) (key : Key) :
    queueAt (d.insert k slot) key = queueAt d key := by
  rw [queueAt_insert]
  split
  · rename_i heq
    rw [h, heq]
  · rfl

/-- A slot that is dropped has no permit out and nobody waiting, so neither view misses it. -/
theorem views_filter_busy (d : Dict Key Slot) (key : Key) :
    holdingsAt (d.filter fun _ slot => !decide slot.Idle) key = holdingsAt d key ∧
      queueAt (d.filter fun _ slot => !decide slot.Idle) key = queueAt d key := by
  rw [holdingsAt, queueAt, Dict.get?_filter, holdingsAt, queueAt]
  cases hd : d.get? key with
  | none => exact ⟨rfl, rfl⟩
  | some slot =>
    by_cases hidle : slot.Idle
    · simp [Option.filter, hidle, hidle.2.1, hidle.2.2]
    · simp [Option.filter, hidle]

theorem mem_keys_filter_idle :
    key ∈ (d.filter fun _ slot => decide slot.Idle).keys ↔
      ∃ slot, d.get? key = some slot ∧ slot.Idle := by
  rw [Dict.mem_keys_iff, Dict.get?_filter]
  cases hd : d.get? key with
  | none => simp
  | some slot => by_cases hidle : slot.Idle <;> simp [Option.filter, hidle]

end Views

namespace Dozes

variable {d d' : Dict Key Slot}

theorem sound (h : Dozes d d') (hd : ∀ key slot, d.get? key = some slot → slot.Sound) :
    ∀ key slot, d'.get? key = some slot → slot.Sound := by
  obtain ⟨found, waits⟩ := h
  exact Dict.forall_get?_insert hd ((hd _ _ found).doze waits)

theorem keyed (h : Dozes d d') (hd : Keyed d) : Keyed d' := by
  cases h with
  | @intro key slot ticket found =>
    have hkey : (slot.doze ticket).key = key := hd key slot found
    exact Dict.forall_get?_insert hd hkey

/-- Only who is awake is changed. -/
theorem get?_eq (h : Dozes d d') {key : Key} {slot' : Slot} (hslot' : d'.get? key = some slot') :
    ∃ slot awake, d.get? key = some slot ∧ slot' = { slot with awake } := by
  cases h with
  | intro found =>
    rw [Dict.get?_insert] at hslot'
    split at hslot'
    · rename_i hkey
      cases hslot'
      exact ⟨_, _, hkey ▸ found, rfl⟩
    · exact ⟨slot', _, hslot', rfl⟩

theorem exists_awake (h : Dozes d d') {key : Key} {slot : Slot} (hslot : d.get? key = some slot) :
    ∃ awake, d'.get? key = some { slot with awake } := by
  cases h with
  | intro found =>
    rw [Dict.get?_insert]
    split
    · rename_i hkey
      rw [hkey, hslot] at found
      cases found
      exact ⟨_, rfl⟩
    · exact ⟨slot.awake, hslot⟩

theorem slot_continues (h : Dozes d d') {key : Key} {slot : Slot} (hslot : d.get? key = some slot) :
    ∃ slot', d'.get? key = some slot' ∧ slot.Continues slot' := by
  obtain ⟨awake, hslot'⟩ := h.exists_awake hslot
  exact ⟨_, hslot', .awake slot awake⟩

theorem holdingsAt_eq (h : Dozes d d') (key : Key) : holdingsAt d' key = holdingsAt d key := by
  cases h with
  | @intro k slot ticket found =>
    have hsame : (slot.doze ticket).holdings = holdingsAt d k :=
      (FairLocks.holdingsAt_eq found).symm
    exact holdingsAt_insert_same hsame key

theorem queueAt_eq (h : Dozes d d') (key : Key) : queueAt d' key = queueAt d key := by
  cases h with
  | @intro k slot ticket found =>
    have hsame : (slot.doze ticket).queue = queueAt d k := (FairLocks.queueAt_eq found).symm
    exact queueAt_insert_same hsame key

end Dozes

namespace Entry

variable {d d' : Dict Key Slot} {f : Fact}

theorem sound (he : Entry d f d') (hd : ∀ key slot, d.get? key = some slot → slot.Sound) :
    ∀ key slot, d'.get? key = some slot → slot.Sound := by
  cases he with
  | silent => exact hd
  | opened _ permits => exact Dict.forall_get?_insert hd (Slot.sound_fresh permits _)
  | queued found => exact Dict.forall_get?_insert hd (hd _ _ found).enqueue
  | granted found serves => exact Dict.forall_get?_insert hd ((hd _ _ found).grant serves _ _)
  | gaveUp found => exact Dict.forall_get?_insert hd ((hd _ _ found).leave _)
  | returned found released => exact Dict.forall_get?_insert hd ((hd _ _ found).release released)
  | evicted =>
    intro key slot hslot
    rw [Dict.get?_filter, Option.filter_eq_some_iff] at hslot
    exact hd key slot hslot.1

theorem keyed (he : Entry d f d') (hd : Keyed d) : Keyed d' := by
  have hinsert {k : Key} {found slot : Slot} (hfound : d.get? k = some found)
    (hc : found.Continues slot) :
      Keyed (d.insert k slot) := Dict.forall_get?_insert hd (hc.key_eq.trans (hd _ _ hfound))
  cases he with
  | silent => exact hd
  | opened => exact Dict.forall_get?_insert hd rfl
  | queued found => exact hinsert found (.enqueue _)
  | granted found => exact hinsert found (.grant _ _ _)
  | gaveUp found => exact hinsert found (.leave _ _)
  | returned found released => exact hinsert found (.release released)
  | evicted =>
    intro key slot hslot
    rw [Dict.get?_filter, Option.filter_eq_some_iff] at hslot
    exact hd key slot hslot.1

/-- The permits that are out on a resource change only by a grant, which adds one, and by a return,
which takes one away. -/
theorem holdings (he : Entry d f d') (key : Key) :
    (∃ ticket h party budget, f.deed = .granted key ticket h party budget ∧ h.grantee = f.call ∧
      holdingsAt d' key = holdingsAt d key ++ [h]) ∨
    (∃ h party l r, f.deed = .returned key h party ∧ holdingsAt d key = l ++ h :: r ∧
      holdingsAt d' key = l ++ r) ∨
    (f.grants key = false ∧ f.returns key = false ∧ holdingsAt d' key = holdingsAt d key) := by
  cases he with
  | silent changesNothing =>
    exact .inr (.inr ⟨changesNothing.grants key, changesNothing.returns key, rfl⟩)
  | opened free =>
    refine .inr (.inr ⟨rfl, rfl, holdingsAt_insert_same ?_ key⟩)
    rw [holdingsAt, free]
    rfl
  | queued found =>
    refine .inr (.inr ⟨rfl, rfl, holdingsAt_insert_same ?_ key⟩)
    rw [holdingsAt_eq found]
    rfl
  | @granted _ k slot ticket party budget found =>
    by_cases hk : k = key
    · subst hk
      refine .inl ⟨ticket, _, party, budget, rfl, rfl, ?_⟩
      rw [holdingsAt_insert, if_pos rfl, holdingsAt_eq found]
      rfl
    · refine .inr (.inr ⟨decide_eq_false hk, rfl, ?_⟩)
      rw [holdingsAt_insert, if_neg hk]
  | gaveUp found =>
    refine .inr (.inr ⟨rfl, rfl, holdingsAt_insert_same ?_ key⟩)
    rw [holdingsAt_eq found]
    rfl
  | @returned _ k slot slot' _ h party found released =>
    by_cases hk : k = key
    · subst hk
      obtain ⟨l, r, hlr, -, -, rfl⟩ := Slot.release_eq released
      refine .inr (.inl ⟨h, party, l, r, rfl, ?_, ?_⟩)
      · rw [holdingsAt_eq found, hlr]
      · rw [holdingsAt_insert, if_pos rfl]
    · refine .inr (.inr ⟨rfl, decide_eq_false hk, ?_⟩)
      rw [holdingsAt_insert, if_neg hk]
  | evicted => exact .inr (.inr ⟨rfl, rfl, (views_filter_busy d key).1⟩)

theorem continues_insert {key k : Key} {slot found slot' : Slot} (hslot : d.get? key = some slot)
    (hfound : d.get? k = some found) (hc : found.Continues slot') :
    ∃ slot'', (d.insert k slot').get? key = some slot'' ∧ slot.Continues slot'' := by
  by_cases hk : k = key
  · subst hk
    cases hslot.symm.trans hfound
    exact ⟨slot', Dict.get?_insert_self _ _ _, hc⟩
  · exact ⟨slot, by rw [Dict.get?_insert_of_ne _ _ hk, hslot], .refl slot⟩

/-- A slot that is not dropped goes on. -/
theorem slot_continues (he : Entry d f d') {key : Key} {slot : Slot}
    (hslot : d.get? key = some slot) (hkept : f.evicts key = false) :
    ∃ slot', d'.get? key = some slot' ∧ slot.Continues slot' := by
  cases he with
  | silent => exact ⟨slot, hslot, .refl slot⟩
  | @opened _ t id free =>
    have hne : (t.name, id) ≠ key := fun heq => by rw [heq, hslot] at free; cases free
    exact ⟨slot, by rw [Dict.get?_insert_of_ne _ _ hne, hslot], .refl slot⟩
  | queued found => exact continues_insert hslot found (.enqueue _)
  | granted found => exact continues_insert hslot found (.grant _ _ _)
  | gaveUp found => exact continues_insert hslot found (.leave _ _)
  | returned found released => exact continues_insert hslot found (.release released)
  | evicted =>
    refine ⟨slot, ?_, .refl slot⟩
    have hbusy : ¬ slot.Idle := fun hidle =>
      of_decide_eq_false hkept (mem_keys_filter_idle.2 ⟨slot, hslot, hidle⟩)
    rw [Dict.get?_filter, hslot, Option.filter_some, if_pos (by simpa using hbusy)]

/-- Only a slot without permits that are out is dropped. -/
theorem holdings_of_evicts (he : Entry d f d') {key : Key} (hf : f.evicts key = true) :
    holdingsAt d key = [] := by
  cases he with
  | silent changesNothing =>
    rw [changesNothing.evicts key] at hf
    cases hf
  | evicted =>
    obtain ⟨slot, hslot, hidle⟩ := mem_keys_filter_idle.1 (of_decide_eq_true hf)
    rw [holdingsAt_eq hslot, hidle.2.1]
  | opened | queued | granted | gaveUp | returned => cases hf

theorem of_granted {call : CallId} {key : Key} {ticket : Nat} {g : Holding} {party : Party}
    {budget : Option Nat} (he : Entry d ⟨call, .granted key ticket g party budget⟩ d') :
    g.grantee = call ∧ ∃ slot, d.get? key = some slot ∧ slot.Serves ticket ∧
      g.serial = slot.nextSerial ∧ d'.get? key = some (slot.grant party.owners call).2 ∧
      g = (slot.grant party.owners call).1 := by
  cases he with
  | silent changesNothing => exact changesNothing.elim
  | granted found serves => exact ⟨rfl, _, found, serves, rfl, Dict.get?_insert_self _ _ _, rfl⟩

end Entry

namespace Entries

variable {d d' d'' : Dict Key Slot} {f : Fact} {fs gs : List Fact}

theorem silent (h : ∀ f ∈ fs, f.deed.Silent) : Entries d fs d := by
  induction fs with
  | nil => exact .nil
  | cons f fs ih =>
    exact .cons (.silent (h f List.mem_cons_self)) (ih fun g hg => h g (List.mem_cons_of_mem _ hg))

theorem append (h : Entries d fs d') (h' : Entries d' gs d'') : Entries d (fs ++ gs) d'' := by
  induction h with
  | nil => exact h'
  | cons first _ ih => exact .cons first (ih h')

/-- A permit that is out was out before or is granted in one of the facts, to the call it belongs
to. -/
theorem mem_holdings (h : Entries d fs d') {key : Key} {g : Holding} (hg : g ∈ holdingsAt d' key) :
    g ∈ holdingsAt d key ∨ ∃ f ∈ fs, f.call = g.grantee ∧
      ∃ ticket party budget, f.deed = .granted key ticket g party budget := by
  induction h with
  | nil => exact .inl hg
  | @cons _ _ _ f fs first _ ih =>
    rcases ih hg with hg | ⟨f', hf', hgranted⟩
    · rcases first.holdings key with ⟨ticket, k, party, budget, hf, hk, hd⟩ |
        ⟨k, _, l, r, -, hd, hd'⟩ |
        ⟨-, -, hd⟩
      · rw [hd] at hg
        rcases List.mem_append.1 hg with hg | hg
        · exact .inl hg
        · rw [List.mem_singleton.1 hg]
          exact .inr ⟨f, List.mem_cons_self, hk.symm, ticket, party, budget, hf⟩
      · rw [hd'] at hg
        rw [hd]
        exact .inl (((List.sublist_cons_self k r).append_left l).subset hg)
      · rw [hd] at hg
        exact .inl hg
    · exact .inr ⟨f', List.mem_cons_of_mem _ hf', hgranted⟩

theorem mem_holdings_of_ne (h : Entries d fs d') {call : CallId} (hcall : ∀ f ∈ fs, f.call = call)
    {key : Key} {g : Holding} (hg : g ∈ holdingsAt d' key) (hne : g.grantee ≠ call) :
    g ∈ holdingsAt d key := by
  rcases h.mem_holdings hg with hg | ⟨f, hf, hgrantee, -⟩
  · exact hg
  · exact absurd (hgrantee.symm.trans (hcall f hf)) hne

end Entries

namespace Ledger

variable {past : List Fact} {d : Dict Key Slot}

theorem append (h : Ledger past d) {fs : List Fact} {d' : Dict Key Slot} (hfs : Entries d fs d') :
    Ledger (past ++ fs) d' := by
  induction hfs generalizing past with
  | nil => rwa [List.append_nil]
  | cons first _ ih =>
    rw [List.append_cons]
    exact ih (h.snoc first)

theorem sound (h : Ledger past d) : ∀ key slot, d.get? key = some slot → slot.Sound := by
  induction h with
  | nil => exact fun key slot hslot => absurd hslot (by simp)
  | snoc _ he ih => exact he.sound ih
  | dozed _ hdoze ih => exact hdoze.sound ih

theorem keyed (h : Ledger past d) : Keyed d := by
  induction h with
  | nil => exact fun key slot hslot => absurd hslot (by simp)
  | snoc _ he ih => exact he.keyed ih
  | dozed _ hdoze ih => exact hdoze.keyed ih

theorem nodup_serials (h : Ledger past d) (key : Key) :
    ((holdingsAt d key).map Holding.serial).Nodup := by
  cases hd : d.get? key with
  | none =>
    rw [holdingsAt, hd]
    exact List.nodup_nil
  | some slot =>
    rw [holdingsAt_eq hd]
    exact (h.sound key slot hd).nodup_serials

/-- After a return nothing with the serial of the permit is out on the resource. -/
theorem mem_holdings_returned (h : Ledger past d) {d' : Dict Key Slot} {call : CallId} {k key : Key}
    {g₀ g : Holding} {party : Party} {told : List Fact} (hsilent : ∀ f ∈ told, f.deed.Silent)
    (he : Entries d (⟨call, .returned k g₀ party⟩ :: told) d') (hg : g ∈ holdingsAt d' key) :
    g ∈ holdingsAt d key ∧ (key = k → g.serial ≠ g₀.serial) := by
  cases he with
  | @cons _ d₁ _ _ _ first more =>
    have hg₁ : g ∈ holdingsAt d₁ key := by
      rcases more.mem_holdings hg with hg | ⟨f, hf, -, ticket, party, budget, hdeed⟩
      · exact hg
      · have := hsilent f hf
        rw [hdeed] at this
        exact this.elim
    rcases first.holdings key with ⟨_, _, _, _, hf, -⟩ | ⟨g', _, l, r, hf, hd, hd₁⟩ | ⟨-, hno, hd₁⟩
    · cases hf
    · cases hf
      have hnodup := h.nodup_serials k
      rw [hd, List.map_append, List.map_cons, List.nodup_middle, List.nodup_cons,
        ← List.map_append] at hnodup
      rw [hd₁] at hg₁
      refine ⟨?_, fun _ heq => hnodup.1 (heq ▸ List.mem_map_of_mem hg₁)⟩
      rw [hd]
      exact ((List.sublist_cons_self g₀ r).append_left l).subset hg₁
    · rw [hd₁] at hg₁
      refine ⟨hg₁, fun heq => absurd heq.symm ?_⟩
      exact of_decide_eq_false hno

theorem nodup_queueAt (h : Ledger past d) (key : Key) : (queueAt d key).Nodup := by
  cases hd : d.get? key with
  | none =>
    rw [queueAt, hd]
    exact List.nodup_nil
  | some slot =>
    rw [queueAt_eq hd]
    exact (h.sound key slot hd).nodup_queue

end Ledger

end FairLocks
