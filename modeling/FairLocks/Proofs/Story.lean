import FairLocks.Proofs.Ledger
import FairLocks.Service.Basic

/-!
# The story of a call

What a call for permits does by itself, whatever other calls do in between. A caller advances by one
fact at a time, apart from what it tells the listeners, until its last facts answer it. From its
facts alone it is known which permits it was granted, and which of them it may have returned.
-/
namespace FairLocks

set_option autoImplicit false

/-- The call told a listener something. -/
def Fact.Tells (f : Fact) (call : CallId) : Prop :=
  f.call = call ∧ ∃ listener kind event, f.deed = .announced listener kind event

/-- The permit that the fact tells was granted, by its resource and its serial. -/
def Fact.permit? (f : Fact) : Option (Key × Nat) :=
  match f.deed with
  | .granted key _ h _ _ => some (key, h.serial)
  | _ => none

theorem Fact.Tells.silent {f : Fact} {call : CallId} (h : f.Tells call) : f.deed.Silent := by
  obtain ⟨-, listener, kind, event, hf⟩ := h
  rw [hf]
  trivial

theorem Fact.Tells.permit?_eq {f : Fact} {call : CallId} (h : f.Tells call) : f.permit? = none := by
  obtain ⟨-, listener, kind, event, hf⟩ := h
  simp [permit?, hf]

theorem filterMap_permit?_tells {call : CallId} {told : List Fact} (h : ∀ f ∈ told, f.Tells call) :
    told.filterMap Fact.permit? = [] :=
  List.filterMap_eq_nil_iff.2 fun f hf => (h f hf).permit?_eq

namespace Caller

/-- The resource that the caller waits for, or the one that it could not have. -/
def here (c : Caller) : List ResourceId :=
  match c.stage with
  | .next => []
  | .waiting id _ _ _ => [id]
  | .undoing failed _ _ => [failed]

/-- All resources the caller comes to, in order. -/
def itinerary (c : Caller) : List ResourceId := c.taken.map Prod.fst ++ c.here ++ c.rest

/-- What the caller took and has not yet tried to give back. -/
def left (c : Caller) : List (ResourceId × Nat) :=
  match c.stage with
  | .undoing _ left _ => left
  | _ => c.taken

/-- The resource the caller stands in line for, and its ticket. -/
def waits? (c : Caller) : Option (Key × Nat) :=
  match c.stage with
  | .waiting id ticket _ _ => some (c.keyOf id, ticket)
  | _ => none

/-- The caller as it starts: it has come to no resource yet. -/
structure Begun (c : Caller) : Prop where
  stage : c.stage = .next
  taken : c.taken = []
  distinct : c.rest.Nodup
  permits : 0 < c.type.capacity

/-- The caller goes on by one fact, with the slots as they are before it. -/
inductive Advance (call : CallId) (d : Dict Key Slot) : Caller → List Fact → Caller → Prop
  | opened {c : Caller} {id : ResourceId} (stage : c.stage = .next) :
      Advance call d c [⟨call, .opened (c.keyOf id) (Slot.fresh c.type id)⟩] c
  | queued {c : Caller} {id : ResourceId} {rest : List ResourceId} {ticket ahead : Nat}
      {waits : Bool}
      {budget deadline : Option Nat} (stage : c.stage = .next) (next : c.rest = id :: rest) :
      Advance call d c [⟨call, .queued (c.keyOf id) ticket ahead waits⟩]
        { c with rest, stage := .waiting id ticket budget deadline }
  | granted {c : Caller} {id : ResourceId} {ticket : Nat} {budget deadline : Option Nat}
      {g : Holding} {told : List Fact} (stage : c.stage = .waiting id ticket budget deadline)
      (tells : ∀ f ∈ told, f.Tells call) :
      Advance call d c (⟨call, .granted (c.keyOf id) ticket g c.party budget⟩ :: told)
        { c with taken := c.taken ++ [(id, g.serial)], stage := .next }
  | gaveUp {c : Caller} {id : ResourceId} {ticket : Nat} {budget deadline : Option Nat}
      {timeout : Nat} {spending : GroupTimeout} {detailed : Bool}
      (stage : c.stage = .waiting id ticket budget deadline)
      (group : c.goal = .allOrNone timeout spending detailed) :
      Advance call d c [⟨call, .gaveUp (c.keyOf id) ticket c.party budget⟩]
        { c with stage := .undoing id c.taken none }
  | returned {c : Caller} {failed : ResourceId} {member : ResourceId × Nat}
      {left : List (ResourceId × Nat)} {error : Option LockError} {g : Holding} {told : List Fact}
      (stage : c.stage = .undoing failed (member :: left) error) (serial : g.serial = member.2)
      (tells : ∀ f ∈ told, f.Tells call) :
      Advance call d c (⟨call, .returned (c.keyOf member.1) g c.party⟩ :: told)
        { c with stage := .undoing failed left error }
  | notReturned {c : Caller} {failed : ResourceId} {member : ResourceId × Nat}
      {left : List (ResourceId × Nat)} {error : Option LockError} {e : LockError}
      (stage : c.stage = .undoing failed (member :: left) error)
      (missing : ∀ g ∈ holdingsAt d (c.keyOf member.1), g.serial ≠ member.2) :
      Advance call d c [⟨call, .notReturned (c.keyOf member.1) e⟩]
        { c with stage := .undoing failed left (error <|> some e) }

/-- The facts answer the caller, which is then no longer at work. -/
inductive Ends (call : CallId) : Caller → List Fact → Prop
  | success {c : Caller} (stage : c.stage = .next) (done : c.rest = []) :
      Ends call c [⟨call, .answered (.ok c.goal.success)⟩]
  | gaveUp {c : Caller} {id : ResourceId} {ticket : Nat} {budget deadline : Option Nat}
      (stage : c.stage = .waiting id ticket budget deadline)
      (single : ∀ timeout spending detailed, c.goal ≠ .allOrNone timeout spending detailed) :
      Ends call c [⟨call, .gaveUp (c.keyOf id) ticket c.party budget⟩,
        ⟨call, .answered (.ok (c.goal.failure id []))⟩]
  | failed {c : Caller} {failed : ResourceId} {e : LockError}
      (stage : c.stage = .undoing failed [] (some e)) :
      Ends call c [⟨call, .answered (.error e)⟩]
  | rolledBack {c : Caller} {failed : ResourceId} {told : List Fact}
      (stage : c.stage = .undoing failed [] none) (tells : ∀ f ∈ told, f.Tells call) :
      Ends call c (⟨call, .rolledBack c.type.name failed (c.taken.map Prod.fst) c.party⟩ :: told ++
        [⟨call, .answered (.ok (c.goal.failure failed (c.taken.map Prod.fst)))⟩])

variable {call : CallId} {d : Dict Key Slot} {c c' : Caller} {fs : List Fact}

theorem Advance.mem_call (h : c.Advance call d fs c') : ∀ f ∈ fs, f.call = call := by
  intro f hf
  cases h with
  | opened | queued | gaveUp | notReturned => rw [List.mem_singleton.1 hf]
  | granted _ tells | returned _ _ tells =>
    rcases List.mem_cons.1 hf with rfl | hf
    · rfl
    · exact (tells f hf).1

theorem Ends.mem_call (h : c.Ends call fs) : ∀ f ∈ fs, f.call = call := by
  intro f hf
  cases h with
  | success | failed => rw [List.mem_singleton.1 hf]
  | gaveUp =>
    rcases List.mem_cons.1 hf with rfl | hf
    · rfl
    · rw [List.mem_singleton.1 hf]
  | rolledBack _ tells =>
    rcases List.mem_cons.1 hf with rfl | hf
    · rfl
    · rcases List.mem_append.1 hf with hf | hf
      · exact (tells f hf).1
      · rw [List.mem_singleton.1 hf]

theorem Ends.exists_mem (h : c.Ends call fs) : ∃ f, f ∈ fs := by
  cases h <;> exact ⟨_, List.mem_cons_self⟩

/-- A caller keeps its type, its party, what it is after, and its way. -/
theorem Advance.keeps (h : c.Advance call d fs c') :
    c'.type = c.type ∧ c'.party = c.party ∧ c'.goal = c.goal ∧ c'.itinerary = c.itinerary := by
  cases h with
  | opened => exact ⟨rfl, rfl, rfl, rfl⟩
  | queued stage next => exact ⟨rfl, rfl, rfl, by simp [itinerary, here, stage, next]⟩
  | granted stage => exact ⟨rfl, rfl, rfl, by simp [itinerary, here, stage]⟩
  | gaveUp stage => exact ⟨rfl, rfl, rfl, by simp [itinerary, here, stage]⟩
  | returned stage => exact ⟨rfl, rfl, rfl, by simp [itinerary, here, stage]⟩
  | notReturned stage => exact ⟨rfl, rfl, rfl, by simp [itinerary, here, stage]⟩

theorem Advance.began_eq (h : c.Advance call d fs c') : c'.began = c.began := by
  cases h <;> rfl

def permits (c : Caller) : List (Key × Nat) := c.taken.map fun m => (c.keyOf m.1, m.2)

theorem Advance.permits_eq (h : c.Advance call d fs c') :
    c'.permits = c.permits ++ fs.filterMap Fact.permit? := by
  cases h with
  | opened | queued | gaveUp | notReturned => exact (List.append_nil _).symm
  | granted _ tells =>
    rw [List.filterMap_cons_some (f := Fact.permit?) rfl, filterMap_permit?_tells tells]
    exact List.map_append
  | returned _ _ tells =>
    rw [List.filterMap_cons_none (f := Fact.permit?) rfl, filterMap_permit?_tells tells]
    exact (List.append_nil _).symm

/-- What a caller took is what it tried to give back and what is left, and it returns nothing but
what it tries to give back. -/
theorem Advance.tried (h : c.Advance call d fs c') {tried : List (ResourceId × Nat)}
    (htaken : c.taken = tried ++ c.left) :
    ∃ more, c'.taken = tried ++ more ++ c'.left ∧
      ∀ f ∈ fs, ∀ key g party, f.deed = .returned key g party → ∃ m ∈ more, c'.keyOf m.1 = key := by
  -- while the caller takes resources it has tried nothing
  have hnil (hleft : c.left = c.taken) : tried = [] := by
    rw [hleft] at htaken
    exact List.append_left_eq_self.1 htaken.symm
  have hnone {f₀ : Fact} {fs : List Fact} (h₀ : ∀ key g party, f₀.deed ≠ .returned key g party)
      (htells : ∀ f ∈ fs, f.Tells call) (more : List (ResourceId × Nat)) :
      ∀ f ∈ f₀ :: fs, ∀ key g party, f.deed = .returned key g party →
        ∃ m ∈ more, c'.keyOf m.1 = key := by
    intro f hf key g party hreturned
    rcases List.mem_cons.1 hf with rfl | hf
    · exact absurd hreturned (h₀ key g party)
    · obtain ⟨-, listener, kind, event, hf⟩ := htells f hf
      rw [hf] at hreturned
      cases hreturned
  cases h with
  | opened =>
    exact ⟨[], by simpa using htaken, hnone (by simp) (by simp) []⟩
  | queued stage =>
    have := hnil (by simp [left, stage])
    subst this
    exact ⟨[], by simp [left], hnone (by simp) (by simp) []⟩
  | granted stage tells =>
    have := hnil (by simp [left, stage])
    subst this
    exact ⟨[], by simp [left], hnone (by simp) tells []⟩
  | gaveUp stage =>
    have := hnil (by simp [left, stage])
    subst this
    exact ⟨[], by simp [left], hnone (by simp) (by simp) []⟩
  | @returned _ member left' error g told stage serial tells =>
    refine ⟨[member], ?_, ?_⟩
    · simpa [left, stage] using htaken
    · intro f hf key g' party hreturned
      rcases List.mem_cons.1 hf with rfl | hf
      · cases hreturned
        exact ⟨member, List.mem_cons_self, rfl⟩
      · obtain ⟨-, listener, kind, event, hf⟩ := tells f hf
        rw [hf] at hreturned
        cases hreturned
  | @notReturned _ member left' error e stage =>
    exact ⟨[member], by simpa [left, stage] using htaken, hnone (by simp) (by simp) [member]⟩

end Caller

def factsOf (call : CallId) (past : List Fact) : List Fact := past.filter fun f => f.call = call

section

variable {call : CallId} {past fs : List Fact}

theorem mem_factsOf {f : Fact} : f ∈ factsOf call past ↔ f ∈ past ∧ f.call = call := by
  simp [factsOf]

theorem factsOf_append_self (h : ∀ f ∈ fs, f.call = call) :
    factsOf call (past ++ fs) = factsOf call past ++ fs := by
  rw [factsOf, List.filter_append, List.filter_eq_self.2 fun f hf => decide_eq_true (h f hf)]
  rfl

theorem factsOf_append_of_ne (h : ∀ f ∈ fs, f.call ≠ call) :
    factsOf call (past ++ fs) = factsOf call past := by
  have hnone : fs.filter (fun f => f.call = call) = [] := by
    rw [List.filter_eq_nil_iff]
    simpa using h
  rw [factsOf, List.filter_append, hnone, List.append_nil]
  rfl

end

/-- The call began as `c₀`, has left the facts, and is now at the caller. -/
inductive Story (call : CallId) (c₀ : Caller) : List Fact → Caller → Prop
  | begun : Story call c₀ [] c₀
  | advance {own fs : List Fact} {c c' : Caller} {d : Dict Key Slot}
      (before : Story call c₀ own c) (step : c.Advance call d fs c') : Story call c₀ (own ++ fs) c'

namespace Story

variable {call : CallId} {c₀ c : Caller} {own : List Fact}

theorem mem_call (h : Story call c₀ own c) : ∀ f ∈ own, f.call = call := by
  induction h with
  | begun => exact fun f hf => absurd hf List.not_mem_nil
  | advance _ step ih =>
    intro f hf
    rcases List.mem_append.1 hf with hf | hf
    · exact ih f hf
    · exact step.mem_call f hf

theorem keeps (h : Story call c₀ own c) :
    c.type = c₀.type ∧ c.party = c₀.party ∧ c.goal = c₀.goal ∧ c.itinerary = c₀.itinerary := by
  induction h with
  | begun => exact ⟨rfl, rfl, rfl, rfl⟩
  | advance _ step ih =>
    obtain ⟨htype, hparty, hgoal, hway⟩ := step.keeps
    exact ⟨htype.trans ih.1, hparty.trans ih.2.1, hgoal.trans ih.2.2.1, hway.trans ih.2.2.2⟩

theorem began_eq (h : Story call c₀ own c) : c.began = c₀.began := by
  induction h with
  | begun => rfl
  | advance _ step ih => exact step.began_eq.trans ih

/-- A caller's own facts tell which permits it took, in order. -/
theorem permits_eq (h : Story call c₀ own c) (hb : c₀.Begun) :
    own.filterMap Fact.permit? = c.permits := by
  induction h with
  | begun => simp [Caller.permits, hb.taken]
  | advance _ step ih => rw [List.filterMap_append, ih, step.permits_eq]

/-- Whatever a caller returned is on a resource it tried to give back. -/
theorem tried (h : Story call c₀ own c) (hb : c₀.Begun) :
    ∃ tried, c.taken = tried ++ c.left ∧
      ∀ f ∈ own, ∀ key g party, f.deed = .returned key g party → ∃ m ∈ tried,
        c.keyOf m.1 = key := by
  induction h with
  | begun =>
    refine ⟨[], ?_, fun f hf => absurd hf List.not_mem_nil⟩
    simp [Caller.left, hb.stage, hb.taken]
  | @advance own fs c c' d _ step ih =>
    obtain ⟨tried, htaken, hreturned⟩ := ih
    obtain ⟨more, htaken', hmore⟩ := step.tried htaken
    refine ⟨tried ++ more, htaken', fun f hf key g party hdeed => ?_⟩
    have hkey (id : ResourceId) : c'.keyOf id = c.keyOf id := by
      rw [Caller.keyOf, step.keeps.1, Caller.keyOf]
    rcases List.mem_append.1 hf with hf | hf
    · obtain ⟨m, hm, hmkey⟩ := hreturned f hf key g party hdeed
      exact ⟨m, List.mem_append_left _ hm, by rw [hkey, hmkey]⟩
    · obtain ⟨m, hm, hmkey⟩ := hmore f hf key g party hdeed
      exact ⟨m, List.mem_append_right _ hm, hmkey⟩

/-- A caller never comes to a resource twice. -/
theorem nodup_itinerary (h : Story call c₀ own c) (hb : c₀.Begun) : c.itinerary.Nodup := by
  rw [h.keeps.2.2.2, Caller.itinerary, Caller.here, hb.taken, hb.stage]
  exact hb.distinct

theorem nodup_taken (h : Story call c₀ own c) (hb : c₀.Begun) : c.taken.Nodup := by
  have hnodup := h.nodup_itinerary hb
  rw [Caller.itinerary, List.append_assoc, List.nodup_append] at hnodup
  exact hnodup.1.of_map

theorem taken_unique (h : Story call c₀ own c) (hb : c₀.Begun) {m m' : ResourceId × Nat}
    (hm : m ∈ c.taken) (hm' : m' ∈ c.taken) (heq : c.keyOf m.1 = c.keyOf m'.1) : m = m' := by
  have hnodup := h.nodup_itinerary hb
  rw [Caller.itinerary, List.append_assoc, List.nodup_append] at hnodup
  exact List.inj_on_of_nodup_map hnodup.1 hm hm' (congrArg Prod.snd heq)

theorem granted_of_mem_taken (h : Story call c₀ own c) (hb : c₀.Begun) {m : ResourceId × Nat}
    (hm : m ∈ c.taken) :
    ∃ ticket g party budget, ⟨call, .granted (c.keyOf m.1) ticket g party budget⟩ ∈ own ∧
      g.serial = m.2 := by
  have hmem : (c.keyOf m.1, m.2) ∈ c.permits := List.mem_map.2 ⟨m, hm, rfl⟩
  rw [← h.permits_eq hb] at hmem
  obtain ⟨⟨call', deed⟩, hf, heq⟩ := List.mem_filterMap.1 hmem
  cases h.mem_call _ hf
  cases deed with
  | granted key ticket g party budget =>
    simp only [Fact.permit?, Option.some.injEq, Prod.mk.injEq] at heq
    obtain ⟨rfl, hserial⟩ := heq
    exact ⟨ticket, g, party, budget, hf, hserial⟩
  | registered | opened | queued | gaveUp | returned | notReturned | rolledBack | evicted |
    announced | answered => cases heq

end Story

end FairLocks
