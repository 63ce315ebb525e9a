import FairLocks.Proofs.Orderly

/-!
# The moment of a fact

Each fact of a history comes from a step that was taken in good order. Who draws a ticket stands in
no line; who is granted a permit or gives up stands in the line with that ticket; and who is granted
one stands at its head. A permit that a working caller returns has the serial of one it took.
-/
namespace FairLocks

set_option autoImplicit false

/-- A fact that is no news to listeners is the first of its step. -/
theorem eq_head_of_tells {call : CallId} {f₀ f : Fact} {told before after : List Fact}
    (tells : ∀ g ∈ told, g.Tells call) (hf : ¬ f.Tells call)
    (h : f₀ :: told = before ++ f :: after) :
    before = [] ∧ f = f₀ := by
  cases before with
  | nil => exact ⟨rfl, (List.cons.inj h).1.symm⟩
  | cons g before =>
    have hmem : f ∈ told := by
      rw [(List.cons.inj h).2]
      exact List.mem_append_right _ List.mem_cons_self
    exact absurd (tells f hmem) hf

namespace Caller

variable {call : CallId} {d : Dict Key Slot} {c c' : Caller} {fs : List Fact}

/-- A caller advances by one fact, and tells it. -/
theorem Advance.exists_head (h : c.Advance call d fs c') :
    ∃ f told, fs = f :: told ∧ ∀ g ∈ told, g.Tells call := by
  cases h with
  | granted _ tells | returned _ _ tells => exact ⟨_, _, rfl, tells⟩
  | opened | queued | gaveUp | notReturned => exact ⟨_, [], rfl, by simp⟩

theorem Ends.cases_of_mem (h : c.Ends call fs) {f : Fact} {before after : List Fact}
    (hfs : fs = before ++ f :: after) :
    f.Tells call ∨ (∃ failed released, f.deed = .rolledBack c.type.name failed released c.party) ∨
      (∃ reply, f.deed = .answered reply) ∨
      before = [] ∧ ∃ id ticket budget deadline, c.stage = .waiting id ticket budget deadline ∧
        f = ⟨call, .gaveUp (c.keyOf id) ticket c.party budget⟩ := by
  have hmem : f ∈ fs := by
    rw [hfs]
    exact List.mem_append_right _ List.mem_cons_self
  cases h with
  | success | failed =>
    rw [List.mem_singleton.1 hmem]
    exact .inr (.inr (.inl ⟨_, rfl⟩))
  | @gaveUp id ticket budget deadline stage =>
    cases before with
    | nil =>
      have hf := (List.cons.inj hfs).1.symm
      exact .inr (.inr (.inr ⟨rfl, id, ticket, budget, deadline, stage, hf⟩))
    | cons g before =>
      rw [List.cons_append] at hfs
      have htail : f ∈ before ++ f :: after := List.mem_append_right _ List.mem_cons_self
      rw [← (List.cons.inj hfs).2] at htail
      rw [List.mem_singleton.1 htail]
      exact .inr (.inr (.inl ⟨_, rfl⟩))
  | rolledBack stage tells =>
    rcases List.mem_cons.1 hmem with rfl | hmem
    · exact .inr (.inl ⟨_, _, rfl⟩)
    · rcases List.mem_append.1 hmem with hmem | hmem
      · exact .inl (tells f hmem)
      · rw [List.mem_singleton.1 hmem]
        exact .inr (.inr (.inl ⟨_, rfl⟩))

theorem Ends.of_answered (h : c.Ends call fs) {x : CallId} {reply : Reply}
    (hmem : ⟨x, .answered reply⟩ ∈ fs) :
    (c.stage = .next ∧ c.rest = [] ∧ reply = .ok c.goal.success) ∨
      (∀ timeout spending detailed, c.goal ≠ .allOrNone timeout spending detailed) ∨
      ∃ failed error, c.stage = .undoing failed [] error ∧
        ((∃ e, error = some e ∧ reply = .error e) ∨
          error = none ∧ reply = .ok (c.goal.failure failed (c.taken.map Prod.fst))) := by
  cases h with
  | success stage done =>
    cases List.mem_singleton.1 hmem
    exact .inl ⟨stage, done, rfl⟩
  | gaveUp stage single => exact .inr (.inl single)
  | @failed failed e stage =>
    cases List.mem_singleton.1 hmem
    exact .inr (.inr ⟨failed, some e, stage, .inl ⟨e, rfl, rfl⟩⟩)
  | @rolledBack failed told stage tells =>
    refine .inr (.inr ⟨failed, none, stage, .inr ⟨rfl, ?_⟩⟩)
    rcases List.mem_cons.1 hmem with hmem | hmem
    · cases hmem
    · rcases List.mem_append.1 hmem with hmem | hmem
      · obtain ⟨-, _, _, _, hdeed⟩ := tells _ hmem
        cases hdeed
      · cases List.mem_singleton.1 hmem
        rfl

theorem Ends.permits_eq (h : c.Ends call fs) : fs.filterMap Fact.permit? = [] := by
  cases h with
  | success | failed | gaveUp => rfl
  | rolledBack _ tells =>
    rw [List.cons_append, List.filterMap_cons_none (f := Fact.permit?) rfl, List.filterMap_append,
      filterMap_permit?_tells tells]
    rfl

end Caller

namespace Step

variable {past before after : List Fact} {s : Service} {call : CallId} {t : Turn} {f : Fact}

/-- Where a fact of a step comes from. -/
theorem cases_of_mem (h : Step past s call t) (ht : t.facts = before ++ f :: after) :
    (Unused past s call ∧ f.deed.Visiting) ∨ f.Tells call ∨
      (∃ c c' told d, s.callers.get? call = some c ∧ c.Advance call s.slots (f :: told) c' ∧
        Entries s.slots (f :: told) d ∧ before = []) ∨
      ∃ c, s.callers.get? call = some c ∧ c.Ends call t.facts ∧
        t.service.callers.get? call = none := by
  by_cases htells : f.Tells call
  · exact .inr (.inl htells)
  · cases h with
    | visit unused visit =>
      refine .inl ⟨unused, (visit.facts f ?_).2⟩
      rw [ht]
      exact List.mem_append_right _ List.mem_cons_self
    | engage => exact absurd ht.symm (by simp)
    | @advance c c' fs d working step entries =>
      obtain ⟨f₀, told, rfl, tells⟩ := step.exists_head
      obtain ⟨hbefore, rfl⟩ := eq_head_of_tells tells htells ht
      exact .inr (.inr (.inl ⟨c, c', told, d, working, step, entries, hbefore⟩))
    | finish working ends => exact .inr (.inr (.inr ⟨_, working, ends, Dict.get?_erase_self _ _⟩))

theorem of_queued {x : CallId} {key : Key} {ticket ahead : Nat} {waits : Bool}
    (h : Step past s call t) (ht : t.facts = before ++ ⟨x, .queued key ticket ahead waits⟩ ::
      after) :
    before = [] ∧ x = call ∧ s.waits? call = none := by
  have hx : x = call := h.mem_call _ (by rw [ht]; exact List.mem_append_right _ List.mem_cons_self)
  rcases h.cases_of_mem ht with ⟨-, hno⟩ | ⟨-, _, _, _, hno⟩ |
    ⟨c, c', told, d, working, step, -, hbefore⟩ |
    ⟨c, -, ends, -⟩
  · exact hno.elim
  · cases hno
  · refine ⟨hbefore, hx, ?_⟩
    rw [Service.waits?, working]
    cases step with
    | queued stage => simp [Caller.waits?, stage]
  · rcases ends.cases_of_mem ht with ⟨-, _, _, _, hno⟩ | ⟨_, _, hno⟩ | ⟨_, hno⟩ |
      ⟨-, _, _, _, _, -, hno⟩ <;>
      cases hno

/-- Who leaves a line stands in it. -/
theorem of_leaves {key : Key} {ticket : Nat} (h : Step past s call t)
    (ht : t.facts = before ++ f :: after) (hf : f.leaves key ticket = true) :
    before = [] ∧ f.call = call ∧ s.waits? call = some (key, ticket) := by
  have hcall := h.mem_call f (by rw [ht]; exact List.mem_append_right _ List.mem_cons_self)
  obtain ⟨x, deed⟩ := f
  rcases h.cases_of_mem ht with ⟨-, hno⟩ | ⟨-, _, _, _, hno⟩ |
    ⟨c, c', told, d, working, step, -, hbefore⟩ |
    ⟨c, working, ends, -⟩
  · cases deed <;> first | exact hno.elim | cases hf
  · cases hno
    cases hf
  · refine ⟨hbefore, hcall, ?_⟩
    rw [Service.waits?, working]
    cases step with
    | granted stage | gaveUp stage =>
      obtain ⟨hkey, hticket⟩ := of_decide_eq_true hf
      simp [Caller.waits?, stage, hkey, hticket]
    | opened | queued | returned | notReturned => cases hf
  · rcases ends.cases_of_mem ht with ⟨-, _, _, _, hno⟩ | ⟨_, _, hno⟩ | ⟨_, hno⟩ |
      ⟨hbefore, id, n, b, deadline, stage, hgaveUp⟩
    · cases hno
      cases hf
    · cases hno
      cases hf
    · cases hno
      cases hf
    · cases hgaveUp
      obtain ⟨hkey, hticket⟩ := of_decide_eq_true hf
      refine ⟨hbefore, hcall, ?_⟩
      rw [Service.waits?, working]
      simp [Caller.waits?, stage, hkey, hticket]

/-- Who is granted a permit is served by the slot. -/
theorem of_granted {x : CallId} {key : Key} {ticket : Nat} {g : Holding} {party : Party}
    {budget : Option Nat} (h : Step past s call t)
    (ht : t.facts = before ++ ⟨x, .granted key ticket g party budget⟩ :: after) :
    ∃ slot, s.slots.get? key = some slot ∧ slot.Serves ticket := by
  rcases h.cases_of_mem ht with ⟨-, hno⟩ | ⟨-, _, _, _, hno⟩ |
    ⟨c, c', told, d, working, -, entries, -⟩ |
    ⟨c, -, ends, -⟩
  · exact hno.elim
  · cases hno
  · cases entries with
    | cons first =>
      obtain ⟨-, slot, found, serves, -⟩ := first.of_granted
      exact ⟨slot, found, serves⟩
  · rcases ends.cases_of_mem ht with ⟨-, _, _, _, hno⟩ | ⟨_, _, hno⟩ | ⟨_, hno⟩ |
      ⟨-, _, _, _, _, -, hno⟩ <;>
      cases hno

/-- A working caller returns a permit by the serial of one that it took. -/
theorem of_returned {x : CallId} {key : Key} {g : Holding} {party : Party} {c : Caller}
    (h : Step past s call t) (working : s.callers.get? call = some c)
    (ht : t.facts = before ++ ⟨x, .returned key g party⟩ :: after) :
    before = [] ∧ g ∈ holdingsAt s.slots key ∧
      ∃ m ∈ c.left, c.keyOf m.1 = key ∧ m.2 = g.serial := by
  rcases h.cases_of_mem ht with ⟨unused, -⟩ | ⟨-, _, _, _, hno⟩ |
    ⟨c₁, c', told, d, working₁, step, entries, hbefore⟩ | ⟨c₁, -, ends, -⟩
  · cases working.symm.trans unused.idle
  · cases hno
  · cases working.symm.trans working₁
    refine ⟨hbefore, ?_, ?_⟩
    · cases entries with
      | cons first =>
        rcases first.holdings key with ⟨_, _, _, _, hf, -⟩ | ⟨k, _, l, r, hf, hd, -⟩ | ⟨-, hno, -⟩
        · cases hf
        · cases hf
          rw [hd]
          exact List.mem_append_right _ List.mem_cons_self
        · exact absurd hno (by simp [Fact.returns])
    · cases step with
      | @returned _ member _ _ _ _ stage serial =>
        refine ⟨member, ?_, rfl, serial.symm⟩
        simp only [Caller.left, stage]
        exact List.mem_cons_self
  · rcases ends.cases_of_mem ht with ⟨-, _, _, _, hno⟩ | ⟨_, _, hno⟩ | ⟨_, hno⟩ |
      ⟨-, _, _, _, _, -, hno⟩ <;>
      cases hno

end Step

namespace History

/-- Each fact of a history comes from a step taken in good order. -/
theorem exists_step {h : History} {q r : List Fact} {f : Fact} (hq : h.facts = q ++ f :: r) :
    ∃ p s call t before after, Orderly p s ∧ Step p s call t ∧ t.facts = before ++ f :: after ∧
      q = p ++ before := by
  obtain ⟨hnew, -⟩ := h.isNew.orderly
  have hstart : Leads (fun _ => True) [] h.start h.facts h.service :=
    @History.leads h [] h.actions rfl
  obtain ⟨p, s, call, t, before, after, hp, hstep, ht, hqp, -⟩ := hstart.exists_step hq
  exact ⟨p, s, call, t, before, after, hnew.leads hp, hstep, ht, hqp⟩

end History

end FairLocks
