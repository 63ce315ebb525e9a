import FairLocks.Proofs.Line
import FairLocks.Proofs.Step

/-!
# Who stands in line

The line that the facts tell of is made of the callers that wait, each with the ticket it holds. A
step puts its own caller at the end of a line or takes it out of one, and moves nobody else.
-/
namespace FairLocks

set_option autoImplicit false

/-- The resource the call stands in line for, and its ticket. -/
def Service.waits? (s : Service) (call : CallId) : Option (Key × Nat) :=
  (s.callers.get? call).bind Caller.waits?

theorem Service.waits?_eq_some {s : Service} {call : CallId} {key : Key} {ticket : Nat} :
    s.waits? call = some (key, ticket) ↔ ∃ c id budget deadline, s.callers.get? call = some c ∧
      c.stage = .waiting id ticket budget deadline ∧ c.keyOf id = key := by
  rw [waits?, Option.bind_eq_some_iff]
  constructor
  · rintro ⟨c, hc, hwaits⟩
    unfold Caller.waits? at hwaits
    split at hwaits
    · rename_i id n budget deadline stage
      cases hwaits
      exact ⟨c, id, budget, deadline, hc, stage, rfl⟩
    · cases hwaits
  · rintro ⟨c, id, budget, deadline, hc, stage, rfl⟩
    exact ⟨c, hc, by simp [Caller.waits?, stage]⟩

/-- The lines are made of the calls that wait. -/
def Lined (past : List Fact) (waits? : CallId → Option (Key × Nat)) : Prop :=
  ∀ key call ticket, (call, ticket) ∈ lineAt key past ↔ waits? call = some (key, ticket)

theorem Deed.Visiting.keepsLine {deed : Deed} (h : deed.Visiting) : deed.KeepsLine := by
  cases deed <;> trivial

theorem Fact.Tells.keepsLine {f : Fact} {call : CallId} (h : f.Tells call) : f.deed.KeepsLine :=
  h.silent.keepsLine

namespace Lined

variable {past fs : List Fact} {w w' : CallId → Option (Key × Nat)} {call : CallId} {key : Key}
  {ticket : Nat}

/-- Nobody comes into a line or leaves one. -/
theorem keep (h : Lined past w) (hfs : ∀ f ∈ fs, f.deed.KeepsLine) (hw : w call = none)
    (hw' : w' call = none) (hother : ∀ x, call ≠ x → w' x = w x) : Lined (past ++ fs) w' := by
  intro key x ticket
  rw [lineAt_kept hfs, h key x ticket]
  by_cases hx : call = x
  · rw [← hx, hw, hw']
  · rw [hother x hx]

/-- The call joins the end of the line. -/
theorem join {f : Fact} (h : Lined past w) (hf : ∀ k line,
      lineAfter k line f = if key = k then line ++ [(call, ticket)] else line)
    (hfs : ∀ f ∈ fs, f.deed.KeepsLine) (hw : w call = none) (hw' : w' call = some (key, ticket))
    (hother : ∀ x, call ≠ x → w' x = w x) : Lined (past ++ f :: fs) w' := by
  intro k x n
  have hmem : (x, n) ∈ lineAt k (past ++ f :: fs) ↔
      (x, n) ∈ lineAt k past ∨ key = k ∧ x = call ∧ n = ticket := by
    rw [lineAt_cons hfs, hf]
    by_cases hk : key = k <;> simp [hk]
  rw [hmem, h k x n]
  by_cases hx : call = x
  · subst hx
    simp [hw, hw', eq_comm]
  · rw [hother x hx]
    simp [Ne.symm hx]

/-- The call leaves the line it stood in. -/
theorem leave {f : Fact} {d : Dict Key Slot} (h : Lined past w) (hledger : Ledger past d)
    (hf : ∀ k line, lineAfter k line f = if key = k then line.filter (·.2 ≠ ticket) else line)
    (hfs : ∀ f ∈ fs, f.deed.KeepsLine) (hw : w call = some (key, ticket)) (hw' : w' call = none)
    (hother : ∀ x, call ≠ x → w' x = w x) : Lined (past ++ f :: fs) w' := by
  intro k x n
  have hmem : (x, n) ∈ lineAt k (past ++ f :: fs) ↔
      (x, n) ∈ lineAt k past ∧ ¬(key = k ∧ n = ticket) := by
    rw [lineAt_cons hfs, hf]
    by_cases hk : key = k <;> simp [hk]
  rw [hmem]
  by_cases hx : call = x
  · subst hx
    rw [h k call n, hw, hw']
    constructor
    · rintro ⟨heq, hne⟩
      cases heq
      exact absurd ⟨rfl, rfl⟩ hne
    · intro hnone
      cases hnone
  · rw [hother x hx, ← h k x n]
    refine ⟨And.left, fun hline => ⟨hline, ?_⟩⟩
    -- nobody else has this ticket
    rintro ⟨rfl, rfl⟩
    exact hx (hledger.eq_of_mem_line ((h key call n).2 hw) hline)

/-- A caller joins a line when it draws a ticket, and leaves it when it is served or gives up. -/
theorem advance {c c' : Caller} {d : Dict Key Slot} (h : Lined past w) (hledger : Ledger past d)
    (step : c.Advance call d fs c') (hw : w call = c.waits?) (hw' : w' call = c'.waits?)
    (hother : ∀ x, call ≠ x → w' x = w x) : Lined (past ++ fs) w' := by
  cases step with
  | opened stage | notReturned stage =>
    refine h.keep (by simp [Deed.KeepsLine]) ?_ ?_ hother
    · simp [hw, Caller.waits?, stage]
    · simp [hw', Caller.waits?, stage]
  | queued stage =>
    refine h.join (fun _ _ => rfl) (by simp) ?_ hw' hother
    simp [hw, Caller.waits?, stage]
  | granted stage tells =>
    refine h.leave hledger (fun _ _ => rfl) (fun f hf => (tells f hf).keepsLine) ?_ hw' hother
    simp [hw, Caller.waits?, stage]
  | gaveUp stage =>
    refine h.leave hledger (fun _ _ => rfl) (by simp) ?_ hw' hother
    simp [hw, Caller.waits?, stage]
  | returned stage serial tells =>
    refine h.keep ?_ ?_ hw' hother
    · intro f hf
      rcases List.mem_cons.1 hf with rfl | hf
      · trivial
      · exact (tells f hf).keepsLine
    · simp [hw, Caller.waits?, stage]

/-- A caller that is answered leaves the line if it still stood in one. -/
theorem answered {c : Caller} {d : Dict Key Slot} (h : Lined past w) (hledger : Ledger past d)
    (ends : c.Ends call fs) (hw : w call = c.waits?) (hw' : w' call = none)
    (hother : ∀ x, call ≠ x → w' x = w x) : Lined (past ++ fs) w' := by
  cases ends with
  | success stage | failed stage =>
    refine h.keep (by simp [Deed.KeepsLine]) ?_ hw' hother
    simp [hw, Caller.waits?, stage]
  | gaveUp stage =>
    refine h.leave hledger (fun _ _ => rfl) (by simp [Deed.KeepsLine]) ?_ hw' hother
    simp [hw, Caller.waits?, stage]
  | rolledBack stage tells =>
    refine h.keep ?_ ?_ hw' hother
    · intro f hf
      rcases List.mem_cons.1 hf with rfl | hf
      · trivial
      · rcases List.mem_append.1 hf with hf | hf
        · exact (tells f hf).keepsLine
        · rw [List.mem_singleton.1 hf]
          trivial
    · simp [hw, Caller.waits?, stage]

end Lined

namespace Step

variable {past : List Fact} {s : Service} {call : CallId} {t : Turn}

theorem waits?_of_ne (h : Step past s call t) {other : CallId} (hne : call ≠ other) :
    t.service.waits? other = s.waits? other := by
  rw [Service.waits?, h.callers_of_ne hne, Service.waits?]

/-- After every step the lines are made of the calls that wait. -/
theorem lined (h : Step past s call t) (hledger : Ledger past s.slots) (hl : Lined past s.waits?) :
    Lined (past ++ t.facts) t.service.waits? := by
  have hother := fun x (hx : call ≠ x) => h.waits?_of_ne hx
  have hidle (unused : Unused past s call) : s.waits? call = none := by
    rw [Service.waits?, unused.idle]
    rfl
  have hworking {c : Caller} (working : s.callers.get? call = some c) : s.waits? call =
      c.waits? := by
    rw [Service.waits?, working]
    rfl
  cases h with
  | visit unused visit =>
    refine hl.keep (fun f hf => (visit.facts f hf).2.keepsLine) (hidle unused) ?_ hother
    rw [Service.waits?, visit.callers]
    exact hidle unused
  | engage unused begun =>
    refine hl.keep (fun f hf => absurd hf List.not_mem_nil) (hidle unused) ?_ hother
    simp [Service.waits?, Caller.waits?, begun.stage]
  | advance working step =>
    refine hl.advance hledger step (hworking working) ?_ hother
    simp [Service.waits?]
  | finish working ends =>
    refine hl.answered hledger ends (hworking working) ?_ hother
    simp [Service.waits?]

end Step

end FairLocks
