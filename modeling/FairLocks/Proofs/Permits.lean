import FairLocks.Proofs.Ledger

/-!
# Permits in the ledger

Where a permit that was granted is now. On every resource the permits granted are those returned and
those out. A permit that is out was granted to its grantee by the slot that still stands, and as
long as that slot stands no other permit has its serial; a new slot counts its serials from the
start.
-/
namespace FairLocks.Ledger

set_option autoImplicit false

variable {past : List Fact} {d : Dict Key Slot} {key : Key}

theorem grants_eq_returns_add_held (h : Ledger past d) (key : Key) :
    past.countP (·.grants key) = past.countP (·.returns key) + (holdingsAt d key).length := by
  induction h with
  | nil => rfl
  | @snoc past d d' f _ he ih =>
    rw [List.countP_append, List.countP_append, List.countP_singleton, List.countP_singleton, ih]
    rcases he.holdings key with ⟨ticket, g, party, budget, hf, -, hd'⟩ |
      ⟨g, party, l, r, hf, hd, hd'⟩ |
      ⟨hg, hr, hd'⟩
    · have hg : f.grants key = true := by simp [Fact.grants, hf]
      have hr : f.returns key = false := by simp [Fact.returns, hf]
      simp only [hg, hr, hd', List.length_append, List.length_singleton, if_true,
        Bool.false_eq_true, if_false]
      omega
    · have hg : f.grants key = false := by simp [Fact.grants, hf]
      have hr : f.returns key = true := by simp [Fact.returns, hf]
      simp only [hg, hr, hd, hd', List.length_append, List.length_cons, if_true, Bool.false_eq_true,
        if_false]
      omega
    · simp only [hg, hr, hd', Bool.false_eq_true, if_false]
      omega
  | dozed _ hdoze ih => rw [ih, hdoze.holdingsAt_eq]

theorem grantee_of_granted {call : CallId} {ticket : Nat} {g : Holding} {party : Party}
    {budget : Option Nat} (h : Ledger past d)
    (hg : ⟨call, .granted key ticket g party budget⟩ ∈ past) : g.grantee = call := by
  induction h with
  | nil => exact absurd hg List.not_mem_nil
  | snoc _ he ih =>
    rcases List.mem_append.1 hg with hg | hg
    · exact ih hg
    · cases List.mem_singleton.1 hg
      exact he.of_granted.1
  | dozed _ _ ih => exact ih hg

/-- A permit that was granted is out, unless somebody returned it. -/
theorem out_or_returned {call : CallId} {ticket : Nat} {g : Holding} {party : Party}
    {budget : Option Nat} (h : Ledger past d)
    (hg : ⟨call, .granted key ticket g party budget⟩ ∈ past) :
    g ∈ holdingsAt d key ∨ ∃ f ∈ past, ∃ party, f.deed = .returned key g party := by
  induction h with
  | nil => exact absurd hg List.not_mem_nil
  | @snoc past d d' f _ he ih =>
    rcases List.mem_append.1 hg with hg | hg
    · rcases ih hg with hout | ⟨f', hf', hreturned⟩
      · rcases he.holdings key with ⟨_, k, _, _, -, -, hd'⟩ | ⟨k, party', l, r, hf, hd, hd'⟩ |
          ⟨-, -, hd'⟩
        · exact .inl (by rw [hd']; exact List.mem_append_left _ hout)
        · rw [hd] at hout
          rcases List.mem_append.1 hout with hl | hr
          · exact .inl (by rw [hd']; exact List.mem_append_left _ hl)
          · rcases List.mem_cons.1 hr with rfl | hr
            · exact .inr ⟨f, List.mem_append_right _ List.mem_cons_self, party', hf⟩
            · exact .inl (by rw [hd']; exact List.mem_append_right _ hr)
        · exact .inl (by rw [hd']; exact hout)
      · exact .inr ⟨f', List.mem_append_left _ hf', hreturned⟩
    · cases List.mem_singleton.1 hg
      left
      rcases he.holdings key with ⟨_, k, _, _, hk, -, hd'⟩ | ⟨_, _, _, _, hf, -⟩ | ⟨hno, -⟩
      · cases hk
        rw [hd']
        exact List.mem_append_right _ List.mem_cons_self
      · cases hf
      · simp [Fact.grants] at hno
  | dozed _ hdoze ih =>
    rw [hdoze.holdingsAt_eq]
    exact ih hg

/-- A permit that is out was granted to its grantee, and the slot was not dropped since. -/
theorem granted_of_out {g : Holding} (h : Ledger past d) (hg : g ∈ holdingsAt d key) :
    ∃ p m ticket party budget, past = p ++ ⟨g.grantee, .granted key ticket g party budget⟩ :: m ∧
      ∀ f ∈ m, f.evicts key = false := by
  induction h with
  | nil => exact absurd hg (by simp [holdingsAt])
  | @snoc past d d' f _ he ih =>
    have extend (hout : g ∈ holdingsAt d key) : ∃ p m ticket party budget,
        past ++ [f] = p ++ ⟨g.grantee, .granted key ticket g party budget⟩ :: m ∧
          ∀ f ∈ m, f.evicts key = false := by
      obtain ⟨p, m, ticket, party, budget, rfl, hm⟩ := ih hout
      refine ⟨p, m ++ [f], ticket, party, budget, by simp, fun f' hf' => ?_⟩
      rcases List.mem_append.1 hf' with hf' | hf'
      · exact hm f' hf'
      · rw [List.mem_singleton.1 hf']
        -- a slot with a permit out is not dropped
        by_contra hne
        rw [Bool.not_eq_false] at hne
        rw [he.holdings_of_evicts hne] at hout
        exact List.not_mem_nil hout
    rcases he.holdings key with ⟨ticket, k, party, budget, hf, hk, hd'⟩ | ⟨k, _, l, r, -, hd, hd'⟩ |
      ⟨-, -, hd'⟩
    · rw [hd'] at hg
      rcases List.mem_append.1 hg with hg | hg
      · exact extend hg
      · rw [List.mem_singleton.1 hg]
        obtain ⟨call, deed⟩ := f
        subst hf hk
        exact ⟨past, [], ticket, party, budget, rfl, fun f hf => absurd hf List.not_mem_nil⟩
    · rw [hd'] at hg
      refine extend ?_
      rw [hd]
      exact ((List.sublist_cons_self k r).append_left l).subset hg
    · rw [hd'] at hg
      exact extend hg
  | dozed _ hdoze ih =>
    rw [hdoze.holdingsAt_eq] at hg
    exact ih hg

/-- The slot that granted `g` stands, and `g` alone has its serial. -/
def Stands (d : Dict Key Slot) (key : Key) (g : Holding) : Prop :=
  ∃ slot, d.get? key = some slot ∧ g.serial < slot.nextSerial ∧
    ∀ h ∈ slot.holdings, h.serial = g.serial → h = g

theorem stands_of_granted {d d' : Dict Key Slot} {call : CallId} {ticket : Nat} {g : Holding}
    {party : Party} {budget : Option Nat} (hd : ∀ key slot, d.get? key = some slot → slot.Sound)
    (he : Entry d ⟨call, .granted key ticket g party budget⟩ d') : Stands d' key g := by
  obtain ⟨-, slot, hslot, -, hserial, hslot', rfl⟩ := he.of_granted
  refine ⟨_, hslot', Nat.lt_succ_self _, fun h hh heq => ?_⟩
  rcases List.mem_append.1 hh with hh | hh
  · have hlt := (hd key slot hslot).serial_lt h hh
    rw [heq, hserial] at hlt
    exact absurd hlt (Nat.lt_irrefl _)
  · exact List.mem_singleton.1 hh

/-- The slot stands as long as it goes on. -/
theorem Stands.mono {d d' : Dict Key Slot} {g : Holding} (hs : Stands d key g)
    (hkept : ∀ slot, d.get? key = some slot → ∃ slot', d'.get? key = some slot' ∧
      slot.Continues slot') :
    Stands d' key g := by
  obtain ⟨slot, hslot, hlt, huniq⟩ := hs
  obtain ⟨slot', hslot', hc⟩ := hkept slot hslot
  refine ⟨slot', hslot', Nat.lt_of_lt_of_le hlt hc.serial_le, fun h hh heq => ?_⟩
  rcases hc.holding h hh with hold | hnew
  · exact huniq h hold heq
  · omega

/-- Until its slot is dropped, a permit that was granted shares its serial with no other. -/
theorem stands_of_kept {p m : List Fact} {call : CallId} {ticket : Nat} {g : Holding}
    {party : Party} {budget : Option Nat}
    (h : Ledger (p ++ ⟨call, .granted key ticket g party budget⟩ :: m) d)
    (hm : ∀ f ∈ m, f.evicts key = false) : Stands d key g := by
  generalize hpast : p ++ ⟨call, .granted key ticket g party budget⟩ :: m = past at h
  induction h generalizing m with
  | nil => exact absurd hpast (by simp)
  | snoc before he ih =>
    rcases List.eq_nil_or_concat' m with rfl | ⟨m, f, rfl⟩
    · obtain ⟨-, hf⟩ := List.append_inj' hpast rfl
      cases hf
      exact stands_of_granted before.sound he
    · rw [← List.cons_append, ← List.append_assoc] at hpast
      obtain ⟨rfl, hf⟩ := List.append_inj' hpast rfl
      cases hf
      exact (ih (fun f' hf' => hm f' (List.mem_append_left _ hf')) rfl).mono fun _ hslot =>
        he.slot_continues hslot (hm _ (List.mem_append_right _ List.mem_cons_self))
  | dozed _ hdoze ih => exact (ih hm hpast).mono fun _ hslot => hdoze.slot_continues hslot

end FairLocks.Ledger
