import FairLocks.Json.Number

/-!
# Passing over values

A value that nobody asked for is checked and dropped. The containers it is in are kept as a stack,
so that values may nest as deep as they like and every step reads at least one character.
-/
namespace FairLocks.Json

inductive Container where
  | list
  | object
  deriving DecidableEq

/-- What has to come next. -/
inductive Due where
  | value
  | key
  /-- The first item of a container that has just been opened, or its end. -/
  | first (c : Container)
  /-- A comma or the end of the innermost container. -/
  | more
  deriving DecidableEq

theorem length_of_skipWord {ws l r : List Char} (h : skipWord ws l = .ok r) :
    r.length ≤ l.length := by
  induction ws generalizing l with
  | nil =>
    simp only [skipWord, Except.ok.injEq] at h
    exact h ▸ Nat.le_refl _
  | cons w ws ih =>
    cases l with
    | nil => simp [skipWord] at h
    | cons c l =>
      simp only [skipWord] at h
      split at h
      · have := ih h
        simp only [List.length_cons]
        omega
      · simp at h

theorem length_of_skipText {l r : List Char} (h : skipText l = .ok r) : r.length < l.length := by
  fun_induction skipText l with
  | case1 => simp at h
  | case2 => simp_all
  | case3 => simp at h
  | case4 c l _ ih =>
    have := ih h
    simp only [List.length_cons]
    omega
  | case5 => simp at h
  | case6 _ _ _ _ hl _ ih =>
    have := ih h
    simp only [List.length_cons]
    omega
  | case7 => simp at h
  | case8 => simp at h
  | case9 _ _ _ _ _ _ ih =>
    have := ih h
    simp only [List.length_cons]
    omega

theorem length_exponentSign_le (l : List Char) : (exponentSign l).2.length ≤ l.length := by
  unfold exponentSign
  split <;> simp

theorem length_of_skipExponent {l r : List Char} (h : skipExponent l = .ok r) :
    r.length ≤ l.length := by
  have hs := length_exponentSign_le l
  simp only [skipExponent] at h
  split at h
  · simp at h
  · rename_i hl
    rw [hl] at hs
    split at h
    · simp only [Except.ok.injEq] at h
      rw [← h]
      simp only [List.length_cons] at hs
      exact Nat.le_trans (List.dropWhile_sublist Char.isDigit).length_le (by omega)
    · simp at h

theorem length_of_skipTail {l r : List Char} (h : skipTail l = .ok r) : r.length ≤ l.length := by
  unfold skipTail at h
  split at h
  · rename_i l
    have hd := (List.dropWhile_sublist (l := l) Char.isDigit).length_le
    simp only [splitDigits] at h
    split at h
    · simp at h
    · rename_i he
      have := length_of_skipExponent h
      simp only [Prod.mk.injEq] at he
      rw [he.2] at hd
      simp only [List.length_cons] at *
      omega
    · rename_i he
      have := length_of_skipExponent h
      simp only [Prod.mk.injEq] at he
      rw [he.2] at hd
      simp only [List.length_cons] at *
      omega
    · rename_i he
      simp only [Prod.mk.injEq] at he
      simp only [Except.ok.injEq] at h
      rw [he.2, h] at hd
      simp only [List.length_cons]
      omega
  · have := length_of_skipExponent h
    simp only [List.length_cons]
    omega
  · have := length_of_skipExponent h
    simp only [List.length_cons]
    omega
  · simp only [Except.ok.injEq] at h
    exact h ▸ Nat.le_refl _

theorem length_of_skipNumber {l r : List Char} (h : skipNumber l = .ok r) :
    r.length < l.length := by
  cases l with
  | nil => simp [skipNumber] at h
  | cons c l =>
    simp only [skipNumber] at h
    split at h
    · split at h
      · simp at h
      · have := length_of_skipTail h
        simp only [List.length_cons]
        omega
    · split at h
      · have := length_of_skipTail h
        have := (List.dropWhile_sublist (l := l) Char.isDigit).length_le
        simp only [List.length_cons]
        omega
      · simp at h

/-- Passes over the colon between a key and its value. -/
def skipColon (l : List Char) : Except Fault (List Char) :=
  match skipSpace l with
  | [] => .error (.peek .endInObject [])
  | c :: l => if c = ':' then .ok l else .error (.peek .expectedColon (c :: l))

theorem length_of_skipColon {l r : List Char} (h : skipColon l = .ok r) : r.length < l.length := by
  have hs := length_skipSpace_le l
  simp only [skipColon] at h
  split at h
  · simp at h
  · rename_i hl
    rw [hl] at hs
    split at h
    · simp only [Except.ok.injEq] at h
      rw [← h]
      simp only [List.length_cons] at hs
      omega
    · simp at h

/-- The end of the text where a comma or an end of the container is due. -/
def Container.cut : Container → Cause
  | list => .endInList
  | object => .endInObject

/-- Another character where a comma or an end of the container is due. -/
def Container.unclosed : Container → Cause
  | list => .expectedListEnd
  | object => .expectedObjectEnd

def Container.closing : Container → Char
  | list => ']'
  | object => '}'

/-- What is due at the start of an item. -/
def Container.item : Container → Due
  | list => .value
  | object => .key

/-- A scalar, or the opening of a container. -/
inductive Opening where
  | scalar (rest : List Char)
  | container (c : Container) (rest : List Char)

/-- Passes over a scalar or the opening of a container. -/
def skipOpening : List Char → Except Fault Opening
  | [] => .error (.peek .endInValue [])
  | c :: l =>
    if c = 'n' then (skipWord ['u', 'l', 'l'] l).map .scalar
    else if c = 't' then (skipWord ['r', 'u', 'e'] l).map .scalar
    else if c = 'f' then (skipWord ['a', 'l', 's', 'e'] l).map .scalar
    else if c = '-' then (skipNumber l).map .scalar
    else if c.isDigit then (skipNumber (c :: l)).map .scalar
    else if c = '"' then (skipText l).map .scalar
    else if c = '[' then .ok (.container .list l)
    else if c = '{' then .ok (.container .object l)
    else .error (.peek .expectedValue (c :: l))

/-- The text behind an opening. -/
def Opening.rest : Opening → List Char
  | scalar r => r
  | container _ r => r

theorem length_of_map_scalar {l : List Char} {x : Except Fault (List Char)} {o : Opening}
    (hx : ∀ r, x = .ok r → r.length < l.length) (h : x.map Opening.scalar = .ok o) :
    o.rest.length < l.length := by
  cases x with
  | error f => simp [Except.map] at h
  | ok r =>
    simp only [Except.map, Except.ok.injEq] at h
    rw [← h]
    exact hx r rfl

theorem length_of_skipOpening {l : List Char} {o : Opening} (h : skipOpening l = .ok o) :
    o.rest.length < l.length := by
  cases l with
  | nil => simp [skipOpening] at h
  | cons c l =>
    simp only [skipOpening] at h
    have word : ∀ ws r, skipWord ws l = .ok r → r.length < (c :: l).length := fun ws r hr =>
      Nat.lt_succ_of_le (length_of_skipWord hr)
    split at h
    · exact length_of_map_scalar (word _) h
    · split at h
      · exact length_of_map_scalar (word _) h
      · split at h
        · exact length_of_map_scalar (word _) h
        · split at h
          · exact length_of_map_scalar
              (fun r hr => Nat.lt_succ_of_lt (length_of_skipNumber hr)) h
          · split at h
            · exact length_of_map_scalar (fun r hr => length_of_skipNumber hr) h
            · split at h
              · exact length_of_map_scalar
                  (fun r hr => Nat.lt_succ_of_lt (length_of_skipText hr)) h
              · split at h
                · simp only [Except.ok.injEq] at h
                  rw [← h]
                  exact Nat.lt_succ_self _
                · split at h
                  · simp only [Except.ok.injEq] at h
                    rw [← h]
                    exact Nat.lt_succ_self _
                  · simp at h

/-- Passes over a key and its colon. -/
def skipKey (l : List Char) : Except Fault (List Char) :=
  match skipSpace l with
  | [] => .error (.peek .endInObject [])
  | c :: l =>
    if c = '"' then
      match skipText l with
      | .error f => .error f
      | .ok r => skipColon r
    else .error (.peek .keyNotText (c :: l))

theorem length_of_skipKey {l r : List Char} (h : skipKey l = .ok r) : r.length < l.length := by
  have hs := length_skipSpace_le l
  simp only [skipKey] at h
  split at h
  · simp at h
  · rename_i hl
    rw [hl] at hs
    split at h
    · split at h
      · simp at h
      · rename_i ht
        have := length_of_skipText ht
        have := length_of_skipColon h
        simp only [List.length_cons] at hs
        omega
    · simp at h

/-- What has been passed over of a value: what is due next, inside which containers, the innermost
first, and the text that is left. -/
structure Pending where
  due : Due
  inside : List Container
  text : List Char

namespace Pending

/-- Goes down with every step. To find that a container is not empty reads nothing. -/
def size (p : Pending) : Nat :=
  2 * p.text.length + (match p.due with | .first _ => 1 | _ => 0)

/-- Passes over what is due next. At the end of the outermost value nothing is. -/
def step (p : Pending) : Except Fault Pending :=
  match p.due, p.inside with
  | .value, inside =>
    match skipOpening (skipSpace p.text) with
    | .error f => .error f
    | .ok (.scalar r) => .ok ⟨.more, inside, r⟩
    | .ok (.container c r) => .ok ⟨.first c, inside, r⟩
  | .first c, inside =>
    match skipSpace p.text with
    | [] => .error (.peek c.cut [])
    | d :: r =>
      if d = c.closing then .ok ⟨.more, inside, r⟩ else .ok ⟨c.item, c :: inside, d :: r⟩
  | .key, inside =>
    match skipKey p.text with
    | .error f => .error f
    | .ok r => .ok ⟨.value, inside, r⟩
  | .more, [] => .ok p
  | .more, c :: inside =>
    match skipSpace p.text with
    | [] => .error (.peek c.cut [])
    | d :: r =>
      if d = ',' then .ok ⟨c.item, c :: inside, r⟩
      else if d = c.closing then .ok ⟨.more, inside, r⟩
      else .error (.peek c.unclosed (d :: r))

/-- The outermost value has ended. -/
def Ended (p : Pending) : Prop := p.due = .more ∧ p.inside = []

instance (p : Pending) : Decidable p.Ended := inferInstanceAs (Decidable (_ ∧ _))

theorem size_item (c : Container) (inside : List Container) (l : List Char) :
    (Pending.mk c.item inside l).size = 2 * l.length := by
  cases c <;> rfl

theorem size_of_step {p q : Pending} (hp : ¬ p.Ended) (h : p.step = .ok q) : q.size < p.size := by
  obtain ⟨due, inside, l⟩ := p
  have hs := length_skipSpace_le l
  cases due with
  | value =>
    simp only [step] at h
    split at h
    · simp at h
    · rename_i r ho
      have hr := length_of_skipOpening ho
      simp only [Except.ok.injEq] at h
      subst h
      simp only [size, Opening.rest] at *
      omega
    · rename_i c r ho
      have hr := length_of_skipOpening ho
      simp only [Except.ok.injEq] at h
      subst h
      simp only [size, Opening.rest] at *
      omega
  | first c =>
    simp only [step] at h
    split at h
    · simp at h
    · rename_i d r hl
      rw [hl] at hs
      simp only [List.length_cons] at hs
      split at h <;> (simp only [Except.ok.injEq] at h; subst h)
      · simp only [size]
        omega
      · rw [size_item]
        simp only [size, List.length_cons]
        omega
  | key =>
    simp only [step] at h
    split at h
    · simp at h
    · rename_i r hk
      have := length_of_skipKey hk
      simp only [Except.ok.injEq] at h
      subst h
      simp only [size]
      omega
  | more =>
    cases inside with
    | nil => exact absurd ⟨rfl, rfl⟩ hp
    | cons c inside =>
      simp only [step] at h
      split at h
      · simp at h
      · rename_i d r hl
        rw [hl] at hs
        simp only [List.length_cons] at hs
        split at h
        · simp only [Except.ok.injEq] at h
          subst h
          rw [size_item]
          simp only [size]
          omega
        · split at h
          · simp only [Except.ok.injEq] at h
            subst h
            simp only [size]
            omega
          · simp at h

/-- Steps to the end of the outermost value and leaves the text behind it. -/
def finish (p : Pending) : Except Fault (List Char) :=
  if hp : p.Ended then .ok p.text
  else
    match h : p.step with
    | .error f => .error f
    | .ok q =>
      have := size_of_step hp h
      q.finish
termination_by p.size

end Pending

/-- Passes over a value of any kind. -/
def skipValue (l : List Char) : Except Fault (List Char) := (Pending.mk .value [] l).finish

end FairLocks.Json
