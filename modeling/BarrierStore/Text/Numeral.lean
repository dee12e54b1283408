import BarrierStore.Text.Hex

/-!
# Numbers below a limit

The module introduces `Numeral.parse? base limit text`, the number below `limit` that one or more
digits below `base` spell, for a base up to sixteen. Letters are digits in either case, and leading
zeros do not count. Reading ends at the first digit that takes the number to the limit, because
no further digit makes a number smaller (`le_value`); so what is read is the number of all the
digits or nothing (`parse?_eq_some_iff`), and a number below the limit is read back from its digits
(`parse?_toDigits`).
-/

namespace BarrierStore.Numeral

/-- The digits that these characters are, if all of them are digits below `base`. -/
def digits? (base : Nat) : (text : List Char) → Option (List Nat)
  | [] => some []
  | c :: rest => do
    let digit ← Hex.value? c
    if digit < base then (digits? base rest).map (digit :: ·) else none

/-- The number of `digits` behind digits that are worth `front`. -/
def value (base : Nat) : (front : Nat) → (digits : List Nat) → Nat
  | front, [] => front
  | front, digit :: rest => value base (base * front + digit) rest

/-- The number below `limit` of these digits behind digits that are worth `front`. -/
def parseFrom (base limit : Nat) : (front : Nat) → (text : List Char) → Option Nat
  | front, [] => some front
  | front, c :: rest => do
    let digit ← Hex.value? c
    let front := base * front + digit
    if digit < base ∧ front < limit then parseFrom base limit front rest else none

/-- The number below `limit` that one or more digits below `base` spell. -/
def parse? (base limit : Nat) (text : List Char) : Option Nat :=
  if text = [] then none else parseFrom base limit 0 text

/-- More digits make no number smaller. -/
theorem le_value {base : Nat} (h : 0 < base) (front : Nat) (digits : List Nat) :
    front ≤ value base front digits := by
  induction digits generalizing front with
  | nil => exact Nat.le_refl _
  | cons digit rest ih =>
    have := Nat.le_mul_of_pos_left front h
    exact Nat.le_trans (by omega) (ih _)

/-- Reading gives the number of all the digits, if it is below the limit. -/
theorem parseFrom_eq_some_iff {base limit front n : Nat} (h : 0 < base) (below : front < limit)
    {text : List Char} : parseFrom base limit front text = some n ↔
      ∃ digits, digits? base text = some digits ∧ value base front digits = n ∧ n < limit := by
  -- on the digits: the reader stops at the first one that passes the limit, and the number only grows
  induction text generalizing front with
  | nil =>
    simp only [parseFrom, digits?, Option.some.injEq, exists_eq_left', value]
    constructor
    · rintro rfl
      exact ⟨rfl, below⟩
    · exact And.left
  | cons c rest ih =>
    simp only [parseFrom, digits?, Option.bind_eq_bind]
    cases Hex.value? c with
    | none => simp
    | some digit =>
      simp only [Option.bind_some]
      by_cases small : digit < base
      · by_cases next : base * front + digit < limit
        · rw [if_pos ⟨small, next⟩, ih next, if_pos small]
          simp only [Option.map_eq_some_iff]
          constructor
          · rintro ⟨tail, found, number⟩
            exact ⟨digit :: tail, ⟨tail, found, rfl⟩, number⟩
          · rintro ⟨_, ⟨tail, found, rfl⟩, number⟩
            exact ⟨tail, found, number⟩
        · rw [if_neg (fun both => next both.2), if_pos small]
          simp only [reduceCtorEq, false_iff, not_exists, not_and]
          rintro digits found rfl large
          obtain ⟨tail, -, rfl⟩ := Option.map_eq_some_iff.mp found
          exact absurd (Nat.lt_of_le_of_lt (le_value h _ tail) large) next
      · rw [if_neg (fun both => small both.1), if_neg small]
        simp

/-- What is read is the number of all the digits, which is below the limit. -/
theorem parse?_eq_some_iff {base limit n : Nat} (h : 0 < base) (room : 0 < limit)
    {text : List Char} : parse? base limit text = some n ↔ text ≠ [] ∧
      ∃ digits, digits? base text = some digits ∧ value base 0 digits = n ∧ n < limit := by
  rw [parse?]
  split
  · rename_i empty
    simp [empty]
  · rename_i filled
    rw [parseFrom_eq_some_iff h room]
    simp [filled]

/-- What follows some digits is read behind their value. -/
theorem parseFrom_append {base limit front middle : Nat} {text : List Char}
    (h : parseFrom base limit front text = some middle) (rest : List Char) :
    parseFrom base limit front (text ++ rest) = parseFrom base limit middle rest := by
  induction text generalizing front with
  | nil =>
    cases h
    rfl
  | cons c text ih =>
    simp only [parseFrom, List.cons_append, Option.bind_eq_bind, Option.bind_eq_some_iff] at h ⊢
    obtain ⟨digit, hdigit, h⟩ := h
    rw [hdigit]
    split at h
    · rename_i good
      simp only [Option.bind_some, if_pos good]
      exact ih h
    · cases h

/-- A number below the limit is read back from its digits. -/
theorem parse?_toDigits {base limit n : Nat} (low : 1 < base) (high : base ≤ 16) (h : n < limit) :
    parse? base limit (Nat.toDigits base n) = some n := by
  rw [parse?, if_neg Nat.toDigits_ne_nil]
  -- the digits but the last are those of the quotient by the base
  induction n using Nat.strongRecOn with
  | ind n ih =>
    have step (n front : Nat) (below : n < base) (room : base * front + n < limit) :
        parseFrom base limit front [Nat.digitChar n] = some (base * front + n) := by
      have digit : Hex.value? (Nat.digitChar n) = some n := Hex.value?_digit (by omega)
      simp [parseFrom, digit, below, room]
    rcases Nat.lt_or_ge n base with small | large
    · rw [Nat.toDigits_of_lt_base small, step n 0 small (by omega)]
      simp
    · have last := Nat.mod_lt n (Nat.lt_of_succ_lt low)
      have whole := Nat.toDigits_append_toDigits low (Nat.div_pos large (by omega)) last
      have fewer : n / base < n := Nat.div_lt_self (by omega) low
      rw [Nat.div_add_mod] at whole
      rw [← whole, parseFrom_append (ih _ fewer (by omega)), Nat.toDigits_of_lt_base last,
        step _ _ last (by rw [Nat.div_add_mod]; exact h), Nat.div_add_mod]

end BarrierStore.Numeral
