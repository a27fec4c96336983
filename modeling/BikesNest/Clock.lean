import BikesNest.Parking

/-! A reference environment: times written as `HH:MM:SS` with a fraction of three, six or
nine digits when there is one, a leap second as second 60, and columns that count
microseconds. It satisfies the laws of `Env.Lawful`, so they can be met together. -/

namespace Clock

open Parking

def digit (n : ℕ) : Char := Char.ofNat (48 + n % 10)

def undigit (c : Char) : Option ℕ :=
  if 48 ≤ c.toNat ∧ c.toNat < 58 then some (c.toNat - 48) else none

/-- The last `k` decimal digits of `n`, the most significant first. -/
def pad : ℕ → ℕ → List Char
  | 0, _ => []
  | k + 1, n => pad k (n / 10) ++ [digit n]

def unpad (cs : List Char) : Option ℕ :=
  cs.foldlM (fun acc c => (undigit c).map fun d => acc * 10 + d) 0

theorem digit_toNat (n : ℕ) : (digit n).toNat = 48 + n % 10 := by
  have h : n % 10 < 10 := Nat.mod_lt n (by decide)
  simp only [digit]
  interval_cases n % 10 <;> rfl

theorem undigit_digit (n : ℕ) : undigit (digit n) = some (n % 10) := by
  have h : n % 10 < 10 := Nat.mod_lt n (by decide)
  rw [undigit, digit_toNat, if_pos (by omega), Nat.add_sub_cancel_left]

theorem unpad_pad (k n : ℕ) : unpad (pad k n) = some (n % 10 ^ k) := by
  induction k generalizing n with
  | zero => simp [pad, unpad, Nat.mod_one]
  | succ k ih =>
    have hprefix := ih (n / 10)
    simp only [unpad] at hprefix
    simp only [pad, unpad, List.foldlM_append, hprefix]
    have hmod : n / 10 % 10 ^ k * 10 + n % 10 = n % 10 ^ (k + 1) := by
      rw [Nat.pow_succ, Nat.mul_comm (10 ^ k) 10, Nat.mod_mul]
      omega
    simp [undigit_digit, hmod]

theorem length_pad (k n : ℕ) : (pad k n).length = k := by
  induction k generalizing n with
  | zero => rfl
  | succ k ih => simp [pad, ih]

theorem pad_two (n : ℕ) : pad 2 n = [digit (n / 10), digit n] := rfl

theorem mem_pad {k n : ℕ} {c : Char} (h : c ∈ pad k n) : 48 ≤ c.toNat := by
  induction k generalizing n with
  | zero => simp [pad] at h
  | succ k ih =>
    rcases List.mem_append.mp h with h | h
    · exact ih h
    · obtain rfl := List.mem_singleton.mp h
      rw [digit_toNat]
      omega

def renderFraction (nano : ℕ) : List Char :=
  if nano = 0 then []
  else if nano % 1000000 = 0 then '.' :: pad 3 (nano / 1000000)
  else if nano % 1000 = 0 then '.' :: pad 6 (nano / 1000)
  else '.' :: pad 9 nano

def parseFraction : List Char → Option ℕ
  | [] => some 0
  | '.' :: cs =>
    if cs.length = 3 then (unpad cs).map (· * 1000000)
    else if cs.length = 6 then (unpad cs).map (· * 1000)
    else if cs.length = 9 then unpad cs
    else none
  | _ => none

theorem parse_renderFraction {nano : ℕ} (h : nano < 1000000000) :
    parseFraction (renderFraction nano) = some nano := by
  unfold renderFraction
  split
  · simp_all [parseFraction]
  · split
    · simp only [parseFraction, length_pad, if_true, unpad_pad, Option.map_some,
        Option.some.injEq]
      omega
    · split
      · simp only [parseFraction, length_pad, unpad_pad, Option.map_some, Option.some.injEq,
          show ¬ (6 = 3) by decide, if_true, if_false]
        omega
      · simp only [parseFraction, length_pad, unpad_pad, Option.some.injEq,
          show ¬ (9 = 3) by decide, show ¬ (9 = 6) by decide, if_true, if_false]
        omega

/-- The second shown: 60 within a leap second. -/
def shownSecond (t : NaiveTime) : ℕ := t.secs % 60 + t.frac / 1000000000

def render (t : NaiveTime) : List Char :=
  pad 2 (t.secs / 3600) ++ ':' :: pad 2 (t.secs / 60 % 60) ++ ':' :: pad 2 (shownSecond t) ++
    renderFraction (t.frac % 1000000000)

def ofParts (h m s nano : ℕ) : Option NaiveTime :=
  let secs := h * 3600 + m * 60 + min s 59
  let frac := (if s = 60 then 1000000000 else 0) + nano
  if valid : s ≤ 60 ∧ secs < 86400 ∧ frac < 2000000000 ∧ (1000000000 ≤ frac → secs % 60 = 59) then
    some ⟨secs, frac, valid.2⟩
  else none

def parse : List Char → Option NaiveTime
  | h₁ :: h₂ :: ':' :: m₁ :: m₂ :: ':' :: s₁ :: s₂ :: rest => do
    let h ← unpad [h₁, h₂]
    let m ← unpad [m₁, m₂]
    let s ← unpad [s₁, s₂]
    let nano ← parseFraction rest
    ofParts h m s nano
  | _ => none

theorem parse_render (t : NaiveTime) : parse (render t) = some t := by
  obtain ⟨secs, frac, valid⟩ := t
  have hs : shownSecond ⟨secs, frac, valid⟩ ≤ 60 := by
    simp only [shownSecond]
    omega
  have two : ∀ n, unpad [digit (n / 10), digit n] = some (n % 100) := fun n => unpad_pad 2 n
  simp only [render, pad_two, List.cons_append, List.nil_append, parse, two,
    parse_renderFraction (Nat.mod_lt frac (by decide)), Option.bind_eq_bind, Option.bind_some]
  simp only [shownSecond] at hs ⊢
  have h₁ : secs / 3600 % 100 = secs / 3600 := Nat.mod_eq_of_lt (by omega)
  have h₂ : secs / 60 % 60 % 100 = secs / 60 % 60 := Nat.mod_eq_of_lt (by omega)
  have h₃ : (secs % 60 + frac / 1000000000) % 100 = secs % 60 + frac / 1000000000 :=
    Nat.mod_eq_of_lt (by omega)
  rw [h₁, h₂, h₃, ofParts]
  have hsecs : secs / 3600 * 3600 + secs / 60 % 60 * 60 +
      min (secs % 60 + frac / 1000000000) 59 = secs := by omega
  have hfrac : (if secs % 60 + frac / 1000000000 = 60 then 1000000000 else 0) +
      frac % 1000000000 = frac := by
    split <;> omega
  simp only [hsecs, hfrac]
  rw [dif_pos ⟨hs, valid⟩]

theorem render_text (t : NaiveTime) : '\x00' ∉ render t := by
  have zero : ∀ {k n}, '\x00' ∉ pad k n := by
    intro k n h
    have := mem_pad h
    simp at this
  have dot : ('\x00' : Char) ≠ '.' := by decide
  have colon : ('\x00' : Char) ≠ ':' := by decide
  simp only [render, renderFraction]
  split
  · simp [zero, colon]
  · split
    · simp [zero, colon, dot]
    · split <;> simp [zero, colon, dot]

def zoneNames : List String := ["Europe/Berlin", "America/Sao_Paulo", "UTC"]

def env : Env where
  parseTime s := parse s.toList
  timeToString t := String.ofList (render t)
  timeToSql t := t.secs * 1000000 + t.frac / 1000
  timeOfSql us := ⟨us / 1000000 % 86400, us % 1000000 * 1000, by omega⟩
  timeText us := String.ofList (render ⟨us / 1000000 % 86400, us % 1000000 * 1000, by omega⟩)
  parseTz s := if s ∈ zoneNames then some ⟨s⟩ else none

theorem env_lawful : env.Lawful where
  parse_render t := by simp [env, parse_render]
  render_text t := by simpa [env] using render_text t
  parseTz_name s tz h := by
    simp only [env, Option.ite_none_right_eq_some, Option.some.injEq] at h
    rw [← h.2]
  midnight_survives := by decide
  lastSecond_survives := by decide

end Clock
