import Mathlib.Algebra.Order.Ring.Nat

/-!
# Numbers in text

The number parsing of `lib/vsprintf.c`. A string is the list of its characters up to the NUL, and
a pointer into it is what is left of the string from there.
-/

namespace NestLinux.Strtoul

variable {base n result : ℕ} {rest : List Char}

/-- The value of a digit, where `isxdigit` holds. -/
def xdigit (c : Char) : Option ℕ :=
  if '0' ≤ c ∧ c ≤ '9' then some (c.toNat - '0'.toNat)
  else if 'a' ≤ c ∧ c ≤ 'f' then some (c.toNat - 'a'.toNat + 10)
  else if 'A' ≤ c ∧ c ≤ 'F' then some (c.toNat - 'A'.toNat + 10)
  else none

/-- The string starts with `0x`, in either case. -/
def hasHexPrefix : List Char → Bool
  | c :: x :: _ => c = '0' ∧ (x = 'x' ∨ x = 'X')
  | _ => false

def simpleGuessBase (cp : List Char) : ℕ :=
  if cp.head? = some '0' then
    if hasHexPrefix cp ∧ ((cp.drop 2).head?.bind xdigit).isSome then 16 else 8
  else 10

/-- The loop of `simple_strtoull`. -/
def strtoLoop (base result : ℕ) : List Char → ℕ × List Char
  | [] => (result, [])
  | c :: cp =>
    match xdigit c with
    | none => (result, c :: cp)
    | some value =>
      if base ≤ value then (result, c :: cp)
      else strtoLoop base ((result * base + value) % 2 ^ 64) cp

/-- `simple_strtoull`: the result, and `*endp`. -/
def simpleStrtoull (cp : List Char) (base : ℕ) : ℕ × List Char :=
  let base := if base = 0 then simpleGuessBase cp else base
  strtoLoop base 0 (if base = 16 ∧ hasHexPrefix cp then cp.drop 2 else cp)

/-- `simple_strtoul`, with `unsigned long` of 32 bits. -/
def simpleStrtoul (cp : List Char) (base : ℕ) : ℕ × List Char :=
  let r := simpleStrtoull cp base
  (r.1 % 2 ^ 32, r.2)

/-- The string does not go on with a digit of the base. -/
def Stops (base : ℕ) (rest : List Char) : Prop :=
  ∀ c ∈ rest.head?, ∀ value ∈ xdigit c, base ≤ value

theorem strtoLoop_of_stops (h : Stops base rest) : strtoLoop base result rest = (result, rest) := by
  cases rest with
  | nil => rfl
  | cons c rest =>
    rw [strtoLoop]
    cases hc : xdigit c with
    | none => rfl
    | some value => exact if_pos (h c rfl value hc)

theorem xdigit_digitChar : ∀ d < 16, xdigit (Nat.digitChar d) = some d := by decide

/-- The digits of a number are read back, and then what follows them. -/
theorem strtoLoop_toDigits (hba : 1 < base) (hle : base ≤ 16) :
    strtoLoop base 0 (Nat.toDigits base n ++ rest) = strtoLoop base (n % 2 ^ 64) rest := by
  have hdig (d : ℕ) (hd : d < base) (result : ℕ) (rest : List Char) :
      strtoLoop base result (Nat.digitChar d :: rest) =
        strtoLoop base ((result * base + d) % 2 ^ 64) rest := by
    rw [strtoLoop, xdigit_digitChar d (by omega)]
    exact if_neg (by omega)
  induction n using Nat.strong_induction_on generalizing rest with
  | _ n ih =>
    rw [Nat.toDigits_eq_if hba]
    split
    · rename_i hn
      rw [List.singleton_append, hdig n hn, Nat.zero_mul, Nat.zero_add]
    have hdv : n / base < n := Nat.div_lt_self (by omega) hba
    rw [List.append_assoc, ih _ hdv, List.singleton_append, hdig _ (Nat.mod_lt _ (by omega)),
      Nat.add_mod, Nat.mod_mul_mod, ← Nat.add_mod, Nat.div_add_mod']

theorem simpleStrtoul_toDigits (hn : n < 2 ^ 32) (h : Stops 10 rest) :
    simpleStrtoul (Nat.toDigits 10 n ++ rest) 10 = (n, rest) := by
  have hull : simpleStrtoull (Nat.toDigits 10 n ++ rest) 10 = (n % 2 ^ 64, rest) :=
    (strtoLoop_toDigits (show 1 < 10 by decide) (by decide)).trans (strtoLoop_of_stops h)
  have hm : n % 2 ^ 64 = n := Nat.mod_eq_of_lt (by omega)
  rw [simpleStrtoul, hull, hm]
  simp only [Nat.mod_eq_of_lt hn]

end NestLinux.Strtoul
