import Mathlib.Data.List.TakeWhile
import Mathlib.Data.Nat.Digits.Defs

/-!
# Scanning text

Bytes as the C library scans them: strings end at the first zero byte, `%s` and `%llu` skip
blanks first. A decimal number that loses digits at its end changes its value, unless it is 0
(`decimal_take_eq_iff`).
-/

namespace Text

/-- `isspace` in the C locale. -/
def isSpace (c : UInt8) : Bool := c = 32 || (9 ≤ c && c ≤ 13)

def isDigit (c : UInt8) : Bool := 48 ≤ c && c ≤ 57

/-- A string that is passed by its address. -/
structure CString where
  chars : List UInt8
  noZero : 0 ∉ chars

/-- The string that an array of bytes holds. -/
def cString (bytes : List UInt8) : List UInt8 := bytes.takeWhile (· != 0)

/-- The value of a string of digits. -/
def decimal (ds : List UInt8) : ℕ := Nat.ofDigits 10 (ds.reverse.map fun d => d.toNat - 48)

/-- `%<width>s`: the token and what follows it. -/
def scanString (width : ℕ) (s : List UInt8) : Option (List UInt8 × List UInt8) :=
  let s := s.dropWhile isSpace
  let token := (s.takeWhile fun c => !isSpace c).take width
  if token = [] then none else some (token, s.drop token.length)

/-- `%llu`, with the sign that it accepts; what does not fit is `ULLONG_MAX`. -/
def scanUnsigned (s : List UInt8) : Option ℕ :=
  let s := s.dropWhile isSpace
  let negative := s.head? = some 45
  let ds := (if negative ∨ s.head? = some 43 then s.tail else s).takeWhile isDigit
  if ds = [] then none
  else if decimal ds ≥ 2 ^ 64 then some (2 ^ 64 - 1)
  else if negative then some ((2 ^ 64 - decimal ds) % 2 ^ 64)
  else some (decimal ds)

variable {s rest ds blanks : List UInt8} {c : UInt8}

theorem isSpace_of_isDigit (h : isDigit c) : isSpace c = false := by
  simp only [isDigit, isSpace, Bool.and_eq_true, decide_eq_true_eq, Bool.or_eq_false_iff,
    Bool.and_eq_false_iff, decide_eq_false_iff_not] at *
  have hlow : 48 ≤ c.toNat := UInt8.le_iff_toNat_le.1 h.1
  refine ⟨?_, Or.inr fun hle => ?_⟩
  · rintro rfl
    exact absurd hlow (by decide)
  · have hhigh : c.toNat ≤ 13 := UInt8.le_iff_toNat_le.1 hle
    omega

/-! ## Decimal numbers -/

theorem decimal_append (xs ys : List UInt8) :
    decimal (xs ++ ys) = decimal ys + 10 ^ ys.length * decimal xs := by
  rw [decimal, List.reverse_append, List.map_append, Nat.ofDigits_append, List.length_map,
    List.length_reverse, decimal, decimal]

theorem decimal_take_add (ds : List UInt8) (k : ℕ) :
    decimal ds = decimal (ds.drop k) + 10 ^ (ds.drop k).length * decimal (ds.take k) := by
  rw [← decimal_append, List.take_append_drop]

theorem decimal_take_le (ds : List UInt8) (k : ℕ) : decimal (ds.take k) ≤ decimal ds := by
  rw [decimal_take_add ds k]
  exact (Nat.le_mul_of_pos_left _ (Nat.pow_pos (by decide))).trans (Nat.le_add_left _ _)

/-- Digits that are cut off count. -/
theorem decimal_take_eq_iff {k : ℕ} (hk : k < ds.length) :
    decimal (ds.take k) = decimal ds ↔ decimal ds = 0 := by
  constructor
  · intro h
    have hsplit := decimal_take_add ds k
    have hlen : (ds.drop k).length = (ds.drop k).length - 1 + 1 := by
      rw [List.length_drop]
      omega
    rw [h, hlen, Nat.pow_succ, Nat.mul_assoc] at hsplit
    have hpow : 10 * decimal ds ≤ 10 ^ ((ds.drop k).length - 1) * (10 * decimal ds) :=
      Nat.le_mul_of_pos_left _ (Nat.pow_pos (by decide))
    omega
  · intro h
    rw [h]
    exact Nat.le_zero.1 (h ▸ decimal_take_le ds k)

/-! ## Conversions -/

theorem bne_of_notMem (h : c ∉ s) : ∀ b ∈ s, (b != c) = true :=
  fun _ hb => bne_iff_ne.2 fun heq => h (heq ▸ hb)

theorem cString_eq_self (h : 0 ∉ s) : cString s = s :=
  List.takeWhile_eq_self_iff.2 (bne_of_notMem h)

theorem cString_append_of_mem (h : 0 ∈ s) : cString (s ++ rest) = cString s := by
  induction s with
  | nil => simp at h
  | cons c s ih =>
    by_cases hc : c = 0
    · rw [cString, cString, List.cons_append, List.takeWhile_cons_of_neg (by simp [hc]),
        List.takeWhile_cons_of_neg (by simp [hc])]
    · have hs : 0 ∈ s := (List.mem_cons.1 h).resolve_left (Ne.symm hc)
      rw [cString, cString, List.cons_append, List.takeWhile_cons_of_pos (by simp [hc]),
        List.takeWhile_cons_of_pos (by simp [hc])]
      exact congrArg (c :: ·) (ih hs)

/-- A token in front of a blank or the end. -/
theorem scanString_token {width : ℕ} {token : List UInt8} (hne : token ≠ [])
    (hwidth : token.length ≤ width) (htoken : ∀ c ∈ token, isSpace c = false)
    (hrest : ∀ c, rest.head? = some c → isSpace c) :
    scanString width (token ++ rest) = some (token, rest) := by
  have hskip : (token ++ rest).dropWhile isSpace = token ++ rest := by
    obtain ⟨c, cs, rfl⟩ := List.exists_cons_of_ne_nil hne
    exact List.dropWhile_cons_of_neg (by simp [htoken c List.mem_cons_self])
  have hstop : rest.takeWhile (fun c => !isSpace c) = [] := by
    cases rest with
    | nil => rfl
    | cons c cs => exact List.takeWhile_cons_of_neg (by simp [hrest c rfl])
  have htake : (token ++ rest).takeWhile (fun c => !isSpace c) = token := by
    rw [List.takeWhile_append_of_pos (fun c hc => by simp [htoken c hc]), hstop, List.append_nil]
  simp only [scanString, hskip, htake, List.take_of_length_le hwidth, if_neg hne,
    List.drop_left]

/-- Digits after blanks. -/
theorem scanUnsigned_digits (hblanks : ∀ c ∈ blanks, isSpace c) (hds : ∀ c ∈ ds, isDigit c)
    (hfits : decimal ds < 2 ^ 64) :
    scanUnsigned (blanks ++ ds) = if ds = [] then none else some (decimal ds) := by
  have hskip : (blanks ++ ds).dropWhile isSpace = ds := by
    rw [List.dropWhile_append_of_pos hblanks]
    cases ds with
    | nil => rfl
    | cons c cs =>
      exact List.dropWhile_cons_of_neg (by simp [isSpace_of_isDigit (hds c List.mem_cons_self)])
  -- digits have no sign in front
  have hsign : ∀ c, ds.head? = some c → c ≠ 45 ∧ c ≠ 43 := by
    intro c hc
    have hdigit := hds c (List.mem_of_head? hc)
    constructor
    · rintro rfl
      exact absurd hdigit (by decide)
    · rintro rfl
      exact absurd hdigit (by decide)
  have hplus : ¬ (ds.head? = some 45 ∨ ds.head? = some 43) := by
    rintro (h | h)
    · exact (hsign _ h).1 rfl
    · exact (hsign _ h).2 rfl
  have htake : ds.takeWhile isDigit = ds := List.takeWhile_eq_self_iff.2 hds
  simp only [scanUnsigned, hskip, if_neg hplus, htake, if_neg (Nat.not_le_of_lt hfits),
    if_neg (not_or.1 hplus).1]

end Text
