import Mathlib.Data.List.Basic
import Mathlib.Tactic.IntervalCases

/-!
# KvRaft.Text

Strings of the C++ standard library as far as a command line needs them: `find` and
`substr` with their `npos`, `getline` with a delimiter, and the conversions between
numbers and decimal text.

* `find_append`, `substr_append` — the piece of a text between two places;
* `tokens_intercalate` — `getline` undoes joining by a delimiter;
* `scan_decimal` — the conversions undo `to_string` and stop at the first other character.
-/

namespace KvRaft.Text

/-- What the functions below throw. -/
inductive Thrown
  | invalidArgument
  | outOfRange
  deriving DecidableEq

/-! ## Pieces of a text -/

def npos : Nat := 2 ^ 64 - 1

/-- A `size_t`. -/
def sizeT (x : Int) : Nat := (x % 2 ^ 64).toNat

theorem sizeT_succ {n : Nat} (h : n + 1 < 2 ^ 64) : sizeT (n + 1) = n + 1 := by
  unfold sizeT
  omega

/-- `s.find(c, pos)`. -/
def find (s : List UInt8) (c : UInt8) (pos : Nat) : Nat :=
  (((s.drop pos).findIdx? (· == c)).map (pos + ·)).getD npos

/-- `s.substr(pos, n)`. -/
def substr (s : List UInt8) (pos n : Nat) : Except Thrown (List UInt8) :=
  if s.length < pos then .error .outOfRange else .ok ((s.drop pos).take n)

variable {s a b p : List UInt8} {c d : UInt8} {pos n : Nat}

theorem findIdx?_append_cons (h : c ∉ a) : (a ++ c :: b).findIdx? (· == c) = some a.length := by
  have hnone : a.findIdx? (· == c) = none :=
    List.findIdx?_eq_none_iff.mpr fun x hx => beq_false_of_ne fun heq => h (heq ▸ hx)
  rw [List.findIdx?_append, hnone, List.findIdx?_cons, if_pos (beq_self_eq_true c)]
  simp

/-- The next `c` after `p`. -/
theorem find_append (h : c ∉ a) (hpos : p.length = pos) :
    find (p ++ (a ++ c :: b)) c pos = pos + a.length := by
  subst hpos
  rw [find, List.drop_left, findIdx?_append_cons h]
  rfl

theorem find_of_not_mem (h : c ∉ s.drop pos) : find s c pos = npos := by
  have hnone : (s.drop pos).findIdx? (· == c) = none :=
    List.findIdx?_eq_none_iff.mpr fun x hx => beq_false_of_ne fun heq => h (heq ▸ hx)
  rw [find, hnone]
  rfl

theorem substr_append (hpos : p.length = pos) (hn : a.length = n) :
    substr (p ++ (a ++ b)) pos n = .ok a := by
  subst hpos hn
  rw [substr, if_neg (by simp), List.drop_left, List.take_left]

/-- To the end. -/
theorem substr_of_le (hpos : p.length = pos) (hn : s.length ≤ n) :
    substr (p ++ s) pos n = .ok s := by
  subst hpos
  rw [substr, if_neg (by simp), List.drop_left, List.take_of_length_le hn]

/-! ## Lines -/

/-- What `while (getline(ss, tok, d))` reads: a delimiter at the end starts no new token.
`acc` is the token being read. -/
def tokensFrom (d : UInt8) (acc : List UInt8) : List UInt8 → List (List UInt8)
  | [] => if acc = [] then [] else [acc]
  | c :: s => if c = d then acc :: tokensFrom d [] s else tokensFrom d (acc ++ [c]) s

def tokens (d : UInt8) (s : List UInt8) : List (List UInt8) := tokensFrom d [] s

theorem tokensFrom_append (h : d ∉ a) (acc rest : List UInt8) :
    tokensFrom d acc (a ++ rest) = tokensFrom d (acc ++ a) rest := by
  induction a generalizing acc with
  | nil => rw [List.nil_append, List.append_nil]
  | cons c a ih =>
      rw [List.mem_cons, not_or] at h
      rw [List.cons_append, tokensFrom, if_neg (Ne.symm h.1), ih h.2, List.append_assoc]
      rfl

/-- **`getline` undoes joining**, if no piece is empty or has the delimiter in it. -/
theorem tokens_intercalate {l : List (List UInt8)} (h : ∀ a ∈ l, a ≠ [] ∧ d ∉ a) :
    tokens d (List.intercalate [d] l) = l := by
  unfold tokens
  induction l with
  | nil => rfl
  | cons a l ih =>
      obtain ⟨hne, hd⟩ := h a List.mem_cons_self
      cases l with
      | nil =>
          -- the last token ends with the text
          have hone : List.intercalate [d] [a] = a ++ [] := by simp [List.intercalate]
          rw [hone, tokensFrom_append hd, List.nil_append, tokensFrom, if_neg hne]
      | cons a' l =>
          rw [List.intercalate_cons_cons, List.append_assoc, tokensFrom_append hd, List.nil_append,
            List.singleton_append, tokensFrom, if_pos rfl,
            ih fun x hx => h x (List.mem_cons_of_mem a hx)]

/-! ## Numbers -/

def isSpace (c : UInt8) : Bool := c == 32 || (9 ≤ c && c ≤ 13)

def isDigit (c : UInt8) : Bool := 48 ≤ c && c ≤ 57

def value (digits : List UInt8) : Nat := digits.foldl (fun v c => 10 * v + (c.toNat - 48)) 0

/-- The sign, and the text after it. -/
def sign (s : List UInt8) : Bool × List UInt8 :=
  match s with
  | 45 :: s => (true, s)
  | 43 :: s => (false, s)
  | s => (false, s)

/-- What `strtol` reads: whether there is a minus sign, and the digits' value. -/
def scan (s : List UInt8) : Option (Bool × Nat) :=
  let (negative, s) := sign (s.dropWhile isSpace)
  let digits := s.takeWhile isDigit
  if digits = [] then none else some (negative, value digits)

/-- `std::stoul`, which takes a minus sign for a negation of the unsigned number. -/
def stoul (s : List UInt8) : Except Thrown Nat :=
  match scan s with
  | none => .error .invalidArgument
  | some (negative, v) =>
      if 2 ^ 64 ≤ v then .error .outOfRange
      else .ok (if negative then (2 ^ 64 - v) % 2 ^ 64 else v)

/-- `std::stoi`. -/
def stoi (s : List UInt8) : Except Thrown Int :=
  match scan s with
  | none => .error .invalidArgument
  | some (negative, v) =>
      let x : Int := if negative then -(v : Int) else v
      if x < -2 ^ 31 ∨ 2 ^ 31 ≤ x then .error .outOfRange else .ok x

/-- `std::to_string` of an unsigned number. -/
def decimal (n : Nat) : List UInt8 := (Nat.toDigits 10 n).map fun c => UInt8.ofNat c.toNat

/-- `std::to_string` of a signed number. -/
def decimalInt : Int → List UInt8
  | .ofNat n => decimal n
  | .negSucc n => 45 :: decimal (n + 1)

theorem digit_eq {k : Nat} (h : k < 10) :
    UInt8.ofNat (Nat.digitChar k).toNat = UInt8.ofNat (48 + k) := by
  interval_cases k <;> rfl

theorem isDigit_ofNat {k : Nat} (h : k < 10) : isDigit (UInt8.ofNat (48 + k)) = true := by
  interval_cases k <;> rfl

/-- The last digit is the remainder. -/
theorem decimal_eq (n : Nat) :
    decimal n = (if n < 10 then [] else decimal (n / 10)) ++ [UInt8.ofNat (48 + n % 10)] := by
  unfold decimal
  rw [Nat.toDigits_eq_if (by decide)]
  split
  · next hlt => simp [digit_eq hlt, Nat.mod_eq_of_lt hlt]
  · simp [digit_eq (Nat.mod_lt n (by decide : 10 > 0))]

theorem decimal_ne_nil (n : Nat) : decimal n ≠ [] := by
  rw [decimal_eq]
  simp

theorem isDigit_of_mem_decimal {n : Nat} (h : c ∈ decimal n) : isDigit c = true := by
  induction n using Nat.strong_induction_on with
  | _ n ih =>
      rw [decimal_eq] at h
      rcases List.mem_append.mp h with h | h
      · split at h
        · cases h
        · exact ih (n / 10) (by omega) h
      · rw [List.mem_singleton.mp h]
        exact isDigit_ofNat (Nat.mod_lt n (by decide))

theorem not_mem_decimal (h : isDigit c = false) (n : Nat) : c ∉ decimal n := by
  intro hmem
  rw [isDigit_of_mem_decimal hmem] at h
  cases h

theorem value_decimal (n : Nat) : value (decimal n) = n := by
  induction n using Nat.strong_induction_on with
  | _ n ih =>
      -- strong induction: the last digit, and the number without it
      have hlast : (UInt8.ofNat (48 + n % 10)).toNat - 48 = n % 10 := by
        have hlt := Nat.mod_lt n (by decide : 10 > 0)
        rw [UInt8.toNat_ofNat']
        omega
      have hvalue : ∀ l x, value (l ++ [x]) = 10 * value l + (x.toNat - 48) := by
        intro l x
        simp [value, List.foldl_append]
      rw [decimal_eq, hvalue, hlast]
      split
      · change 10 * 0 + n % 10 = n
        omega
      · rw [ih (n / 10) (by omega)]
        omega

theorem isSpace_of_isDigit (h : isDigit c = true) : isSpace c = false := by
  simp only [isDigit, Bool.and_eq_true, decide_eq_true_eq] at h
  simp only [isSpace, Bool.or_eq_false_iff, Bool.and_eq_false_iff, beq_eq_false_iff_ne, ne_eq,
    decide_eq_false_iff_not]
  have h₁ := UInt8.le_iff_toNat_le.mp h.1
  refine ⟨?_, .inr ?_⟩
  · rintro rfl
    exact absurd h₁ (by decide)
  · intro hle
    have h₂ := UInt8.le_iff_toNat_le.mp hle
    exact absurd (h₁.trans h₂) (by decide)

theorem sign_of_isDigit (h : isDigit c = true) : sign (c :: s) = (false, c :: s) := by
  unfold sign
  split
  · next heq =>
    cases heq
    cases h
  · next heq =>
    cases heq
    cases h
  · rfl

/-- Digits are read up to the first other character. -/
theorem scan_digits (hne : a ≠ []) (ha : ∀ x ∈ a, isDigit x = true)
    (hb : ∀ x ∈ b.head?, isDigit x = false) : scan (a ++ b) = some (false, value a) := by
  obtain ⟨x, a, rfl⟩ := List.exists_cons_of_ne_nil hne
  have hx := ha x List.mem_cons_self
  -- digits are neither blanks nor signs, so they are read from the start to their end
  have hspaces : ((x :: a) ++ b).dropWhile isSpace = (x :: a) ++ b := by
    rw [List.cons_append, List.dropWhile_cons_of_neg]
    rw [isSpace_of_isDigit hx]
    decide
  have hrest : b.takeWhile isDigit = [] := by
    cases b with
    | nil => rfl
    | cons y b => rw [List.takeWhile_cons_of_neg]; rw [hb y rfl]; decide
  have hdigits : ((x :: a) ++ b).takeWhile isDigit = x :: a := by
    rw [List.takeWhile_append_of_pos ha, hrest, List.append_nil]
  unfold scan
  rw [hspaces, List.cons_append, sign_of_isDigit hx]
  dsimp only
  rw [← List.cons_append, hdigits, if_neg (List.cons_ne_nil x a)]

/-- **The conversions undo `to_string`.** -/
theorem scan_decimal (n : Nat) (hb : ∀ x ∈ b.head?, isDigit x = false) :
    scan (decimal n ++ b) = some (false, n) := by
  rw [scan_digits (decimal_ne_nil n) (fun _ => isDigit_of_mem_decimal) hb, value_decimal]

theorem stoul_decimal {n : Nat} (h : n < 2 ^ 64) : stoul (decimal n) = .ok n := by
  have hscan := scan_decimal n (b := []) (by simp)
  rw [List.append_nil] at hscan
  unfold stoul
  rw [hscan]
  exact if_neg (Nat.not_le.mpr h)

theorem stoi_decimal_append {n : Nat} (h : n < 2 ^ 31) (hb : ∀ x ∈ b.head?, isDigit x = false) :
    stoi (decimal n ++ b) = .ok n := by
  unfold stoi
  rw [scan_decimal n hb]
  refine if_neg ?_
  simp only [Bool.false_eq_true, if_false]
  omega

theorem stoi_decimal {n : Nat} (h : n < 2 ^ 31) : stoi (decimal n) = .ok n := by
  have hstoi := stoi_decimal_append h (b := []) (by simp)
  rwa [List.append_nil] at hstoi

end KvRaft.Text
