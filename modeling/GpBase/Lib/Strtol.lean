import Mathlib.Data.List.Basic
import Mathlib.Data.List.TakeWhile

/-!
# Numerals in strings

`strtol` of the C library for base 0, with the limits of its result as
parameters, and the grammar of the numerals that it reads: white space, a sign,
and a hexadecimal, octal or decimal number.
-/

namespace GpBase.Lib

/-! ## The function -/

def digitValue (c : UInt8) : Option Nat :=
  if 0x30 ≤ c ∧ c ≤ 0x39 then some (c.toNat - 0x30)
  else if 0x61 ≤ c ∧ c ≤ 0x7a then some (c.toNat - 0x61 + 10)
  else if 0x41 ≤ c ∧ c ≤ 0x5a then some (c.toNat - 0x41 + 10)
  else none

def isDigit (base : Nat) (c : UInt8) : Bool := (digitValue c).any (· < base)

/-- The number that digits spell. -/
def digitsValue (base : Nat) (digits : List UInt8) : Nat :=
  digits.foldl (fun acc c => acc * base + (digitValue c).getD 0) 0

/-- The sign, and what follows it. -/
def readSign : List UInt8 → Int × List UInt8
  | [] => (1, [])
  | c :: rest => if c = 0x2d then (-1, rest) else if c = 0x2b then (1, rest) else (1, c :: rest)

/-- `0x` counts as a prefix only in front of a hexadecimal digit. -/
def hexPrefix : List UInt8 → Bool
  | z :: x :: c :: _ => z = 0x30 ∧ (x = 0x78 ∨ x = 0x58) ∧ isDigit 16 c
  | _ => false

/-- The base, and where the digits start. -/
def readBase (t : List UInt8) : Nat × List UInt8 :=
  if hexPrefix t then (16, t.drop 2)
  else if t.head? = some 0x30 then (8, t)
  else (10, t)

/-- What `strtol` returns, where `endptr` points, and whether `errno` is set to
`ERANGE`. -/
structure Strtol where
  value : Int
  endptr : List UInt8
  erange : Bool
  deriving DecidableEq, Repr

def strtol (space : UInt8 → Bool) (low high : Int) (s : List UInt8) : Strtol :=
  let (sign, t) := readSign (s.dropWhile space)
  let (base, t) := readBase t
  let digits := t.takeWhile (isDigit base)
  let endptr := t.dropWhile (isDigit base)
  let value := sign * digitsValue base digits
  if digits = [] then ⟨0, s, false⟩
  else if high < value then ⟨high, endptr, true⟩
  else if value < low then ⟨low, endptr, true⟩
  else ⟨value, endptr, false⟩

/-! ## The grammar -/

inductive Signed : List UInt8 → Int → Prop
  | unsigned : Signed [] 1
  | plus : Signed [0x2b] 1
  | minus : Signed [0x2d] (-1)

/-- The prefix of some digits, and their base. -/
inductive Based : List UInt8 → List UInt8 → Nat → Prop
  | hex {x : UInt8} {digits : List UInt8} : x = 0x78 ∨ x = 0x58 → Based [0x30, x] digits 16
  | octal {digits : List UInt8} : Based [] (0x30 :: digits) 8
  | decimal {c : UInt8} {digits : List UInt8} : c ≠ 0x30 → Based [] (c :: digits) 10

/-- The string `s` as a whole spells the number `v`. -/
inductive Numeral (space : UInt8 → Bool) : List UInt8 → Int → Prop
  | intro {blanks signed pre digits : List UInt8} {sign : Int} {base : Nat} :
      (∀ c ∈ blanks, space c = true) → Signed signed sign → Based pre digits base →
      digits ≠ [] → (∀ c ∈ digits, isDigit base c = true) →
      Numeral space (blanks ++ (signed ++ (pre ++ digits))) (sign * digitsValue base digits)

/-- White space is neither a sign nor a digit. -/
structure Spaces (space : UInt8 → Bool) : Prop where
  plus : space 0x2b = false
  minus : space 0x2d = false
  digit : ∀ base c, isDigit base c = true → space c = false

section Grammar

variable {space : UInt8 → Bool} {pre digits : List UInt8} {base : Nat}

theorem isDigit_mono {b b' : Nat} (le : b ≤ b') {c : UInt8} (digit : isDigit b c = true) :
    isDigit b' c = true := by
  cases value : digitValue c with
  | none => simp [isDigit, value] at digit
  | some d =>
      simp [isDigit, value] at digit ⊢
      omega

/-- A digit is no sign. -/
theorem not_sign_of_isDigit {c : UInt8} (digit : isDigit base c = true) : c ≠ 0x2d ∧ c ≠ 0x2b := by
  constructor <;>
  · rintro rfl
    simp [isDigit, digitValue] at digit

/-- The first byte of a prefix with its digits is a digit itself. -/
theorem Based.head (based : Based pre digits base) (digitsOk : ∀ c ∈ digits, isDigit base c = true) :
    ∃ c rest, pre ++ digits = c :: rest ∧ isDigit 16 c = true := by
  cases based with
  | @hex x _ _ => exact ⟨0x30, x :: digits, rfl, by decide⟩
  | @octal digits => exact ⟨0x30, digits, rfl, by decide⟩
  | @decimal c digits _ =>
      exact ⟨c, digits, rfl, isDigit_mono (by omega) (digitsOk c List.mem_cons_self)⟩

theorem readSign_signed {signed : List UInt8} {sign : Int} (signs : Signed signed sign) {c : UInt8}
    {rest : List UInt8} (digit : isDigit 16 c = true) :
    readSign (signed ++ c :: rest) = (sign, c :: rest) := by
  obtain ⟨notMinus, notPlus⟩ := not_sign_of_isDigit digit
  cases signs <;> simp [readSign, notMinus, notPlus]

theorem readBase_based (based : Based pre digits base) (some_ : digits ≠ [])
    (digitsOk : ∀ c ∈ digits, isDigit base c = true) : readBase (pre ++ digits) = (base, digits) := by
  cases based with
  | @hex x _ hex =>
      obtain ⟨c, rest, rfl⟩ := List.exists_cons_of_ne_nil some_
      have found : hexPrefix ([0x30, x] ++ c :: rest) = true := by
        simp [hexPrefix, hex, digitsOk c List.mem_cons_self]
      rw [readBase, if_pos found]
      rfl
  | @octal digits =>
      -- an `x` behind the zero would have to be an octal digit
      have plain : hexPrefix ([] ++ 0x30 :: digits) = false := by
        match digits with
        | [] => rfl
        | [_] => rfl
        | x :: c :: rest =>
            have octal := digitsOk x (by simp)
            have notX : ¬(x = 0x78 ∨ x = 0x58) := by
              rintro (rfl | rfl) <;> simp [isDigit, digitValue] at octal
            simp [hexPrefix, notX]
      rw [readBase, plain]
      rfl
  | @decimal c digits nonzero =>
      have plain : hexPrefix ([] ++ c :: digits) = false := by
        match digits with
        | [] => rfl
        | [_] => rfl
        | x :: d :: rest => simp [hexPrefix, nonzero]
      rw [readBase, plain]
      simp [nonzero]

/-- How `readSign` cuts a string. -/
theorem signed_readSign (t : List UInt8) :
    ∃ signed, Signed signed (readSign t).1 ∧ t = signed ++ (readSign t).2 := by
  cases t with
  | nil => exact ⟨[], .unsigned, rfl⟩
  | cons c rest =>
      by_cases minus : c = 0x2d
      · subst minus
        exact ⟨[0x2d], .minus, rfl⟩
      · by_cases plus : c = 0x2b
        · subst plus
          exact ⟨[0x2b], .plus, rfl⟩
        · have plain : readSign (c :: rest) = (1, c :: rest) := by simp [readSign, minus, plus]
          rw [plain]
          exact ⟨[], .unsigned, rfl⟩

/-- How `readBase` cuts a string. -/
theorem based_readBase {t : List UInt8} (some_ : (readBase t).2 ≠ []) :
    ∃ pre, Based pre (readBase t).2 (readBase t).1 ∧ t = pre ++ (readBase t).2 := by
  unfold readBase at some_ ⊢
  by_cases hex : hexPrefix t = true
  · rw [if_pos hex] at some_ ⊢
    match t, hex with
    | z :: x :: c :: rest, hex =>
        simp only [hexPrefix, decide_eq_true_eq] at hex
        obtain ⟨rfl, letter, _⟩ := hex
        exact ⟨[0x30, x], .hex letter, rfl⟩
  · rw [if_neg hex] at some_ ⊢
    by_cases zero : t.head? = some 0x30
    · rw [if_pos zero] at some_ ⊢
      obtain ⟨c, rest, rfl⟩ := List.exists_cons_of_ne_nil some_
      obtain rfl : c = 0x30 := by simpa using zero
      exact ⟨[], .octal, rfl⟩
    · rw [if_neg zero] at some_ ⊢
      obtain ⟨c, rest, rfl⟩ := List.exists_cons_of_ne_nil some_
      exact ⟨[], .decimal (by simpa using zero), rfl⟩

/-- White space in front of a sign and a digit is skipped. -/
theorem dropWhile_blanks (spaces : Spaces space) {blanks signed : List UInt8} {sign : Int}
    (blank : ∀ c ∈ blanks, space c = true) (signs : Signed signed sign) {c : UInt8}
    {rest : List UInt8} (digit : isDigit 16 c = true) :
    (blanks ++ (signed ++ c :: rest)).dropWhile space = signed ++ c :: rest := by
  rw [List.dropWhile_append_of_pos blank]
  cases signs with
  | unsigned => exact List.dropWhile_cons_of_neg (by simp [spaces.digit 16 c digit])
  | plus => exact List.dropWhile_cons_of_neg (by simp [spaces.plus])
  | minus => exact List.dropWhile_cons_of_neg (by simp [spaces.minus])

theorem Numeral.ne_nil {s : List UInt8} {v : Int} (numeral : Numeral space s v) : s ≠ [] := by
  cases numeral with
  | intro _ _ _ some_ _ =>
      intro nothing
      simp only [List.append_eq_nil_iff] at nothing
      exact some_ nothing.2.2.2

/-- A numeral is read to its end. -/
theorem strtol_numeral (spaces : Spaces space) {s : List UInt8} {v : Int}
    (numeral : Numeral space s v) (low high : Int) :
    strtol space low high s =
      if high < v then ⟨high, [], true⟩ else if v < low then ⟨low, [], true⟩ else ⟨v, [], false⟩ := by
  cases numeral with
  | @intro blanks signed pre digits sign base blank signs based some_ digitsOk =>
      obtain ⟨c, rest, first, digit⟩ := based.head digitsOk
      have all : digits.takeWhile (isDigit base) = digits := List.takeWhile_eq_self_iff.mpr digitsOk
      have none : digits.dropWhile (isDigit base) = [] := List.dropWhile_eq_nil_iff.mpr digitsOk
      have base' := readBase_based based some_ digitsOk
      rw [first] at base'
      rw [strtol, first, dropWhile_blanks spaces blank signs digit]
      simp only [readSign_signed signs digit, base', all, none, if_neg some_]

/-- What is read to its end is a numeral. -/
theorem numeral_of_strtol {low high : Int} {s : List UInt8} (some_ : s ≠ [])
    (whole : (strtol space low high s).endptr = []) : ∃ v, Numeral space s v := by
  have blank : ∀ c ∈ s.takeWhile space, space c = true := fun c mem => List.mem_takeWhile_imp mem
  obtain ⟨signed, signs, cut⟩ := signed_readSign (s.dropWhile space)
  let t := (readSign (s.dropWhile space)).2
  have digits : (readBase t).2.takeWhile (isDigit (readBase t).1) ≠ [] ∧
      (readBase t).2.dropWhile (isDigit (readBase t).1) = [] := by
    simp only [strtol] at whole
    split at whole
    · exact absurd whole some_
    · rename_i digits
      refine ⟨digits, ?_⟩
      split at whole
      · exact whole
      · split at whole <;> exact whole
  have digitsOk := List.dropWhile_eq_nil_iff.mp digits.2
  have read : (readBase t).2 ≠ [] := by
    intro nothing
    rw [nothing] at digits
    exact digits.1 rfl
  obtain ⟨pre, based, split⟩ := based_readBase read
  have shape : s = s.takeWhile space ++ (signed ++ (pre ++ (readBase t).2)) := by
    rw [← split, ← cut, List.takeWhile_append_dropWhile]
  have numeral := Numeral.intro blank signs based read digitsOk
  rw [← shape] at numeral
  exact ⟨_, numeral⟩

/-- A string spells one number. -/
theorem Numeral.unique (spaces : Spaces space) {s : List UInt8} {v w : Int}
    (first : Numeral space s v) (second : Numeral space s w) : v = w := by
  have readFirst := strtol_numeral spaces first (min v w) (max v w)
  have readSecond := strtol_numeral spaces second (min v w) (max v w)
  rw [if_neg (by omega), if_neg (by omega)] at readFirst readSecond
  rw [readFirst] at readSecond
  exact congrArg Strtol.value readSecond

end Grammar

end GpBase.Lib
