import GpBase.Conf.Model
import GpBase.Lib.Strtol
import GpBase.Lib.Word

/-!
# Integer getters

`gp_conf_get_int` and `gp_conf_get_child_value_int`, with `*val` before the call as
an argument and `*val` after it in the result.  `exact_iff` theorems say for which
stored values they are exact.
-/

namespace GpBase.Conf

open GpBase.Lib GpConfNode

/-! ## The functions -/

def intMin : Int := -2 ^ 31
def intMax : Int := 2 ^ 31 - 1
def intmaxMin : Int := -2 ^ 63
def intmaxMax : Int := 2 ^ 63 - 1

/-- `strtoimax(strval, &endptr, 0)`. -/
def strtoimax (strval : CStr) : Strtol := strtol isspace intmaxMin intmaxMax strval

/-- The checks that both getters make: the number, or none. -/
def checked (strval : CStr) : Option Int :=
  let r := strtoimax strval
  if strval = [] ∨ r.endptr ≠ [] then none
  else if r.erange ∧ (r.value = intmaxMax ∨ r.value = intmaxMin) then none
  else some r.value

/-- The return value, and `*val` afterwards. -/
def gpConfGetInt (root : GpConfNode) (name : CStr) (val : Int) : Int × Int :=
  match gpConfGet root name with
  | none => (0, val)
  | some none => (0, val)
  | some (some strval) =>
    match checked strval with
    | none => (0, val)
    | some tmpint => (1, int32 tmpint)

/-- `gp_conf_get_child_value`: `none` is the return value 0, else `*vptr`. -/
def gpConfGetChildValue (base : GpConfNode) (name : CStr) : Option (Option CStr) :=
  (base.gpConfNodeLookupChild name).map (·.val)

/-- `strtoimax` of `NULL` reads outside every block. -/
def gpConfGetChildValueInt (base : GpConfNode) (name : CStr) (val : Int) :
    Except Fault (Int × Int) :=
  match gpConfGetChildValue base name with
  | none => .ok (0, val)
  | some none => .error .outOfBounds
  | some (some strval) =>
    match checked strval with
    | none => .ok (0, val)
    | some tmpint => .ok (1, tmpint)

/-! ## What they are for -/

/-- What is stored is a numeral of the number `v`, between `low` and `high`. -/
def Stores (low high : Int) (stored : Option (Option CStr)) (v : Int) : Prop :=
  ∃ strval, stored = some (some strval) ∧ Numeral isspace strval v ∧ low ≤ v ∧ v ≤ high

/-- The number that is stored is returned, and without one `*val` stays as it is. -/
def Exact (low high : Int) (stored : Option (Option CStr)) (val : Int) (r : Int × Int) : Prop :=
  (∃ v, Stores low high stored v ∧ r = (1, v)) ∨ ((¬∃ v, Stores low high stored v) ∧ r = (0, val))

theorem spaces_isspace : Spaces isspace where
  plus := by decide
  minus := by decide
  digit base c digit := by
    by_contra space
    simp only [isspace, Bool.not_eq_false, Bool.or_eq_true, Bool.and_eq_true, beq_iff_eq,
      decide_eq_true_eq, UInt8.le_iff_toNat_le, ← UInt8.toNat_inj] at space
    simp only [isDigit, digitValue, UInt8.le_iff_toNat_le] at digit
    simp at space digit
    grind

theorem Stores.unique {low high : Int} {stored : Option (Option CStr)} {v w : Int}
    (first : Stores low high stored v) (second : Stores low high stored w) : v = w := by
  obtain ⟨s, stored, numeral, _⟩ := first
  obtain ⟨s', stored', numeral', _⟩ := second
  rw [stored] at stored'
  cases stored'
  exact numeral.unique spaces_isspace numeral'

/-- A text passes the checks exactly when it is the numeral of an `intmax_t`. -/
theorem checked_iff {strval : CStr} {v : Int} :
    checked strval = some v ↔ Numeral isspace strval v ∧ intmaxMin ≤ v ∧ v ≤ intmaxMax := by
  constructor
  · intro passed
    unfold checked at passed
    dsimp only at passed
    by_cases stopped : strval = [] ∨ (strtoimax strval).endptr ≠ []
    · rw [if_pos stopped] at passed
      cases passed
    · obtain ⟨some_, whole⟩ := not_or.mp stopped
      obtain ⟨w, numeral⟩ := numeral_of_strtol some_ (not_not.mp whole)
      have read := strtol_numeral spaces_isspace numeral intmaxMin intmaxMax
      rw [if_neg stopped, strtoimax, read] at passed
      by_cases above : intmaxMax < w
      · simp [above] at passed
      · by_cases below : w < intmaxMin
        · simp [above, below] at passed
        · simp [above, below] at passed
          subst passed
          exact ⟨numeral, by omega, by omega⟩
  · rintro ⟨numeral, low, high⟩
    have read := strtol_numeral spaces_isspace numeral intmaxMin intmaxMax
    rw [if_neg (by omega), if_neg (by omega)] at read
    simp [checked, strtoimax, read, numeral.ne_nil]

theorem checked_none {strval : CStr} (failed : checked strval = none) (v : Int) :
    ¬Stores intmaxMin intmaxMax (some (some strval)) v := by
  rintro ⟨s, same, numeral, low, high⟩
  cases same
  rw [checked_iff.mpr ⟨numeral, low, high⟩] at failed
  cases failed

theorem Stores.widen {low high low' high' : Int} {stored : Option (Option CStr)} {v : Int}
    (stores : Stores low high stored v) (below : low' ≤ low) (above : high ≤ high') :
    Stores low' high' stored v := by
  obtain ⟨strval, same, numeral, bounds⟩ := stores
  exact ⟨strval, same, numeral, by omega, by omega⟩

/-- Nothing is stored in a node that is not there or has no value. -/
theorem not_stores {low high : Int} {stored : Option (Option CStr)}
    (nothing : ∀ strval, stored ≠ some (some strval)) (v : Int) : ¬Stores low high stored v := by
  rintro ⟨strval, same, _⟩
  exact nothing strval same

theorem Exact.unchanged {low high : Int} {stored : Option (Option CStr)}
    (nothing : ∀ v, ¬Stores low high stored v) (val : Int) : Exact low high stored val (0, val) := by
  right
  exact ⟨not_exists.mpr nothing, rfl⟩

/-! ## When they are exact -/

/-- The conversion to `int` is exact for the numbers that fit. -/
theorem exact_int32_iff {stored : Option (Option CStr)} {v : Int}
    (stores : Stores intmaxMin intmaxMax stored v) (val : Int) :
    Exact intMin intMax stored val (1, int32 v) ↔ intMin ≤ v ∧ v ≤ intMax := by
  constructor
  · rintro (⟨w, fits, _⟩ | ⟨_, failed⟩)
    · have wide := fits.widen (show intmaxMin ≤ intMin by decide) (show intMax ≤ intmaxMax by decide)
      obtain rfl := stores.unique wide
      obtain ⟨_, _, _, bounds⟩ := fits
      exact bounds
    · cases failed
  · rintro ⟨low, high⟩
    left
    obtain ⟨strval, same, numeral, _⟩ := stores
    refine ⟨v, ⟨strval, same, numeral, low, high⟩, ?_⟩
    rw [int32_of_range low (Int.lt_of_le_sub_one high)]

theorem gpConfGetInt_exact_iff (root : GpConfNode) (name : CStr) (val : Int) :
    Exact intMin intMax (gpConfGet root name) val (gpConfGetInt root name val) ↔
      ∀ v, Stores intmaxMin intmaxMax (gpConfGet root name) v → intMin ≤ v ∧ v ≤ intMax := by
  have empty : ∀ stored : Option (Option CStr),
      (∀ v, ¬Stores intmaxMin intmaxMax stored v) → (Exact intMin intMax stored val (0, val) ↔
        ∀ v, Stores intmaxMin intmaxMax stored v → intMin ≤ v ∧ v ≤ intMax) := by
    intro stored nothing
    refine iff_of_true (.unchanged ?_ val) fun v stores => absurd stores (nothing v)
    intro v stores
    exact nothing v (stores.widen (show intmaxMin ≤ intMin by decide)
      (show intMax ≤ intmaxMax by decide))
  rw [gpConfGetInt]
  rcases gpConfGet root name with _ | _ | strval
  · exact empty none (not_stores (by simp))
  · exact empty (some none) (not_stores (by simp))
  · cases passed : checked strval with
    | none =>
        simp only [passed]
        exact empty (some (some strval)) (checked_none passed)
    | some v =>
        have stores : Stores intmaxMin intmaxMax (some (some strval)) v :=
          ⟨strval, rfl, checked_iff.mp passed⟩
        simp only [passed]
        refine (exact_int32_iff stores val).trans ⟨?_, fun all => all v stores⟩
        intro fits w stores'
        obtain rfl := stores.unique stores'
        exact fits

/-- Without a check of the pointer, a node needs a value. -/
theorem gpConfGetChildValueInt_exact_iff (base : GpConfNode) (name : CStr) (val : Int) :
    (∃ r, gpConfGetChildValueInt base name val = .ok r ∧
      Exact intmaxMin intmaxMax (gpConfGetChildValue base name) val r) ↔
      gpConfGetChildValue base name ≠ some none := by
  rw [gpConfGetChildValueInt]
  rcases gpConfGetChildValue base name with _ | _ | strval
  · exact iff_of_true ⟨_, rfl, .unchanged (not_stores (by simp)) val⟩ (by simp)
  · refine iff_of_false ?_ (by simp)
    rintro ⟨r, ran, _⟩
    cases ran
  · refine iff_of_true ?_ (by simp)
    cases passed : checked strval with
    | none =>
        refine ⟨(0, val), ?_, .unchanged (checked_none passed) val⟩
        simp only [passed]
    | some v =>
        refine ⟨(1, v), ?_, .inl ⟨v, ⟨strval, rfl, checked_iff.mp passed⟩, rfl⟩⟩
        simp only [passed]

/-- **When the integer getters are exact.**  `gp_conf_get_int`: when the number, if one
is stored that fits an `intmax_t`, fits an `int`; `gp_conf_get_child_value_int`: when
the node, if there is one, has a value. -/
theorem integer_getters_exact_iff (root base : GpConfNode) (name : CStr) (val : Int) :
    (Exact intMin intMax (gpConfGet root name) val (gpConfGetInt root name val) ↔
      ∀ v, Stores intmaxMin intmaxMax (gpConfGet root name) v → intMin ≤ v ∧ v ≤ intMax) ∧
    ((∃ r, gpConfGetChildValueInt base name val = .ok r ∧
      Exact intmaxMin intmaxMax (gpConfGetChildValue base name) val r) ↔
      gpConfGetChildValue base name ≠ some none) :=
  ⟨gpConfGetInt_exact_iff root name val, gpConfGetChildValueInt_exact_iff base name val⟩

/-- A tree with `a` set to 2^32 and `b` above a child, without a value. -/
def largeValue : GpConfNode :=
  (gpConfSet (gpConfSet gpConfNodeNew (ascii "a") (ascii "4294967296")).1
    (ascii "b.c") (ascii "1")).1

/-- The first getter returns 0 for 2^32 as if it were stored, and the second follows
the null pointer of `b`. -/
theorem integer_getters_largeValue :
    gpConfGetInt largeValue (ascii "a") 7 = (1, 0) ∧
      ¬Exact intMin intMax (gpConfGet largeValue (ascii "a")) 7
        (gpConfGetInt largeValue (ascii "a") 7) ∧
      gpConfGetChildValueInt largeValue (ascii "b") 7 = .error .outOfBounds := by
  have result : gpConfGetInt largeValue (ascii "a") 7 = (1, 0) := by decide
  have found : gpConfGet largeValue (ascii "a") = some (some (ascii "4294967296")) := by rfl
  refine ⟨result, ?_, by rfl⟩
  rw [gpConfGetInt_exact_iff, found]
  intro fits
  have passed : checked (ascii "4294967296") = some (2 ^ 32) := by decide
  have := (fits (2 ^ 32) ⟨_, rfl, checked_iff.mp passed⟩).2
  exact absurd this (by decide)

end GpBase.Conf
