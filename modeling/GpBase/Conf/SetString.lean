import GpBase.Conf.Model
import GpBase.Lib.CString

/-!
# Setting from a string

`gp_conf_set_from_string` cuts a copy of its input in place.  `setFromBlock` is
the same function on the block that `strdup` allocates: it fails when it leaves
that block.
-/

namespace GpBase.Conf

open GpBase.Lib

/-! ## The function on its block -/

/-- `while (isspace((int)name[strlen(name) - 1])) name[strlen(name) - 1] = '\0';`
A round shortens the string, so `fuel` beyond its length is never used up. -/
def trimEnd : Nat → List UInt8 → Except Fault (List UInt8)
  | 0, _ => .error .hang
  | fuel + 1, name => do
    let last : Int := (← strlen name) - 1
    if isspace (← readByte name last) then do
      let name ← writeByte name last 0
      trimEnd fuel name
    else .ok name

/-- `while (isspace((int)*val)) val++;` -/
def skipSpace (block : List UInt8) : Nat → Nat → Except Fault Nat
  | 0, _ => .error .hang
  | fuel + 1, val => do
    if isspace (← readByte block val) then skipSpace block fuel (val + 1) else .ok val

def setFromBlock (root : GpConfNode) (input : CStr) (final : Bool) :
    Except Fault (GpConfNode × Int) := do
  let name := input ++ [0]
  match ← strchr 0x3d name with
  | none => .ok (root, 0)
  | some val => do
    let name ← writeByte name val 0
    let val := val + 1
    let name ← trimEnd (name.length + 1) name
    let val ← skipSpace name (name.length + 1) val
    if final then .ok (gpConfSetFinal root (cstr name) (cstr (name.drop val)))
    else .ok (gpConfSet root (cstr name) (cstr (name.drop val)))

/-! ## The two loops -/

section Loops

variable {s rest : List UInt8}

/-- One round on a string that is not empty. -/
theorem trimEnd_concat {c : UInt8} (clean : 0 ∉ s ++ [c]) (fuel : Nat) :
    trimEnd (fuel + 1) (s ++ [c] ++ 0 :: rest) =
      if isspace c then trimEnd fuel (s ++ 0 :: 0 :: rest) else .ok (s ++ [c] ++ 0 :: rest) := by
  have last : ((s ++ [c]).length : Int) - 1 = s.length := by simp
  have block : s ++ [c] ++ 0 :: rest = s ++ c :: 0 :: rest := by simp
  have length : strlen (s ++ [c] ++ 0 :: rest) = .ok (s ++ [c]).length := strlen_append clean
  rw [trimEnd, length]
  show (readByte _ (((s ++ [c]).length : Int) - 1) >>= _) = _
  rw [last, block, readByte_append]
  cases space : isspace c with
  | true =>
      show (if isspace c = true then _ else _) = _
      rw [if_pos space, if_pos rfl, writeByte_append]
      rfl
  | false =>
      show (if isspace c = true then _ else _) = _
      rw [if_neg (by rw [space]; exact Bool.false_ne_true), if_neg Bool.false_ne_true]

/-- Without a byte to stop at, the loop looks in front of the block. -/
theorem trimEnd_blank (clean : 0 ∉ s) (blank : ∀ c ∈ s, isspace c = true) {fuel : Nat}
    (enough : s.length < fuel) : trimEnd fuel (s ++ 0 :: rest) = .error .outOfBounds := by
  induction s using List.reverseRecOn generalizing rest fuel with
  | nil =>
      obtain ⟨fuel, rfl⟩ := Nat.exists_eq_add_of_lt enough
      rfl
  | append_singleton s c ih =>
      obtain ⟨fuel, rfl⟩ := Nat.exists_eq_add_of_lt enough
      have space : isspace c = true := blank c (by simp)
      rw [trimEnd_concat clean, if_pos space]
      apply ih
      · exact fun mem => clean (List.mem_append_left _ mem)
      · exact fun d mem => blank d (List.mem_append_left _ mem)
      · simp
        omega

/-- Otherwise it cuts the white space off and leaves what is behind the string. -/
theorem trimEnd_text (clean : 0 ∉ s) (text : ∃ c ∈ s, isspace c = false) {fuel : Nat}
    (enough : s.length < fuel) :
    ∃ pad, trimEnd fuel (s ++ 0 :: rest) = .ok (s.rdropWhile isspace ++ 0 :: (pad ++ rest)) ∧
      (s.rdropWhile isspace).length + pad.length = s.length := by
  induction s using List.reverseRecOn generalizing rest fuel with
  | nil =>
      obtain ⟨c, mem, _⟩ := text
      cases mem
  | append_singleton s c ih =>
      obtain ⟨fuel, rfl⟩ := Nat.exists_eq_add_of_lt enough
      rw [trimEnd_concat clean]
      cases space : isspace c with
      | true =>
          have earlier : ∃ c ∈ s, isspace c = false := by
            obtain ⟨d, mem, other⟩ := text
            obtain mem | last := List.mem_append.mp mem
            · exact ⟨d, mem, other⟩
            · rw [List.mem_singleton.mp last, space] at other
              cases other
          have cleaner : 0 ∉ s := fun mem => clean (List.mem_append_left _ mem)
          have fewer : s.length < (s ++ [c]).length + fuel := by
            simp
            omega
          obtain ⟨pad, ran, size⟩ := @ih (0 :: rest) cleaner earlier _ fewer
          rw [if_pos rfl, List.rdropWhile_concat_pos _ _ _ space]
          refine ⟨pad ++ [0], ?_, ?_⟩
          · rw [ran, List.append_assoc, List.singleton_append]
          · simp
            omega
      | false =>
          rw [if_neg Bool.false_ne_true, List.rdropWhile_concat_neg _ _ _ (by simp [space])]
          exact ⟨[], rfl, rfl⟩

theorem skipSpace_append (front : List UInt8) {fuel : Nat} (enough : s.length < fuel) :
    skipSpace (front ++ (s ++ 0 :: rest)) fuel front.length =
      .ok (front ++ s.takeWhile isspace).length := by
  induction s generalizing front fuel with
  | nil =>
      obtain ⟨fuel, rfl⟩ := Nat.exists_eq_add_of_lt enough
      show (readByte (front ++ 0 :: rest) front.length >>= _) = _
      rw [readByte_append, List.takeWhile_nil, List.append_nil]
      rfl
  | cons c s ih =>
      obtain ⟨fuel, rfl⟩ := Nat.exists_eq_add_of_lt enough
      show (readByte (front ++ c :: (s ++ 0 :: rest)) front.length >>= _) = _
      rw [readByte_append]
      cases space : isspace c with
      | true =>
          have fewer : s.length < (c :: s).length + fuel := by
            simp
            omega
          have later := ih (front ++ [c]) fewer
          rw [List.takeWhile_cons_of_pos space]
          show (if isspace c = true then _ else _) = _
          rw [if_pos space]
          simpa using later
      | false =>
          rw [List.takeWhile_cons_of_neg (by simp [space]), List.append_nil]
          show (if isspace c = true then _ else _) = _
          rw [if_neg (by simp [space])]

end Loops

/-! ## The whole function -/

/-- The text before the first `=`, without trailing white space. -/
def textBefore (input : CStr) : CStr := (input.takeWhile (· ≠ 0x3d)).rdropWhile isspace

/-- The text after the first `=`, without leading white space. -/
def textAfter (input : CStr) : CStr := ((input.dropWhile (· ≠ 0x3d)).drop 1).dropWhile isspace

/-- Something is left of the text before the first `=`. -/
def Named (input : CStr) : Prop := ∃ c ∈ input.takeWhile (· ≠ 0x3d), isspace c = false

section Input

variable {root : GpConfNode} {input : CStr}

/-- An input as it is cut. -/
theorem split_input (equals : (0x3d : UInt8) ∈ input) :
    ∃ before after, input = before ++ 0x3d :: after ∧ (0x3d : UInt8) ∉ before ∧
      input.takeWhile (· ≠ 0x3d) = before ∧ (input.dropWhile (· ≠ 0x3d)).drop 1 = after := by
  obtain ⟨before, after, rfl, first⟩ := List.eq_append_cons_of_mem equals
  have plain : ∀ c ∈ before, decide (c ≠ 0x3d) = true := by
    intro c mem
    apply decide_eq_true
    rintro rfl
    exact first mem
  refine ⟨before, after, rfl, first, ?_, ?_⟩
  · rw [List.takeWhile_append_of_pos plain]
    simp
  · rw [List.dropWhile_append_of_pos plain]
    simp

theorem setFromBlock_none (clean : 0 ∉ input) (plain : (0x3d : UInt8) ∉ input) (final : Bool) :
    setFromBlock root input final = .ok (root, 0) := by
  rw [setFromBlock, strchr_none clean plain (by decide)]
  rfl

/-- After the cut at the first `=`. -/
theorem setFromBlock_split {before after : CStr} (clean : 0 ∉ before) (first : (0x3d : UInt8) ∉ before)
    (final : Bool) :
    setFromBlock root (before ++ 0x3d :: after) final = (do
      let name ← trimEnd ((before ++ 0 :: (after ++ [0])).length + 1) (before ++ 0 :: (after ++ [0]))
      let val ← skipSpace name (name.length + 1) (before.length + 1)
      if final then .ok (gpConfSetFinal root (cstr name) (cstr (name.drop val)))
      else .ok (gpConfSet root (cstr name) (cstr (name.drop val)))) := by
  have block : before ++ 0x3d :: after ++ [0] = before ++ 0x3d :: (after ++ [0]) := by simp
  rw [setFromBlock, block, strchr_append clean first]
  show (writeByte (before ++ 0x3d :: (after ++ [0])) before.length 0 >>= _) = _
  rw [writeByte_append]
  rfl

/-- A blank name is trimmed beyond the start of its block. -/
theorem setFromBlock_blank (clean : 0 ∉ input) (equals : (0x3d : UInt8) ∈ input)
    (blank : ¬Named input) (final : Bool) :
    setFromBlock root input final = .error .outOfBounds := by
  obtain ⟨before, after, split, first, front, _⟩ := split_input equals
  have cleaner : 0 ∉ before := fun mem => clean (by rw [split]; exact List.mem_append_left _ mem)
  have spaces : ∀ c ∈ before, isspace c = true := by
    intro c mem
    by_contra other
    exact blank ⟨c, by rw [front]; exact mem, by simpa using other⟩
  rw [split, setFromBlock_split cleaner first, trimEnd_blank cleaner spaces (by
    rw [List.length_append]
    omega)]
  rfl

/-- Otherwise the two parts are trimmed and set. -/
theorem setFromBlock_named (clean : 0 ∉ input) (equals : (0x3d : UInt8) ∈ input)
    (named : Named input) (final : Bool) :
    setFromBlock root input final =
      .ok (if final then gpConfSetFinal root (textBefore input) (textAfter input)
        else gpConfSet root (textBefore input) (textAfter input)) := by
  obtain ⟨before, after, split, first, textFront, textBack⟩ := split_input equals
  rw [Named, textFront] at named
  have cleanBefore : 0 ∉ before := fun mem => clean (by rw [split]; exact List.mem_append_left _ mem)
  have cleanAfter : 0 ∉ after := by
    intro mem
    apply clean
    rw [split]
    exact List.mem_append_right _ (List.mem_cons_of_mem _ mem)
  obtain ⟨pad, trimmed, size⟩ : ∃ pad, trimEnd _ (before ++ 0 :: (after ++ [0])) = _ ∧ _ :=
    trimEnd_text cleanBefore named
      (show before.length < (before ++ 0 :: (after ++ [0])).length + 1 by
        rw [List.length_append]
        omega)
  have cleanName : 0 ∉ before.rdropWhile isspace :=
    fun mem => cleanBefore ((List.rdropWhile_prefix isspace before).subset mem)
  -- the part in front of the value, NUL and padding included
  obtain ⟨front, shape⟩ : ∃ front, front = before.rdropWhile isspace ++ 0 :: pad := ⟨_, rfl⟩
  have place : front.length = before.length + 1 := by
    simp [shape]
    omega
  have block : before.rdropWhile isspace ++ 0 :: (pad ++ (after ++ [0])) =
      front ++ (after ++ 0 :: []) := by simp [shape]
  have skipped : skipSpace (front ++ (after ++ 0 :: [])) _ front.length = _ :=
    skipSpace_append front (show after.length < (front ++ (after ++ 0 :: [])).length + 1 by
      rw [List.length_append, List.length_append]
      omega)
  have name : cstr (front ++ (after ++ 0 :: [])) = textBefore input := by
    rw [← block, textBefore, textFront, cstr_append cleanName]
  have value : cstr ((front ++ (after ++ 0 :: [])).drop (front ++ after.takeWhile isspace).length) =
      textAfter input := by
    have cut : front ++ (after ++ 0 :: []) =
        (front ++ after.takeWhile isspace) ++ (after.dropWhile isspace ++ 0 :: []) := by
      have parts : after.takeWhile isspace ++ after.dropWhile isspace = after :=
        List.takeWhile_append_dropWhile
      calc front ++ (after ++ 0 :: [])
          = front ++ ((after.takeWhile isspace ++ after.dropWhile isspace) ++ 0 :: []) := by
            rw [parts]
        _ = _ := by simp only [List.append_assoc]
    rw [cut, List.drop_left, textAfter, textBack]
    exact cstr_append fun mem => cleanAfter ((List.dropWhile_suffix isspace).subset mem)
  rw [split, setFromBlock_split cleanBefore first, trimmed, ← split]
  show (skipSpace _ _ (before.length + 1) >>= _) = _
  rw [block, ← place, skipped]
  show (if final then Except.ok (gpConfSetFinal root (cstr _) (cstr _)) else _) = _
  rw [name, value]
  cases final <;> rfl

/-- **`gp_conf_set_from_string` stays inside its copy and sets the two trimmed parts
exactly when there is no `=` or something is left of the name.** -/
theorem setFromBlock_exact (root : GpConfNode) (clean : 0 ∉ input) (final : Bool) :
    (∃ r, setFromBlock root input final = .ok r ∧
        ((0x3d : UInt8) ∉ input → r = (root, 0)) ∧
        ((0x3d : UInt8) ∈ input → r =
          if final then gpConfSetFinal root (textBefore input) (textAfter input)
          else gpConfSet root (textBefore input) (textAfter input))) ↔
      ((0x3d : UInt8) ∈ input → Named input) := by
  constructor
  · rintro ⟨r, ran, _⟩ equals
    by_contra blank
    rw [setFromBlock_blank clean equals blank] at ran
    cases ran
  · intro named
    by_cases equals : (0x3d : UInt8) ∈ input
    · exact ⟨_, setFromBlock_named clean equals (named equals) final, fun h => absurd equals h,
        fun _ => rfl⟩
    · exact ⟨_, setFromBlock_none clean equals final, fun _ => rfl, fun h => absurd h equals⟩

/-- Where it stays inside, it does what the calls of a history do. -/
theorem setFromBlock_eq (clean : 0 ∉ input) (named : (0x3d : UInt8) ∈ input → Named input)
    (final : Bool) : setFromBlock root input final = .ok (gpConfSetFromString root input final) := by
  rw [gpConfSetFromString]
  split
  · rename_i plain
    exact setFromBlock_none clean plain final
  · rename_i equals
    have equals := not_not.mp equals
    exact setFromBlock_named clean equals (named equals) final

end Input

/-- `" =x"` has only a space in front of the `=`. -/
theorem setFromBlock_space :
    ¬∃ r, setFromBlock gpConfNodeNew (ascii " =x") false = .ok r := by
  rintro ⟨r, ran⟩
  cases ran

/-- `a = x`. -/
theorem setFromBlock_exact_a :
    ∃ r, setFromBlock gpConfNodeNew (ascii "a = x") false = .ok r ∧
      r = gpConfSet gpConfNodeNew (ascii "a") (ascii "x") := by
  have named : Named (ascii "a = x") := ⟨0x61, by decide, by decide⟩
  obtain ⟨r, ran, _, set⟩ := (setFromBlock_exact gpConfNodeNew
    (show 0 ∉ ascii "a = x" by decide) false).mpr fun _ => named
  exact ⟨r, ran, set (by decide)⟩

end GpBase.Conf
