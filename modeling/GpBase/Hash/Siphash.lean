import GpBase.Lib.Word

/-!
# Hash functions

The two hash functions of the dictionary, `siphash` and its variant
`siphash_nocase`.  A pointer into the hashed string is the rest of the string
from there on; a load that would run past its end is a failure.
-/

namespace GpBase.Hash

open GpBase.Lib

def siptlw (c : Int) : Int :=
  if 65 ≤ c ∧ c ≤ 90 then c + (97 - 65) else c

/-! ## Words -/

/-- The raw load of a 64-bit word, on a little-endian machine. -/
def U8TO64_LE (p : List UInt8) : Option (BitVec 64) :=
  if 8 ≤ p.length then some (leWord 64 (p.take 8)) else none

def siptlwWord (b : UInt8) : BitVec 64 := BitVec.ofInt 64 (siptlw b.toNat)

def U8TO64_LE_NOCASE : List UInt8 → Option (BitVec 64)
  | p0 :: p1 :: p2 :: p3 :: p4 :: p5 :: p6 :: p7 :: _ =>
      some (siptlwWord p0 ||| siptlwWord p1 <<< 8 ||| siptlwWord p2 <<< 16 |||
        siptlwWord p3 <<< 24 ||| siptlwWord p4 <<< 32 ||| siptlwWord p5 <<< 40 |||
        siptlwWord p6 <<< 48 ||| siptlwWord p7 <<< 56)
  | _ => none

def ROTL (x : BitVec 64) (b : Nat) : BitVec 64 := x <<< b ||| x >>> (64 - b)

structure SipState where
  v0 : BitVec 64
  v1 : BitVec 64
  v2 : BitVec 64
  v3 : BitVec 64
  deriving DecidableEq, Repr

def SIPROUND (v : SipState) : SipState :=
  let v0 := v.v0 + v.v1
  let v1 := ROTL v.v1 13
  let v1 := v1 ^^^ v0
  let v0 := ROTL v0 32
  let v2 := v.v2 + v.v3
  let v3 := ROTL v.v3 16
  let v3 := v3 ^^^ v2
  let v0 := v0 + v3
  let v3 := ROTL v3 21
  let v3 := v3 ^^^ v0
  let v2 := v2 + v1
  let v1 := ROTL v1 17
  let v1 := v1 ^^^ v2
  let v2 := ROTL v2 32
  { v0, v1, v2, v3 }

/-- A hash key: the seed of the dictionary has sixteen bytes. -/
structure SipKey where
  bytes : List UInt8
  size : bytes.length = 16

/-! ## The two functions

They differ in how a word is loaded and in how a single byte of the tail is
read. -/

section Variants

variable (load : List UInt8 → Option (BitVec 64)) (byte : UInt8 → BitVec 64)

/-- The loop over the words, with `n` of them between `in` and `end`. -/
def sipWords : Nat → List UInt8 → SipState → Option (List UInt8 × SipState)
  | 0, p, v => some (p, v)
  | n + 1, p, v => do
      let m ← load p
      let v := SIPROUND { v with v3 := v.v3 ^^^ m }
      sipWords n (p.drop 8) { v with v0 := v.v0 ^^^ m }

/-- The `switch` on the bytes that are left: case `n + 1` adds byte `n` and
falls through to case `n`. -/
def sipTail (p : List UInt8) : Nat → BitVec 64 → Option (BitVec 64)
  | 0, b => some b
  | n + 1, b => do
      let c ← p[n]?
      sipTail p n (b ||| byte c <<< (8 * n))

def sip (inp : List UInt8) (k : SipKey) : Option (BitVec 64) := do
  let k0 ← U8TO64_LE k.bytes
  let k1 ← U8TO64_LE (k.bytes.drop 8)
  let v : SipState :=
    { v0 := 0x736f6d6570736575 ^^^ k0, v1 := 0x646f72616e646f6d ^^^ k1,
      v2 := 0x6c7967656e657261 ^^^ k0, v3 := 0x7465646279746573 ^^^ k1 }
  let stop := inp.length - inp.length % 8
  let left := inp.length &&& 7
  let b := BitVec.ofNat 64 inp.length <<< 56
  let (p, v) ← sipWords load (stop / 8) inp v
  let b ← sipTail byte p left b
  let v := SIPROUND { v with v3 := v.v3 ^^^ b }
  let v := SIPROUND (SIPROUND { v with v0 := v.v0 ^^^ b, v2 := v.v2 ^^^ 0xff })
  some (v.v0 ^^^ v.v1 ^^^ v.v2 ^^^ v.v3)

end Variants

def siphash (inp : List UInt8) (k : SipKey) : Option (BitVec 64) :=
  sip U8TO64_LE (fun b => BitVec.ofNat 64 b.toNat) inp k

def siphashNocase (inp : List UInt8) (k : SipKey) : Option (BitVec 64) :=
  sip U8TO64_LE_NOCASE siptlwWord inp k

/-! ## Every load is inside the string -/

theorem sipWords_total {load : List UInt8 → Option (BitVec 64)}
    (loads : ∀ p, 8 ≤ p.length → (load p).isSome) {n : Nat} {p : List UInt8} (v : SipState)
    (inside : 8 * n ≤ p.length) :
    ∃ rest last, sipWords load n p v = some (rest, last) ∧ rest.length = p.length - 8 * n := by
  induction n generalizing p v with
  | zero => exact ⟨p, v, rfl, rfl⟩
  | succ n ih =>
      obtain ⟨m, loaded⟩ := Option.isSome_iff_exists.mp (loads p (by omega))
      have next : 8 * n ≤ (p.drop 8).length := by
        rw [List.length_drop]
        omega
      simp only [sipWords, loaded, Option.bind_eq_bind, Option.bind_some]
      obtain ⟨rest, last, run, left⟩ := ih _ next
      refine ⟨rest, last, run, ?_⟩
      rw [left, List.length_drop]
      omega

theorem sipTail_total (byte : UInt8 → BitVec 64) {p : List UInt8} {n : Nat} (b : BitVec 64)
    (inside : n ≤ p.length) : ∃ last, sipTail byte p n b = some last := by
  induction n generalizing b with
  | zero => exact ⟨b, rfl⟩
  | succ n ih =>
      simp only [sipTail, List.getElem?_eq_getElem inside, Option.bind_eq_bind, Option.bind_some]
      exact ih _ (by omega)

theorem U8TO64_LE_isSome {p : List UInt8} (inside : 8 ≤ p.length) : (U8TO64_LE p).isSome := by
  simp [U8TO64_LE, inside]

/-- Hashing a string never reads outside it, whatever its length. -/
theorem sip_total {load : List UInt8 → Option (BitVec 64)}
    (loads : ∀ p, 8 ≤ p.length → (load p).isSome) (byte : UInt8 → BitVec 64) (inp : List UInt8)
    (k : SipKey) : ∃ h, sip load byte inp k = some h := by
  have size := k.size
  obtain ⟨k0, loaded0⟩ := Option.isSome_iff_exists.mp
    (U8TO64_LE_isSome (show 8 ≤ k.bytes.length by omega))
  obtain ⟨k1, loaded1⟩ := Option.isSome_iff_exists.mp
    (U8TO64_LE_isSome (show 8 ≤ (k.bytes.drop 8).length by simp; omega))
  simp only [sip, loaded0, loaded1, Option.bind_eq_bind, Option.bind_some]
  obtain ⟨rest, v, words, left⟩ := sipWords_total loads _
    (show 8 * ((inp.length - inp.length % 8) / 8) ≤ inp.length by omega)
  rw [words, Option.bind_some]
  have seven : inp.length &&& 7 = inp.length % 8 := Nat.and_two_pow_sub_one_eq_mod _ 3
  obtain ⟨b, tail⟩ := sipTail_total byte (BitVec.ofNat 64 inp.length <<< 56)
    (show inp.length &&& 7 ≤ rest.length by omega)
  rw [tail, Option.bind_some]
  exact ⟨_, rfl⟩

/-! ## Reading through a translation of the bytes -/

section Translation

variable {load load' : List UInt8 → Option (BitVec 64)} {byte byte' : UInt8 → BitVec 64}
  {f : UInt8 → UInt8}

theorem sipWords_map (loads : ∀ p, load (p.map f) = load' p) (n : Nat) (p : List UInt8)
    (v : SipState) :
    sipWords load n (p.map f) v =
      (sipWords load' n p v).map fun last => (last.1.map f, last.2) := by
  induction n generalizing p v with
  | zero => rfl
  | succ n ih =>
      simp only [sipWords, loads, ← List.map_drop, ih, Option.bind_eq_bind, Option.map_bind]
      rfl

theorem sipTail_map (bytes : ∀ b, byte (f b) = byte' b) (p : List UInt8) (n : Nat)
    (b : BitVec 64) : sipTail byte (p.map f) n b = sipTail byte' p n b := by
  induction n generalizing b with
  | zero => rfl
  | succ n ih =>
      simp only [sipTail, List.getElem?_map, ih, bytes, Option.bind_eq_bind, Option.bind_map,
        Function.comp_def]

theorem sip_map (loads : ∀ p, load (p.map f) = load' p) (bytes : ∀ b, byte (f b) = byte' b)
    (inp : List UInt8) (k : SipKey) : sip load byte (inp.map f) k = sip load' byte' inp k := by
  simp only [sip, List.length_map, sipWords_map loads, Option.bind_eq_bind, Option.bind_map,
    Function.comp_def, sipTail_map bytes]

end Translation

/-! ## Case -/

/-- A byte with the ASCII capitals replaced by small letters. -/
def asciiLower (b : UInt8) : UInt8 :=
  if 65 ≤ b ∧ b ≤ 90 then b + 32 else b

/-- Two bytes that are equal, or the two cases of one ASCII letter. -/
def SameLetter (a b : UInt8) : Prop :=
  a = b ∨ (65 ≤ a ∧ a ≤ 90 ∧ b = a + 32) ∨ (65 ≤ b ∧ b ≤ 90 ∧ a = b + 32)

theorem asciiLower_toNat (b : UInt8) :
    (asciiLower b).toNat = if 65 ≤ b.toNat ∧ b.toNat ≤ 90 then b.toNat + 32 else b.toNat := by
  have capital : (65 ≤ b ∧ b ≤ 90) ↔ (65 ≤ b.toNat ∧ b.toNat ≤ 90) := Iff.rfl
  simp only [asciiLower, capital]
  split
  · rw [UInt8.toNat_add, Nat.mod_eq_of_lt]
    · rfl
    · show b.toNat + 32 < 256
      omega
  · rfl

theorem SameLetter.asciiLower_eq {a b : UInt8} (same : SameLetter a b) :
    asciiLower a = asciiLower b := by
  apply UInt8.toNat_inj.mp
  rw [asciiLower_toNat, asciiLower_toNat]
  obtain rfl | ⟨low, high, rfl⟩ | ⟨low, high, rfl⟩ := same
  · rfl
  all_goals
    simp only [UInt8.le_iff_toNat_le, UInt8.toNat_add] at low high ⊢
    simp at low high ⊢
    grind

theorem siptlwWord_eq (b : UInt8) : siptlwWord b = BitVec.ofNat 64 (asciiLower b).toNat := by
  have same : siptlw b.toNat = ((asciiLower b).toNat : Int) := by
    rw [asciiLower_toNat, siptlw]
    split <;> split <;> omega
  rw [siptlwWord, same, BitVec.ofInt_natCast]

/-- The assembled word of a string is the raw word of the lowered string. -/
theorem U8TO64_LE_lower (p : List UInt8) :
    U8TO64_LE (p.map asciiLower) = U8TO64_LE_NOCASE p := by
  fun_cases U8TO64_LE_NOCASE p with
  | case1 p0 p1 p2 p3 p4 p5 p6 p7 rest =>
      simp only [siptlwWord_eq, ← leWord_eight]
      simp [U8TO64_LE]
  | case2 p few =>
      have short : ¬8 ≤ p.length := by
        intro eight
        match p, eight with
        | b0 :: b1 :: b2 :: b3 :: b4 :: b5 :: b6 :: b7 :: rest, _ =>
            exact few b0 b1 b2 b3 b4 b5 b6 b7 rest rfl
      simp [U8TO64_LE, short]

/-- **Hashing without case is hashing the lowered string**, for every length
and every byte. -/
theorem siphashNocase_lower (inp : List UInt8) (k : SipKey) :
    ∃ h, siphashNocase inp k = some h ∧ siphash (inp.map asciiLower) k = some h ∧
      ∀ other, List.Forall₂ SameLetter inp other → siphashNocase other k = some h := by
  obtain ⟨h, hashed⟩ := sip_total (fun _ => U8TO64_LE_isSome)
    (fun b => BitVec.ofNat 64 b.toNat) (inp.map asciiLower) k
  have lowered (bytes : List UInt8) : siphash (bytes.map asciiLower) k = siphashNocase bytes k :=
    sip_map U8TO64_LE_lower (fun b => (siptlwWord_eq b).symm) bytes k
  refine ⟨h, (lowered inp).symm.trans hashed, hashed, ?_⟩
  intro other same
  have equal : other.map asciiLower = inp.map asciiLower := by
    clear hashed
    induction same with
    | nil => rfl
    | cons letter _ ih => rw [List.map_cons, List.map_cons, letter.asciiLower_eq, ih]
  rw [← lowered, equal]
  exact hashed

end GpBase.Hash
