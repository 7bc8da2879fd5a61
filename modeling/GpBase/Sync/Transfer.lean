import Mathlib.Algebra.BigOperators.Group.List.Basic
import Mathlib.Tactic.Ring

/-!
# Blocking transfers

Translation of `send_all_sync` and `read_all_sync` of `gp_socketop.c`.  The two
loops differ in the call they make.  The variable `n` is not initialised: what it
holds then is an argument.
-/

namespace GpBase.Sync

/-! ## The other side -/

/-- The results of the calls that a loop makes one after another, each for as many
bytes as it is asked for; `eof` says whether a call may return 0. -/
structure Peer (eof : Bool) where
  reply : Nat → Int → Int
  valid : ∀ k left, 0 < left → reply k left = -1 ∨ (0 < reply k left ∧ reply k left ≤ left) ∨
    (eof = true ∧ reply k left = 0)

/-! ## The functions -/

/-- What a loop leaves: `n`, `total`, and the results of its calls. -/
structure Left where
  n : Int
  total : Int
  log : List Int
  deriving DecidableEq, Repr

section Loop

variable (reply : Nat → Int → Int) (len : Int)

/-- The loop from call number `k` on; `fuel` bounds its rounds. -/
def transferLoop : Nat → Nat → Int → Int → Int → Option Left
  | 0, _, _, _, _ => none
  | fuel + 1, k, total, bytesleft, n =>
    if total < len then
      let n := reply k bytesleft
      if n = -1 then some ⟨n, total, [n]⟩
      else do
        let last ← transferLoop fuel (k + 1) (total + n) (bytesleft - n) n
        return { last with log := n :: last.log }
    else some ⟨n, total, []⟩

/-- The return value, `*len` afterwards, and the results of the calls. -/
def transferAll (n : Int) (fuel : Nat) : Option (Int × Int × List Int) := do
  let last ← transferLoop reply len fuel 0 0 len n
  return (if last.n = -1 then -1 else 0, last.total, last.log)

end Loop

def sendAllSync (peer : Peer false) (len n : Int) (fuel : Nat) : Option (Int × Int × List Int) :=
  transferAll peer.reply len n fuel

def readAllSync (peer : Peer true) (len n : Int) (fuel : Nat) : Option (Int × Int × List Int) :=
  transferAll peer.reply len n fuel

/-! ## What they should do -/

/-- The bytes that calls with these results have transferred. -/
def moved (log : List Int) : Int := (log.filter (0 < ·)).sum

/-- The function returns, with `*len` the number of bytes transferred, and with 0
exactly when these are all the bytes. -/
def Transfers (run : Nat → Option (Int × Int × List Int)) (len : Int) : Prop :=
  ∃ fuel ret total log, run fuel = some (ret, total, log) ∧ total = moved log ∧
    (ret = 0 ∨ ret = -1) ∧ (ret = 0 ↔ total = len)

/-- With `left` bytes wanted from call `k` on: a call for some of them and all the
calls after it return 0. -/
inductive EndsEarly (reply : Nat → Int → Int) : Nat → Int → Prop
  | eof {k : Nat} {left : Int} : 0 < left → (∀ j, k ≤ j → reply j left = 0) →
      EndsEarly reply k left
  | later {k : Nat} {left : Int} : 0 < left → 0 ≤ reply k left →
      EndsEarly reply (k + 1) (left - reply k left) → EndsEarly reply k left

section Loop

variable {reply : Nat → Int → Int} {len : Int}

/-- One round that transfers something, or meets the end of the file. -/
theorem transferLoop_round {k : Nat} {total left n : Int} (wanted : total < len)
    (ok : reply k left ≠ -1) (fuel : Nat) :
    transferLoop reply len (fuel + 1) k total left n =
      (transferLoop reply len fuel (k + 1) (total + reply k left) (left - reply k left)
        (reply k left)).map fun last => { last with log := reply k left :: last.log } := by
  rw [transferLoop, if_pos wanted]
  show (if reply k left = -1 then _ else _) = _
  rw [if_neg ok]
  cases transferLoop reply len fuel (k + 1) (total + reply k left) (left - reply k left)
    (reply k left) <;> rfl

/-- A loop whose peer has stopped never ends. -/
theorem EndsEarly.hangs {k : Nat} {left : Int} (ends : EndsEarly reply k left) :
    ∀ (fuel : Nat) (total n : Int), left = len - total →
      transferLoop reply len fuel k total left n = none := by
  induction ends with
  | @eof k left some_ zero =>
      intro fuel
      induction fuel generalizing k with
      | zero => intro total n _; rfl
      | succ fuel ih =>
          intro total n rest
          have here := zero k (Nat.le_refl k)
          rw [transferLoop_round (by omega) (by omega), here, Int.add_zero, Int.sub_zero,
            ih (fun j le => zero j (by omega)) total 0 rest]
          rfl
  | @later k left some_ ok _ ih =>
      intro fuel total n rest
      cases fuel with
      | zero => rfl
      | succ fuel =>
          rw [transferLoop_round (by omega) (by omega),
            ih fuel (total + reply k left) (reply k left) (by omega)]
          rfl

/-- What a loop that ends leaves. -/
structure Ended (len total : Int) (last : Left) : Prop where
  moved : last.total = total + moved last.log
  failed : last.n = -1 → last.total < len
  done : last.n ≠ -1 → last.total = len

theorem moved_cons {r : Int} (ok : 0 ≤ r) (log : List Int) : moved (r :: log) = r + moved log := by
  by_cases some_ : 0 < r
  · simp [moved, some_]
  · obtain rfl : r = 0 := by omega
    simp [moved]

/-- The round in front of a loop that ends. -/
theorem Ended.round {k : Nat} {total left n : Int} {fuel : Nat} {last : Left}
    (ran : transferLoop reply len fuel (k + 1) (total + reply k left) (left - reply k left)
      (reply k left) = some last) (ended : Ended len (total + reply k left) last)
    (wanted : total < len) (ok : 0 ≤ reply k left) :
    ∃ fuel last, transferLoop reply len fuel k total left n = some last ∧ Ended len total last := by
  refine ⟨fuel + 1, { last with log := reply k left :: last.log }, ?_, ?_, ended.failed, ended.done⟩
  · rw [transferLoop_round wanted (by omega), ran]
    rfl
  · show last.total = total + Sync.moved (reply k left :: last.log)
    rw [moved_cons ok, ended.moved]
    ring

/-- A loop whose peer does not stop ends. -/
theorem transferLoop_ends {eof : Bool} (peer : Peer eof) {k : Nat} {total left n : Int}
    (rest : left = len - total) (nonneg : 0 ≤ left) (sane : 0 < left ∨ n ≠ -1)
    (goesOn : ¬EndsEarly peer.reply k left) :
    ∃ fuel last, transferLoop peer.reply len fuel k total left n = some last ∧
      Ended len total last := by
  obtain ⟨size, measure⟩ : ∃ size : Nat, left.toNat = size := ⟨_, rfl⟩
  induction size using Nat.strongRecOn generalizing k total left n with
  | ind size ih =>
      by_cases some_ : 0 < left
      · -- a call that fails ends the loop, and one that transfers something shortens it
        have call : ∀ k n, ¬EndsEarly peer.reply k left → peer.reply k left ≠ 0 →
            ∃ fuel last, transferLoop peer.reply len fuel k total left n = some last ∧
              Ended len total last := by
          intro k n goesOn stirs
          obtain failed | ⟨pos, fits⟩ | ⟨_, zero⟩ := peer.valid k left some_
          · refine ⟨1, ⟨-1, total, [-1]⟩, ?_, ?_, ?_, ?_⟩
            · rw [transferLoop, if_pos (by omega), failed]
              rfl
            · simp [moved]
            · intro _
              show total < len
              omega
            · intro ok
              exact absurd rfl ok
          · obtain ⟨fuel, last, ran, ended⟩ := ih (left - peer.reply k left).toNat (by omega)
              (show left - peer.reply k left = len - (total + peer.reply k left) by omega)
              (by omega) (.inr (show peer.reply k left ≠ -1 by omega))
              (fun ends => goesOn (.later some_ pos.le ends)) rfl
            exact Ended.round ran ended (by omega) pos.le
          · exact absurd zero stirs
        -- calls that return 0 leave it where it is, and there are not only those
        have stirs : ∃ z, peer.reply (k + z) left ≠ 0 := by
          by_contra zero
          apply goesOn
          refine .eof some_ fun j le => ?_
          by_contra other
          exact zero ⟨j - k, by rwa [Nat.add_sub_cancel' le]⟩
        obtain ⟨z, stirs⟩ := stirs
        induction z generalizing k n with
        | zero => exact call k n goesOn stirs
        | succ z zeros =>
            by_cases zero : peer.reply k left = 0
            · have later : ¬EndsEarly peer.reply (k + 1) left := by
                intro ends
                refine goesOn (.later some_ zero.ge ?_)
                rwa [zero, Int.sub_zero]
              obtain ⟨fuel, last, ran, ended⟩ := zeros (n := 0) (.inl some_) later
                (by rwa [Nat.add_right_comm, Nat.add_assoc])
              have ran' : transferLoop peer.reply len fuel (k + 1) (total + peer.reply k left)
                  (left - peer.reply k left) (peer.reply k left) = some last := by
                rwa [zero, Int.add_zero, Int.sub_zero]
              refine Ended.round ran' ?_ (by omega) zero.ge
              rwa [zero, Int.add_zero]
            · exact call k n goesOn zero
      · refine ⟨1, ⟨n, total, []⟩, ?_, ?_, ?_, ?_⟩
        · rw [transferLoop, if_neg (by omega)]
        · simp [moved]
        · intro failed
          exact absurd failed (sane.resolve_left some_)
        · intro _
          show total = len
          omega

theorem transfers_iff {eof : Bool} (peer : Peer eof) (len : Nat) (n : Int) :
    Transfers (transferAll peer.reply len n) len ↔
      (len = 0 → n ≠ -1) ∧ ¬EndsEarly peer.reply 0 len := by
  constructor
  · rintro ⟨fuel, ret, total, log, ran, _, _, whole⟩
    refine ⟨?_, ?_⟩
    · rintro rfl failed
      -- no call is made, and `n` is what it was
      cases fuel with
      | zero => cases ran
      | succ fuel =>
          simp [transferAll, transferLoop, failed] at ran
          obtain ⟨rfl, rfl, _⟩ := ran
          exact absurd (whole.mpr rfl) (by decide)
    · intro ends
      rw [transferAll, ends.hangs fuel 0 n (by simp)] at ran
      cases ran
  · rintro ⟨sane, goesOn⟩
    have start : 0 < (len : Int) ∨ n ≠ -1 := by
      by_cases some_ : 0 < (len : Int)
      · exact .inl some_
      · exact .inr (sane (by omega))
    obtain ⟨fuel, last, ran, ended⟩ := transferLoop_ends peer
      (show (len : Int) = len - 0 by simp) (by omega) start goesOn
    refine ⟨fuel, _, last.total, last.log, by rw [transferAll, ran]; rfl, ?_, ?_, ?_⟩
    · have total := ended.moved
      omega
    · split
      · exact .inr rfl
      · exact .inl rfl
    · split
      · next failed =>
          have short := ended.failed failed
          exact iff_of_false (by decide) (by omega)
      · next ok => exact iff_of_true rfl (ended.done ok)

/-- A loop that ends without a failure has transferred everything. -/
theorem transferLoop_whole {eof : Bool} (peer : Peer eof) (fuel : Nat) :
    ∀ {k : Nat} {total left n : Int} {last : Left}, left = len - total → 0 ≤ left →
      transferLoop peer.reply len fuel k total left n = some last → last.n ≠ -1 →
      last.total = len := by
  induction fuel with
  | zero =>
      intro k total left n last _ _ ran
      cases ran
  | succ fuel ih =>
      intro k total left n last rest nonneg ran ok
      by_cases wanted : total < len
      · by_cases failed : peer.reply k left = -1
        · rw [transferLoop, if_pos wanted] at ran
          simp only [failed, if_true, Option.some.injEq] at ran
          rw [← ran] at ok
          exact absurd rfl ok
        · rw [transferLoop_round wanted failed] at ran
          obtain ⟨last', ran', rfl⟩ := Option.map_eq_some_iff.mp ran
          have bounds : 0 ≤ peer.reply k left ∧ peer.reply k left ≤ left := by
            obtain no | ⟨pos, fits⟩ | ⟨_, zero⟩ := peer.valid k left (by omega)
            · exact absurd no failed
            · exact ⟨pos.le, fits⟩
            · omega
          exact @ih (k + 1) (total + peer.reply k left) (left - peer.reply k left) _ last'
            (by omega) (by omega) ran' ok
      · rw [transferLoop, if_neg wanted, Option.some.injEq] at ran
        rw [← ran]
        show total = len
        omega

/-- `send_all_sync` returns 0 only when it has written everything. -/
theorem sendAllSync_whole (peer : Peer false) {len : Nat} {n total : Int} {fuel : Nat}
    {log : List Int} (sent : sendAllSync peer len n fuel = some (0, total, log)) :
    total = len := by
  unfold sendAllSync transferAll at sent
  cases ran : transferLoop peer.reply len fuel 0 0 len n with
  | none => simp [ran] at sent
  | some last =>
      simp only [ran, bind, Option.bind, pure, Option.some.injEq, Prod.mk.injEq] at sent
      obtain ⟨ret, rfl, _⟩ := sent
      have ok : last.n ≠ -1 := by
        intro failed
        rw [if_pos failed] at ret
        cases ret
      exact transferLoop_whole peer fuel (by omega) (by omega) ran ok

/-- A call for writing does not return 0. -/
theorem Peer.not_endsEarly (peer : Peer false) {k : Nat} {left : Int} :
    ¬EndsEarly peer.reply k left := by
  intro ends
  induction ends with
  | @eof k left some_ zero =>
      have here := zero k (Nat.le_refl k)
      obtain failed | ⟨pos, _⟩ | ⟨no, _⟩ := peer.valid k left some_
      · omega
      · omega
      · cases no
  | later _ _ _ ih => exact ih

/-- **When the blocking transfers are right.**  Sending: unless nothing is to be sent
and `n` happens to hold -1.  Reading: unless nothing is to be read and `n` happens to
hold -1, or the peer closes before all the bytes are there. -/
theorem sync_transfers_iff (len : Nat) (n : Int) :
    (∀ peer : Peer false, Transfers (sendAllSync peer len n) len ↔ (len = 0 → n ≠ -1)) ∧
      ∀ peer : Peer true, Transfers (readAllSync peer len n) len ↔
        (len = 0 → n ≠ -1) ∧ ¬EndsEarly peer.reply 0 len := by
  refine ⟨?_, fun peer => transfers_iff peer len n⟩
  intro peer
  exact (transfers_iff peer len n).trans (and_iff_left peer.not_endsEarly)

/-- A peer that has closed. -/
def closed : Peer true where
  reply _ _ := 0
  valid _ _ _ := .inr (.inr ⟨rfl, rfl⟩)

/-- Reading four bytes from it never returns; reading none returns -1 when `n` holds
that. -/
theorem readAllSync_closed :
    (∀ fuel, readAllSync closed 4 0 fuel = none) ∧ ¬Transfers (readAllSync closed 4 0) 4 ∧
      readAllSync closed 0 (-1) 1 = some (-1, 0, []) ∧ ¬Transfers (readAllSync closed 0 (-1)) 0 := by
  have ends : EndsEarly closed.reply 0 (4 : Nat) := .eof (by decide) fun _ _ => rfl
  refine ⟨?_, ?_, by rfl, ?_⟩
  · intro fuel
    have never : transferLoop closed.reply 4 fuel 0 0 4 0 = none := ends.hangs fuel 0 0 rfl
    rw [readAllSync, transferAll, never]
    rfl
  · intro transfers
    exact ((transfers_iff closed 4 0).mp transfers).2 ends
  · intro transfers
    exact ((transfers_iff closed 0 (-1)).mp transfers).1 rfl rfl

end Loop

end GpBase.Sync
