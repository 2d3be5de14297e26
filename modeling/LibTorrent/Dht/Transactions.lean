import LibTorrent.Lib.OrderedMap
import Mathlib.Algebra.Group.Nat.Defs

namespace LibTorrent

open Lib.OrderedMap List

structure DhtTransaction where
  address : UInt32
  port : UInt16
deriving DecidableEq

/-- The IPv4 address and, below it, the id. The port is no part of the key. -/
def DhtTransaction.key (t : DhtTransaction) (id : ℕ) : ℕ := ((t.address.toNat <<< 32) + id) % 2 ^ 64

namespace DhtServer

structure TransactionTable where
  entries : List (ℕ × DhtTransaction)
  sorted : Sorted entries
  filed : ∀ p ∈ entries, ∃ i < 256, p.1 = p.2.key i

def TransactionTable.Pending (T : TransactionTable) (i : ℕ) (u : DhtTransaction) : Prop := (u.key i, u) ∈ T.entries

/-- The loop of `add_transaction`, with a bound on its rounds. -/
def findId (m : List (ℕ × DhtTransaction)) (t : DhtTransaction) (rnd : ℕ) :
    ℕ → List (ℕ × DhtTransaction) → ℕ → Option (Option ℕ)
  | 0, _, _ => none
  | _ + 1, [], id => some (some id)
  | fuel + 1, p :: insertItr, id =>
    if p.1 = t.key id then
      let id := (id + 1) % 256
      if id = rnd then some none
      else findId m t rnd fuel (if id = 0 then lowerBound m (t.key id) else insertItr) id
    else some (some id)

def addTransaction (random : ℕ) (t : DhtTransaction) (m : List (ℕ × DhtTransaction)) :
    Option (ℤ × List (ℕ × DhtTransaction)) :=
  let rnd := random % 256
  (findId m t rnd 256 (lowerBound m (t.key rnd)) rnd).map fun
    | none => (-1, m)
    | some id => (id, emplace m (t.key id) t)

variable {m : List (ℕ × DhtTransaction)} {t u : DhtTransaction} {rnd fuel n i j : ℕ}

theorem key_eq (t : DhtTransaction) (hi : i < 256) : t.key i = t.address.toNat * 2 ^ 32 + i := by
  have hlt := t.address.toNat_lt
  rw [DhtTransaction.key, Nat.shiftLeft_eq]
  omega

theorem key_inj (hi : i < 256) (hj : j < 256) : t.key i = u.key j ↔ t.address = u.address ∧ i = j := by
  rw [key_eq t hi, key_eq u hj, ← UInt32.toNat_inj]
  omega

theorem findId_cases {id : ℕ} (hm : Sorted m) (hrnd : rnd < 256) (hn : n < 256) (hfuel : n + fuel = 256)
    (hid : id = (rnd + n) % 256) (hused : ∀ j < n, ∃ u, (t.key ((rnd + j) % 256), u) ∈ m) :
    (findId m t rnd fuel (lowerBound m (t.key id)) id = some none ∧ ∀ i < 256, ∃ u, (t.key i, u) ∈ m) ∨
    ∃ i < 256, findId m t rnd fuel (lowerBound m (t.key id)) id = some (some i) ∧ ¬ ∃ u, (t.key i, u) ∈ m := by
  induction fuel generalizing n id with
  | zero => omega
  | succ fuel ih =>
    have hlt : id < 256 := by omega
    by_cases hu : ∃ u, (t.key id, u) ∈ m
    · have hused' : ∀ j < n + 1, ∃ u, (t.key ((rnd + j) % 256), u) ∈ m := by
        intro j hj
        rcases Nat.lt_succ_iff_lt_or_eq.mp hj with hlt | rfl
        · exact hused j hlt
        · exact hid ▸ hu
      obtain ⟨u, hu⟩ := hu
      rw [lowerBound_of_mem hm (fun x ↦ Nat.lt_succ_iff.trans not_lt.symm) hu, findId, if_pos rfl]
      by_cases hlast : n + 1 = 256
      · refine .inl ⟨if_pos (by omega), fun i hi ↦ ?_⟩
        have hi' : (rnd + (i + 256 - rnd) % 256) % 256 = i := by omega
        exact hi' ▸ hused' _ (by omega)
      have hitr : (if (id + 1) % 256 = 0 then lowerBound m (t.key ((id + 1) % 256)) else lowerBound m (t.key id + 1)) =
          lowerBound m (t.key ((id + 1) % 256)) := by
        split_ifs with hzero
        · rfl
        · rw [Nat.mod_eq_of_lt (by omega), key_eq t hlt, key_eq t (by omega), Nat.add_assoc]
      rw [if_neg (by omega), hitr]
      exact ih (by omega) (by omega) (by omega) hused'
    · refine .inr ⟨_, hlt, ?_, hu⟩
      cases hitr : lowerBound m (t.key id) with
      | nil => rfl
      | cons p insertItr =>
        refine if_neg fun hp ↦ hu ⟨p.2, ?_⟩
        rw [← hp]
        exact (dropWhile_sublist _).mem (hitr.symm ▸ mem_cons_self : p ∈ lowerBound m (t.key id))

theorem TransactionTable.pending_iff (T : TransactionTable) (t : DhtTransaction) (hi : i < 256) :
    (∃ u, (t.key i, u) ∈ T.entries) ↔ ∃ u, u.address = t.address ∧ T.Pending i u := by
  refine exists_congr fun u ↦ ⟨fun hu ↦ ?_, fun ⟨ha, hu⟩ ↦ ?_⟩
  · obtain ⟨j, hj, hkey⟩ := T.filed _ hu
    obtain ⟨ha, rfl⟩ := (key_inj hi hj).mp hkey
    refine ⟨ha.symm, ?_⟩
    rwa [Pending, ← hkey]
  · rwa [(key_inj hi hi).mpr ⟨ha.symm, rfl⟩]

theorem addTransaction_id (random : ℕ) (t : DhtTransaction) (T : TransactionTable) :
    (∃ (id : ℤ) (T' : TransactionTable), addTransaction random t T.entries = some (id, T'.entries) ∧
      (id = -1 ↔ ∀ i < 256, ∃ u, u.address = t.address ∧ T.Pending i u) ∧
      (id = -1 → T'.entries = T.entries) ∧
      (id ≠ -1 → ∃ i : ℕ, i < 256 ∧ id = i ∧ (∀ u, u.address = t.address → ¬ T.Pending i u) ∧
        ∀ p, p ∈ T'.entries ↔ p ∈ T.entries ∨ p = (t.key i, t))) ∧
    ∀ u v : DhtTransaction, ∀ i < 256, ∀ j < 256, u.key i = v.key j ↔ u.address = v.address ∧ i = j := by
  refine ⟨?_, fun u v i hi j hj ↦ key_inj hi hj⟩
  have hrnd : random % 256 < 256 := Nat.mod_lt _ (by decide)
  rcases findId_cases T.sorted hrnd (by decide) (Nat.zero_add 256) (Nat.mod_mod _ _).symm nofun with
    ⟨hfind, hall⟩ | ⟨i, hi, hfind, hno⟩
  · refine ⟨-1, T, by rw [addTransaction, hfind]; rfl, iff_of_true rfl fun i hi ↦ ?_, fun _ ↦ rfl, fun hne ↦ absurd rfl hne⟩
    exact (T.pending_iff t hi).mp (hall i hi)
  have hnew : ∀ p, p ∈ emplace T.entries (t.key i) t ↔ p ∈ T.entries ∨ p = (t.key i, t) := by
    intro p
    rw [mem_emplace T.sorted, and_iff_left]
    exact fun q hq hk ↦ hno ⟨q.2, hk ▸ hq⟩
  have hfiled : ∀ p ∈ emplace T.entries (t.key i) t, ∃ i < 256, p.1 = p.2.key i := by
    intro p hp
    rcases (hnew p).mp hp with hp | rfl
    · exact T.filed p hp
    · exact ⟨i, hi, rfl⟩
  refine ⟨i, ⟨_, T.sorted.emplace _ _, hfiled⟩, by rw [addTransaction, hfind]; rfl, iff_of_false (by omega) fun hall ↦ ?_,
    fun hneg ↦ absurd hneg (by omega), fun _ ↦ ⟨i, hi, rfl, fun u ha hu ↦ ?_, hnew⟩⟩
  · exact hno ((T.pending_iff t hi).mpr (hall i hi))
  · exact hno ((T.pending_iff t hi).mpr ⟨u, ha, hu⟩)

end DhtServer

end LibTorrent
