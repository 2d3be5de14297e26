import LibTorrent.Lib.ByteOrder
import LibTorrent.Lib.OrderedMap
import LibTorrent.Lib.Outcome

namespace LibTorrent

open Lib.ByteOrder Lib.Decimal List Nat

structure HashString where
  bytes : Bytes
  length : bytes.length = 20
  deriving DecidableEq

namespace HashString

def value (id : HashString) : ℕ := load .big id.bytes

def memcmp : Bytes → Bytes → Ordering
  | a :: s, b :: t => if a < b then .lt else if b < a then .gt else memcmp s t
  | _, _ => .eq

def le (a b : HashString) : Bool := memcmp a.bytes b.bytes ≠ .gt

def lt (a b : HashString) : Bool := memcmp a.bytes b.bytes = .lt

/-- The loop of `get_mid_point`: the end, with the first byte that differs from the start halved. -/
def midBytes : Bytes → Bytes → Bytes
  | b :: s, e :: t => if b ≠ e then UInt8.ofNat ((b.toNat + e.toNat) / 2) :: t else e :: midBytes s t
  | _, t => t

/-- The loop of `split` that adds one from the last byte on, with the carry that is left. -/
def incBytes : Bytes → Bytes × ℕ
  | [] => ([], 1)
  | b :: s => (UInt8.ofNat (b.toNat + (incBytes s).2) :: (incBytes s).1, (b.toNat + (incBytes s).2) / 256)

/-- The loop of `get_random_id`; of each random number only the lowest byte counts. -/
def randomBytes : Bytes → Bytes → Bytes → Bytes
  | r :: rs, b :: s, e :: t => (b + (r &&& (e - b))) :: randomBytes rs s t
  | _, _, _ => []

end HashString

variable {b : UInt8}

section Value

theorem number_append (s t : Bytes) : number (s ++ t) = number s + 256 ^ s.length * number t := by
  induction s with
  | nil => simp [number]
  | cons a s ih =>
    rw [cons_append, number, number, ih, length_cons, pow_succ]
    ring

theorem load_big_cons (a : UInt8) (s : Bytes) : load .big (a :: s) = a.toNat * 256 ^ s.length + load .big s := by
  rw [load, load, reverse_cons, number_append, length_reverse, number, number]
  ring

theorem load_big_lt (s : Bytes) : load .big s < 256 ^ s.length := by
  induction s with
  | nil => exact one_pos
  | cons a s ih =>
    have ha : a.toNat + 1 ≤ 256 := a.toNat_lt
    have hmul := mul_le_mul_right (256 ^ s.length) ha
    rw [load_big_cons, length_cons, pow_succ]
    rw [add_mul, one_mul] at hmul
    omega

theorem load_big_zeros (n : ℕ) : load .big (replicate n 0) = 0 := by
  induction n with
  | zero => rfl
  | succ n ih =>
    rw [replicate_succ, load_big_cons, ih]
    exact zero_mul _

theorem load_big_ones (n : ℕ) : load .big (replicate n 255) + 1 = 256 ^ n := by
  induction n with
  | zero => rfl
  | succ n ih =>
    rw [replicate_succ, load_big_cons, length_replicate, add_assoc, ih, pow_succ]
    change 255 * 256 ^ n + 256 ^ n = _
    ring

variable {s t : Bytes}

theorem load_big_lt_of_lt {a : UInt8} (hab : a < b) (hlen : s.length = t.length) :
    load .big (a :: s) < load .big (b :: t) := by
  have hmul := mul_le_mul_right (256 ^ s.length) (UInt8.lt_iff_toNat_lt.mp hab : a.toNat + 1 ≤ b.toNat)
  have hs := load_big_lt s
  rw [load_big_cons, load_big_cons, ← hlen]
  rw [succ_mul] at hmul
  omega

theorem memcmp_cases (hlen : s.length = t.length) : (HashString.memcmp s t = .lt ∧ load .big s < load .big t) ∨
      (HashString.memcmp s t = .gt ∧ load .big t < load .big s) ∨ HashString.memcmp s t = .eq ∧ s = t := by
  induction s generalizing t with
  | nil =>
    cases t with
    | nil => exact .inr (.inr ⟨rfl, rfl⟩)
    | cons b t => simp at hlen
  | cons a s ih =>
    cases t with
    | nil => simp at hlen
    | cons b t =>
      have hlen' : s.length = t.length := succ.inj hlen
      rw [HashString.memcmp]
      split_ifs with hlt hgt
      · exact .inl ⟨rfl, load_big_lt_of_lt hlt hlen'⟩
      · exact .inr (.inl ⟨rfl, load_big_lt_of_lt hgt hlen'.symm⟩)
      obtain rfl : a = b := UInt8.le_antisymm (UInt8.not_lt.mp hgt) (UInt8.not_lt.mp hlt)
      rw [load_big_cons, load_big_cons, hlen']
      rcases ih hlen' with ⟨h, hv⟩ | ⟨h, hv⟩ | ⟨h, rfl⟩
      · exact .inl ⟨h, Nat.add_lt_add_left hv _⟩
      · exact .inr (.inl ⟨h, Nat.add_lt_add_left hv _⟩)
      · exact .inr (.inr ⟨h, rfl⟩)

end Value

namespace HashString

theorem value_lt (id : HashString) : id.value < 2 ^ 160 := by
  have h := load_big_lt id.bytes
  rw [id.length] at h
  exact h

theorem value_injective : Function.Injective value := by
  intro a b h
  rcases memcmp_cases (a.length.trans b.length.symm) with ⟨-, hv⟩ | ⟨-, hv⟩ | ⟨-, hv⟩
  · exact absurd h hv.ne
  · exact absurd h hv.ne'
  cases b
  cases hv
  rfl

theorem le_iff (a b : HashString) : a.le b = true ↔ a.value ≤ b.value := by
  rw [le, decide_eq_true_eq]
  rcases memcmp_cases (a.length.trans b.length.symm) with ⟨h, hv⟩ | ⟨h, hv⟩ | ⟨h, hv⟩
  · exact iff_of_true (by simp [h]) hv.le
  · exact iff_of_false (by simp [h]) (not_le.mpr hv)
  · exact iff_of_true (by simp [h]) (by rw [value, value, hv])

theorem lt_iff (a b : HashString) : a.lt b = true ↔ a.value < b.value := by
  rw [lt, decide_eq_true_eq]
  rcases memcmp_cases (a.length.trans b.length.symm) with ⟨h, hv⟩ | ⟨h, hv⟩ | ⟨h, hv⟩
  · exact iff_of_true h hv
  · exact iff_of_false (by simp [h]) (lt_asymm hv)
  · exact iff_of_false (by simp [h]) (by rw [value, value, hv]; exact lt_irrefl _)

end HashString

/-- The strings from the first to the second are those of one prefix of bits, and the given number of bits is left. -/
inductive Aligned : ℕ → Bytes → Bytes → Prop
  | nil : Aligned 0 [] []
  | cons (b : UInt8) {w : ℕ} {s t : Bytes} (h : Aligned w s t) : Aligned w (b :: s) (b :: t)
  | wide (b : UInt8) (n : ℕ) {k : ℕ} (hpos : 0 < k) (hle : k ≤ 8) (hdvd : 2 ^ k ∣ b.toNat) :
      Aligned (8 * n + k) (b :: replicate n 0) (UInt8.ofNat (b.toNat + 2 ^ k - 1) :: replicate n 255)

namespace Aligned

theorem zeros (n : ℕ) : Aligned (8 * n) (replicate n 0) (replicate n 255) := by
  cases n with
  | zero => exact .nil
  | succ n => exact .wide 0 n (by omega) le_rfl ⟨0, rfl⟩

variable {k : ℕ} {r : Bytes}

theorem toNat_top (hle : k ≤ 8) (hdvd : 2 ^ k ∣ b.toNat) : b.toNat + 2 ^ k ≤ 256 := by
  obtain ⟨c, hc⟩ := hdvd
  have hb : b.toNat < 256 := b.toNat_lt
  have h256 : 256 = 2 ^ k * 2 ^ (8 - k) := by rw [← pow_add, Nat.add_sub_cancel' hle]; rfl
  rw [hc, h256] at hb
  have hlt : c < 2 ^ (8 - k) := lt_of_mul_lt_mul_left hb (zero_le _)
  calc b.toNat + 2 ^ k = 2 ^ k * (c + 1) := by rw [hc]; ring
    _ ≤ 2 ^ k * 2 ^ (8 - k) := mul_le_mul_left _ hlt
    _ = 256 := h256.symm

theorem toNat_ofNat_top (hle : k ≤ 8) (hdvd : 2 ^ k ∣ b.toNat) :
    (UInt8.ofNat (b.toNat + 2 ^ k - 1)).toNat = b.toNat + 2 ^ k - 1 := by
  have htop := toNat_top hle hdvd
  exact UInt8.toNat_ofNat_of_lt' (by change _ < 256; omega)

variable {w : ℕ} {s t : Bytes}

theorem length_eq (h : Aligned w s t) : s.length = t.length := by
  induction h with
  | nil => rfl
  | cons b h ih => rw [length_cons, length_cons, ih]
  | wide b n => simp

theorem load_eq (h : Aligned w s t) : load .big t + 1 = load .big s + 2 ^ w := by
  induction h with
  | nil => rfl
  | cons b h ih =>
    rw [load_big_cons, load_big_cons, h.length_eq]
    omega
  | wide b n hpos hle hdvd =>
    rename_i k
    rw [load_big_cons, load_big_cons, add_assoc, load_big_ones, load_big_zeros, toNat_ofNat_top hle hdvd,
      length_replicate, length_replicate, pow_add, pow_mul]
    obtain ⟨m, hm⟩ : ∃ m, 2 ^ k = m + 1 := ⟨2 ^ k - 1, by omega⟩
    rw [hm, show b.toNat + (m + 1) - 1 = b.toNat + m by omega]
    ring

theorem half (hle : k + 1 ≤ 8) (hdvd : 2 ^ (k + 1) ∣ b.toNat) :
    (b.toNat + (UInt8.ofNat (b.toNat + 2 ^ (k + 1) - 1)).toNat) / 2 = b.toNat + 2 ^ k - 1 := by
  rw [toNat_ofNat_top hle hdvd, pow_succ]
  omega

theorem incBytes_ones (n : ℕ) : HashString.incBytes (replicate n 255) = (replicate n 0, 1) := by
  induction n with
  | zero => rfl
  | succ n ih => simp [replicate_succ, HashString.incBytes, ih]

theorem split (h : Aligned (w + 1) s t) :
    Aligned w s (HashString.midBytes s t) ∧ Aligned w (HashString.incBytes (HashString.midBytes s t)).1 t ∧
      (HashString.incBytes (HashString.midBytes s t)).2 = 0 := by
  generalize hw : w + 1 = w' at h
  induction h generalizing w with
  | nil => omega
  | cons b h ih =>
    obtain ⟨hlow, hhigh, hcarry⟩ := ih hw
    rw [HashString.midBytes, if_neg (by simp), HashString.incBytes, hcarry, add_zero]
    refine ⟨.cons b hlow, ?_, div_eq_of_lt b.toNat_lt⟩
    rw [UInt8.ofNat_toNat]
    exact .cons b hhigh
  | wide b n hpos hle hdvd =>
    rename_i k
    obtain ⟨k, rfl⟩ : ∃ j, k = j + 1 := ⟨k - 1, by omega⟩
    obtain rfl : w = 8 * n + k := by omega
    have hdvd' : 2 ^ k ∣ b.toNat := (pow_dvd_pow 2 (le_succ k)).trans hdvd
    have htop := toNat_top hle hdvd
    have hne : b ≠ UInt8.ofNat (b.toNat + 2 ^ (k + 1) - 1) := by
      intro he
      have hnat := toNat_ofNat_top hle hdvd
      rw [← he, pow_succ] at hnat
      omega
    have hmid : (UInt8.ofNat (b.toNat + 2 ^ k - 1)).toNat = b.toNat + 2 ^ k - 1 :=
      toNat_ofNat_top (by omega) hdvd'
    rw [HashString.midBytes, if_pos hne, half hle hdvd, HashString.incBytes, incBytes_ones, hmid]
    rw [show b.toNat + 2 ^ k - 1 + 1 = b.toNat + 2 ^ k by omega]
    have hbase : (UInt8.ofNat (b.toNat + 2 ^ k)).toNat = b.toNat + 2 ^ k :=
      UInt8.toNat_ofNat_of_lt' (by change _ < 256; omega)
    refine ⟨?_, ?_, by omega⟩
    · cases k with
      | zero => simpa using (zeros n).cons b
      | succ k => exact .wide b n (by omega) (by omega) hdvd'
    have hend : b.toNat + 2 ^ (k + 1) - 1 = (UInt8.ofNat (b.toNat + 2 ^ k)).toNat + 2 ^ k - 1 := by
      omega
    rw [hend]
    cases k with
    | zero =>
      rw [pow_zero, Nat.add_sub_cancel, UInt8.ofNat_toNat]
      exact (zeros n).cons _
    | succ k => exact .wide _ n (by omega) (by omega) (by rw [hbase]; exact hdvd'.add (dvd_refl _))

theorem randomBytes_length (hr : r.length = s.length) (hlen : s.length = t.length) :
    (HashString.randomBytes r s t).length = s.length := by
  fun_induction HashString.randomBytes r s t with
  | case1 r rs b s e t ih =>
    rw [length_cons, length_cons, ih (succ.inj hr) (succ.inj hlen)]
  | case2 r s t hno =>
    cases s with
    | nil => rfl
    | cons b s =>
      cases r with
      | nil => simp at hr
      | cons c r =>
        cases t with
        | nil => simp at hlen
        | cons e t => exact absurd rfl (hno c r b s e t rfl rfl)

theorem load_randomBytes (h : Aligned w s t) (hr : r.length = s.length) :
    load .big s ≤ load .big (HashString.randomBytes r s t) ∧
      load .big (HashString.randomBytes r s t) ≤ load .big t := by
  induction h generalizing r with
  | nil =>
    rw [length_eq_zero_iff.mp hr]
    exact ⟨le_rfl, le_rfl⟩
  | cons b h ih =>
    obtain ⟨c, r, rfl⟩ := exists_cons_of_length_eq_add_one hr
    have hr' := succ.inj hr
    have hbyte : b + (c &&& (b - b)) = b := by simp
    rw [HashString.randomBytes, hbyte, load_big_cons, load_big_cons, load_big_cons,
      randomBytes_length hr' h.length_eq, ← h.length_eq]
    obtain ⟨hlow, hhigh⟩ := ih hr'
    exact ⟨by omega, by omega⟩
  | wide b n hpos hle hdvd =>
    rename_i k
    obtain ⟨c, r, rfl⟩ := exists_cons_of_length_eq_add_one hr
    have hr' := succ.inj hr
    have htop := toNat_top hle hdvd
    have hmask : UInt8.ofNat (b.toNat + 2 ^ k - 1) - b = UInt8.ofNat (2 ^ k - 1) := by
      rw [← UInt8.toNat_inj, UInt8.toNat_sub_of_le, toNat_ofNat_top hle hdvd, UInt8.toNat_ofNat_of_lt']
      · omega
      · change _ < 256
        omega
      · rw [UInt8.le_iff_toNat_le, toNat_ofNat_top hle hdvd]
        omega
    have hand : (c &&& UInt8.ofNat (2 ^ k - 1)).toNat ≤ 2 ^ k - 1 := by
      refine (and_le_right).trans (le_of_eq (UInt8.toNat_ofNat_of_lt' ?_))
      change _ < 256
      omega
    have hbyte : (b + (c &&& UInt8.ofNat (2 ^ k - 1))).toNat = b.toNat + (c &&& UInt8.ofNat (2 ^ k - 1)).toNat := by
      rw [UInt8.toNat_add, mod_eq_of_lt]
      omega
    have hlength := randomBytes_length hr' (by simp : (replicate n (0 : UInt8)).length =
      (replicate n (255 : UInt8)).length)
    have htail := load_big_lt (HashString.randomBytes r (replicate n 0) (replicate n 255))
    have hones := load_big_ones n
    rw [hlength, length_replicate] at htail
    rw [HashString.randomBytes, hmask, load_big_cons, load_big_cons, load_big_cons, load_big_zeros, hbyte, hlength,
      toNat_ofNat_top hle hdvd, length_replicate, length_replicate]
    have hlow := mul_le_mul_right (256 ^ n) (le_add_right b.toNat (c &&& UInt8.ofNat (2 ^ k - 1)).toNat)
    have hhigh : (b.toNat + (c &&& UInt8.ofNat (2 ^ k - 1)).toNat) * 256 ^ n ≤ (b.toNat + 2 ^ k - 1) * 256 ^ n :=
      mul_le_mul_right _ (by omega)
    exact ⟨by omega, by omega⟩

end Aligned

open Function Lib.OrderedMap Lib.Outcome

namespace HashString

theorem length_midBytes {s t : Bytes} (h : s.length = t.length) : (midBytes s t).length = t.length := by
  fun_induction midBytes s t with
  | case1 b s e t hne => rfl
  | case2 b s e t heq ih => rw [length_cons, length_cons, ih (Nat.succ.inj h)]
  | case3 => rfl

theorem length_incBytes (s : Bytes) : (incBytes s).1.length = s.length := by
  induction s with
  | nil => rfl
  | cons b s ih => rw [incBytes, length_cons, length_cons, ih]

def midPoint (b e : HashString) : HashString :=
  ⟨midBytes b.bytes e.bytes, (length_midBytes (b.length.trans e.length.symm)).trans e.length⟩

def succ (id : HashString) : HashString := ⟨(incBytes id.bytes).1, (length_incBytes id.bytes).trans id.length⟩

def random (r b e : HashString) : HashString :=
  ⟨randomBytes r.bytes b.bytes e.bytes,
    (Aligned.randomBytes_length (r.length.trans b.length.symm) (b.length.trans e.length.symm)).trans b.length⟩

def zero : HashString := ⟨replicate 20 0, length_replicate⟩

def ones : HashString := ⟨replicate 20 255, length_replicate⟩

/-- The order of the map's keys, which is that of `memcmp`. -/
instance : LinearOrder HashString := LinearOrder.lift' value value_injective

end HashString

inductive DhtFault
  | internalError (message : String)
  | endIterator
  | fuel
  deriving DecidableEq

structure Quality where
  lastSeen : UInt32
  recentlyActive : Bool
  recentlyInactive : UInt32

namespace Quality

def isGood (q : Quality) : Bool := q.recentlyActive

def isBad (q : Quality) : Bool := 5 ≤ q.recentlyInactive

def age (now : UInt32) (q : Quality) : UInt32 := now - q.lastSeen

def update (now : UInt32) (q : Quality) : Quality := { q with recentlyActive := q.age now < 15 * 60 }

end Quality

structure DhtNode where
  id : HashString
  quality : Quality
  bucket : Option ℕ

structure DhtBucket where
  idBegin : HashString
  idEnd : HashString
  nodes : List HashString := []
  good : UInt32 := 0
  bad : UInt32 := 0
  parent : Option ℕ := none
  child : Option ℕ := none

namespace DhtBucket

def numNodes : ℕ := 8

def isInRange (id : HashString) (b : DhtBucket) : Bool := b.idBegin.le id && id.le b.idEnd

def isFull (b : DhtBucket) : Bool := numNodes ≤ b.nodes.length

def hasSpace (b : DhtBucket) : Bool := !b.isFull || 0 < b.bad

def getRandomId (random : HashString) (b : DhtBucket) : HashString := random.random b.idBegin b.idEnd

def addNode (id : HashString) (q : Quality) (b : DhtBucket) : DhtBucket :=
  { b with
    nodes := b.nodes ++ [id]
    good := if q.isGood then b.good + 1 else b.good
    bad := if !q.isGood && q.isBad then b.bad + 1 else b.bad }

def removeNode (id : HashString) (q : Quality) (b : DhtBucket) : Except DhtFault DhtBucket :=
  if id ∉ b.nodes then .error (.internalError "DhtBucket::remove_node called for node not in bucket.")
  else .ok { b with
    nodes := b.nodes.erase id
    good := if q.isGood then b.good - 1 else b.good
    bad := if !q.isGood && q.isBad then b.bad - 1 else b.bad }

def nodeNowGood (wasBad : Bool) (b : DhtBucket) : DhtBucket :=
  { b with bad := if wasBad then b.bad - 1 else b.bad, good := b.good + 1 }

def nodeNowBad (wasGood : Bool) (b : DhtBucket) : DhtBucket :=
  { b with good := if wasGood then b.good - 1 else b.good, bad := b.bad + 1 }

end DhtBucket

/-- The router: its own id, quality and bucket, the buckets by number, the table of their ends, and the nodes. -/
structure DhtRouter where
  id : HashString
  quality : Quality
  bucket : ℕ
  buckets : ℕ → DhtBucket
  next : ℕ
  routingTable : List (HashString × ℕ)
  nodes : List DhtNode

namespace DhtRouter

def modifyBucket (b : ℕ) (f : DhtBucket → DhtBucket) (s : DhtRouter) : DhtRouter :=
  { s with buckets := update s.buckets b (f (s.buckets b)) }

variable (id : HashString)

def modifyNode (f : DhtNode → DhtNode) (s : DhtRouter) : DhtRouter :=
  { s with nodes := s.nodes.map fun n ↦ if n.id = id then f n else n }

variable (s : DhtRouter)

def findNode : Option DhtNode := s.nodes.find? fun n ↦ n.id = id

def findBucket : Option ℕ :=
  (s.routingTable.find? fun p ↦ !p.1.lt id).map Prod.snd

def count (b : ℕ) (s : DhtRouter) : DhtRouter :=
  s.modifyBucket b fun B ↦ { B with
    good := UInt32.ofNat (B.nodes.countP fun id ↦ (s.findNode id).any fun n ↦ n.quality.isGood)
    bad := UInt32.ofNat (B.nodes.countP fun id ↦ (s.findNode id).any fun n ↦ n.quality.isBad) }

def wantNode : Except DhtFault Bool :=
  if id = s.id || id = .zero then .ok false
  else
    match s.findBucket id with
    | none => .error .endIterator
    | some b => .ok (b = s.bucket || (s.buckets b).hasSpace)

def deleteNode : Except DhtFault DhtRouter :=
  match s.findNode id with
  | none => .error (.internalError "DhtRouter::delete_node called with invalid iterator.")
  | some n =>
    match n.bucket with
    | none => .ok { s with nodes := s.nodes.filter fun n ↦ n.id ≠ id }
    | some b => do
      let B ← (s.buckets b).removeNode id n.quality
      .ok { s.modifyBucket b (fun _ ↦ B) with nodes := s.nodes.filter fun n ↦ n.id ≠ id }

/-- The loop of `find_replacement_candidate`: the first bad node, or the one seen longest ago. -/
def findCandidate (s : DhtRouter) : List HashString → Option HashString → UInt32 → Option HashString
  | [], oldest, _ => oldest
  | id :: nodes, oldest, oldestTime =>
    match s.findNode id with
    | none => findCandidate s nodes oldest oldestTime
    | some n =>
      if n.quality.isBad then some id
      else if n.quality.lastSeen < oldestTime then findCandidate s nodes (some id) n.quality.lastSeen
      else findCandidate s nodes oldest oldestTime

def findReplacementCandidate (b : ℕ) (s : DhtRouter) : Option HashString :=
  s.findCandidate (s.buckets b).nodes none (~~~ 0)

/-- The lower half of a bucket as `split` creates it, before it is linked. `std::partition` leaves open the order
of its two parts; here they keep it. -/
def lowerHalf (b : ℕ) (s : DhtRouter) : DhtBucket :=
  let mid := (s.buckets b).idBegin.midPoint (s.buckets b).idEnd
  let upper := { s.buckets b with idBegin := mid.succ }
  { idBegin := (s.buckets b).idBegin, idEnd := mid, nodes := (s.buckets b).nodes.filter fun id ↦ !upper.isInRange id }

def upperHalf (b : ℕ) (s : DhtRouter) : DhtBucket :=
  let mid := (s.buckets b).idBegin.midPoint (s.buckets b).idEnd
  let upper := { s.buckets b with idBegin := mid.succ }
  { upper with nodes := (s.buckets b).nodes.filter fun id ↦ upper.isInRange id }

/-- The links after a split: the half with the router's id becomes the child. -/
def link (b other : ℕ) (id : HashString) (s : DhtRouter) : DhtRouter :=
  if (s.buckets other).isInRange id then
    (s.modifyBucket b fun B ↦ { B with child := some other }).modifyBucket other fun B ↦ { B with parent := some b }
  else
    let s' :=
      match (s.buckets b).parent with
      | some p =>
        (s.modifyBucket p fun B ↦ { B with child := some other }).modifyBucket other
          fun B ↦ { B with parent := some p }
      | none => s
    (s'.modifyBucket b fun B ↦ { B with parent := some other }).modifyBucket other fun B ↦ { B with child := some b }

/-- The two halves, with the nodes of the lower one moved over to the bucket of the next number. -/
def halved (b : ℕ) (s : DhtRouter) : DhtRouter :=
  { s with
    buckets := update (update s.buckets s.next (s.lowerHalf b)) b (s.upperHalf b)
    next := s.next + 1
    nodes := s.nodes.map fun n ↦ if n.id ∈ (s.lowerHalf b).nodes then { n with bucket := some s.next } else n }

/-- `DhtBucket::split`; the new bucket has the next number. -/
def split (b : ℕ) (s : DhtRouter) : DhtRouter := (((s.halved b).count s.next).count b).link b s.next s.id

def splitBucket (b : ℕ) (id : HashString) (s : DhtRouter) : Except DhtFault (ℕ × DhtRouter) :=
  let other := s.next
  let t := s.split b
  let own := ((t.buckets t.bucket).child).getD t.bucket
  if !(t.buckets own).isInRange s.id then
    .error (.internalError "DhtRouter::split_bucket router ID ended up in wrong bucket.")
  else
    .ok (if (t.buckets other).isInRange id then other else b,
      { t with bucket := own, routingTable := emplace t.routingTable (t.buckets other).idEnd other })

/-- The loop of `add_node_to_bucket`, with the number of turns it may take. -/
def addLoop (id : HashString) : ℕ → ℕ → DhtRouter → Except DhtFault (Bool × DhtRouter)
  | 0, _, _ => .error .fuel
  | fuel + 1, b, s =>
    if (s.buckets b).isFull then
      match s.findReplacementCandidate b with
      | none => .error (.internalError "DhtBucket::find_candidate returned no node.")
      | some candidate =>
        if (s.findNode candidate).any fun n ↦ n.quality.isBad then do
          let s ← s.deleteNode candidate
          addLoop id fuel b s
        else if b ≠ s.bucket then do
          let s ← s.deleteNode id
          .ok (false, s)
        else do
          let r ← s.splitBucket b id
          addLoop id fuel r.1 r.2
    else
      .ok (true, (s.modifyBucket b fun B ↦
        match s.findNode id with
        | some n => B.addNode id n.quality
        | none => B).modifyNode id fun n ↦ { n with bucket := some b })

/-- The most turns that the loop of `add_node_to_bucket` is given: one for each bit of an id, and one more. -/
def turns : ℕ := 161

def addNodeToBucket : Except DhtFault (Bool × DhtRouter) :=
  match s.findBucket id with
  | none => .error .endIterator
  | some b => addLoop id turns b s

def addNode (q : Quality) (s : DhtRouter) : DhtRouter :=
  { s with nodes := s.nodes ++ [⟨id, q, none⟩] }

def setGood (now : UInt32) (s : DhtRouter) : DhtRouter :=
  match s.findNode id with
  | none => s
  | some n =>
    let t :=
      match n.bucket with
      | some b => if n.quality.isGood then s else s.modifyBucket b (DhtBucket.nodeNowGood n.quality.isBad)
      | none => s
    t.modifyNode id fun n ↦ { n with quality := ⟨now, true, 0⟩ }

def setSelfGood (now : UInt32) (s : DhtRouter) : DhtRouter :=
  let t := if s.quality.isGood then s else s.modifyBucket s.bucket (DhtBucket.nodeNowGood s.quality.isBad)
  { t with quality := ⟨now, true, 0⟩ }

def setInactive : DhtRouter :=
  match s.findNode id with
  | none => s
  | some n =>
    if n.quality.recentlyInactive + 1 = 5 then
      let t :=
        match n.bucket with
        | some b => if n.quality.isBad then s else s.modifyBucket b (DhtBucket.nodeNowBad n.quality.isGood)
        | none => s
      t.modifyNode id fun n ↦ { n with quality := { n.quality with recentlyInactive := 5, recentlyActive := false } }
    else
      s.modifyNode id fun n ↦
        { n with quality := { n.quality with recentlyInactive := n.quality.recentlyInactive + 1 } }

def nodeReplied (sameAddress : Bool) (now : UInt32) (s : DhtRouter) : Except DhtFault DhtRouter :=
  match s.findNode id with
  | some _ => .ok (if sameAddress then s.setGood id now else s)
  | none =>
    if id = s.id then .ok (if sameAddress then s.setSelfGood now else s)
    else do
      let wanted ← s.wantNode id
      if !wanted then .ok s
      else do
        let r ← (s.addNode id ⟨0, false, 0⟩).addNodeToBucket id
        .ok (if r.1 then r.2.setGood id now else r.2)

def nodeQueried (sameAddress : Bool) (now : UInt32) (s : DhtRouter) : DhtRouter :=
  match s.findNode id with
  | some n => if sameAddress && n.quality.lastSeen ≠ 0 then s.setGood id now else s
  | none => if id = s.id && sameAddress && s.quality.lastSeen ≠ 0 then s.setSelfGood now else s

def timeoutRemoveNode : UInt32 := 4 * 60 * 60

def nodeInactive (sameAddress : Bool) (now : UInt32) (s : DhtRouter) : Except DhtFault DhtRouter :=
  if (s.findNode id).isNone || !sameAddress then .ok s
  else
    let t := s.setInactive id
    if (t.findNode id).any fun n ↦ n.quality.isBad && timeoutRemoveNode ≤ n.quality.age now then t.deleteNode id
    else .ok t

def nodeInvalid : Except DhtFault DhtRouter :=
  if (s.findNode id).isNone then .ok s else s.deleteNode id

/-- The part of `receive_timeout` that works on the table. -/
def receiveTimeout (now : UInt32) (s : DhtRouter) : Except DhtFault DhtRouter :=
  if s.nodes.any fun n ↦ n.bucket.isNone then
    .error (.internalError "DhtRouter::receive_timeout has node without bucket.")
  else
    let t : DhtRouter := { s with nodes := s.nodes.map fun n ↦ { n with quality := n.quality.update now } }
    .ok (t.routingTable.foldl (fun t p ↦ t.count p.2) t)

inductive Event
  | replied (id : HashString) (sameAddress : Bool) (now : UInt32)
  | queried (id : HashString) (sameAddress : Bool) (now : UInt32)
  | inactive (id : HashString) (sameAddress : Bool) (now : UInt32)
  | invalid (id : HashString)
  | timeout (now : UInt32)

def step : Event → DhtRouter → Except DhtFault DhtRouter
  | .replied id sameAddress now, s => s.nodeReplied id sameAddress now
  | .queried id sameAddress now, s => .ok (s.nodeQueried id sameAddress now)
  | .inactive id sameAddress now, s => s.nodeInactive id sameAddress now
  | .invalid id, s => s.nodeInvalid id
  | .timeout now, s => s.receiveTimeout now

def fresh : DhtRouter :=
  ⟨id, ⟨0, false, 0⟩, 0, fun _ ↦ { idBegin := .zero, idEnd := .ones }, 1, [(.ones, 0)], []⟩

def load (now : UInt32) (node : HashString × UInt32) (s : DhtRouter) : Except DhtFault DhtRouter := do
  let r ← (s.addNode node.1 (Quality.update now ⟨node.2, false, 0⟩)).addNodeToBucket node.1
  .ok r.2

structure Cache where
  entries : List (HashString × UInt32)
  nodup : (entries.map Prod.fst).Nodup

def run (now : UInt32) (cache : Cache) (events : List Event) : Except DhtFault DhtRouter := do
  let s ← forEach (load now) cache.entries (fresh id)
  forEach step events s

end DhtRouter

end LibTorrent
