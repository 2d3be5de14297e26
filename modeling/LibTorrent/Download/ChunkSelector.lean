import LibTorrent.Download.ChunkStatistics
import LibTorrent.Lib.Packed
import LibTorrent.Utils.PartialQueue
import LibTorrent.Utils.Ranges

namespace LibTorrent

open Lib.Outcome Lib.Packed

namespace Bitfield

variable {n : ℕ}

/-- `find_first_set`, which has `count` places to go. -/
def findFirstSet (b : Bitfield n) : ℕ → ℕ → ℕ
  | first, 0 => first
  | first, count + 1 => if b.get first then first else b.findFirstSet (first + 1) count

end Bitfield

structure CachedChunks (n : ℕ) extends PeerChunks n where
  downloadCache : PartialQueue

/-- `torrent::ChunkSelector` for a download of `n` chunks, with the part of the download's data and statistics that it
works on. `none` stands for `invalid_chunk`. -/
structure ChunkSelector (n : ℕ) where
  untouched : Bitfield n
  highPriority : Ranges ℕ
  normalPriority : Ranges ℕ
  rarity : Fin n → UInt8
  sharedQueue : PartialQueue
  position : Option ℕ

namespace ChunkSelector

variable {n : ℕ}

section Search

variable (s : ChunkSelector n) (bf : Bitfield n)

def rarityOf (i : ℕ) : UInt8 := if h : i < n then s.rarity ⟨i, h⟩ else 0

def searchLinearByte (index : ℕ) (wanted : BitVec 8) : List ℕ → PartialQueue → Except String (Bool × PartialQueue)
  | [], pq => .ok (true, pq)
  | i :: places, pq =>
    if wanted &&& maskAt i = 0 then searchLinearByte index wanted places pq
    else do
      let (inserted, pq) ← pq.insert (s.rarityOf (index + i)) (index + i)
      if !inserted && pq.isFull then .ok (false, pq) else searchLinearByte index wanted places pq

def searchByte (index : ℕ) (wanted : BitVec 8) (pq : PartialQueue) : Except String (Bool × PartialQueue) :=
  if wanted = 0 then .ok (true, pq) else s.searchLinearByte index wanted (List.range 8) pq

def wantedByte (k : ℕ) : BitVec 8 := byte bf.get k &&& byte s.untouched.get k

def searchBytes (last : ℕ) : ℕ → ℕ → BitVec 8 → PartialQueue → Except String (Bool × PartialQueue)
  | 0, k, wanted, pq => s.searchByte (8 * k) (wanted &&& maskBefore (last - 8 * k)) pq
  | fuel + 1, k, wanted, pq =>
    if 8 * (k + 1) < last then do
      let (go, pq) ← s.searchByte (8 * k) wanted pq
      if go then searchBytes last fuel (k + 1) (s.wantedByte bf (k + 1)) pq else .ok (false, pq)
    else s.searchByte (8 * k) (wanted &&& maskBefore (last - 8 * k)) pq

def searchLinearRange (first last : ℕ) (pq : PartialQueue) : Except String (Bool × PartialQueue) :=
  if last ≤ first || n < last then
    .error "ChunkSelector::search_linear_range(...) received an invalid range."
  else s.searchBytes bf last last (first / 8) (s.wantedByte bf (first / 8) &&& maskFrom (first % 8)) pq

def searchRanges (first last : ℕ) : List (ℕ × ℕ) → PartialQueue → Except String (Bool × PartialQueue)
  | [], pq => .ok (true, pq)
  | r :: ranges, pq =>
    if r.1 < last then do
      let (go, pq) ← s.searchLinearRange bf (max first r.1) (min last r.2) pq
      if go then searchRanges first last ranges pq else .ok (false, pq)
    else .ok (true, pq)

def searchLinear (ranges : Ranges ℕ) (first last : ℕ) (pq : PartialQueue) : Except String (Bool × PartialQueue) :=
  s.searchRanges bf first last (ranges.find first) pq

def searchAround (ranges : Ranges ℕ) (position : ℕ) (pq : PartialQueue) : Except String PartialQueue := do
  let (go, pq) ← s.searchLinear bf ranges position n pq
  if go then do
    let (_, pq) ← s.searchLinear bf ranges 0 position pq
    .ok pq
  else .ok pq

end Search

section Position

def nextWanted (untouched : Bitfield n) (first last : ℕ) : List (ℕ × ℕ) → Option ℕ
  | [] => none
  | r :: ranges =>
    if r.1 < last then
      let rangeFirst := max first r.1
      let rangeLast := min last r.2
      let chunk := untouched.findFirstSet rangeFirst (rangeLast - rangeFirst)
      if chunk ≠ rangeLast then some chunk else nextWanted untouched first last ranges
    else none

def nextWantedInRanges (untouched : Bitfield n) (ranges : Ranges ℕ) (first last : ℕ) : Option ℕ :=
  if last ≤ first then none else nextWanted untouched first last (ranges.find first)

def startPosition (s : ChunkSelector n) : ℕ :=
  match s.position with
  | some position => if n ≤ position then 0 else position
  | none => 0

def advancePosition (s : ChunkSelector n) : ChunkSelector n :=
  if n = 0 then { s with position := none }
  else
    let start := s.startPosition
    { s with
      position := (nextWantedInRanges s.untouched s.highPriority start n).or
        ((nextWantedInRanges s.untouched s.highPriority 0 start).or
          ((nextWantedInRanges s.untouched s.normalPriority start n).or
            (nextWantedInRanges s.untouched s.normalPriority 0 start))) }

end Position

section Operations

def initializeFrom (completed : Bitfield n) (s : ChunkSelector n) : Except String (ChunkSelector n) := do
  let queue ← s.sharedQueue.enable 32
  .ok { s with
    position := none, untouched := .update fun i ↦ !completed.bits i, sharedQueue := queue.clear }

def updatePriorities (random : ℕ) (s : ChunkSelector n) : ChunkSelector n :=
  if n = 0 then s
  else
    let position := match s.position with
      | some position => position
      | none => random % n
    { s with sharedQueue := s.sharedQueue.clear, position := some position }.advancePosition

def popUntouched (untouched : Bitfield n) : ℕ → PartialQueue → Except String (Option ℕ × PartialQueue)
  | 0, queue => .ok (none, queue)
  | fuel + 1, queue =>
    let (prepared, queue) := queue.preparePop
    if prepared then do
      let (pos, queue) ← queue.pop
      if untouched.get pos then .ok (some pos, queue) else popUntouched untouched fuel queue
    else .ok (none, queue)

variable (s : ChunkSelector n)

/-- The first part of `find`: a chunk from the cached queue. The loop ends when it has taken all values. -/
def findCached (queue : PartialQueue) : Except String (Option ℕ × PartialQueue) :=
  if queue.enabled then popUntouched s.untouched (queue.remaining + 1) queue
  else do
    let queue ← queue.enable 8
    .ok (none, queue)

def takeFound (queue : PartialQueue) : Except String (Option ℕ × PartialQueue) := do
  let (pos, queue) ← queue.pop
  if s.untouched.get pos then .ok (some pos, queue) else .error "ChunkSelector::find(...) bad index."

def findSearched (bf : Bitfield n) (position : ℕ) (queue : PartialQueue) :
    Except String (Option ℕ × PartialQueue) := do
  let queue ← s.searchAround bf s.highPriority position queue.clear
  let (prepared, queue) := queue.preparePop
  if prepared then s.takeFound queue
  else do
    let queue ← s.searchAround bf s.normalPriority position queue.clear
    let (prepared, queue) := queue.preparePop
    if prepared then s.takeFound queue else .ok (none, queue)

def findIn (bf : Bitfield n) (position : ℕ) (queue : PartialQueue) :
    Except String (Option ℕ × PartialQueue) := do
  let (cached, queue) ← s.findCached queue
  match cached with
  | some pos => .ok (some pos, queue)
  | none => s.findSearched bf position queue

/-- The two random numbers are those that are drawn if they are needed. -/
def find (random random' : ℕ) (pc : CachedChunks n) (s : ChunkSelector n) :
    Except String (Option ℕ × CachedChunks n × ChunkSelector n) :=
  match s.position with
  | none => .ok (none, pc, s)
  | some position =>
    let seeder := pc.bitfield.isAllSet
    let queue := if seeder then s.sharedQueue else pc.downloadCache
    let again := random % 64 = 0
    let position := if again then random' % n else position
    let queue := if again then queue.clear else queue
    do
      let (found, queue) ← s.findIn pc.bitfield position queue
      let s := { s with position := some position }
      if seeder then .ok (found, pc, { s with sharedQueue := queue })
      else .ok (found, { pc with downloadCache := queue }, s)

def usingIndex (index : ℕ) (s : ChunkSelector n) : Except String (ChunkSelector n) :=
  if h : index < n then
    if !s.untouched.get index then .error "ChunkSelector::select_index(...) index already set."
    else
      let s := { s with untouched := s.untouched.unset ⟨index, h⟩ }
      .ok (if s.position = some index then s.advancePosition else s)
  else .error "ChunkSelector::select_index(...) index out of range."

def notUsingIndex (index : ℕ) (s : ChunkSelector n) : Except String (ChunkSelector n) :=
  if h : index < n then
    if s.untouched.get index then .error "ChunkSelector::deselect_index(...) index already unset."
    else
      let s := { s with untouched := s.untouched.set ⟨index, h⟩ }
      .ok (if s.position = none then { s with position := some index } else s)
  else .error "ChunkSelector::deselect_index(...) index out of range."

def receivedHaveChunk (index : ℕ) (pc : CachedChunks n) (s : ChunkSelector n) : Except String (Bool × CachedChunks n) :=
  if !s.untouched.get index then .ok (false, pc)
  else if !s.highPriority.has index && !s.normalPriority.has index then .ok (false, pc)
  else if pc.downloadCache.enabled then do
    let (_, queue) ← pc.downloadCache.insert (s.rarityOf index) index
    .ok (true, { pc with downloadCache := queue })
  else .ok (true, pc)

end Operations

end ChunkSelector

open List Ranges

/-- A search has offered chunks to a queue: the queue holds nothing else that is new, and it is only empty if none of
them has less than the largest rarity. The search stops before its end only if the queue has something. -/
structure Searched (rarity : ℕ → UInt8) (offer : ℕ → Prop) (q : PartialQueue) (r : Bool × PartialQueue) : Prop where
  sound : r.2.Sound
  fresh : q.Fresh → r.2.Fresh
  holds : ∀ P, q.Holds P → (∀ i, offer i → P i) → r.2.Holds P
  filled : q.Filled → r.2.Filled
  stopped : r.1 = false → r.2.Filled
  complete : r.2.Filled ∨ ∀ i, offer i → rarity i = 255

namespace Searched

variable {rarity : ℕ → UInt8} {offer offer' both : ℕ → Prop} {q q' : PartialQueue} {r : Bool × PartialQueue}
  {go : Bool}

theorem none (h : q.Sound) (hoffer : ∀ i, ¬ offer i) : Searched rarity offer q (true, q) :=
  ⟨h, id, fun _ hP _ ↦ hP, id, nofun, .inr fun i hi ↦ absurd hi (hoffer i)⟩

theorem trans (h : Searched rarity offer q (go, q')) (h' : Searched rarity offer' q' r)
    (hboth : ∀ i, both i ↔ offer i ∨ offer' i) : Searched rarity both q r where
  sound := h'.sound
  fresh hq := h'.fresh (h.fresh hq)
  holds P hP hall := h'.holds P (h.holds P hP fun i hi ↦ hall i ((hboth i).mpr (.inl hi))) fun i hi ↦
    hall i ((hboth i).mpr (.inr hi))
  filled hq := h'.filled (h.filled hq)
  stopped := h'.stopped
  complete := by
    rcases h.complete with hfilled | hall
    · exact .inl (h'.filled hfilled)
    refine h'.complete.imp_right fun hall' i hi ↦ ?_
    rcases (hboth i).mp hi with hi | hi
    · exact hall i hi
    · exact hall' i hi

theorem of_stopped (h : Searched rarity offer q (false, q')) (hsub : ∀ i, offer i → both i) :
    Searched rarity both q (false, q') :=
  ⟨h.sound, h.fresh, fun P hP hall ↦ h.holds P hP fun i hi ↦ hall i (hsub i hi), h.filled, h.stopped,
    .inl (h.stopped rfl)⟩

theorem congr (h : Searched rarity offer q r) (hiff : ∀ i, offer' i ↔ offer i) : Searched rarity offer' q r := by
  obtain rfl : offer' = offer := funext fun i ↦ propext (hiff i)
  exact h

end Searched

namespace ChunkSelector

variable {n : ℕ} {s : ChunkSelector n} {bf : Bitfield n} {q : PartialQueue}

def Offers (s : ChunkSelector n) (bf : Bitfield n) (i : ℕ) : Prop := bf.get i = true ∧ s.untouched.get i = true

theorem searchLinearByte_searched (index : ℕ) (wanted : BitVec 8) (places : List ℕ) (hplaces : ∀ j ∈ places, j < 8)
    (h : q.Sound) :
    Gives (s.searchLinearByte index wanted places q)
      (Searched s.rarityOf (fun i ↦ ∃ j ∈ places, i = index + j ∧ wanted.getMsbD j = true) q) := by
  induction places generalizing q with
  | nil => exact Searched.none h fun i ⟨j, hj, _⟩ ↦ not_mem_nil hj
  | cons k places ih =>
    have hrest : ∀ j ∈ places, j < 8 := fun j hj ↦ hplaces j (mem_cons_of_mem k hj)
    have hk := hplaces k mem_cons_self
    refine .ite (fun hzero ↦ ?_) fun hset ↦ ?_
    · rw [and_maskAt_eq_zero hk] at hzero
      refine (ih hrest h).mono fun r hr ↦ hr.congr fun i ↦ ⟨fun ⟨j, hj, hi, hw⟩ ↦ ?_, fun ⟨j, hj, hi⟩ ↦
        ⟨j, mem_cons_of_mem k hj, hi⟩⟩
      rcases mem_cons.mp hj with rfl | hj
      · exact absurd (hzero.symm.trans hw) (by decide)
      · exact ⟨j, hj, hi, hw⟩
    rw [and_maskAt_eq_zero hk, Bool.not_eq_false] at hset
    refine (PartialQueue.ensures_insert h (s.rarityOf (index + k)) (index + k)).bind
      fun ⟨inserted, pq⟩ ⟨hsound, hfresh, hholds, hfilled, hfull, hoffered⟩ ↦ ?_
    have hone (go : Bool) (hgo : go = false → pq.Filled) :
        Searched s.rarityOf (fun i ↦ i = index + k) q (go, pq) :=
      ⟨hsound, hfresh, fun P hP hall ↦ hholds P hP (hall _ rfl), hfilled, hgo,
        hoffered.imp_right fun hmax i hi ↦ hi ▸ hmax⟩
    refine .ite (fun hstop ↦ ?_) fun _ ↦ ?_
    · rw [Bool.and_eq_true, Bool.not_eq_true'] at hstop
      refine (hone false fun _ ↦ hfull hstop.1 hstop.2).of_stopped fun i hi ↦ ?_
      exact ⟨k, mem_cons_self, hi, hset⟩
    refine (ih hrest hsound).mono fun r hr ↦ (hone true nofun).trans hr fun i ↦ ⟨fun ⟨j, hj, hi, hw⟩ ↦ ?_, fun hi ↦ ?_⟩
    · rcases mem_cons.mp hj with rfl | hj
      · exact .inl hi
      · exact .inr ⟨j, hj, hi, hw⟩
    rcases hi with hi | ⟨j, hj, hi⟩
    · exact ⟨k, mem_cons_self, hi, hset⟩
    · exact ⟨j, mem_cons_of_mem k hj, hi⟩

theorem searchByte_searched (index : ℕ) (wanted : BitVec 8) (h : q.Sound) : Gives (s.searchByte index wanted q)
      (Searched s.rarityOf (fun i ↦ ∃ j < 8, i = index + j ∧ wanted.getMsbD j = true) q) := by
  refine .ite (fun hzero ↦ Searched.none h fun i ⟨j, _, _, hw⟩ ↦ ?_) fun _ ↦ ?_
  · rw [hzero] at hw
    simp at hw
  · refine (searchLinearByte_searched index wanted (List.range 8) (fun j hj ↦ mem_range.mp hj) h).mono fun r hr ↦ ?_
    exact hr.congr fun i ↦ by simp only [mem_range]

theorem getMsbD_wantedByte (k : ℕ) {j : ℕ} (hj : j < 8) :
    (s.wantedByte bf k).getMsbD j = true ↔ s.Offers bf (8 * k + j) := by
  rw [wantedByte, BitVec.getMsbD_and, getMsbD_byte _ _ hj, getMsbD_byte _ _ hj, Bool.and_eq_true]
  rfl

def Wants (s : ChunkSelector n) (bf : Bitfield n) (first k : ℕ) (wanted : BitVec 8) : Prop :=
  ∀ j < 8, wanted.getMsbD j = true ↔ first ≤ 8 * k + j ∧ s.Offers bf (8 * k + j)

variable {first last : ℕ} {ranges : Ranges ℕ}

theorem searchTail_searched {k : ℕ} {wanted : BitVec 8} (hlast : 8 * k < last) (hle : last ≤ 8 * (k + 1))
    (hwanted : s.Wants bf first k wanted) (h : q.Sound) :
    Gives (s.searchByte (8 * k) (wanted &&& maskBefore (last - 8 * k)) q)
      (Searched s.rarityOf (fun i ↦ 8 * k ≤ i ∧ first ≤ i ∧ i < last ∧ s.Offers bf i) q) := by
  have hbits (j : ℕ) (hj : j < 8) : (wanted &&& maskBefore (last - 8 * k)).getMsbD j = true ↔
      (first ≤ 8 * k + j ∧ s.Offers bf (8 * k + j)) ∧ j < last - 8 * k := by
    rw [BitVec.getMsbD_and, getMsbD_maskBefore (by omega), Bool.and_eq_true, hwanted j hj, decide_eq_true_iff]
  refine (searchByte_searched (8 * k) _ h).mono fun r hr ↦ hr.congr fun i ↦ ?_
  constructor
  · rintro ⟨hki, hfi, hil, hoffers⟩
    obtain ⟨j, rfl⟩ := Nat.exists_eq_add_of_le hki
    have hj : j < 8 := by omega
    exact ⟨j, hj, rfl, (hbits j hj).mpr ⟨⟨hfi, hoffers⟩, by omega⟩⟩
  rintro ⟨j, hj, rfl, hw⟩
  obtain ⟨⟨hfi, hoffers⟩, hlt⟩ := (hbits j hj).mp hw
  exact ⟨Nat.le_add_right .., hfi, by omega, hoffers⟩

theorem searchBytes_searched (fuel k : ℕ) (wanted : BitVec 8) (hfirst : first < 8 * (k + 1))
    (hlast : 8 * k < last) (hfuel : last ≤ 8 * (k + 1 + fuel)) (hwanted : s.Wants bf first k wanted) (h : q.Sound) :
    Gives (s.searchBytes bf last fuel k wanted q)
      (Searched s.rarityOf (fun i ↦ 8 * k ≤ i ∧ first ≤ i ∧ i < last ∧ s.Offers bf i) q) := by
  induction fuel generalizing k wanted q with
  | zero => exact searchTail_searched hlast hfuel hwanted h
  | succ fuel ih =>
    refine .ite (fun hmore ↦ ?_) fun hmore ↦ searchTail_searched hlast (Nat.le_of_not_lt hmore) hwanted h
    refine (searchByte_searched (8 * k) wanted h).bind fun ⟨go, pq⟩ hone ↦ ?_
    have hbyte (i : ℕ) : (∃ j < 8, i = 8 * k + j ∧ wanted.getMsbD j = true) ↔
        8 * k ≤ i ∧ i < 8 * (k + 1) ∧ first ≤ i ∧ s.Offers bf i := by
      constructor
      · rintro ⟨j, hj, rfl, hw⟩
        exact ⟨Nat.le_add_right .., by omega, (hwanted j hj).mp hw⟩
      rintro ⟨hki, hik, hoffers⟩
      obtain ⟨j, rfl⟩ := Nat.exists_eq_add_of_le hki
      exact ⟨j, by omega, rfl, (hwanted j (by omega)).mpr hoffers⟩
    refine .ite (fun _ ↦ ?_) fun hgo ↦ ?_
    · have hnext : s.Wants bf first (k + 1) (s.wantedByte bf (k + 1)) := fun j hj ↦ by
        rw [getMsbD_wantedByte _ hj]
        exact (and_iff_right (by omega)).symm
      refine (ih (k + 1) _ (by omega) hmore (by omega) hnext hone.sound).mono fun r hr ↦ hone.trans hr fun i ↦ ?_
      rw [hbyte i]
      refine ⟨fun ⟨hki, hfi, hil, hoffers⟩ ↦ ?_, ?_⟩
      · rcases Nat.lt_or_ge i (8 * (k + 1)) with hlt | hge
        · exact .inl ⟨hki, hlt, hfi, hoffers⟩
        · exact .inr ⟨hge, hfi, hil, hoffers⟩
      rintro (⟨hki, hik, hfi, hoffers⟩ | ⟨hki, hfi, hil, hoffers⟩)
      · exact ⟨hki, hfi, by omega, hoffers⟩
      · exact ⟨by omega, hfi, hil, hoffers⟩
    · rw [Bool.not_eq_true] at hgo
      subst hgo
      refine hone.of_stopped fun i hi ↦ ?_
      obtain ⟨hki, hik, hfi, hoffers⟩ := (hbyte i).mp hi
      exact ⟨hki, hfi, by omega, hoffers⟩

theorem searchLinearRange_searched (hlt : first < last) (hle : last ≤ n) (h : q.Sound) :
    Gives (s.searchLinearRange bf first last q)
      (Searched s.rarityOf (fun i ↦ first ≤ i ∧ i < last ∧ s.Offers bf i) q) := by
  rw [searchLinearRange, if_neg (by simp [hlt, hle])]
  have hwanted : s.Wants bf first (first / 8) (s.wantedByte bf (first / 8) &&& maskFrom (first % 8)) := by
    intro j hj
    rw [BitVec.getMsbD_and, getMsbD_maskFrom hj, Bool.and_eq_true, getMsbD_wantedByte _ hj, decide_eq_true_iff, and_comm]
    exact and_congr_left' (by omega)
  refine (searchBytes_searched last (first / 8) _ (by omega) (by omega) (by omega) hwanted h).mono fun r hr ↦ ?_
  refine hr.congr fun i ↦ ⟨fun ⟨hfi, hil, hoffers⟩ ↦ ⟨by omega, hfi, hil, hoffers⟩, fun ⟨_, hfi, hil, hoffers⟩ ↦ ?_⟩
  exact ⟨hfi, hil, hoffers⟩

theorem searchRanges_searched (hbounds : first < last ∨ first = 0) (hlast : last ≤ n)
    (ranges : List (ℕ × ℕ)) (hne : ∀ r ∈ ranges, r.1 < r.2) (hfirst : ∀ r ∈ ranges, first < r.2)
    (hsorted : ranges.Pairwise fun r r' ↦ r.2 < r'.1) (h : q.Sound) :
    Gives (s.searchRanges bf first last ranges q)
      (Searched s.rarityOf (fun i ↦ (∃ r ∈ ranges, r.1 ≤ i ∧ i < r.2) ∧ first ≤ i ∧ i < last ∧ s.Offers bf i) q) := by
  induction ranges generalizing q with
  | nil => exact Searched.none h fun i ⟨⟨r, hr, _⟩, _⟩ ↦ not_mem_nil hr
  | cons r ranges ih =>
    rw [pairwise_cons] at hsorted
    have hr := hne r mem_cons_self
    have hfr := hfirst r mem_cons_self
    refine .ite (fun hmore ↦ ?_) fun hmore ↦ Searched.none h fun i ⟨⟨r', hr', hle, _⟩, _, hil, _⟩ ↦ ?_
    · have hrange : Gives (s.searchLinearRange bf (max first r.1) (min last r.2) q) _ :=
        searchLinearRange_searched (by omega) (by omega) h
      have hsplit (i : ℕ) : ((∃ r' ∈ r :: ranges, r'.1 ≤ i ∧ i < r'.2) ∧ first ≤ i ∧ i < last ∧ s.Offers bf i) ↔
          (max first r.1 ≤ i ∧ i < min last r.2 ∧ s.Offers bf i) ∨
            ((∃ r' ∈ ranges, r'.1 ≤ i ∧ i < r'.2) ∧ first ≤ i ∧ i < last ∧ s.Offers bf i) := by
        simp only [mem_cons, exists_eq_or_imp, max_le_iff, lt_min_iff]
        tauto
      refine hrange.bind fun ⟨go, pq⟩ hone ↦ .ite (fun _ ↦ ?_) fun hgo ↦ ?_
      · refine (ih (fun r' hr' ↦ hne r' (mem_cons_of_mem r hr'))
          (fun r' hr' ↦ hfirst r' (mem_cons_of_mem r hr')) hsorted.2 hone.sound).mono fun _ hrest ↦ ?_
        exact hone.trans hrest hsplit
      rw [Bool.not_eq_true] at hgo
      subst hgo
      exact hone.of_stopped fun i hi ↦ (hsplit i).mpr (.inl hi)
    · rcases mem_cons.mp hr' with rfl | hr'
      · omega
      · have := hsorted.1 r' hr'
        omega

theorem searchLinear_searched (hbounds : first < last ∨ first = 0) (hlast : last ≤ n) (h : q.Sound) :
    Gives (s.searchLinear bf ranges first last q)
      (Searched s.rarityOf (fun i ↦ ranges.has i = true ∧ first ≤ i ∧ i < last ∧ s.Offers bf i) q) := by
  refine (searchRanges_searched hbounds hlast _ (fun r hr ↦ ranges.nonempty r (mem_find.mp hr).1)
    (fun r hr ↦ (mem_find.mp hr).2) (pairwise_find ranges first) h).mono fun r hr ↦ hr.congr fun i ↦ ?_
  rw [has_iff]
  constructor
  · rintro ⟨⟨r, hmem, hle, hlt⟩, hfi, hrest⟩
    exact ⟨⟨r, mem_find.mpr ⟨hmem, hfi.trans_lt hlt⟩, hle, hlt⟩, hfi, hrest⟩
  · rintro ⟨⟨r, hmem, hle, hlt⟩, hrest⟩
    exact ⟨⟨r, (mem_find.mp hmem).1, hle, hlt⟩, hrest⟩

theorem get_lt {b : Bitfield n} {i : ℕ} (h : b.get i = true) : i < n := by
  rw [Bitfield.get] at h
  split_ifs at h with hi
  exact hi

theorem searchAround_searched {position : ℕ} (hposition : position < n) (h : q.Sound) :
    Gives (s.searchAround bf ranges position q) fun pq ↦
      ∃ go, Searched s.rarityOf (fun i ↦ ranges.has i = true ∧ s.Offers bf i) q (go, pq) := by
  have hsplit (i : ℕ) : (ranges.has i = true ∧ s.Offers bf i) ↔
      (ranges.has i = true ∧ position ≤ i ∧ i < n ∧ s.Offers bf i) ∨
        (ranges.has i = true ∧ 0 ≤ i ∧ i < position ∧ s.Offers bf i) := by
    rw [← and_or_left]
    refine and_congr_right fun _ ↦ ⟨fun hoffers ↦ ?_, ?_⟩
    · have hi := get_lt hoffers.1
      rcases Nat.lt_or_ge i position with hlt | hge
      · exact .inr ⟨Nat.zero_le i, hlt, hoffers⟩
      · exact .inl ⟨hge, hi, hoffers⟩
    rintro (⟨_, _, hoffers⟩ | ⟨_, _, hoffers⟩)
    · exact hoffers
    · exact hoffers
  refine (searchLinear_searched (.inl hposition) le_rfl h).bind fun ⟨go, pq⟩ hfirst ↦ .ite (fun _ ↦ ?_) fun hgo ↦ ?_
  · refine (searchLinear_searched (.inr rfl) hposition.le hfirst.sound).bind fun ⟨go', pq'⟩ hsecond ↦ ?_
    exact ⟨go', hfirst.trans hsecond hsplit⟩
  rw [Bool.not_eq_true] at hgo
  subst hgo
  exact ⟨false, hfirst.of_stopped fun i hi ↦ (hsplit i).mpr (.inl hi)⟩

end ChunkSelector

end LibTorrent
