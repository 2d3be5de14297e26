import LibTorrent.Download.ChunkSelector

namespace LibTorrent

open Lib.Outcome List Nat Option PartialQueue Ranges

namespace Bitfield

variable {n : ℕ} {b : Bitfield n}

theorem findFirstSet_spec (first count : ℕ) : b.findFirstSet first count ≤ first + count ∧
    ∀ j, first ≤ j → j < b.findFirstSet first count → b.get j = false := by
  induction count generalizing first with
  | zero => exact ⟨le_rfl, fun j hle hlt ↦ absurd hlt (not_lt.mpr hle)⟩
  | succ count ih =>
    rw [findFirstSet]
    split_ifs with hset
    · exact ⟨Nat.le_add_right .., fun j hle hlt ↦ absurd hlt (not_lt.mpr hle)⟩
    obtain ⟨hle, hbefore⟩ := ih (first + 1)
    refine ⟨by omega, fun j hj hlt ↦ ?_⟩
    rcases hj.eq_or_lt with rfl | hj
    · simpa using hset
    · exact hbefore j hj hlt

variable {j : ℕ}

theorem get_set (b : Bitfield n) (i : Fin n) : (b.set i).get j = true ↔ b.get j = true ∨ j = i := by
  simp only [get, set]
  split_ifs with hj
  · simp [Function.update_apply, Fin.ext_iff, or_comm]
  · simp only [false_or, false_iff]
    exact fun heq ↦ hj (heq ▸ i.isLt)

theorem get_unset (b : Bitfield n) (i : Fin n) : (b.unset i).get j = true ↔ b.get j = true ∧ j ≠ i := by
  simp only [get, unset]
  split_ifs
  · simp [Function.update_apply, Fin.ext_iff, and_comm]
  · simp

theorem get_of_isAllSet (h : b.isAllSet = true) {i : ℕ} (hi : i < n) : b.get i = true := by
  rw [get, dif_pos hi]
  exact isAllSet_iff.mp h ⟨i, hi⟩

end Bitfield

namespace ChunkSelector

variable {n : ℕ} {s t : ChunkSelector n} {q : PartialQueue} {pc : CachedChunks n}

def InRanges (s : ChunkSelector n) (i : ℕ) : Prop := s.highPriority.has i = true ∨ s.normalPriority.has i = true

def Wanted (s : ChunkSelector n) (i : ℕ) : Prop := s.untouched.get i = true ∧ s.InRanges i

section Position

theorem nextWanted_spec (untouched : Bitfield n) {first last : ℕ} (hbounds : first < last) (ranges : List (ℕ × ℕ))
    (hne : ∀ r ∈ ranges, r.1 < r.2) (hfirst : ∀ r ∈ ranges, first < r.2)
    (hsorted : ranges.Pairwise fun r r' ↦ r.2 < r'.1) :
    match nextWanted untouched first last ranges with
    | some i => i < last
    | none => ∀ i, first ≤ i → i < last → (∃ r ∈ ranges, r.1 ≤ i ∧ i < r.2) → untouched.get i = false := by
  induction ranges with
  | nil => exact fun i _ _ ⟨r, hr, _⟩ ↦ absurd hr not_mem_nil
  | cons r ranges ih =>
    rw [pairwise_cons] at hsorted
    have hr := hne r mem_cons_self
    rw [nextWanted]
    dsimp only
    obtain ⟨hle, hbefore⟩ := Bitfield.findFirstSet_spec (max first r.1) (min last r.2 - max first r.1)
    generalize untouched.findFirstSet (max first r.1) (min last r.2 - max first r.1) = chunk at hle hbefore
    split_ifs with hmore hchunk
    · omega
    · have hrest := ih (fun r' hr' ↦ hne r' (mem_cons_of_mem r hr'))
        (fun r' hr' ↦ hfirst r' (mem_cons_of_mem r hr')) hsorted.2
      split
      · rename_i hsome
        rwa [hsome] at hrest
      rename_i hnone
      rw [hnone] at hrest
      rintro i hfi hil ⟨r', hr', hrange⟩
      rcases mem_cons.mp hr' with rfl | hr'
      · exact hbefore i (by omega) (by omega)
      · exact hrest i hfi hil ⟨r', hr', hrange⟩
    · rintro i hfi hil ⟨r', hr', hrange⟩
      rcases mem_cons.mp hr' with rfl | hr'
      · omega
      · have := hsorted.1 r' hr'
        omega

theorem nextWantedInRanges_spec (untouched : Bitfield n) (ranges : Ranges ℕ) (first last : ℕ) :
    (∀ i, nextWantedInRanges untouched ranges first last = some i → i < last) ∧
      (nextWantedInRanges untouched ranges first last = none →
        ∀ i, first ≤ i → i < last → ranges.has i = true → untouched.get i = false) := by
  rw [nextWantedInRanges]
  split_ifs with hle
  · exact ⟨nofun, fun _ i hfi hil ↦ absurd (hfi.trans_lt hil) (not_lt.mpr hle)⟩
  have hspec := nextWanted_spec untouched (Nat.lt_of_not_le hle) (ranges.find first)
    (fun r hr ↦ ranges.nonempty r (mem_find.mp hr).1) (fun r hr ↦ (mem_find.mp hr).2)
    (pairwise_find ranges first)
  refine ⟨fun i hi ↦ ?_, fun hnone i hfi hil hhas ↦ ?_⟩
  · rwa [hi] at hspec
  rw [hnone] at hspec
  obtain ⟨r, hr, hle, hlt⟩ := has_iff.mp hhas
  exact hspec i hfi hil ⟨r, mem_find.mpr ⟨hr, hfi.trans_lt hlt⟩, hle, hlt⟩

structure Placed (s : ChunkSelector n) : Prop where
  lt : ∀ i, s.position = some i → i < n
  wanted : s.position = none → ∀ i, ¬ s.Wanted i

/-- The ranges and the shared queue are the same. -/
structure Keeps (s t : ChunkSelector n) : Prop where
  high : t.highPriority = s.highPriority
  normal : t.normalPriority = s.normalPriority
  queue : t.sharedQueue = s.sharedQueue

theorem Keeps.inRanges (h : Keeps s t) : t.InRanges = s.InRanges := by
  funext i
  rw [InRanges, InRanges, h.high, h.normal]

theorem keeps_advancePosition (s : ChunkSelector n) : Keeps s s.advancePosition := by
  rw [advancePosition]
  split <;> exact ⟨rfl, rfl, rfl⟩

theorem advancePosition_placed (s : ChunkSelector n) : s.advancePosition.Placed := by
  rw [advancePosition]
  split_ifs with hn
  · exact ⟨nofun, fun _ i hi ↦ absurd (get_lt hi.1) (by omega)⟩
  have hlt : s.startPosition < n := by
    rw [startPosition]
    split
    · split_ifs <;> omega
    · omega
  generalize s.startPosition = start at hlt
  obtain ⟨h₁, h₁'⟩ := nextWantedInRanges_spec s.untouched s.highPriority start n
  obtain ⟨h₂, h₂'⟩ := nextWantedInRanges_spec s.untouched s.highPriority 0 start
  obtain ⟨h₃, h₃'⟩ := nextWantedInRanges_spec s.untouched s.normalPriority start n
  obtain ⟨h₄, h₄'⟩ := nextWantedInRanges_spec s.untouched s.normalPriority 0 start
  refine ⟨fun i hi ↦ ?_, fun hnone i ⟨hi, hranges⟩ ↦ ?_⟩
  · rw [or_eq_some_iff, or_eq_some_iff, or_eq_some_iff] at hi
    rcases hi with hi | ⟨_, hi | ⟨_, hi | ⟨_, hi⟩⟩⟩
    · exact h₁ i hi
    · exact (h₂ i hi).trans hlt
    · exact h₃ i hi
    · exact (h₄ i hi).trans hlt
  rw [or_eq_none_iff, or_eq_none_iff, or_eq_none_iff] at hnone
  obtain ⟨n₁, n₂, n₃, n₄⟩ := hnone
  have hin := get_lt hi
  refine absurd hi (Bool.eq_false_iff.mp ?_)
  rcases hranges with hhas | hhas <;> rcases lt_or_ge i start with hi | hi
  · exact h₂' n₂ i (zero_le i) hi hhas
  · exact h₁' n₁ i hi hin hhas
  · exact h₄' n₄ i (zero_le i) hi hhas
  · exact h₃' n₃ i hi hin hhas

end Position

section Find

def Caches (P : ℕ → Prop) (q : PartialQueue) : Prop := q.enabled = true → q.Sound ∧ q.Holds P

variable {P : ℕ → Prop} {bf : Bitfield n} {position : ℕ}

theorem Caches.clear {P' : ℕ → Prop} (h : Caches P q) : Caches P' q.clear := by
  intro henabled
  by_cases hq : q.enabled = true
  · exact ⟨sound_clear hq (h hq).1.room, holds_clear hq⟩
  · rw [PartialQueue.clear, if_neg hq] at henabled
    exact absurd henabled hq

theorem popUntouched_spec (untouched : Bitfield n) (fuel : ℕ) (h : q.Sound) (hP : q.Holds P) :
    Gives (popUntouched untouched fuel q) fun r ↦ r.2.Sound ∧ r.2.Holds P ∧
      ∀ i, r.1 = some i → untouched.get i = true ∧ P i := by
  induction fuel generalizing q with
  | zero => exact ⟨h, hP, nofun⟩
  | succ fuel ih =>
    refine .ite (fun hprepared ↦ ?_) fun _ ↦ ⟨h.preparePop, hP, nofun⟩
    refine (ensures_pop_preparePop h hprepared).bind fun ⟨pos, queue⟩ ⟨hsound, hpop⟩ ↦ ?_
    obtain ⟨hpos, hqueue⟩ := hpop P hP
    refine .ite (fun hun ↦ ⟨hsound, hqueue, fun i hi ↦ ?_⟩) fun _ ↦ ih hsound hqueue
    cases hi
    exact ⟨hun, hpos⟩

theorem findCached_spec (s : ChunkSelector n) (h : Caches P q) :
    Gives (s.findCached q) fun r ↦ r.2.enabled = true ∧ 0 < r.2.maxLayerSize ∧
      ∀ i, r.1 = some i → s.untouched.get i = true ∧ P i ∧ r.2.Sound ∧ r.2.Holds P := by
  refine .ite (fun henabled ↦ ?_) fun _ ↦ ⟨rfl, zero_lt_succ 7, nofun⟩
  obtain ⟨hsound, hP⟩ := h henabled
  refine (popUntouched_spec s.untouched _ hsound hP).mono fun r ⟨hr, hrP, hfound⟩ ↦ ⟨hr.enabled, hr.room, fun i hi ↦ ?_⟩
  exact ⟨(hfound i hi).1, (hfound i hi).2, hr, hrP⟩

theorem takeFound_spec (s : ChunkSelector n) (h : q.Sound) (hprepared : q.preparePop.1 = true)
    (hP : q.Holds P) (hun : ∀ i, P i → s.untouched.get i = true) :
    Gives (s.takeFound q.preparePop.2) fun r ↦ r.2.Sound ∧ r.2.Holds P ∧ (∀ i, r.1 = some i → P i) ∧ r.1 ≠ none := by
  refine (ensures_pop_preparePop h hprepared).bind fun ⟨pos, queue⟩ ⟨hsound, hpop⟩ ↦ ?_
  obtain ⟨hpos, hqueue⟩ := hpop P hP
  refine .ite (fun _ ↦ ⟨hsound, hqueue, fun i hi ↦ ?_, nofun⟩) fun hn ↦ absurd (hun pos hpos) hn
  exact some_inj.mp hi ▸ hpos

theorem searchAround_clear {ranges : Ranges ℕ} (hposition : position < n)
    (henabled : q.enabled = true) (hroom : 0 < q.maxLayerSize) :
    Gives (s.searchAround bf ranges position q.clear) fun pq ↦
      pq.Sound ∧ pq.Holds (fun i ↦ ranges.has i = true ∧ s.Offers bf i) ∧
        (pq.preparePop.1 = false → ∀ i, ranges.has i = true → s.Offers bf i → s.rarityOf i = 255) := by
  refine (searchAround_searched hposition (sound_clear henabled hroom)).mono fun pq ⟨go, hsearched⟩ ↦ ?_
  refine ⟨hsearched.sound, hsearched.holds _ (holds_clear henabled) fun i hi ↦ hi, fun hempty i hi hoffers ↦ ?_⟩
  rcases hsearched.complete with hfilled | hall
  · have hfresh := hsearched.fresh (fresh_clear henabled)
    exact absurd (hempty.symm.trans (preparePop_of_fresh hsearched.sound hfresh hfilled)) (by decide)
  · exact hall i ⟨hi, hoffers⟩

theorem findSearched_spec (hposition : position < n) (henabled : q.enabled = true) (hroom : 0 < q.maxLayerSize) :
    Gives (s.findSearched bf position q) fun r ↦ r.2.Sound ∧
      r.2.Holds (fun i ↦ s.InRanges i ∧ s.Offers bf i) ∧ (∀ i, r.1 = some i → s.InRanges i ∧ s.Offers bf i) ∧
      (r.1 = none → ∀ i, s.InRanges i → s.Offers bf i → s.rarityOf i = 255) := by
  refine (searchAround_clear hposition henabled hroom).bind fun high ⟨hhigh, hhighP, hhighNone⟩ ↦
    .ite (fun hprepared ↦ ?_) fun hnothing ↦ ?_
  · have hP : high.Holds fun i ↦ s.InRanges i ∧ s.Offers bf i := fun l v hv ↦
      ⟨.inl (hhighP l v hv).1, (hhighP l v hv).2⟩
    refine (takeFound_spec s hhigh hprepared hP fun i hi ↦ hi.2.2).mono fun r ⟨hr, hrP, hfound, hsome⟩ ↦ ?_
    exact ⟨hr, hrP, hfound, fun hnone ↦ absurd hnone hsome⟩
  have hsound := hhigh.preparePop
  refine (searchAround_clear hposition hsound.enabled hsound.room).bind fun normal ⟨hnormal, hnormalP, hnormalNone⟩ ↦ ?_
  have hP : normal.Holds fun i ↦ s.InRanges i ∧ s.Offers bf i := fun l v hv ↦
    ⟨.inr (hnormalP l v hv).1, (hnormalP l v hv).2⟩
  refine .ite (fun hprepared ↦ ?_) fun hnothing' ↦ ?_
  · refine (takeFound_spec s hnormal hprepared hP fun i hi ↦ hi.2.2).mono fun r ⟨hr, hrP, hfound, hsome⟩ ↦ ?_
    exact ⟨hr, hrP, hfound, fun hnone ↦ absurd hnone hsome⟩
  refine ⟨hnormal.preparePop, hP, nofun, fun _ i hi hoffers ↦ ?_⟩
  rcases hi with hi | hi
  · exact hhighNone (Bool.eq_false_of_not_eq_true hnothing) i hi hoffers
  · exact hnormalNone (Bool.eq_false_of_not_eq_true hnothing') i hi hoffers

theorem findIn_spec (hposition : position < n) (h : Caches P q) (hP : ∀ i, s.InRanges i → s.Offers bf i → P i) :
    Gives (s.findIn bf position q) fun r ↦ r.2.Sound ∧ r.2.Holds P ∧
      (∀ i, r.1 = some i → s.untouched.get i = true ∧ P i) ∧
      (r.1 = none → ∀ i, s.InRanges i → s.Offers bf i → s.rarityOf i = 255) := by
  refine (findCached_spec s h).bind fun ⟨cached, queue⟩ ⟨henabled, hroom, hcached⟩ ↦ ?_
  cases cached with
  | some pos =>
    obtain ⟨hun, hpos, hsound, hholds⟩ := hcached pos rfl
    refine ⟨hsound, hholds, fun i hi ↦ ?_, nofun⟩
    cases hi
    exact ⟨hun, hpos⟩
  | none =>
    refine (findSearched_spec hposition henabled hroom).mono fun r ⟨hsound, hholds, hfound, hnone⟩ ↦ ?_
    refine ⟨hsound, fun l v hv ↦ hP v (hholds l v hv).1 (hholds l v hv).2, fun i hi ↦ ?_, hnone⟩
    obtain ⟨hranges, hoffers⟩ := hfound i hi
    exact ⟨hoffers.2, hP i hranges hoffers⟩

/-- What the operations keep: the shared queue has chunks of the ranges. -/
structure Sound (s : ChunkSelector n) : Prop where
  placed : s.Placed
  shared : s.sharedQueue.Sound
  ranges : s.sharedQueue.Holds fun i ↦ i < n ∧ s.InRanges i

def Cached (s : ChunkSelector n) (pc : CachedChunks n) : Prop :=
  Caches (fun i ↦ s.InRanges i ∧ pc.bitfield.get i = true) pc.downloadCache

/-- The result of `find`, and what it leaves as it was. -/
structure Found (s : ChunkSelector n) (pc : CachedChunks n) (r : Option ℕ × CachedChunks n × ChunkSelector n) : Prop where
  sound : r.2.2.Sound
  cached : s.Cached r.2.1
  ranges : r.2.2.InRanges = s.InRanges
  found : ∀ i, r.1 = some i → s.Wanted i ∧ pc.bitfield.get i = true
  none : r.1 = none → ∀ i, s.Wanted i → pc.bitfield.get i = true → s.rarityOf i = 255

theorem find_spec (h : s.Sound) (hpc : s.Cached pc) (random random' : ℕ) :
    Gives (s.find random random' pc) (Found s pc) := by
  rw [find]
  split
  · rename_i hnone
    exact ⟨h, hpc, rfl, nofun, fun _ i hi ↦ absurd hi (h.placed.wanted hnone i)⟩
  rename_i position hsome
  have hlt := h.placed.lt position hsome
  have hposition : (if random % 64 = 0 then random' % n else position) < n := by
    split_ifs
    · exact mod_lt random' (zero_lt_of_lt hlt)
    · exact hlt
  have hclear {P : ℕ → Prop} {q : PartialQueue} (hq : Caches P q) :
      Caches P (if random % 64 = 0 then q.clear else q) := by
    split_ifs
    · exact hq.clear
    · exact hq
  dsimp only
  generalize (if random % 64 = 0 then random' % n else position) = place at hposition
  have hplaced : ({ s with position := some place } : ChunkSelector n).Placed :=
    ⟨fun i hi ↦ some_inj.mp hi ▸ hposition, nofun⟩
  by_cases hseeder : pc.bitfield.isAllSet = true
  · simp only [hseeder, if_true]
    refine (findIn_spec hposition (hclear fun _ ↦ ⟨h.shared, h.ranges⟩) fun i hi hoffers ↦ ⟨get_lt hoffers.1, hi⟩).bind
      fun ⟨found, queue⟩ ⟨hsound, hholds, hfound, hnone⟩ ↦ ?_
    refine ⟨⟨⟨hplaced.lt, nofun⟩, hsound, hholds⟩, hpc, rfl, fun i hi ↦ ?_, fun hnothing i hi hheld ↦ ?_⟩
    · obtain ⟨hun, hi, hranges⟩ := hfound i hi
      exact ⟨⟨hun, hranges⟩, Bitfield.get_of_isAllSet hseeder hi⟩
    · exact hnone hnothing i hi.2 ⟨hheld, hi.1⟩
  · simp only [hseeder]
    refine (findIn_spec hposition (hclear hpc) fun i hi hoffers ↦ ⟨hi, hoffers.1⟩).bind
      fun ⟨found, queue⟩ ⟨hsound, hholds, hfound, hnone⟩ ↦ ?_
    refine ⟨⟨⟨hplaced.lt, nofun⟩, h.shared, h.ranges⟩, fun _ ↦ ⟨hsound, hholds⟩, rfl, fun i hi ↦ ?_,
      fun hnothing i hi hheld ↦ ?_⟩
    · obtain ⟨hun, hranges, hheld⟩ := hfound i hi
      exact ⟨⟨hun, hranges⟩, hheld⟩
    · exact hnone hnothing i hi.2 ⟨hheld, hi.1⟩

end Find

end ChunkSelector

structure Selection (n : ℕ) where
  selector : ChunkSelector n
  peers : List (CachedChunks n)

namespace Selection

variable {n : ℕ}

/-- The priorities of the files: the two ranges, and the random number that is drawn if it is needed. -/
structure Priorities where
  high : Ranges ℕ
  normal : Ranges ℕ
  random : ℕ

/-- `DownloadWrapper::receive_update_priorities`: every connection clears its queue in `update_interested`. -/
def receiveUpdatePriorities (p : Priorities) (d : Selection n) : Selection n where
  selector := { d.selector with highPriority := p.high, normalPriority := p.normal }.updatePriorities p.random
  peers := d.peers.map fun pc ↦ { pc with downloadCache := pc.downloadCache.clear }

def receiveInitialHash (completed : Bitfield n) (p : Priorities) (d : Selection n) : Except String (Selection n) := do
  let selector ← d.selector.initializeFrom completed
  .ok (receiveUpdatePriorities p ⟨selector, []⟩)

/-- A have of a peer. It depends on the connection whether the chunk selector is asked about the chunk. -/
def readHaveChunk (k : ℕ) (index : Fin n) (asked : Bool) (d : Selection n) : Except String (Selection n) :=
  match d.peers[k]? with
  | none => .ok d
  | some pc =>
    let pc := { pc with bitfield := pc.bitfield.set index }
    if asked then do
      let (_, pc) ← d.selector.receivedHaveChunk index pc
      .ok { d with peers := d.peers.set k pc }
    else .ok { d with peers := d.peers.set k pc }

def receiveDownloadChoke (k : ℕ) (d : Selection n) : Selection n :=
  match d.peers[k]? with
  | none => d
  | some pc => { d with peers := d.peers.set k { pc with downloadCache := pc.downloadCache.disable } }

def find (k random random' : ℕ) (d : Selection n) : Except String (Selection n) :=
  match d.peers[k]? with
  | none => .ok d
  | some pc => do
    let (_, pc, selector) ← d.selector.find random random' pc
    .ok ⟨selector, d.peers.set k pc⟩

/-- What happens to the chunk selector: the chunks are checked, the priorities are changed, the statistics count, chunks
are begun and given up, and peers connect, are choked, have more chunks, are asked for a chunk and disconnect. -/
inductive Event (n : ℕ)
  | initialHash (completed : Bitfield n) (p : Priorities)
  | updatePriorities (p : Priorities)
  | counted (rarity : Fin n → UInt8)
  | usingIndex (index : ℕ)
  | notUsingIndex (index : ℕ)
  | connect (bits : Fin n → Bool)
  | disconnect (k : ℕ)
  | choked (k : ℕ)
  | have (k : ℕ) (index : Fin n) (asked : Bool)
  | find (k random random' : ℕ)

def step : Event n → Selection n → Except String (Selection n)
  | .initialHash completed p, d => d.receiveInitialHash completed p
  | .updatePriorities p, d => .ok (d.receiveUpdatePriorities p)
  | .counted rarity, d => .ok { d with selector := { d.selector with rarity := rarity } }
  | .usingIndex index, d => do
    let selector ← d.selector.usingIndex index
    .ok { d with selector := selector }
  | .notUsingIndex index, d => do
    let selector ← d.selector.notUsingIndex index
    .ok { d with selector := selector }
  | .connect bits, d => .ok { d with peers := d.peers ++ [⟨⟨.update bits, false⟩, {}⟩] }
  | .disconnect k, d => .ok { d with peers := d.peers.eraseIdx k }
  | .choked k, d => .ok (d.receiveDownloadChoke k)
  | .have k index asked, d => d.readHaveChunk k index asked
  | .find k random random', d => d.find k random random'

def fresh (n : ℕ) : Selection n :=
  ⟨⟨.update fun _ ↦ false, ⟨[], nofun, List.Pairwise.nil⟩, ⟨[], nofun, List.Pairwise.nil⟩, fun _ ↦ 0, {}, none⟩, []⟩

def run (completed : Bitfield n) (p : Priorities) (events : List (Event n)) : Except String (Selection n) := do
  let d ← receiveInitialHash completed p (fresh n)
  forEach step events d

def callerErrors : List String :=
  ["ChunkSelector::select_index(...) index out of range.", "ChunkSelector::select_index(...) index already set.",
    "ChunkSelector::deselect_index(...) index out of range.", "ChunkSelector::deselect_index(...) index already unset."]

def Bad (message : String) : Prop := message ∉ callerErrors

variable {d : Selection n}

structure Sound (d : Selection n) : Prop where
  selector : d.selector.Sound
  peers : ∀ pc ∈ d.peers, d.selector.Cached pc

section Steps

open ChunkSelector

variable {s t : ChunkSelector n} {pc : CachedChunks n}

theorem sound_of_keeps (h : d.Sound) (ht : t.Placed ∧ Keeps d.selector t) : Sound { d with selector := t } := by
  refine ⟨⟨ht.1, ht.2.queue ▸ h.selector.shared, ?_⟩, fun pc hpc ↦ ?_⟩
  · rw [ht.2.queue, ht.2.inRanges]
    exact h.selector.ranges
  · rw [Cached, ht.2.inRanges]
    exact h.peers pc hpc

theorem sound_receiveUpdatePriorities (p : Priorities) (hshared : d.selector.sharedQueue.Sound)
    (hholds : d.selector.sharedQueue.Holds (· < n)) (hlt : ∀ i, d.selector.position = some i → i < n)
    (hpeers : ∀ pc ∈ d.peers, ∃ P, Caches P pc.downloadCache) : (d.receiveUpdatePriorities p).Sound := by
  refine ⟨?_, fun pc hpc ↦ ?_⟩
  · change ({ d.selector with highPriority := p.high, normalPriority := p.normal }.updatePriorities p.random).Sound
    rw [updatePriorities]
    split_ifs with hn
    · -- the shared queue is not cleared here, but there are no chunks
      refine ⟨⟨hlt, fun _ i hi ↦ absurd (get_lt hi.1) (by omega)⟩, hshared, fun l v hv ↦ ?_⟩
      exact absurd (hholds l v hv) (by omega)
    refine ⟨advancePosition_placed _, ?_, ?_⟩ <;> rw [(keeps_advancePosition _).queue]
    · exact sound_clear hshared.enabled hshared.room
    · exact holds_clear hshared.enabled
  · obtain ⟨pc', hpc', rfl⟩ := mem_map.mp hpc
    obtain ⟨P, hP⟩ := hpeers pc' hpc'
    exact hP.clear

theorem ensures_receiveInitialHash (completed : Bitfield n) (p : Priorities) (d : Selection n) :
    Gives (d.receiveInitialHash completed p) Sound := by
  have henabled : ({ d.selector.sharedQueue with enabled := true, maxLayerSize := 32 } : PartialQueue).enabled = true :=
    rfl
  refine sound_receiveUpdatePriorities p ?_ ?_ nofun fun pc hpc ↦ absurd hpc not_mem_nil
  · exact sound_clear henabled (Nat.zero_lt_succ 31)
  · exact holds_clear henabled

theorem ensures_usingIndex (index : ℕ) (h : s.Placed) :
    Ensures Bad (s.usingIndex index) fun t ↦ t.Placed ∧ Keeps s t := by
  rw [usingIndex]
  split_ifs with hindex huntouched
  · exact not_not.mpr (by decide)
  · refine .ok ?_
    split_ifs with hposition
    · have hkeeps := keeps_advancePosition { s with untouched := s.untouched.unset ⟨index, hindex⟩ }
      exact ⟨advancePosition_placed _, hkeeps.high, hkeeps.normal, hkeeps.queue⟩
    · refine ⟨⟨h.lt, fun hnone i hi ↦ h.wanted hnone i ⟨?_, hi.2⟩⟩, rfl, rfl, rfl⟩
      exact ((Bitfield.get_unset _ _).mp hi.1).1
  · exact not_not.mpr (by decide)

theorem ensures_notUsingIndex (index : ℕ) (h : s.Placed) :
    Ensures Bad (s.notUsingIndex index) fun t ↦ t.Placed ∧ Keeps s t := by
  rw [notUsingIndex]
  split_ifs with hindex huntouched
  · exact not_not.mpr (by decide)
  · refine .ok ?_
    split_ifs with hposition
    · exact ⟨⟨fun i hi ↦ Option.some_inj.mp hi ▸ hindex, nofun⟩, rfl, rfl, rfl⟩
    · exact ⟨⟨h.lt, fun hnone ↦ absurd hnone hposition⟩, rfl, rfl, rfl⟩
  · exact not_not.mpr (by decide)

theorem ensures_receivedHaveChunk (index : ℕ) (hpc : s.Cached pc) (hheld : pc.bitfield.get index = true) :
    Gives (s.receivedHaveChunk index pc) fun r ↦ s.Cached r.2 := by
  refine .either hpc (.ite (fun _ ↦ hpc) fun hranges ↦ .ite (fun henabled ↦ ?_)
    fun _ ↦ hpc)
  obtain ⟨hsound, hholds⟩ := hpc henabled
  refine (PartialQueue.ensures_insert hsound (s.rarityOf index) index).bind fun r ⟨hr, _, hinsert, _⟩ _ ↦ ⟨hr, ?_⟩
  refine hinsert _ hholds ⟨?_, hheld⟩
  by_cases hhigh : s.highPriority.has index = true
  · exact .inl hhigh
  · exact .inr (by simpa [hhigh] using hranges)

theorem sound_setPeer (h : d.Sound) {k : ℕ} (hpc : d.selector.Cached pc) : Sound { d with peers := d.peers.set k pc } := by
  refine ⟨h.selector, fun pc' hpc' ↦ ?_⟩
  rcases mem_or_eq_of_mem_set hpc' with hmem | rfl
  · exact h.peers pc' hmem
  · exact hpc

theorem cached_set (h : s.Cached pc) (index : Fin n) : s.Cached { pc with bitfield := pc.bitfield.set index } := by
  intro henabled
  obtain ⟨hsound, hholds⟩ := h henabled
  exact ⟨hsound, fun l v hv ↦ ⟨(hholds l v hv).1, (Bitfield.get_set _ _).mpr (.inl (hholds l v hv).2)⟩⟩

theorem ensures_readHaveChunk (k : ℕ) (index : Fin n) (asked : Bool) (h : d.Sound) :
    Gives (d.readHaveChunk k index asked) Sound := by
  rw [readHaveChunk]
  split
  · exact h
  rename_i pc hk
  have hset := cached_set (h.peers pc (mem_of_getElem? hk)) index
  refine .either ?_ (sound_setPeer h hset)
  have hheld : (pc.bitfield.set index).get index = true := (Bitfield.get_set _ _).mpr (.inr rfl)
  exact (ensures_receivedHaveChunk index hset hheld).bind fun r hr ↦ sound_setPeer h hr

theorem ensures_find (k random random' : ℕ) (h : d.Sound) : Gives (d.find k random random') Sound := by
  rw [find]
  split
  · exact h
  rename_i pc hk
  refine (find_spec h.selector (h.peers pc (mem_of_getElem? hk)) random random').bind
    fun ⟨found, pc', selector⟩ hfound ↦ ?_
  have hpeers := (sound_setPeer (k := k) h hfound.cached).peers
  refine ⟨hfound.sound, fun pc'' hpc'' ↦ ?_⟩
  rw [Cached, hfound.ranges]
  exact hpeers pc'' hpc''

theorem ensures_step (e : Event n) (h : d.Sound) : Ensures Bad (step e d) Sound := by
  cases e with
  | initialHash completed p => exact (ensures_receiveInitialHash completed p d).always
  | updatePriorities p =>
    exact sound_receiveUpdatePriorities p h.selector.shared (fun l v hv ↦ (h.selector.ranges l v hv).1)
      h.selector.placed.lt fun pc hpc ↦ ⟨_, h.peers pc hpc⟩
  | counted rarity => exact sound_of_keeps h ⟨⟨h.selector.placed.lt, h.selector.placed.wanted⟩, rfl, rfl, rfl⟩
  | usingIndex index =>
    exact (ensures_usingIndex index h.selector.placed).bind fun t ht ↦ sound_of_keeps h ht
  | notUsingIndex index =>
    exact (ensures_notUsingIndex index h.selector.placed).bind fun t ht ↦ sound_of_keeps h ht
  | connect bits =>
    refine ⟨h.selector, fun pc hpc ↦ ?_⟩
    rcases mem_append.mp hpc with hpc | hpc
    · exact h.peers pc hpc
    · rw [mem_singleton.mp hpc]
      exact nofun
  | disconnect k => exact ⟨h.selector, fun pc hpc ↦ h.peers pc (mem_of_mem_eraseIdx hpc)⟩
  | choked k =>
    refine .ok ?_
    rw [receiveDownloadChoke]
    split
    · exact h
    · exact sound_setPeer h nofun
  | «have» k index asked => exact (ensures_readHaveChunk k index asked h).always
  | find k random random' => exact (ensures_find k random random' h).always

end Steps

section Runs

theorem ensures_run (completed : Bitfield n) (p : Priorities) (events : List (Event n)) :
    Ensures Bad (run completed p events) Sound :=
  (ensures_receiveInitialHash completed p (fresh n)).always.bind fun _ hd ↦
    ensures_forEach_inv (fun e _ h ↦ ensures_step e h) events hd

/-- In every run, a chunk that is found is untouched, in the ranges and one that the peer has. None is found only if all
such chunks have the largest rarity. -/
theorem run_find (completed : Bitfield n) (p : Priorities) (events : List (Event n)) (k random random' : ℕ) :
    Ensures Bad (run completed p events) fun d ↦
      (d.selector.position = none → ∀ i, ¬ d.selector.Wanted i) ∧
        ∀ pc, d.peers[k]? = some pc → Gives (d.selector.find random random' pc) fun r ↦
          (∀ i, r.1 = some i → d.selector.Wanted i ∧ pc.bitfield.get i = true) ∧
            (r.1 = none → ∀ i, d.selector.Wanted i → pc.bitfield.get i = true → d.selector.rarityOf i = 255) := by
  refine (ensures_run completed p events).mono fun d hd ↦ ⟨hd.selector.placed.wanted, fun pc hpc ↦ ?_⟩
  refine (ChunkSelector.find_spec hd.selector (hd.peers pc (mem_of_getElem? hpc)) random random').mono fun r hr ↦ ?_
  exact ⟨hr.found, hr.none⟩

/-- A peer has the only chunk, which is wanted, but 255 peers have it, and it is not found. -/
theorem run_find_common :
    ∃ d pc, run (.update fun _ : Fin 1 ↦ false) ⟨⟨[], nofun, .nil⟩, ⟨[(0, 1)], by decide, by decide⟩, 0⟩
        [.connect fun _ ↦ true, .counted fun _ ↦ 255] = .ok d ∧ d.peers[0]? = some pc ∧
      d.selector.Wanted 0 ∧ pc.bitfield.get 0 = true ∧ (d.selector.find 1 0 pc).map Prod.fst = .ok none :=
  ⟨_, _, rfl, rfl, ⟨by decide, .inr (by decide)⟩, by decide, rfl⟩

end Runs

end Selection

end LibTorrent
