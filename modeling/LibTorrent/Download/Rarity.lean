import LibTorrent.Download.ChunkStatistics
import LibTorrent.Lib.Store

namespace LibTorrent

open Bitfield Bool Lib.Outcome List Nat PeerChunks

namespace PeerChunks

variable {n : ℕ}

def countedComplete (pc : PeerChunks n) : Bool := pc.usingCounter && pc.bitfield.isAllSet

def isAccounted (pc : PeerChunks n) : Bool := pc.usingCounter && !pc.bitfield.isAllSet

end PeerChunks

namespace ChunkStatistics

variable {n : ℕ}

structure Counts (s : ChunkStatistics n) (l : List (PeerChunks n)) : Prop where
  rarity : ∀ i, (s.rarity i).toNat = l.countP fun pc ↦ pc.isAccounted && pc.bitfield.bits i
  complete : s.complete.toNat = l.countP countedComplete
  accounted : s.accounted.toNat = l.countP isAccounted
  accounted_le : s.accounted.toNat ≤ 255
  unwrapped : s.wrapped = false

def Begun (pc : PeerChunks n) : Prop := pc.usingCounter → pc.bitfield.isAllUnset → n = 0

variable {s : ChunkStatistics n} {l l' : List (PeerChunks n)} {pc : PeerChunks n}

theorem Counts.perm (h : s.Counts l) (hl : l.Perm l') : s.Counts l' where
  rarity i := (h.rarity i).trans (hl.countP_eq _)
  complete := h.complete.trans (hl.countP_eq _)
  accounted := h.accounted.trans (hl.countP_eq _)
  accounted_le := h.accounted_le
  unwrapped := h.unwrapped

theorem Counts.rarity_le (h : s.Counts l) (i : Fin n) : (s.rarity i).toNat ≤ s.accounted.toNat := by
  rw [h.rarity, h.accounted]
  exact countP_mono_left fun pc _ hpc ↦ by simp_all

theorem increment_spec (marks : Fin n → Bool) (h : ∀ i, marks i → (s.rarity i).toNat < 255) :
    (s.increment marks).wrapped = s.wrapped ∧
      ∀ i, ((s.increment marks).rarity i).toNat = (s.rarity i).toNat + (marks i).toNat := by
  constructor
  · simpa [increment] using fun i hi h' ↦ absurd (h i hi) (by simp [h'])
  intro i
  cases hi : marks i with
  | false => simp [increment, hi]
  | true =>
    have hlt := h i hi
    simp only [increment, hi, if_true, UInt8.toNat_add, UInt8.toNat_one, toNat_true]
    omega

theorem decrement_spec (marks : Fin n → Bool) (h : ∀ i, marks i → 0 < (s.rarity i).toNat) :
    (s.decrement marks).wrapped = s.wrapped ∧
      ∀ i, ((s.decrement marks).rarity i).toNat + (marks i).toNat = (s.rarity i).toNat := by
  constructor
  · simpa [decrement] using fun i hi h' ↦ absurd (h i hi) (by simp [h'])
  intro i
  cases hi : marks i with
  | false => simp [decrement, hi]
  | true =>
    have hpos := h i hi
    have hlt := (s.rarity i).toNat_lt
    simp only [decrement, hi, if_true, UInt8.toNat_sub, UInt8.toNat_one, toNat_true]
    omega

variable {a : UInt32} {index : Fin n}

theorem toNat_add_one (h : a.toNat + 1 < 2 ^ 32) : (a + 1).toNat = a.toNat + 1 := by
  simp only [UInt32.toNat_add, UInt32.toNat_one]
  omega

theorem toNat_sub_one (h : a ≠ 0) : (a - 1).toNat + 1 = a.toNat := by
  have hne : a.toNat ≠ 0 := fun h' ↦ h (UInt32.toNat.inj h')
  have hlt := a.toNat_lt
  simp only [UInt32.toNat_sub, UInt32.toNat_one]
  omega

theorem shouldAdd_iff : s.shouldAdd ↔ s.accounted.toNat < 255 := by
  simp [shouldAdd, maxAccounted, UInt32.lt_iff_toNat_lt]

theorem ensures_receivedConnect (h : s.Counts l) (hl : l.length + 1 < 2 ^ 32) (hpc : pc.usingCounter = false) :
    Gives (s.receivedConnect pc) fun (s', pc') ↦
      s'.Counts (pc' :: l) ∧ Begun pc' ∧ s'.size = s.size := by
  have hc : l.countP countedComplete ≤ l.length := countP_le_length
  rw [receivedConnect, if_neg (by simp [hpc])]
  refine .ite (fun hall ↦ ?_) fun hall ↦ .ite (fun hadd ↦ ?_) fun _ ↦ ?_
  · refine ⟨⟨?_, ?_, ?_, h.accounted_le, h.unwrapped⟩, ?_, rfl⟩
    · simp [isAccounted, hall, h.rarity]
    · simp [countedComplete, hall, toNat_add_one (by rw [h.complete]; omega), h.complete]
    · simp [isAccounted, hall, h.accounted]
    intro _ hunset
    simp only [isAllSet, isAllUnset, decide_eq_true_eq] at hall hunset
    omega
  · simp only [and_eq_true, not_eq_true', shouldAdd_iff] at hadd
    have hacc : (s.accounted + 1).toNat = s.accounted.toNat + 1 := toNat_add_one (by omega)
    obtain ⟨hw, hr⟩ := increment_spec (s := { s with accounted := s.accounted + 1 }) pc.bitfield.bits
      fun i _ ↦ lt_of_le_of_lt (h.rarity_le i) hadd.2
    refine ⟨⟨fun i ↦ ?_, ?_, ?_, ?_, hw.trans h.unwrapped⟩, ?_, rfl⟩
    · rw [hr, countP_cons]
      cases hi : pc.bitfield.bits i <;> simp [isAccounted, hall, h.rarity]
    · simp [countedComplete, hall, increment, h.complete]
    · simp [isAccounted, hall, increment, hacc, h.accounted]
    · simp only [increment, hacc]
      omega
    · intro _ hunset
      simp [hadd.1] at hunset
  · refine ⟨⟨fun i ↦ ?_, ?_, ?_, h.accounted_le, h.unwrapped⟩, ?_, rfl⟩
    · simp [isAccounted, hpc, h.rarity]
    · simp [countedComplete, hpc, h.complete]
    · simp [isAccounted, hpc, h.accounted]
    · simp [Begun, hpc]

variable (h : s.Counts (pc :: l))
include h

theorem ensures_receivedDisconnect :
    Gives (s.receivedDisconnect pc) fun (s', _) ↦ s'.Counts l ∧ s'.size = s.size := by
  have hcomplete := h.complete
  have haccounted := h.accounted
  have hle := h.accounted_le
  rw [countP_cons] at hcomplete haccounted
  refine .ite (fun hu ↦ ?_) fun hu ↦ .ite (fun hall ↦ ?_) fun hall ↦ ?_
  · simp only [not_eq_true'] at hu
    refine ⟨⟨fun i ↦ ?_, ?_, ?_, hle, h.unwrapped⟩, rfl⟩
    · simp [h.rarity, isAccounted, hu]
    · simp [hcomplete, countedComplete, hu]
    · simp [haccounted, isAccounted, hu]
  · simp only [not_eq_true', not_eq_false] at hu
    have hpos : s.complete ≠ 0 := fun h0 ↦ by simp [h0, countedComplete, hu, hall] at hcomplete
    have hsub := toNat_sub_one hpos
    refine ⟨⟨fun i ↦ ?_, ?_, ?_, hle, h.unwrapped⟩, rfl⟩
    · simp [h.rarity, isAccounted, hall]
    · simp only [countedComplete, hu, hall] at hcomplete ⊢
      simp at hcomplete
      omega
    · simp [haccounted, isAccounted, hall]
  · simp only [not_eq_true', not_eq_false] at hu
    have hself : pc.isAccounted := by simp [isAccounted, hu, hall]
    have hpos : s.accounted ≠ 0 := fun h0 ↦ by simp [h0, hself] at haccounted
    have hsub := toNat_sub_one hpos
    have hrar (i : Fin n) : (s.rarity i).toNat =
        l.countP (fun pc ↦ pc.isAccounted && pc.bitfield.bits i) + (pc.bitfield.bits i).toNat := by
      rw [h.rarity, countP_cons, hself]
      cases pc.bitfield.bits i <;> rfl
    obtain ⟨hw, hr⟩ := decrement_spec (s := { s with accounted := s.accounted - 1 }) pc.bitfield.bits
      fun i hi ↦ by simp [hrar, hi]
    rw [if_neg hpos]
    refine ⟨⟨fun i ↦ ?_, ?_, ?_, ?_, hw.trans h.unwrapped⟩, rfl⟩
    · have := hr i
      have := hrar i
      dsimp only at *
      omega
    · simp [hcomplete, decrement, countedComplete, hall]
    · simp only [decrement, hself, if_true] at haccounted ⊢
      omega
    · simp only [decrement]
      omega

theorem ensures_addUnset (hpc : Begun pc) (hn : n ≠ 0) : Gives (s.addUnset pc) fun (s', pc') ↦
      s'.Counts (pc' :: l) ∧ pc'.bitfield = pc.bitfield ∧ s'.size = s.size := by
  refine .ite (fun hadd ↦ ?_) fun _ ↦ ⟨h, rfl, rfl⟩
  simp only [and_eq_true, shouldAdd_iff] at hadd
  have hu : pc.usingCounter = false := by
    by_contra hu
    exact hn (hpc (by simpa using hu) hadd.1)
  have hall : pc.bitfield.isAllSet = false := by
    have := hadd.1
    simp only [isAllSet, isAllUnset, decide_eq_true_eq, decide_eq_false_iff_not] at this ⊢
    omega
  have hacc : (s.accounted + 1).toNat = s.accounted.toNat + 1 := toNat_add_one (by omega)
  have hcomplete := h.complete
  have haccounted := h.accounted
  rw [if_neg (by simp [hu])]
  refine ⟨⟨fun i ↦ ?_, ?_, ?_, ?_, h.unwrapped⟩, rfl, rfl⟩
  · simp [h.rarity, isAccounted, hu, isAllUnset_iff.mp hadd.1 i]
  · simpa [countedComplete, hu, hall] using hcomplete
  · simp only [hacc, isAccounted, countP_cons, hu, hall] at haccounted ⊢
    simp [haccounted]
  · rw [hacc]
    omega

theorem ensures_countHave (hl : l.length + 1 < 2 ^ 32) (hbit : pc.bitfield.bits index = false) :
    Gives (s.countHave { pc with bitfield := pc.bitfield.set index } index) fun (s', pc') ↦
      s'.Counts (pc' :: l) ∧ pc'.bitfield = pc.bitfield.set index ∧ s'.size = s.size := by
  have hold : pc.bitfield.isAllSet = false := by
    rw [← not_eq_true, isAllSet_iff]
    exact fun hall ↦ by simp [hall index] at hbit
  have hc : l.countP countedComplete ≤ l.length := countP_le_length
  have hcomplete : s.complete.toNat = l.countP countedComplete := by
    simp [h.complete, countedComplete, hold]
  have hnext := toNat_add_one (by rw [hcomplete]; omega)
  refine .ite (fun hu ↦ ?_) fun hu ↦ .ite (fun hall ↦ ?_) fun hall ↦ ?_
  · dsimp only at hu
    have hself : pc.isAccounted := by simp [isAccounted, hu, hold]
    have haccounted : s.accounted.toNat = l.countP isAccounted + 1 := by
      simp [h.accounted, hself]
    have hrar (i : Fin n) : (s.rarity i).toNat =
        l.countP (fun pc ↦ pc.isAccounted && pc.bitfield.bits i) + (pc.bitfield.bits i).toNat := by
      rw [h.rarity, countP_cons, hself]
      cases pc.bitfield.bits i <;> rfl
    have hle (i : Fin n) : l.countP (fun pc ↦ pc.isAccounted && pc.bitfield.bits i) ≤
        l.countP isAccounted := countP_mono_left fun pc _ hpc ↦ by simp_all
    obtain ⟨hw, hr⟩ := increment_spec (fun i ↦ decide (i = index)) fun i hi ↦ by
      have := h.accounted_le
      have := hle i
      rw [hrar, decide_eq_true_eq.mp hi, hbit, toNat_false]
      rw [decide_eq_true_eq.mp hi] at this
      omega
    have hset (i : Fin n) : ((s.increment fun i ↦ decide (i = index)).rarity i).toNat =
        l.countP (fun pc ↦ pc.isAccounted && pc.bitfield.bits i) + ((pc.bitfield.set index).bits i).toNat := by
      rw [hr, hrar, Bitfield.set]
      by_cases hi : i = index
      · subst hi
        simp [hbit]
      · simp [hi]
    refine .ite (fun hall ↦ ?_) fun hall ↦ ?_
    · have hpos : (s.increment fun i ↦ decide (i = index)).accounted ≠ 0 := fun h0 ↦ by
        simp only [increment] at h0
        simp [h0] at haccounted
      have hsub := toNat_sub_one hpos
      have hone (i : Fin n) : ((pc.bitfield.set index).bits i).toNat = 1 := by
        rw [isAllSet_iff.mp hall i, toNat_true]
      rw [if_neg hpos]
      obtain ⟨hw', hr'⟩ := decrement_spec (fun _ ↦ true) fun i _ ↦ by rw [hset, hone]; exact succ_pos _
      refine ⟨⟨fun i ↦ ?_, ?_, ?_, ?_, hw'.trans (hw.trans h.unwrapped)⟩, rfl, rfl⟩
      · have h₁ := hr' i
        have h₂ := hset i
        rw [hone] at h₂
        simp only [toNat_true, countP_cons, isAccounted, hall] at h₁ h₂ ⊢
        simp
        exact add_right_cancel (h₁.trans h₂)
      · simp [decrement, increment, hnext, hcomplete, countedComplete, hu, hall]
      · simp only [decrement, increment, countP_cons, isAccounted, hall]
        simp
        exact add_right_cancel (hsub.trans haccounted)
      have := h.accounted_le
      simp only [decrement, increment] at hsub ⊢
      omega
    · refine ⟨⟨fun i ↦ ?_, ?_, ?_, h.accounted_le, hw.trans h.unwrapped⟩, rfl, rfl⟩
      · rw [hset, countP_cons]
        cases hi : (pc.bitfield.set index).bits i <;> simp [isAccounted, hu, hall]
      · simp [increment, hcomplete, countedComplete, hall]
      · simp [increment, haccounted, isAccounted, hu, hall]
  · dsimp only at hu
    refine ⟨⟨fun i ↦ ?_, ?_, ?_, h.accounted_le, h.unwrapped⟩, rfl, rfl⟩
    · simp [h.rarity, isAccounted, hu, hall]
    · simp [hnext, hcomplete, countedComplete, hall]
    · simp [h.accounted, isAccounted, hu, hall]
  · dsimp only at hu
    refine ⟨⟨fun i ↦ ?_, ?_, ?_, h.accounted_le, h.unwrapped⟩, rfl, rfl⟩
    · simp [h.rarity, isAccounted, hu]
    · simp [hcomplete, countedComplete, hu]
    · simp [h.accounted, isAccounted, hu]

theorem ensures_receivedHaveChunk (hl : l.length + 1 < 2 ^ 32)
    (hpc : Begun pc) (hbit : pc.bitfield.bits index = false) :
    Gives (s.receivedHaveChunk pc index) fun (s', pc') ↦
      s'.Counts (pc' :: l) ∧ Begun pc' ∧ s'.size = s.size := by
  refine Ensures.bind (ensures_addUnset h hpc (Nat.ne_zero_of_lt index.isLt)) fun ⟨s₁, pc₁⟩ ⟨h₁, hb₁, hs₁⟩ ↦ ?_
  refine Ensures.mono (ensures_countHave h₁ hl (by rwa [hb₁])) fun ⟨s₂, pc₂⟩ ⟨h₂, hb₂, hs₂⟩ ↦ ?_
  refine ⟨h₂, fun _ hunset ↦ ?_, hs₂.trans hs₁⟩
  have := Bitfield.isAllUnset_iff.mp hunset index
  simp [hb₂, Bitfield.set] at this

end ChunkStatistics

namespace Download

variable {n : ℕ} {d : Download n}

open ChunkStatistics

/-- The statistics count the connections, which fit a counter of 32 bits. -/
structure Sound (d : Download n) : Prop where
  counts : d.statistics.Counts d.connections
  begun : ∀ pc ∈ d.connections, Begun pc
  length_lt : d.connections.length < 2 ^ 32
  size : d.statistics.size = if d.isOpen then n else 0

structure Consistent (d : Download n) : Prop extends Sound d where
  isOpen : d.isActive → d.isOpen
  idle : d.isActive = false → d.connections = []

theorem ensures_insert (h : d.Consistent) (bits : Fin n → Bool) : Gives (d.insert bits) Consistent := by
  refine .ite (fun _ ↦ h) fun hactive ↦ .ite (fun _ ↦ h) fun hsize ↦ ?_
  have hlt : d.connections.length + 1 < 2 ^ 32 := by
    have := d.maxSize.toNat_lt
    omega
  refine Ensures.bind (ensures_receivedConnect h.counts hlt rfl) fun ⟨s, pc⟩ ⟨hcounts, hbegun, hs⟩ ↦ ?_
  refine ⟨⟨hcounts.perm (perm_append_singleton pc _).symm, ?_, ?_, ?_⟩, h.isOpen, ?_⟩
  · intro pc' hpc'
    rcases mem_append.mp hpc' with hmem | hmem
    · exact h.begun pc' hmem
    · rwa [mem_singleton.mp hmem]
  · simpa using hlt
  · exact hs.trans h.size
  intro hidle
  dsimp only at hidle
  simp [hidle] at hactive

theorem ensures_erase (h : d.Sound) (k : ℕ) :
    Gives (d.erase k) fun d' ↦ d'.Sound ∧ d'.isOpen = d.isOpen ∧ d'.isActive = d.isActive ∧
      d'.connections.length = if k < d.connections.length then d.connections.length - 1 else d.connections.length := by
  rw [erase]
  split
  case h_1 pc back hpc hback =>
    have hperm := Lib.Store.perm_dropLast_set hpc hback
    obtain ⟨hk, -⟩ := List.getElem?_eq_some_iff.mp hpc
    refine Ensures.bind (ensures_receivedDisconnect (h.counts.perm hperm)) fun ⟨s, pc'⟩ ⟨hcounts, hs⟩ ↦ ?_
    refine ⟨⟨hcounts, fun pc hpc ↦ ?_, ?_, hs.trans h.size⟩, rfl, rfl, ?_⟩
    · exact h.begun pc (hperm.mem_iff.mpr (mem_cons_of_mem _ hpc))
    · have := h.length_lt
      simp only [length_dropLast, length_set]
      omega
    · simp [hk]
  case h_2 hnone =>
    refine ⟨h, rfl, rfl, ?_⟩
    rw [if_neg]
    intro hk
    have hne : d.connections ≠ [] := ne_nil_of_length_pos (by omega)
    exact hnone _ _ (List.getElem?_eq_getElem hk) (List.getLast?_eq_some_getLast hne)

theorem ensures_readHaveChunk (h : d.Sound) (k index : ℕ) :
    Gives (d.readHaveChunk k index) fun d' ↦ d'.Sound ∧ d'.isOpen = d.isOpen ∧
      d'.isActive = d.isActive ∧ d'.connections.length ≤ d.connections.length := by
  rw [readHaveChunk]
  split
  case h_1 => exact ⟨h, rfl, rfl, le_rfl⟩
  case h_2 pc hpc =>
    split
    case isTrue hindex =>
      refine .ite (fun _ ↦ ⟨h, rfl, rfl, le_rfl⟩) fun hbit ↦ ?_
      obtain ⟨l, hl, hset⟩ : ∃ l, d.connections.Perm (pc :: l) ∧ ∀ pc', (d.connections.set k pc').Perm (pc' :: l) := by
        obtain ⟨hk, rfl⟩ := List.getElem?_eq_some_iff.mp hpc
        exact ⟨_, (getElem_cons_eraseIdx_perm hk).symm, set_perm_cons_eraseIdx hk⟩
      have hlt : l.length + 1 < 2 ^ 32 := by simpa [hl.length_eq] using h.length_lt
      have hpc' := h.begun pc (hl.mem_iff.mpr mem_cons_self)
      refine Ensures.bind (ensures_receivedHaveChunk (h.counts.perm hl) hlt hpc' (by simpa using hbit))
        fun ⟨s, pc'⟩ ⟨hcounts, hbegun, hs⟩ ↦ ?_
      refine ⟨⟨hcounts.perm (hset pc').symm, fun q hq ↦ ?_, by simpa using h.length_lt, hs.trans h.size⟩,
        rfl, rfl, by simp⟩
      rcases mem_cons.mp ((hset pc').mem_iff.mp hq) with rfl | hq
      · exact hbegun
      · exact h.begun q (hl.mem_iff.mpr (mem_cons_of_mem _ hq))
    case isFalse =>
      refine Ensures.mono (ensures_erase h k) fun d' ⟨hd, ho, ha, hlen⟩ ↦ ⟨hd, ho, ha, ?_⟩
      rw [hlen]
      split_ifs <;> omega

theorem ensures_stop (h : d.Consistent) : Gives d.stop fun d' ↦ d'.Consistent ∧ d'.isActive = false := by
  refine .ite (fun hidle ↦ ⟨h, by simpa using hidle⟩) fun _ ↦ ?_
  let inv (l : List (PeerChunks n)) (d : Download n) : Prop :=
    d.Sound ∧ d.isActive = false ∧ d.connections.length = l.length
  have hstep (pc : PeerChunks n) (l : List (PeerChunks n)) (d : Download n) (hd : inv (pc :: l) d) :
      Gives (d.erase (d.connections.length - 1)) (inv l) := by
    obtain ⟨hd, ha, hlen⟩ := hd
    refine (ensures_erase hd _).mono fun d' ⟨hd', _, ha', hlen'⟩ ↦ ⟨hd', ha'.trans ha, ?_⟩
    rw [hlen', hlen]
    simp
  have hstart : inv d.connections { d with isActive := false } :=
    ⟨⟨h.counts, h.begun, h.length_lt, h.size⟩, rfl, rfl⟩
  refine (ensures_forEach hstep d.connections hstart).mono fun d' ⟨hd, ha, hlen⟩ ↦
    ⟨⟨hd, fun hactive ↦ ?_, fun _ ↦ length_eq_zero_iff.mp hlen⟩, ha⟩
  rw [ha] at hactive
  cases hactive

theorem Counts.nil {s : ChunkStatistics n} (h : s.Counts []) : s.complete = 0 ∧ s.accounted = 0 ∧ ∀ i, s.rarity i = 0 :=
  ⟨UInt32.toNat.inj h.complete, UInt32.toNat.inj h.accounted, fun i ↦ UInt8.toNat.inj (h.rarity i)⟩

theorem ensures_close (h : d.Consistent) : Gives d.close Consistent := by
  refine Ensures.bind (ensures_stop h) fun d ⟨h, ha⟩ ↦ ?_
  refine .either h ?_
  have hnil := h.idle ha
  have hcounts := h.counts
  rw [hnil] at hcounts
  have hclear : d.statistics.clear = .ok { d.statistics with size := 0 } := by
    simp [clear, (Counts.nil hcounts).1]
  rw [hclear]
  refine ⟨⟨⟨h.counts.rarity, h.counts.complete, h.counts.accounted, h.counts.accounted_le, h.counts.unwrapped⟩,
    h.begun, h.length_lt, rfl⟩, fun hactive ↦ ?_, fun _ ↦ hnil⟩
  simp [ha] at hactive

theorem ensures_openUp (h : d.Consistent) : Gives d.openUp Consistent := by
  refine .ite (fun _ ↦ h) fun hopen ↦ ?_
  have hclosed : d.isOpen = false := by simpa using hopen
  have hidle : d.isActive = false := by
    by_contra ha
    exact hopen (h.isOpen (by simpa using ha))
  have hnil := h.idle hidle
  have hcounts := h.counts
  rw [hnil] at hcounts
  have hinit : d.statistics.initializeTo n = .ok { d.statistics with size := n, rarity := fun _ ↦ 0 } := by
    simp [initializeTo, h.size, hclosed]
  rw [hinit]
  refine ⟨⟨?_, h.begun, h.length_lt, rfl⟩, fun _ ↦ rfl, fun _ ↦ hnil⟩
  rw [hnil]
  exact ⟨fun _ ↦ rfl, hcounts.complete, hcounts.accounted, hcounts.accounted_le, hcounts.unwrapped⟩

theorem ensures_step (e : Event n) (h : d.Consistent) : Ensures (fun _ ↦ True) (step e d) Consistent := by
  cases e with
  | setMaxSize v =>
    rw [step, ensures_ok, setMaxSize]
    split_ifs
    · exact h
    · exact ⟨⟨h.counts, h.begun, h.length_lt, h.size⟩, h.isOpen, h.idle⟩
    · exact ⟨⟨h.counts, h.begun, h.length_lt, h.size⟩, h.isOpen, h.idle⟩
  | openUp => exact ensures_openUp h
  | start =>
    rw [step, ensures_ok, start]
    split_ifs with ho
    · exact ⟨⟨h.counts, h.begun, h.length_lt, h.size⟩, fun _ ↦ ho, fun hidle ↦ by cases hidle⟩
    · exact h
  | stop => exact (ensures_stop h).mono fun _ hd ↦ hd.1
  | close => exact ensures_close h
  | connect bits => exact ensures_insert h bits
  | haveChunk peer index =>
    refine (ensures_readHaveChunk h.toSound peer index).mono fun d' ⟨hd, ho, ha, hlen⟩ ↦
      ⟨hd, by rw [ho, ha]; exact h.isOpen, fun hidle ↦ ?_⟩
    rw [h.idle (ha ▸ hidle)] at hlen
    exact length_eq_zero_iff.mp (le_zero.mp hlen)
  | disconnect peer =>
    refine (ensures_erase h.toSound peer).mono fun d' ⟨hd, ho, ha, hlen⟩ ↦
      ⟨hd, by rw [ho, ha]; exact h.isOpen, fun hidle ↦ ?_⟩
    rw [h.idle (ha ▸ hidle)] at hlen
    exact length_eq_zero_iff.mp (by simpa using hlen)

theorem consistent_fresh : (fresh n).Consistent :=
  ⟨⟨⟨fun _ ↦ rfl, rfl, rfl, zero_le _, rfl⟩, by simp [fresh], by simp [fresh], rfl⟩, by simp [fresh], fun _ ↦ rfl⟩

/-- After any events, the statistics are the counts over the connections, no entry has
wrapped, and no check of them has failed. -/
theorem run_statistics (es : List (Event n)) :
    ∃ d, run es = .ok d ∧ d.statistics.accounted.toNat ≤ 255 ∧ d.statistics.wrapped = false ∧
      d.statistics.accounted.toNat = d.connections.countP isAccounted ∧
      d.statistics.complete.toNat = d.connections.countP countedComplete ∧
      ∀ i, (d.statistics.rarity i).toNat = d.connections.countP fun pc ↦ pc.isAccounted && pc.bitfield.bits i := by
  have hrun : Gives (run es) Consistent :=
    ensures_forEach_inv (fun e _ h ↦ ensures_step e h) es consistent_fresh
  cases hr : run es with
  | ok d =>
    have h : d.Consistent := hrun.of_ok hr
    exact ⟨d, rfl, h.counts.accounted_le, h.counts.unwrapped, h.counts.accounted, h.counts.complete, h.counts.rarity⟩
  | error e =>
    rw [hr] at hrun
    exact absurd trivial hrun

end Download

end LibTorrent
