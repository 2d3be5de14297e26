import LibTorrent.Transfer.Downloading

namespace LibTorrent

open Function Lib.Outcome Lib.Store List World

variable {H C : Prop} {w w' : World} {φ : ℕ → Phase} {b p t : ℕ} {x : BlockTransfer}
variable {φ' : ℕ → Phase} {length : UInt32} {same : Bool}

theorem Accounts.consistent (h : Accounts H C w.slots w.buckets w φ)
    (ha : Calm H C w φ w' φ') : Consistent H C w' :=
  ⟨φ', by rw [ha.kept.slots, ha.kept.buckets]; exact h.stay ha⟩

theorem World.mem_slots (ht : (w.requests p).transfer = some t) : t ∈ w.slots p := by
  simp [slots, RequestList.slots, ht]

section

variable (h : Accounts H C w.slots w.buckets w φ) (ht : (w.requests p).transfer = some t)
include h ht

theorem Accounts.not_mem_buckets : t ∉ w.buckets p := by
  have hn := h.nodup p
  rw [slots, RequestList.slots, ht] at hn
  exact (nodup_cons.mp hn).1

theorem ensures_downChunkProcess : Safely H (downChunkProcess p length w) (Consistent H C) := by
  have hslot := mem_slots ht
  obtain ⟨x, hx, -⟩ := h.alive hslot
  unfold downChunkProcess
  rw [ht]
  dsimp only
  rw [get_eq hx, ok_bind]
  exact (ensures_adjustPosition h.tracks h.balanced (h.held p t hslot)).mono fun w' h' ↦ h.consistent h'

end

theorem ensures_isTransfering (h : Tracks w φ) : Safely H (Block.isTransfering b w) fun _ ↦ True := by
  rw [Block.isTransfering]
  cases hl : (w.blocks b).leader with
  | none => trivial
  | some l =>
    have hφ := ((h.placed l).leader b).mp hl
    obtain ⟨x, hx, -⟩ := h.alive l (by rcases hφ with hφ | hφ <;> simp [hφ])
    simp [get_eq hx, Except.map]

theorem Advance.of_not {g k : ℕ → Prop} (h : Advance H False g k w φ w' φ') (hC : ¬ C) :
    Advance H C g k w φ w' φ' :=
  ⟨h.tracks, h.balanced, h.held, h.rest, fun hc ↦ absurd hc hC, h.home, h.peer, h.fresh, h.kept⟩

section

variable (h : Accounts H C w.slots w.buckets w φ)
include h

theorem ensures_dissimilar (ht : (w.requests p).transfer = some t) (hφ : φ t = .waiting b) (hC : ¬ C) :
    Safely H (RequestList.transferDissimilar p w) fun w' ↦
      ∃ φ', Accounts H C w'.slots w'.buckets w' φ' ∧ ∃ d, (w'.requests p).transfer = some d := by
  have hslots : w.slots p = t :: w.buckets p := by rw [slots, RequestList.slots, ht]; rfl
  obtain ⟨x, hx, hb, -⟩ := h.alive (mem_slots ht)
  rw [hφ] at hb
  unfold RequestList.transferDissimilar
  rw [ht]
  dsimp only
  rw [get_eq hx, ok_bind]
  refine (ensures_createDummy h.tracks h.balanced).bind ?_
  rintro ⟨d, w₁⟩ ⟨hd, ha⟩
  have hne : t ≠ w.next := (h.tracks.lt_next t (by simp [hφ])).ne
  have h₁ := h.allocate ha trivial (by simp [Phase.Leftover])
    (fun c hc ↦ by simp [Phase.home] at hc) (.refl _) (fun s hs ↦ .inl hs) (fun s hs ↦ hs) (fun _ ↦ by simp)
  rw [hb]
  refine (ensures_transferDissimilar ha.tracks ha.balanced (by rw [update_of_ne hne, hφ])).bind ?_
  intro w₂ h₂
  have h₃ := h₁.shrink (s := w.next :: w.buckets p) (b := w.buckets p) (p := p)
    ((h₂.of_not hC).congr (fun s ↦ mem_singleton.symm) fun _ ↦ id) ?_ (fun _ hf ↦ hf.elim) (fun s hs ↦ ?_) (fun s hs ↦ ?_)
  · refine .ok
      ⟨update (update φ w.next .detached) t (.dissimilar b), ?_, d, by simp⟩
    rw [slots_setRequests, buckets_setRequests, h₂.kept.requests_eq, h₂.kept.slots, h₂.kept.buckets,
      ha.kept.requests_eq, ha.kept.slots, ha.kept.buckets, hd]
    rw [update_idem, update_idem] at h₃
    exact h₃.of_requests _
  · rw [update_self, hslots]
    exact .swap t w.next _
  · rw [update_self]
    exact ⟨hs, mem_cons_of_mem _ hs, id⟩
  · rw [update_self] at hs
    exact .inr (.inl hs)

theorem Accounts.waiting (ht : (w.requests p).transfer = some t)
    (hx : w.heap t = some x) (hb : x.block = some b) (hs : x.state ≠ .leader) : φ t = .waiting b := by
  rcases h.tracks.phase_of_block hx hb with hφ | hφ | hφ
  · exact absurd hφ (h.started p t (mem_slots ht) (h.not_mem_buckets ht) b)
  · exact hφ
  obtain ⟨y, hy, -, hf⟩ := h.alive (mem_slots ht)
  rw [hφ] at hf
  exact absurd (Option.mem_unique hx hy ▸ hf) hs

theorem ensures_downChunkSkipProcess
    (ht : (w.requests p).transfer = some t) (hx : w.heap t = some x) (hs : x.state ≠ .leader)
    (hC : C → same = true ∨ x.block = none) :
    Safely H (downChunkSkipProcess p length same w) (Consistent H C) := by
  have hheld := h.held p t (mem_slots ht)
  unfold downChunkSkipProcess
  rw [ht]
  dsimp only
  rw [get_eq hx, ok_bind]
  cases hb : x.block with
  | none => exact (ensures_adjustPosition h.tracks h.balanced hheld).mono fun w' h' ↦ h.consistent h'
  | some b =>
    have hφ := h.waiting ht hx hb hs
    refine (ensures_isTransfering h.tracks).bind fun active _ ↦ ?_
    split_ifs with hactive hpast hsame hall
    · simp [Bad, stallFault]
    · simp [Bad, stallFault]
    · have hnot : ¬ C := fun hc ↦ by
        rcases hC hc with hc | hc
        · rw [hsame] at hc
          exact absurd hc (by simp)
        · rw [hb] at hc
          exact absurd hc (by simp)
      refine (ensures_dissimilar h ht hφ hnot).bind ?_
      rintro w₁ ⟨φ₁, h₁, dummy, hd⟩
      rw [hd]
      exact (ensures_adjustPosition h₁.tracks h₁.balanced (h₁.held p dummy (mem_slots hd))).mono
        fun w' h' ↦ h₁.consistent h'
    · exact (ensures_adjustPosition h.tracks h.balanced hheld).bind fun w' h' ↦ h.consistent h'
    · refine (ensures_adjustPosition (C := C) h.tracks h.balanced hheld).bind fun w₁ h₁ ↦ ?_
      refine (ensures_changeLeader (C := C) h₁.tracks h₁.balanced hφ).bind ?_
      rintro w₂ ⟨φ₂, h₂⟩
      have hall : Accounts H C w₂.slots w₂.buckets w₂ φ₂ := by
        rw [h₂.kept.slots, h₂.kept.buckets, h₁.kept.slots, h₁.kept.buckets]
        exact (h.stay h₁).stay h₂
      exact ensures_downChunkProcess hall (by rw [h₂.kept.requests_eq, h₁.kept.requests_eq, ht])

theorem ensures_finished
    (hcare : H → ∀ t x b, (w.requests p).transfer = some t → w.heap t = some x → x.block = some b →
      DissimilarStalled w φ b) :
    Safely H (RequestList.finished p w) (Consistent H C) := by
  unfold RequestList.finished
  cases ht : (w.requests p).transfer with
  | none => simp [Bad, stallFault]
  | some t =>
    obtain ⟨x, hx, -⟩ := h.alive (mem_slots ht)
    dsimp only
    rw [get_eq hx, ok_bind]
    cases hb : x.block with
    | none => simp [Bad, stallFault]
    | some b =>
      have h₀ := h.of_requests (p := p) { w.requests p with transfer := none }
      refine (ensures_completed (C := C) h₀.tracks h₀.balanced hx hb fun hH ↦ hcare hH t x b ht hx hb).bind ?_
      rintro ⟨_, w₁⟩ ⟨φ₁, h₁⟩
      refine .ok ⟨φ₁, ?_⟩
      rw [h₁.kept.slots, h₁.kept.buckets, slots_setRequests, buckets_setRequests]
      rw [← update_eq_self p w.buckets] at h₀
      have hbuckets : update w.buckets p { w.requests p with transfer := none }.buckets = w.buckets :=
        update_eq_self p w.buckets
      rw [hbuckets]
      exact h₀.drop (fun _ ↦ id) (fun _ ↦ .inl) ht h₁

theorem ensures_destroyList (hcare : H → ∀ b < w.size, DissimilarStalled w φ b) :
    Safely H (BlockList.destroy w) (Consistent H C) := by
  rw [BlockList.destroy]
  split_ifs
  · simp [Bad, stallFault]
  refine (ensures_forEach_destroy (C := C) h.tracks h.balanced fun hH b hb ↦ hcare hH b (mem_range.mp hb)).bind ?_
  rintro w₁ ⟨φ₁, h₁, hout⟩
  have hall : Accounts H C w₁.slots w₁.buckets w₁ φ₁ := by
    rw [h₁.kept.slots, h₁.kept.buckets]
    exact h.stay h₁
  have hnone : ∀ t b, (φ₁ t).home ≠ some b := fun t b hc ↦ by
    have hlt := (hall.small t b hc).1
    rw [h₁.kept.size] at hlt
    exact hout b (mem_range.mpr hlt) t hc
  have htracks : Tracks { w₁ with present := false } φ₁ := ⟨fun s ↦ ⟨(hall.tracks.placed s).shows,
    (hall.tracks.placed s).queued, (hall.tracks.placed s).transfers, (hall.tracks.placed s).leader⟩,
    hall.tracks.settled, hall.tracks.next⟩
  exact ⟨φ₁, htracks, hall.balanced, hall.clean, fun t b hc ↦ absurd hc (hnone t b), hall.nodup, hall.held, hall.peer,
    hall.owned, hall.bucket, hall.started⟩

end

def ErasedStalled (w : World) (b : ℕ) : Prop :=
  ∀ t ∈ (w.blocks b).transfers, ∀ x, w.heap t = some x → x.state = .erased → x.stall ≠ 0

theorem ErasedStalled.dissimilar (h : ErasedStalled w b) (ht : Tracks w φ) : DissimilarStalled w φ b := by
  intro s hs x hx
  obtain ⟨y, hy, -, -, hf⟩ := ht.alive s (by simp [hs])
  obtain rfl : x = y := Option.mem_unique hx hy
  have hact : (φ s).active = some b := by rw [hs]; rfl
  exact h s (((ht.placed s).transfers b).mpr hact) x hx ((hf.state hact).2.mpr hs)

/-- The peer's transfer leads block `b`, and no transfer waits to follow it. -/
def LeadsAlone (w : World) (p b : ℕ) : Prop :=
  ∃ t, (w.requests p).transfer = some t ∧ (w.blocks b).leader = some t ∧
    ∀ s ∈ (w.blocks b).transfers, w.isState .notLeader s = false

def Careful : Action → World → Prop
  | .delegate _ bs, w => ∀ b ∈ bs, (w.blocks b).notStalled.toNat + bs.length < 2 ^ 32
  | .stallInitial p, w | .stallProlonged p, w => RoomToStall w p
  | .finished p, w => ∀ t x b, (w.requests p).transfer = some t → w.heap t = some x → x.block = some b →
    ErasedStalled w b
  | .skipped p, w | .clear p, w => ∀ b, LeadsAlone w p b → ErasedStalled w b
  | .destroy, w => ∀ b < w.size, ErasedStalled w b
  | _, _ => True

/-- What leaves no transfer over: data is never dissimilar and the hash never wrong. -/
def Tidy : Action → World → Prop
  | .skipProcess p _ same, w => same = true ∨
    ∀ t x, (w.requests p).transfer = some t → w.heap t = some x → x.state = .leader ∨ x.block = none
  | .doAllFailed, w => ∃ b < w.size, (w.blocks b).state ≠ .completed
  | _, _ => True

theorem Accounts.care (h : Accounts H C w.slots w.buckets w φ) (hcare : ∀ b, LeadsAlone w p b → ErasedStalled w b)
    (t b : ℕ) (ht : (w.requests p).transfer = some t) (hφ : φ t = .leading b) (hw : ∀ s, φ s ≠ .waiting b) :
    DissimilarStalled w φ b := by
  refine (hcare b ⟨t, ht, ((h.tracks.placed t).leader b).mpr (.inl hφ), fun s hs ↦ ?_⟩).dissimilar h.tracks
  obtain ⟨hact, -⟩ := h.tracks.mem_transfers hs
  obtain ⟨x, hx, -, -, hf⟩ := h.tracks.alive s (fun hfree ↦ by simp [hfree, Phase.active] at hact)
  rw [isState_eq hx, decide_eq_false_iff_not]
  exact fun hc ↦ hw s ((hf.state hact).1.mp hc)

theorem ensures_step_downloading {piece : Piece} (h : Consistent H C w) :
    Safely H (step (.downloading p piece) w) (Consistent H C) := by
  refine (ensures_downloading h).bind fun ⟨started, w₁⟩ hafter ↦ ?_
  cases started with
  | wanted | unwanted => exact hafter
  | wrongLength =>
    obtain ⟨t, φ, ht, hacc⟩ := hafter
    -- the transfer never started, so that it does not lead
    have hrest := (hacc.bucket p t (by rw [update_self]; exact mem_cons_self)).2
    refine ensures_clear hacc (fun s hs ↦ mem_cons_of_mem t hs) (fun s hs ↦ ?_) fun _ s b hs hφ ↦ ?_
    · rcases mem_cons.mp hs with hs | hs
      · exact .inr (hs ▸ ht)
      · exact .inl hs
    obtain rfl : t = s := Option.mem_unique ht hs
    rw [hφ] at hrest
    exact hrest.elim

theorem ensures_step_process (h : Consistent H C w) : Safely H (step (.process p length) w) (Consistent H C) := by
  cases ht : (w.requests p).transfer with
  | none =>
    simp only [step, ht]
    exact h
  | some t =>
    have hcons := h
    obtain ⟨φ, hφ⟩ := h
    obtain ⟨x, hx, -⟩ := hφ.alive (mem_slots ht)
    simp only [step, ht, get_eq hx, ok_bind]
    split_ifs
    · exact ensures_downChunkProcess hφ ht
    · exact hcons

theorem ensures_step_skipProcess (h : Consistent H C w) (htidy : C → Tidy (.skipProcess p length same) w) :
    Safely H (step (.skipProcess p length same) w) (Consistent H C) := by
  cases ht : (w.requests p).transfer with
  | none =>
    simp only [step, ht]
    exact h
  | some t =>
    have hcons := h
    obtain ⟨φ, hφ⟩ := h
    obtain ⟨x, hx, -⟩ := hφ.alive (mem_slots ht)
    simp only [step, ht, get_eq hx, ok_bind]
    split_ifs with hs
    · exact hcons
    · refine ensures_downChunkSkipProcess hφ ht hx hs fun hC ↦ ?_
      exact (htidy hC).imp_right fun hall ↦ (hall t x ht hx).resolve_left hs

theorem ensures_step_doAllFailed (h : Consistent H C w) (htidy : C → Tidy .doAllFailed w) :
    Safely H (step .doAllFailed w) (Consistent H C) := by
  rw [step]
  split_ifs with hall
  · simp only [all_eq_true, mem_range, decide_eq_true_eq] at hall
    have hnot : ¬ C := fun hC ↦ by
      obtain ⟨b, hb, hne⟩ := htidy hC
      exact hne (hall b hb)
    obtain ⟨φ, hφ⟩ := h
    exact (ensures_doAllFailed hφ.tracks hφ.balanced hall fun t b hb ↦ (hφ.small t b hb).1).mono
      fun w' h' ↦ hφ.consistent (h'.of_not hnot)
  · exact h

theorem ensures_step (a : Action) (h : Consistent H C w) (hcare : H → Careful a w) (htidy : C → Tidy a w) :
    Safely H (step a w) (Consistent H C) := by
  have hcons := h
  obtain ⟨φ, hφ⟩ := h
  cases a with
  | delegate p bs =>
    rw [step]
    split_ifs with hpresent
    · refine ensures_delegate hcons (fun b hb ↦ ?_) hpresent fun hH b hb ↦ ?_
      · simpa using (mem_filter.mp hb).2
      have hroom := hcare hH b (mem_filter.mp hb).1
      have hlen := length_filter_le (· < w.size) bs
      omega
    · exact hcons
  | stallInitial p => exact ensures_stallQueues hcons fun hH t ht ↦ hcare hH t (mem_append_right _ ht)
  | stallProlonged p => exact ensures_stallProlonged hcons hcare
  | choked p => exact ensures_choked hcons
  | delayRemoveChoked p => exact (ensures_destroy hcons .choked _).mono fun w' h' ↦ h'.1
  | delayProcessUnordered p => exact ensures_delayProcessUnordered hcons
  | downloading p piece => exact ensures_step_downloading hcons
  | process p length => exact ensures_step_process hcons
  | skipProcess p length same => exact ensures_step_skipProcess hcons htidy
  | finished p =>
    exact ensures_finished hφ fun hH t x b ht hx hb ↦ (hcare hH t x b ht hx hb).dissimilar hφ.tracks
  | skipped p =>
    refine ensures_skipped ?_ (fun _ ↦ id) (fun _ ↦ .inl) fun hH ↦ hφ.care (hcare hH)
    rwa [update_eq_self]
  | clear p =>
    refine ensures_clear ?_ (fun _ ↦ id) (fun _ ↦ .inl) fun hH ↦ hφ.care (hcare hH)
    rwa [update_eq_self]
  | connection p connected =>
    refine hφ.consistent (Advance.touch hφ.tracks (fun _ _ ↦ rfl) (hφ.tracks.placed 0).shows rfl (fun _ ↦ rfl) rfl
      (Kept.setPeer rfl) hφ.balanced)
  | doAllFailed => exact ensures_step_doAllFailed hcons htidy
  | destroy => exact ensures_destroyList hφ fun hH b hb ↦ (hcare hH b hb).dissimilar hφ.tracks

variable {w : World} {b : ℕ}

theorem consistent_start (pieces : List Piece) (counters : ℕ → ℕ) (connected : ℕ → Bool) :
    Consistent H C (start pieces counters connected) := by
  refine ⟨fun _ ↦ .free, ⟨fun t ↦ ⟨rfl, fun b ↦ ?_, fun b ↦ ?_, fun b ↦ ?_⟩, fun b ↦ ⟨?_, ?_, ?_, ?_, ?_⟩, fun _ _ ↦ rfl⟩,
    fun _ b ↦ ?_, fun _ _ ↦ ?_, ?_, fun p ↦ ?_, ?_, ?_, ?_, ?_, ?_⟩
  all_goals simp [start, slots, buckets, requests, RequestList.slots, RequestList.buckets,
    Phase.active, Phase.Leftover, Phase.home, Phase.Held, tally]

def World.freshCount (w : World) (b : ℕ) : ℕ :=
  ((w.blocks b).queued ++ (w.blocks b).transfers).countP fun t ↦ (w.heap t).any (Fresh b)

theorem Consistent.notStalled_eq (h : Consistent True C w) : (w.blocks b).notStalled.toNat = w.freshCount b := by
  obtain ⟨φ, hφ⟩ := h
  have ht := hφ.tracks
  have hbal := hφ.balanced trivial b
  rw [← Nat.add_zero (w.blocks b).notStalled.toNat, hbal, freshCount]
  apply tally_eq_countP
  · refine List.nodup_append.mpr ⟨(ht.settled b).nodupQueued, (ht.settled b).nodupTransfers, fun s hs u hu hsu ↦ ?_⟩
    exact (ht.mem_queued hs).2.1 (hsu ▸ hu)
  · intro s hs
    rcases List.mem_append.mp hs with hs | hs
    · exact (ht.mem_queued hs).2.2.2.1
    · exact (ht.mem_transfers hs).2.2
  intro s hs
  cases hx : w.heap s with
  | none => simp [hx] at hs
  | some x =>
    have hb : x.block = some b := by
      rw [hx] at hs
      simpa [Fresh] using (decide_eq_true_eq.mp hs).1
    rw [List.mem_append, ← ht.home_iff]
    rcases ht.phase_of_block hx hb with hφ | hφ | hφ <;> rw [hφ] <;> rfl

/-- In a run whose steps are careful, the counter of every block is the number of its
transfers that have not stalled, and the checks of the counter never fail. -/
theorem run_notStalled (pieces : List Piece) (counters : ℕ → ℕ) (connected : ℕ → Bool) (as : List Action)
    (h : Along step Careful as (start pieces counters connected)) :
    Ensures stallFault (run as (start pieces counters connected)) fun w ↦
      ∀ b, (w.blocks b).notStalled.toNat = w.freshCount b := by
  have hrun : Ensures (Bad True) (forEach step as (start pieces counters connected)) (Consistent True False) :=
    ensures_forEach_along (fun a w hw ha ↦ ensures_step a hw (fun _ ↦ ha) fun hf ↦ hf.elim) as
      (consistent_start pieces counters connected) h
  rw [run]
  cases hr : forEach step as (start pieces counters connected) with
  | ok w =>
    rw [hr] at hrun
    exact fun b ↦ Consistent.notStalled_eq hrun
  | error e =>
    rw [hr] at hrun
    exact fun hs ↦ hrun (.inr ⟨trivial, hs⟩)

theorem run_notStalled_request : Ensures stallFault
      (run [.delegate 0 [0], .delegate 1 [0], .downloading 0 ⟨0, 0, 4⟩]
        (start [⟨0, 0, 4⟩] (fun _ ↦ 0) fun _ ↦ true)) fun w ↦
      ∀ b, (w.blocks b).notStalled.toNat = w.freshCount b := by
  apply run_notStalled
  refine ⟨?_, fun w hw ↦ ⟨?_, fun _ _ ↦ ⟨trivial, fun _ _ ↦ trivial⟩⟩⟩
  · simp [Careful, start]
  cases hw
  intro b hb
  obtain rfl := List.mem_singleton.mp hb
  decide

/-- A transfer with dissimilar data that has not stalled is still in the list when the block
completes, and giving it up finds the counter at zero. -/
theorem run_notStalled_dissimilar :
    ∃ e, run [.delegate 0 [0], .delegate 1 [0], .downloading 0 ⟨0, 0, 4⟩, .downloading 1 ⟨0, 0, 4⟩, .process 0 2,
        .skipProcess 1 1 false, .process 0 2, .finished 0] (start [⟨0, 0, 4⟩] (fun _ ↦ 0) fun _ ↦ true) = .error e ∧
      stallFault e :=
  ⟨.internal "Block::invalidate_transfer(...) m_notStalled == 0.", rfl, .inl rfl⟩

end LibTorrent
