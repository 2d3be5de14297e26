import LibTorrent.Transfer.Erase

namespace LibTorrent

open Function Lib.Outcome Option Phase World

/-- What becomes of a transfer that its block gives up. The peer of one that completed the
block is dropped first, so that it is freed. -/
def Phase.givenUp : Phase → Phase
  | queued _ | waiting _ | leading _ => detached
  | dissimilar _ | stale _ => lost
  | completed _ => free
  | f => f

namespace Phase

variable {f : Phase}

theorem home_givenUp : f.givenUp.home = none := by cases f <;> rfl

theorem held_givenUp : f.givenUp.Held ↔ f.Held := by cases f <;> rfl

theorem resting_givenUp (h : f.Resting) : f.givenUp.Resting := by cases f <;> trivial

theorem leftover_givenUp (h : ¬ f.Leftover) : ¬ f.givenUp.Leftover := by
  cases f <;> first | exact id | exact absurd trivial h

theorem shows_givenUp {x : BlockTransfer} (hhome : f.home = some b) (hp : x.peerInfo ≠ none)
    (hf : f ≠ .completed b) : f.givenUp.Shows (some { x with block := none }) := by
  cases f with
  | queued | waiting | leading | dissimilar | stale => exact ⟨hp, rfl, trivial⟩
  | completed => exact absurd (congrArg completed (some.inj hhome)) hf
  | free | detached | lost => simp [home] at hhome

end Phase

variable {H C : Prop} {gone busy : ℕ → Prop} {w w' : World} {φ φ' : ℕ → Phase} {b t : ℕ} {x : BlockTransfer}

theorem Moved.of_givenUp (h : Tracks w φ) (hhome : (φ t).home = some b)
    (hheap : w'.heap t = if φ t = .completed b then none else (w.heap t).bind givenUp)
    (hq : t ∉ (w'.blocks b).queued) (ht : t ∉ (w'.blocks b).transfers) (hl : (w'.blocks b).leader ≠ some t)
    (hφ' : φ' t = (φ t).givenUp) (hgone : ¬ gone t) : Moved C gone busy b w φ w' φ' t := by
  obtain ⟨x, hx, hp, -, -⟩ := h.alive t (fun hfree ↦ by simp [hfree, Phase.home] at hhome)
  have hout : (φ' t).home ≠ some b := by simp [hφ', home_givenUp]
  obtain ⟨hq', ht', hl'⟩ := elsewhere hout
  refine ⟨hhome, .inl (hφ' ▸ home_givenUp), ?_, iff_of_false hq hq', iff_of_false ht ht',
    iff_of_false hl hl', ?_, ?_, ?_, ?_, fun c hc ↦ ?_⟩
  · rw [hφ', hheap]
    split_ifs with hc
    · rw [hc]; rfl
    · rw [hx, bind_some, LibTorrent.givenUp, if_neg hp]
      exact shows_givenUp hhome hp hc
  · rw [hφ', held_givenUp, and_iff_left hgone]
  · exact fun _ _ hr ↦ hφ' ▸ resting_givenUp hr
  · exact fun _ hr ↦ hφ' ▸ leftover_givenUp hr
  · intro hheld
    have hc : φ t ≠ .completed b := fun hc ↦ by simp [hφ', hc, Phase.givenUp, Phase.Held] at hheld
    simp [hheap, hc, hx, LibTorrent.givenUp, hp]
  have hnone := home_givenUp (f := φ t)
  rw [← hφ', hc] at hnone
  simp [Phase.home] at hnone

theorem ensures_countFinished (h : Tracks w φ) (n : ℕ) : Safely H (Block.countFinished w n) fun _ ↦ True := by
  induction n with
  | zero => trivial
  | succ n ih => exact (ensures_isFinished h).bind fun f _ ↦ ih.bind fun k _ ↦ trivial

def completedPhase (b t : ℕ) (φ : ℕ → Phase) (s : ℕ) : Phase :=
  if s = t then .completed b
  else if φ s = .queued b ∨ φ s = .waiting b ∨ φ s = .dissimilar b then (φ s).givenUp
  else φ s

structure Completed (b t : ℕ) (x : BlockTransfer) (w w' : World) : Prop where
  leader : w'.heap t = some { x with block := none, stall := 0xFFFFFFFF }
  heap : ∀ s ≠ t, w'.heap s =
    if s ∈ (w.blocks b).queued ∨ s ∈ (w.blocks b).transfers ∧ w.isState .leader s = false then
      (w.heap s).bind givenUp
    else w.heap s
  block : w'.blocks b = { w.blocks b with
    state := .completed, queued := [], transfers := (w.blocks b).transfers.filter (w.isState .leader),
    notStalled := (w'.blocks b).notStalled }
  other : ∀ b' ≠ b, w'.blocks b' = w.blocks b'
  next : w'.next = w.next
  kept : Kept w w'

theorem isState_leader_eq_false (h : Tracks w φ) (hs : (φ t).active = some b) :
    w.isState .leader t = false ↔ φ t = .waiting b ∨ φ t = .dissimilar b := by
  obtain ⟨x, hx, -, -, hf⟩ := h.alive t (fun hfree ↦ by simp [hfree, active] at hs)
  rw [isState_eq hx, decide_eq_false_iff_not]
  cases hφ : φ t <;> rw [hφ] at hs hf <;> simp_all [active, Phase.Fits]

theorem Completed.advance (h : Tracks w φ) (hc : Completed b t x w w') (hbal : H → Level w')
    (ht : φ t = .leading b) (hx : w.heap t = some x) (hfin : x.isFinished = true) :
    Sheds H C t w φ w' (completedPhase b t φ) := by
  have hs := h.settled b
  have hleader := ((h.placed t).leader b).mpr (.inl ht)
  have hled : ∀ s, φ s = .leading b ∨ φ s = .completed b → s = t := fun s hφ ↦
    some.inj ((((h.placed s).leader b).mpr hφ).symm.trans hleader)
  have hq' : (w'.blocks b).queued = [] := by rw [hc.block]
  have ht' : (w'.blocks b).transfers = (w.blocks b).transfers.filter (w.isState .leader) := by rw [hc.block]
  have hl' : (w'.blocks b).leader = some t := by rw [hc.block, hleader]
  refine Advance.of_block h hc.other hc.next hc.kept hbal ⟨fun _ _ ↦ ?_, fun s hφ ↦ ?_, fun _ ↦ ?_, ?_, ?_⟩ fun s ↦ ?_
  · rw [hc.block]
  · -- only `t` led the block
    rw [completedPhase] at hφ
    split_ifs at hφ with hst hg
    · rcases hg with hg | hg | hg <;> rw [hg] at hφ <;> simp [Phase.givenUp] at hφ
    · exact absurd (hled s (.inl hφ)) hst
  · simp [hl']
  · simp [hq']
  · rw [ht']
    exact hs.nodupTransfers.filter _
  have hpl := h.placed s
  by_cases hst : s = t
  · right
    subst hst
    obtain ⟨x', hx', hp, -, hf⟩ := h.alive s (by simp [ht])
    obtain rfl : x = x' := mem_unique hx hx'
    rw [ht] at hf hpl
    refine ⟨by rw [ht]; rfl, ?_, ?_, ?_, ?_, ?_, ?_, ?_, ?_, ?_, fun c ↦ ?_⟩
    all_goals rw [completedPhase, if_pos rfl]
    · exact .inr rfl
    · rw [hc.leader]
      exact ⟨hp, rfl, hf, by simp, hfin⟩
    · simp [hq']
    · have hstate : w.isState .leader s = true := by
        rw [isState_eq hx]
        exact decide_eq_true hf
      simp [ht', hstate, hpl.transfers, Phase.active]
    · simp [hl']
    · simp [Phase.Held]
    · simp
    · simp [Phase.Leftover]
    · simp [Phase.Held]
    · simp
  · by_cases hg : φ s = .queued b ∨ φ s = .waiting b ∨ φ s = .dissimilar b
    · right
      have hcell : s ∈ (w.blocks b).queued ∨ s ∈ (w.blocks b).transfers ∧ w.isState .leader s = false := by
        rw [hpl.queued, hpl.transfers]
        rcases hg with hg | hg
        · exact .inl hg
        · have hact : (φ s).active = some b := by rcases hg with hg | hg <;> rw [hg] <;> rfl
          exact .inr ⟨hact, (isState_leader_eq_false h hact).mpr hg⟩
      refine Moved.of_givenUp h ?_ ?_ ?_ ?_ ?_ (by rw [completedPhase, if_neg hst, if_pos hg]) hst
      · rcases hg with hg | hg | hg <;> rw [hg] <;> rfl
      · rw [hc.heap s hst, if_pos hcell, if_neg]
        rcases hg with hg | hg | hg <;> simp [hg]
      · simp [hq']
      · rw [ht', List.mem_filter, hpl.transfers]
        rintro ⟨hact, hstate⟩
        rcases hg with hg | hg
        · simp [hg, Phase.active] at hact
        · simp [(isState_leader_eq_false h hact).mpr hg] at hstate
      · simpa [hl'] using Ne.symm hst
    · left
      have hstays : s ∈ (w.blocks b).transfers → w.isState .leader s = true := by
        rw [hpl.transfers]
        intro hact
        refine Bool.not_eq_false _ ▸ fun hstate ↦ hg (.inr ((isState_leader_eq_false h hact).mp hstate))
      refine ⟨by rw [completedPhase, if_neg hst, if_neg hg], ?_, ?_, ?_, ?_, hst⟩
      · rw [hc.heap s hst, if_neg]
        rw [hpl.queued]
        intro hcell
        rcases hcell with hq | ⟨hact, hstate⟩
        · exact hg (.inl hq)
        · simp [hstays hact] at hstate
      · rw [hq', hpl.queued]
        simpa using fun hq ↦ hg (.inl hq)
      · rw [ht', List.mem_filter]
        exact ⟨And.left, fun hact ↦ ⟨hact, hstays hact⟩⟩
      · rw [hl', hleader]

theorem Tracks.mem_queued (h : Tracks w φ) (ht : t ∈ (w.blocks b).queued) :
    φ t = .queued b ∧ t ∉ (w.blocks b).transfers ∧ w.heap t ≠ none ∧ t < w.next ∧
      ∀ x, w.heap t = some x → x.block = some b := by
  have hφ := ((h.placed t).queued b).mp ht
  obtain ⟨x, hx, -, hb, -⟩ := h.alive t (by simp [hφ])
  refine ⟨hφ, fun hc ↦ ?_, by simp [hx], h.lt_next t (by simp [hφ]), fun y hy ↦ ?_⟩
  · rw [(h.placed t).transfers, hφ] at hc
    simp [active] at hc
  obtain rfl : x = y := mem_unique hx hy
  rw [hb, hφ]
  rfl

theorem Tracks.mem_transfers (h : Tracks w φ) (ht : t ∈ (w.blocks b).transfers) :
    (φ t).active = some b ∧ w.heap t ≠ none ∧ t < w.next := by
  have hact := ((h.placed t).transfers b).mp ht
  have hfree : φ t ≠ .free := fun hfree ↦ by simp [hfree, active] at hact
  obtain ⟨x, hx, -⟩ := h.alive t hfree
  exact ⟨hact, by simp [hx], h.lt_next t hfree⟩

structure Emptied (b t : ℕ) (x : BlockTransfer) (w v : World) : Prop where
  leader : v.heap t = some { x with block := none, stall := 0xFFFFFFFF }
  heap : ∀ s ≠ t, v.heap s = if s ∈ (w.blocks b).queued then (w.heap s).bind givenUp else w.heap s
  block : v.blocks b = { w.blocks b with queued := [], notStalled := (v.blocks b).notStalled }
  other : ∀ b' ≠ b, v.blocks b' = w.blocks b'
  next : v.next = w.next
  kept : Kept w v

theorem ensures_emptyQueue {v : World} (h : Tracks w φ) (ht : φ t = .leading b)
    (hheap : v.heap = update w.heap t (some { x with block := none, stall := 0xFFFFFFFF }))
    (hblock : v.blocks b = { w.blocks b with notStalled := (v.blocks b).notStalled })
    (hother : ∀ b' ≠ b, v.blocks b' = w.blocks b') (hnext : v.next = w.next) (hkept : Kept w v)
    (hbal : H → Level v) :
    Safely H (forEach (Block.invalidateTransfer b) (v.blocks b).queued v) fun v' ↦
      Emptied b t x w (v'.setBlock b { v'.blocks b with queued := [] }) ∧
        (H → Level (v'.setBlock b { v'.blocks b with queued := [] })) := by
  have hqueued : (v.blocks b).queued = (w.blocks b).queued := by rw [hblock]
  have hleader : (v.blocks b).leader = some t := by
    rw [hblock]
    exact ((h.placed t).leader b).mpr (.inl ht)
  have hne : ∀ s ∈ (w.blocks b).queued, s ≠ t := fun s hs hst ↦ by
    have := (h.mem_queued hs).1
    rw [hst, ht] at this
    exact absurd this (by simp)
  have hsame : ∀ s ≠ t, v.heap s = w.heap s := fun s hst ↦ by rw [hheap, update_of_ne hst]
  rw [hqueued]
  refine (ensures_forEach_invalidate (h.settled b).nodupQueued ?_ ?_ ?_ hbal ?_).mono fun v' ⟨hi, hbal'⟩ ↦ ⟨?_, ?_⟩
  · intro s hs
    rw [hsame s (hne s hs)]
    exact (h.mem_queued hs).2.2.1
  · intro s hs
    rw [hnext]
    exact (h.mem_queued hs).2.2.2.1
  · intro s hs
    rw [hleader]
    simpa using Ne.symm (hne s hs)
  · intro _ s hs y hy _
    rw [hsame s (hne s hs)] at hy
    exact ⟨(h.mem_queued hs).2.2.2.2 y hy, rfl⟩
  · have htq : t ∉ (w.blocks b).queued := fun hs ↦ hne t hs rfl
    refine ⟨?_, fun s hst ↦ ?_, ?_, fun b' hbb ↦ ?_, hi.next.trans hnext, hkept.trans (hi.kept.trans Kept.setBlock)⟩
    · rw [heap_setBlock, hi.heap, if_neg htq, hheap, update_self]
    · rw [heap_setBlock, hi.heap, hsame s hst]
    · rw [blocks_setBlock, update_self, hi.block, hblock]
    · rw [blocks_setBlock, update_of_ne hbb, hi.other b' hbb, hother b' hbb]
  · exact fun hH ↦ (hbal' hH).of_same rfl (fun b' ↦ by by_cases hb : b' = b <;> simp [hb]) fun _ _ ↦ rfl

theorem ensures_removeNonLeaders {v : World} (h : Tracks w φ) (ht : φ t = .leading b) (hx : w.heap t = some x)
    (he : Emptied b t x w v) (hbal : H → Level v) (hcare : H → DissimilarStalled w φ b) :
    Safely H (Block.removeNonLeaderTransfers b v) fun v' ↦
      Completed b t x w (v'.setBlock b { v'.blocks b with state := .completed }) ∧
        (H → Level (v'.setBlock b { v'.blocks b with state := .completed })) := by
  have htransfers : (v.blocks b).transfers = (w.blocks b).transfers := by rw [he.block]
  have hleader : (v.blocks b).leader = some t := by
    rw [he.block]
    exact ((h.placed t).leader b).mpr (.inl ht)
  have hlead : w.isState .leader t = true := by
    refine Bool.not_eq_false _ ▸ fun hc ↦ ?_
    have := (isState_leader_eq_false h (by rw [ht]; rfl)).mp hc
    simp [ht] at this
  have hsame : ∀ s ∈ (w.blocks b).transfers, s ≠ t → v.heap s = w.heap s := by
    intro s hs hst
    rw [he.heap s hst, if_neg fun hq ↦ (h.mem_queued hq).2.1 hs]
  have hstate : ∀ s ∈ (w.blocks b).transfers, v.isState .leader s = w.isState .leader s := by
    intro s hs
    by_cases hst : s = t
    · subst hst
      rw [isState_eq he.leader, isState_eq hx]
    · rw [World.isState, World.isState, hsame s hs hst]
  have hne : ∀ s ∈ (w.blocks b).transfers, v.isState .leader s = false → s ≠ t := by
    intro s hs hc hst
    rw [hstate s hs, hst, hlead] at hc
    exact absurd hc (by simp)
  refine (ensures_removeTransfers ?_ ?_ ?_ ?_ hbal ?_).mono fun v' hv' ↦ ⟨?_, ?_⟩
  · rw [htransfers]
    intro s hs
    by_cases hst : s = t
    · rw [hst, he.leader]
      simp
    · rw [hsame s hs hst]
      exact (h.mem_transfers hs).2.1
  · rw [htransfers, he.next]
    exact fun s hs ↦ (h.mem_transfers hs).2.2
  · rw [htransfers]
    exact (h.settled b).nodupTransfers
  · rw [htransfers, hleader]
    exact fun s hs hc ↦ by simpa using Ne.symm (hne s hs hc)
  · rw [htransfers]
    intro hH s hs hc y hy hstall
    rw [hsame s hs (hne s hs hc)] at hy
    rw [hstate s hs] at hc
    rcases (isState_leader_eq_false h (h.mem_transfers hs).1).mp hc with hφ | hφ
    · obtain ⟨y', hy', -, hb, -⟩ := h.alive s (by simp [hφ])
      obtain rfl : y = y' := mem_unique hy hy'
      exact ⟨by rw [hb, hφ]; rfl, rfl⟩
    · exact absurd hstall (hcare hH s hφ y hy)
  · have hmem : ∀ s, (s ∈ (v.blocks b).transfers ∧ v.isState .leader s = false) ↔
        s ∈ (w.blocks b).transfers ∧ w.isState .leader s = false := fun s ↦ by
      rw [htransfers]
      exact and_congr_right fun hs ↦ by rw [hstate s hs]
    refine ⟨?_, fun s hst ↦ ?_, ?_, fun b' hbb ↦ ?_, hv'.1.next.trans he.next, he.kept.trans (hv'.1.kept.trans Kept.setBlock)⟩
    · rw [heap_setBlock, hv'.1.heap, if_neg fun hc ↦ hne t (htransfers ▸ hc.1) hc.2 rfl, he.leader]
    · rw [heap_setBlock, hv'.1.heap, he.heap s hst]
      simp only [hmem]
      by_cases hq : s ∈ (w.blocks b).queued
      · have hnt := (h.mem_queued hq).2.1
        simp [hq, hnt]
      · simp [hq]
    · have hfilter : (w.blocks b).transfers.filter (v.isState .leader) =
          (w.blocks b).transfers.filter (w.isState .leader) := List.filter_congr hstate
      rw [blocks_setBlock, update_self, hv'.1.block, htransfers, hfilter, he.block]
    · rw [blocks_setBlock, update_of_ne hbb, hv'.1.other b' hbb, he.other b' hbb]
  · exact fun hH ↦ (hv'.2 hH).of_same rfl (fun b' ↦ by by_cases hb : b' = b <;> simp [hb]) fun _ _ ↦ rfl

theorem ensures_completed (h : Tracks w φ) (hbal : H → Level w) (hx : w.heap t = some x)
    (hb : x.block = some b) (hcare : H → DissimilarStalled w φ b) :
    Safely H (Block.completed b t w) fun r ↦
      ∃ φ', Sheds H C t w φ r.2 φ' := by
  rw [Block.completed, get_eq hx, ok_bind, if_neg (by simp [hb])]
  by_cases hstate : x.state ≠ .leader
  · rw [if_pos hstate]
    simp [Bad, stallFault]
  rw [if_neg hstate]
  refine (ensures_isFinished h).bind fun f hf ↦ ?_
  by_cases hfalse : f = false
  · rw [if_pos hfalse]
    simp [Bad, stallFault]
  rw [if_neg hfalse]
  by_cases hlead : (w.blocks b).leader ≠ some t
  · rw [if_pos hlead]
    simp [Bad, stallFault]
  rw [if_neg hlead]
  rw [not_not] at hlead hstate
  have ht : φ t = .leading b := by
    rcases h.phase_of_block hx hb with hφ | hφ | hφ
    · simp [(h.placed t).leader, hφ] at hlead
    · simp [(h.placed t).leader, hφ] at hlead
    · exact hφ
  have hfin : x.isFinished = true := by
    obtain ⟨y, hy, hfy⟩ := hf t hlead
    rw [mem_unique hx hy, ← hfy]
    simpa using hfalse
  have hlt := h.lt_next t (by simp [ht])
  have hcount : Safely H (Block.countFinished { w with finished := w.finished + 1 } w.size) fun _ ↦ True :=
    ensures_countFinished (w := { w with finished := w.finished + 1 }) ⟨fun s ↦ ⟨(h.placed s).shows,
      (h.placed s).queued, (h.placed s).transfers, (h.placed s).leader⟩, h.settled, h.next⟩ w.size
  refine hcount.bind fun n _ ↦ ?_
  split_ifs with hn
  · simp [Bad, stallFault]
  refine Ensures.bind (ensures_emptyQueue h ht rfl (by simp)
    (fun b' hbb ↦ by simp [update_of_ne hbb]) rfl ⟨fun _ ↦ rfl, rfl, rfl⟩
    fun hH ↦ (hbal hH).leave_unit hlt hx hb rfl _ fun b' ↦ by simp [weight_fresh]) ?_
  rintro v ⟨he, hbal₁⟩
  refine (ensures_removeNonLeaders h ht hx he hbal₁ hcare).bind ?_
  rintro v' ⟨hc, hbal₂⟩
  split_ifs with hlast
  · simp [Bad, stallFault]
  · exact ⟨_, hc.advance h hbal₂ ht hx hfin⟩

end LibTorrent
