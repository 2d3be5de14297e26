import LibTorrent.Transfer.Joining

namespace LibTorrent

open Block Function Lib.Decimal Lib.Memory Lib.Outcome Option World

structure World.Laid (w : World) : Prop where
  positive : ∀ b < w.size, 0 < (w.blocks b).piece.length.toNat
  within : ∀ b, (w.blocks b).piece.offset.toNat + (w.blocks b).piece.length.toNat < 2 ^ 32
  spread : ∀ b c, b ≠ c →
    (w.blocks b).piece.offset.toNat + (w.blocks b).piece.length.toNat ≤ (w.blocks c).piece.offset.toNat ∨
    (w.blocks c).piece.offset.toNat + (w.blocks c).piece.length.toNat ≤ (w.blocks b).piece.offset.toNat ∨
    (w.blocks c).piece.length.toNat = 0

variable {v : Progress} {w w' : World} {φ : ℕ → Phase} {b c t p : ℕ} {x y : BlockTransfer} {s : Bytes}

theorem World.Laid.of_piece (h : w.Laid) (hsize : w'.size = w.size)
    (hpiece : ∀ b, (w'.blocks b).piece = (w.blocks b).piece) : w'.Laid := by
  refine ⟨fun b hb ↦ ?_, fun b ↦ ?_, fun b c hbc ↦ ?_⟩
  · rw [hpiece]
    exact h.positive b (hsize ▸ hb)
  · rw [hpiece]
    exact h.within b
  · rw [hpiece, hpiece]
    exact h.spread b c hbc

variable {m : ℕ → UInt8} {E : ℕ → Prop} {l : ℕ}

theorem World.Laid.load_store (h : w.Laid) (hbc : b ≠ c) {a n : ℕ} (ha : (w.blocks b).piece.offset.toNat ≤ a)
    (hs : a + s.length ≤ (w.blocks b).piece.offset.toNat + (w.blocks b).piece.length.toNat)
    (hn : n ≤ (w.blocks c).piece.length.toNat) :
    load (store m a s) (w.blocks c).piece.offset.toNat n = load m (w.blocks c).piece.offset.toNat n := by
  rcases h.spread b c hbc with hle | hle | hzero
  · exact load_store_of_disjoint (.inr (hs.trans hle))
  · exact load_store_of_disjoint (.inl (by omega))
  · have hn : n = 0 := by omega
    rw [hn, load_zero, load_zero]

theorem Lined.put_outside (h : Lined v w) (hout : ∀ c, ¬ w.Has c t) (r : Bytes) :
    Lined { v with received := update v.received t r } (w.put t y) := by
  intro c
  refine (h c).congr rfl le_rfl (fun u hu ↦ ?_) rfl id id fun _ _ ↦ rfl
  have hne : u ≠ t := fun he ↦ hout c (he ▸ hu)
  exact ⟨by rw [heap_put, update_of_ne hne], update_of_ne hne _ _⟩

/-- A transfer goes on by the bytes `s`. The leader writes them, the others have found them in
the memory up to the leader's position. -/
theorem LinedAt.advance (h : LinedAt v w b) (ht : t ∈ (w.blocks b).transfers) (hqueued : t ∉ (w.blocks b).queued)
    (hx : w.heap t = some x) (hopen : (w.blocks b).state ≠ .completed) {q : UInt32}
    (hq : q.toNat ≤ (w.blocks b).piece.length.toNat) (hle : x.position.toNat ≤ q.toNat)
    (hnew : load m (w.blocks b).piece.offset.toNat q.toNat =
      load v.memory (w.blocks b).piece.offset.toNat x.position.toNat ++ s)
    (hkeep : ∀ n, ((w.blocks b).leader = some t → n ≤ x.position.toNat) →
      load m (w.blocks b).piece.offset.toNat n = load v.memory (w.blocks b).piece.offset.toNat n)
    (hwait : (w.blocks b).leader ≠ some t → x.state = .notLeader ∧
      ∀ l y, (w.blocks b).leader = some l → w.heap l = some y → q.toNat ≤ y.position.toNat)
    (hlead : (w.blocks b).leader = some t → E b) (hE : v.ending b → E b) :
    LinedAt { v with memory := m, received := update v.received t (v.received t ++ s), ending := E }
      (w.put t { x with position := q }) b := by
  have hrole : x.state = .notLeader ∨ (w.blocks b).leader = some t := by
    by_cases hl : (w.blocks b).leader = some t
    · exact .inr hl
    · exact .inl (hwait hl).1
  have hcell : ∀ u z', update w.heap t (some { x with position := q }) u = some z' →
      ∃ z, w.heap u = some z ∧ z'.state = z.state := by
    intro u z' hz
    rcases heap_cases hz with ⟨rfl, rfl⟩ | ⟨_, hz⟩
    · exact ⟨x, hx, rfl⟩
    · exact ⟨z', hz, rfl⟩
  obtain ⟨new, hsplit, hold, hcur⟩ := h.order
  refine h.reshape rfl rfl le_rfl rfl h.closed (fun _ ↦ id) (fun _ ↦ .inr) (fun u hu ↦ ?_) (fun u z' hu hz ↦ ?_)
    ⟨h.led, (absurd · hopen), (absurd · hopen), fun u z' hu hz hs ↦ ?_, fun hnE hs l z' hl hz ↦ ?_,
      ⟨new, hsplit, fun u hu ↦ ⟨(hold u hu).1, fun z' hz ↦ ?_⟩, fun u hu z' hz hs ↦ ?_⟩, fun u z' hu hz hs ↦ ?_⟩
  · exact update_of_ne (ne_of_mem_of_not_mem hu hqueued) _ _
  · rcases heap_cases hz with ⟨rfl, rfl⟩ | ⟨_, hz⟩
    · exact ⟨x, hx, rfl, .inr ⟨(absurd · hqueued), hq⟩, .inl rfl⟩
    · exact ⟨z', hz, rfl, .inl rfl, .inl rfl⟩
  · -- nobody was further than the leader, and the transfer is still not
    rcases heap_cases hz with ⟨rfl, rfl⟩ | ⟨hut, hz⟩
    · obtain ⟨l, hl, _⟩ := h.behind u x hu hx hs
      refine ⟨l, hl, fun y hy ↦ ?_⟩
      rcases heap_cases hy with ⟨rfl, rfl⟩ | ⟨hlt, hy⟩
      · exact le_rfl
      · exact (hwait fun hc ↦ hlt (mem_unique hl hc)).2 l y hl hy
    obtain ⟨l, hl, hbehind⟩ := h.behind u z' hu hz hs
    refine ⟨l, hl, fun y hy ↦ ?_⟩
    rcases heap_cases hy with ⟨rfl, rfl⟩ | ⟨_, hy⟩
    · exact (hbehind x hx).trans hle
    · exact hbehind y hy
  · rcases heap_cases hz with ⟨rfl, rfl⟩ | ⟨_, hz⟩
    · exact absurd (hlead hl) hnE
    · exact h.unfinished (fun hc ↦ hnE (hE hc)) hs l z' hl hz
  · obtain ⟨z, hz, hs⟩ := hcell u z' hz
    rw [hs]
    exact (hold u hu).2 z hz
  · obtain ⟨z, hz, hs'⟩ := hcell u z' hz
    exact hcur u hu z hz (hs' ▸ hs)
  · rcases heap_cases hz with ⟨rfl, rfl⟩ | ⟨hut, hz⟩
    · rw [blocks_put, hnew, ← h.filled u x hu hx (hrole.imp_right fun hl ↦ ⟨hl, fun hc ↦ absurd hc hopen⟩)]
      exact update_self u _ _
    rw [blocks_put, hkeep z'.position.toNat fun hl ↦ ?_]
    · exact (update_of_ne hut _ _).trans (h.filled u z' hu hz hs)
    rcases hs with hs | ⟨hu', _⟩
    · obtain ⟨l, hl', hbehind⟩ := h.behind u z' hu hz hs
      obtain rfl := mem_unique hl hl'
      exact hbehind x hx
    · exact absurd (mem_unique hu' hl) hut

theorem LinedAt.overtake (h : LinedAt v w b) (ht : t ∈ (w.blocks b).transfers) (hx : w.heap t = some x)
    (hstate : x.state = .notLeader) (hl : (w.blocks b).leader = some l) (hy : w.heap l = some y)
    (hpos : x.position = y.position) (hopen : (w.blocks b).state ≠ .completed) (hlt : l ≠ t)
    (hblock : w'.blocks b = { w.blocks b with leader := some t })
    (hheap : w'.heap = update (update w.heap l (some { y with state := .notLeader })) t
      (some { x with state := .leader })) (hnext : w'.next = w.next) : LinedAt v w' b := by
  obtain ⟨new, hsplit, hold, hcur⟩ := h.order
  have hold' : ∀ u ∈ v.stale b, u ≠ t ∧ u ≠ l := fun u hu ↦ by
    refine ⟨fun he ↦ ?_, fun he ↦ (hold u hu).1 (he ▸ hl)⟩
    have := (hold u hu).2 x (he ▸ hx)
    rw [hstate] at this
    cases this
  -- the two leaders change their states, and nothing else is changed
  have hcell : ∀ u z', w'.heap u = some z' → ∃ z, w.heap u = some z ∧ z'.piece = z.piece ∧
      z'.position = z.position ∧ z'.peerInfo = z.peerInfo ∧
      (u = t ∧ z'.state = .leader ∨ u = l ∧ z'.state = .notLeader ∨ u ≠ t ∧ u ≠ l ∧ z' = z) := by
    intro u z' hz
    rw [hheap] at hz
    rcases heap_cases hz with ⟨rfl, rfl⟩ | ⟨hut, hz⟩
    · exact ⟨x, hx, rfl, rfl, rfl, .inl ⟨rfl, rfl⟩⟩
    rcases heap_cases hz with ⟨rfl, rfl⟩ | ⟨hul, hz⟩
    · exact ⟨y, hy, rfl, rfl, rfl, .inr (.inl ⟨rfl, rfl⟩)⟩
    · exact ⟨z', hz, rfl, rfl, rfl, .inr (.inr ⟨hut, hul, rfl⟩)⟩
  -- whoever waits now had the state of a waiting transfer, or led
  have hwaits : ∀ u z', w'.heap u = some z' → z'.state = .notLeader →
      ∃ z, w.heap u = some z ∧ z'.position = z.position ∧ (z.state = .notLeader ∨ (w.blocks b).leader = some u) := by
    intro u z' hz hs
    obtain ⟨z, hz₀, _, hpos', _, ⟨_, hs'⟩ | ⟨rfl, _⟩ | ⟨_, _, rfl⟩⟩ := hcell u z' hz
    · rw [hs] at hs'
      cases hs'
    · exact ⟨z, hz₀, hpos', .inr hl⟩
    · exact ⟨z', hz₀, rfl, .inl hs⟩
  have hlead : ∀ z, w'.heap t = some z → z.position = y.position := fun z hz ↦ by
    obtain ⟨z', hz', _, hpos', _⟩ := hcell t z hz
    rw [hpos', ← mem_unique hx hz', hpos]
  refine h.reshape hblock rfl hnext.ge rfl h.closed (fun _ ↦ id) (fun _ ↦ .inr) (fun _ _ ↦ rfl) (fun u z' _ hz ↦ ?_)
    ⟨fun r hr ↦ some.inj hr ▸ ht, (absurd · hopen), (absurd · hopen),
      fun u z' hu hz hs ↦ ⟨t, rfl, fun y' hy' ↦ ?_⟩, fun hE hs r z hr hz ↦ ?_,
      ⟨new, hsplit, fun u hu ↦ ⟨fun hc ↦ (hold' u hu).1 (some.inj hc).symm, fun z hz ↦ ?_⟩, fun u hu z hz hs ↦ ?_⟩,
      fun u z' hu hz hs ↦ ?_⟩
  · obtain ⟨z, hz, hpiece, hpos', hpeer, _⟩ := hcell u z' hz
    exact ⟨z, hz, hpiece, .inl hpos', .inl hpeer⟩
  · obtain ⟨z, hz, hpos', hor⟩ := hwaits u z' hz hs
    rw [hpos', hlead y' hy']
    rcases hor with hs | hlead
    · obtain ⟨l', hl', hbehind⟩ := h.behind u z hu hz hs
      obtain rfl := mem_unique hl hl'
      exact hbehind y hy
    · obtain rfl := mem_unique hl hlead
      rw [mem_unique hy hz]
  · cases hr
    rw [hlead z hz]
    exact h.unfinished hE hs l y hl hy
  · rw [hheap, update_of_ne (hold' u hu).1, update_of_ne (hold' u hu).2] at hz
    exact (hold u hu).2 z hz
  · obtain ⟨z₀, hz₀, _, _, _, ⟨rfl, _⟩ | ⟨_, hs'⟩ | ⟨_, hul, rfl⟩⟩ := hcell u z hz
    · rfl
    · rw [hs] at hs'
      cases hs'
    · exact absurd (some.inj ((hcur u hu z hz₀ hs).symm.trans hl)) hul
  · rcases hs with hs | ⟨hut, _⟩
    · obtain ⟨z, hz, hpos', hor⟩ := hwaits u z' hz hs
      rw [hpos']
      exact h.filled u z hu hz (hor.imp_right fun hlead ↦ ⟨hlead, fun hc ↦ absurd hc hopen⟩)
    cases hut
    rw [hlead z' hz, ← hpos]
    exact h.filled t x ht hx (.inl hstate)

theorem safe_isTransfering (hl : (w.blocks b).leader = some l) :
    Works (isTransfering b w) fun f ↦ ∃ y, w.heap l = some y ∧ f = !y.isFinished := by
  rw [isTransfering, hl]
  cases hx : w.heap l <;> simp [World.get, hx, Except.map, blockFault]

theorem Lined.advance (h : Lined v w) (htracks : Tracks w φ) (ht : (φ t).home = some b)
    (hb : LinedAt { v with memory := m, received := update v.received t (v.received t ++ s), ending := E }
      (w.put t y) b) (hE : ∀ c ≠ b, v.ending c → E c)
    (hload : ∀ c ≠ b, ∀ n ≤ (w.blocks c).piece.length.toNat,
      load m (w.blocks c).piece.offset.toNat n = load v.memory (w.blocks c).piece.offset.toNat n) :
    Lined { v with memory := m, received := update v.received t (v.received t ++ s), ending := E }
      (w.put t y) := by
  intro c
  by_cases hc : c = b
  · exact hc ▸ hb
  refine (h c).congr rfl le_rfl (fun u hu ↦ ?_) rfl id (hE c hc) (hload c hc)
  have hne : u ≠ t := fun he ↦ by
    have hhome := htracks.home_of_has hu
    rw [he, ht] at hhome
    exact hc (some.inj hhome).symm
  exact ⟨by rw [heap_put, update_of_ne hne], update_of_ne hne _ _⟩

theorem LinedAt.not_finished (h : LinedAt v w b) (hE : ¬ v.ending b) (hopen : (w.blocks b).state ≠ .completed)
    (hl : (w.blocks b).leader = some l) (hy : w.heap l = some y) : y.isFinished = false := by
  have hlt := h.unfinished hE hopen l y hl hy
  rw [BlockTransfer.isFinished, h.piece l y (.inr (h.led l hl)) hy]
  refine decide_eq_false fun hc ↦ ?_
  rw [hc] at hlt
  exact lt_irrefl _ hlt

theorem LinedAt.not_completed (h : LinedAt v w b) (ht : t ∈ (w.blocks b).transfers) (hx : w.heap t = some x)
    (hstate : x.state = .notLeader) : (w.blocks b).state ≠ .completed := fun hc ↦ by
  have hs := h.done hc t ht x hx
  rw [hstate] at hs
  cases hs

theorem Tracks.not_leader (h : Tracks w φ) (hφ : φ t = .waiting b) : (w.blocks c).leader ≠ some t := fun hc ↦ by
  have hphase := ((h.placed t).leader c).mp hc
  rw [hφ] at hphase
  rcases hphase with hphase | hphase <;> cases hphase

theorem lined_changeLeader (h : Lined v w) (htracks : Tracks w φ) (hφ : φ t = .waiting b)
    (hx : w.heap t = some x) (hl : (w.blocks b).leader = some l) (hy : w.heap l = some y)
    (hpos : x.position = y.position) (hE : ¬ v.ending b) :
    Works (changeLeader b t w) fun w' ↦ Lined v w' ∧ Steady w w' ∧
      w'.heap t = some { x with state := .leader } := by
  have ht := ((htracks.placed t).transfers b).mpr (by rw [hφ]; rfl)
  obtain ⟨x', hx', _, _, hfits⟩ := htracks.alive t (by simp [hφ])
  obtain rfl := mem_unique hx hx'
  rw [hφ] at hfits
  have hstate : x.state = .notLeader := hfits
  have hopen := (h b).not_completed ht hx hstate
  have hleader : (w.blocks b).leader ≠ some t := htracks.not_leader hφ
  have hlt : l ≠ t := fun he ↦ hleader (he ▸ hl)
  refine .ite (fun hc ↦ absurd hc hleader) fun _ ↦ safe_isFinished.bind fun f hf ↦ ?_
  obtain ⟨z, hz, hf⟩ := hf l hl
  obtain rfl := mem_unique hy hz
  refine .ite (fun hc ↦ ?_) fun _ ↦ ?_
  · rw [hf, (h b).not_finished hE hopen hl hy] at hc
    cases hc
  rw [hl]
  dsimp only
  rw [setState, get_eq hy, ok_bind, ok_bind, setState,
    get_eq (by rw [heap_setBlock, heap_put, update_of_ne hlt.symm, hx]), ok_bind]
  refine ⟨h.of_block htracks ((h b).overtake ht hx hstate hl hy hpos hopen hlt ?_ rfl rfl) (fun c hc ↦ ?_) le_rfl
    fun u hu _ ↦ ?_, (Steady.put.trans (.setBlock (by rfl) (by rfl) fun hc ↦ absurd hc hopen)).trans .put,
    by rw [heap_put, update_self]⟩
  · rw [blocks_put, blocks_setBlock, update_self, blocks_put]
  · rw [blocks_put, blocks_setBlock, update_of_ne hc, blocks_put]
  have hut : u ≠ t := fun he ↦ hu (by rw [he, hφ]; rfl)
  have hul : u ≠ l := fun he ↦ hu (by rw [he]; exact htracks.home_of_has (.inr ((h b).led l hl)))
  rw [heap_put, update_of_ne hut, heap_setBlock, heap_put, update_of_ne hul]

theorem lined_dissimilar (h : Lined v w) (htracks : Tracks w φ) (hφ : φ t = .waiting b)
    (htr : (w.requests p).transfer = some t) :
    Works (RequestList.transferDissimilar p w) fun w' ↦ Lined v w' ∧ Steady w w' ∧
      ∀ s, (w'.requests p).transfer = some s → ∀ c, ¬ w'.Has c s := by
  have ht := ((htracks.placed t).transfers b).mpr (by rw [hφ]; rfl)
  obtain ⟨x, hx, _, hblock, hfits⟩ := htracks.alive t (by simp [hφ])
  rw [hφ] at hblock hfits
  have hleader : (w.blocks b).leader ≠ some t := htracks.not_leader hφ
  unfold RequestList.transferDissimilar
  rw [htr]
  dsimp only
  rw [get_eq hx, ok_bind]
  refine safe_newTransfer.bind fun ⟨dummy, w₁⟩ ⟨hdummy, hq, hblocks, hheap, _⟩ ↦ ?_
  dsimp only at hdummy hq hblocks hheap ⊢
  rw [hblock]
  have hx₁ : w₁.heap t = some x := by
    rw [hheap, update_of_ne (htracks.lt_next t (by simp [hφ])).ne, hx]
  refine (lined_transferDissimilar (h.of_quiet hq) (htracks.apart.of_quiet hq) (by rwa [hq.transfers]) hx₁ hfits
    (by rwa [hq.leader])).bind fun w₂ ⟨h₂, hs₂, hsub⟩ ↦ ?_
  refine ⟨h₂.of_quiet (.setRequests _), (hq.steady.trans hs₂).trans (Quiet.setRequests _).steady, fun s hs c hc ↦ ?_⟩
  rw [requests_setRequests] at hs
  cases hs
  have hhas : w.Has c dummy := (hsub c dummy hc).imp (hq.queued c dummy) (hq.transfers c ▸ id)
  rw [hdummy] at hhas
  exact lt_irrefl _ ((h c).bound _ hhas)

end LibTorrent
