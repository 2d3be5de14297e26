import LibTorrent.Transfer.Lined

namespace LibTorrent

open Function Lib.Outcome List Option World

variable {v : Progress} {w : World} {φ : ℕ → Phase} {b t p : ℕ} {x : BlockTransfer}

theorem LinedAt.enqueue (h : LinedAt v w b) (hx : w.heap t = some x) (ht : t < w.next)
    (hopen : (w.blocks b).state ≠ .completed) (hpiece : x.piece = (w.blocks b).piece) (hpos : x.position = 0)
    (hblank : v.received t = []) (hpeer : ∀ s y, w.Has b s → w.heap s = some y → y.peerInfo ≠ x.peerInfo) :
    LinedAt v (w.setBlock b { w.blocks b with queued := (w.blocks b).queued ++ [t] }) b := by
  have hhas : ∀ s, s ∈ (w.blocks b).queued ++ [t] ∨ s ∈ (w.blocks b).transfers → w.Has b s ∨ s = t := by
    intro s hs
    rcases hs with hs | hs
    · exact (mem_append.mp hs).imp .inl mem_singleton.mp
    · exact .inl (.inr hs)
  have hcell : ∀ y, w.heap t = some y → y = x := fun y hy ↦ mem_unique hy hx
  have hline : Line v b { w.blocks b with queued := (w.blocks b).queued ++ [t] } w.heap := { h.toLine with }
  refine ⟨?_, fun s hs ↦ ?_, fun hs ↦ ?_, fun s y hs hy ↦ ?_, fun s y hs hy ↦ ?_, fun s hs ↦ ?_, ?_,
    fun s s' y y' hs hs' hy hy' he ↦ ?_⟩
  all_goals simp only [World.Has, blocks_setBlock, heap_setBlock, update_self] at *
  · exact hline
  · rcases hhas s hs with hs | rfl
    · exact h.bound s hs
    · exact ht
  · exact absurd hs hopen
  · rcases hhas s hs with hs | rfl
    · exact h.piece s y hs hy
    · rw [hcell y hy, hpiece]
  · rcases mem_append.mp hs with hs | hs
    · exact h.idle s y hs hy
    · obtain rfl := mem_singleton.mp hs
      rw [hcell y hy, hpos]
  · rcases mem_append.mp hs with hs | hs
    · exact h.blank s hs
    · rw [mem_singleton.mp hs, hblank]
  · exact h.fits
  · rcases hhas s hs with hw | rfl
    · rcases hhas s' hs' with hw' | rfl
      · exact h.peers s s' y y' hw hw' hy hy' he
      · exact absurd (he.trans (by rw [hcell y' hy'])) (hpeer s y hw hy)
    rcases hhas s' hs' with hw' | rfl
    · exact absurd (he.symm.trans (by rw [hcell y hy])) (hpeer s' y' hw' hy')
    · exact .inr rfl

theorem lined_insert (h : Lined v w) (hr : ∀ t, w.next ≤ t → v.received t = [])
    (hopen : (w.blocks b).state ≠ .completed) :
    Works (Block.insert b p w) fun o ↦ Lined v o.2 ∧ Steady w o.2 := by
  refine safe_findIf.bind fun q hq ↦ .ite (fun _ ↦ ⟨h, .refl w⟩) fun hnone ↦ ?_
  refine safe_findIf.bind fun q' hq' ↦ .ite (fun _ ↦ ⟨h, .refl w⟩) fun hnone' ↦ ?_
  have hquiet : Quiet w (w.setBlock b { w.blocks b with notStalled := (w.blocks b).notStalled + 1 }) := .setNotStalled _
  refine safe_newTransfer.bind fun ⟨t, w₁⟩ ⟨htnext, hquiet₁, hblocks, hheap, hnext⟩ ↦ ?_
  dsimp only at htnext hquiet₁ hblocks hheap hnext ⊢
  have hall := hquiet.trans hquiet₁
  have h₁ := h.of_quiet hall
  have hcell : w₁.heap t = some ⟨some p, some b, (w₁.blocks b).piece, .queued, 0, 0⟩ := by
    rw [hheap, htnext, update_self, hblocks]
  refine ⟨h₁.setBlock ((h₁ b).enqueue hcell ?_ ?_ rfl rfl (hr t (by rw [htnext]; rfl)) fun s y hs hy ↦ ?_),
    hall.steady.trans (.setBlock rfl rfl fun _ ↦ rfl)⟩
  · rw [hnext, htnext]
    exact Nat.lt_succ_self _
  · rw [hall.state]
    exact hopen
  have hhas : w.Has b s := hs.imp (hall.queued b s) fun hs ↦ by rwa [hall.transfers] at hs
  obtain ⟨y₀, hy₀, hsim⟩ := hall.cell s y ((h b).bound s hhas) hy
  have hne : y₀.peerInfo ≠ some p := by
    rcases hhas with hs | hs
    · exact of_decide_eq_false (hq (not_not.mp hnone) s hs y₀ hy₀)
    · exact of_decide_eq_false (hq' (not_not.mp hnone') s hs y₀ hy₀)
  rcases hsim.peerInfo with hp | hp
  · rwa [hp]
  · rw [hp]
    nofun

/-- A queued transfer goes to the end of the transfers. It leads if nobody does, and otherwise
it waits. -/
theorem LinedAt.join (h : LinedAt v w b) {w' : World} (hq : t ∈ (w.blocks b).queued) (hx : w.heap t = some x)
    (hnot : t ∉ (w.blocks b).transfers) (hlength : 0 < (w.blocks b).piece.length.toNat) {s : TransferState}
    {o : Option ℕ} {l : List ℕ} (hl : ∀ s ∈ l, s ∈ (w.blocks b).queued)
    (hblock : w'.blocks b = { w.blocks b with
      queued := l, transfers := (w.blocks b).transfers ++ [t], leader := o })
    (hheap : w'.heap = update w.heap t (some { x with state := s })) (hnext : w'.next = w.next)
    (hlead : ((w.blocks b).leader = none ∧ o = some t ∧ s = .leader) ∨
      ((w.blocks b).leader = o ∧ o ≠ none ∧ s = .notLeader)) : LinedAt v w' b := by
  have hpos : x.position.toNat = 0 := by rw [h.idle t x hq hx]; rfl
  have hopen : (w.blocks b).state ≠ .completed := fun hc ↦ by simp [h.closed hc] at hq
  have hne : ∀ u ∈ (w.blocks b).transfers, u ≠ t := fun u hu he ↦ hnot (he ▸ hu)
  have hcell : ∀ u ∈ (w.blocks b).transfers, ∀ y, update w.heap t (some { x with state := s }) u = some y →
      w.heap u = some y := fun u hu y hy ↦ by rwa [update_of_ne (hne u hu)] at hy
  have hcases : ∀ u ∈ (w.blocks b).transfers ++ [t], u ∈ (w.blocks b).transfers ∨ u = t := fun u hu ↦
    (mem_append.mp hu).imp_right mem_singleton.mp
  obtain ⟨new, hsplit, hold, hnew⟩ := h.order
  have hin : ∀ u, u ∈ v.stale b ∨ u ∈ new → u ∈ (w.blocks b).transfers := fun u hu ↦ by
    rw [hsplit]
    exact mem_append.mpr hu
  refine h.reshape hblock hheap hnext.ge rfl (fun hc ↦ absurd hc hopen) hl (fun u hu ↦ ?_) (fun _ _ ↦ rfl)
    (fun u y' hu hy ↦ ?_) ⟨fun u hu ↦ ?_, (absurd · hopen), (absurd · hopen), fun u y hu hy hs ↦ ?_,
      fun hE _ u y hu hy ↦ ?_, ⟨new ++ [t], ?_, fun u hu ↦ ⟨?_, fun y hy ↦ ?_⟩, fun u hu y hy hs ↦ ?_⟩,
      fun u y hu hy hs ↦ ?_⟩
  · exact (hcases u hu).elim .inr fun he ↦ .inl (he ▸ hq)
  · rcases heap_cases hy with ⟨rfl, rfl⟩ | ⟨_, hy⟩
    · exact ⟨x, hx, rfl, .inl rfl, .inl rfl⟩
    · exact ⟨y', hy, rfl, .inl rfl, .inl rfl⟩
  · rcases hlead with ⟨_, hlt, _⟩ | ⟨hle, _, _⟩
    · obtain rfl := mem_unique hlt hu
      exact mem_append_right _ mem_cons_self
    · exact mem_append_left _ (h.led u (hle.trans hu))
  · rcases heap_cases hy with ⟨rfl, rfl⟩ | ⟨hut, hy⟩
    · rcases hlead with ⟨_, _, rfl⟩ | ⟨_, hsome, _⟩
      · cases hs
      · obtain ⟨l, hl⟩ := ne_none_iff_exists'.mp hsome
        exact ⟨l, hl, fun z _ ↦ by dsimp only; rw [hpos]; exact Nat.zero_le _⟩
    obtain ⟨l, hl, hle⟩ := h.behind u y ((hcases u hu).resolve_right hut) hy hs
    rcases hlead with ⟨hnone, _, _⟩ | ⟨heq, _, _⟩
    · rw [hnone] at hl
      cases hl
    · exact ⟨l, heq.symm.trans hl, fun z hz ↦ hle z (hcell l (h.led l hl) z hz)⟩
  · rcases hlead with ⟨_, hlt, _⟩ | ⟨heq, _, _⟩
    · obtain rfl := mem_unique hlt hu
      rw [update_self] at hy
      cases hy
      rw [hpos]
      exact hlength
    · exact h.unfinished hE hopen u y (heq.trans hu) (hcell u (h.led u (heq.trans hu)) y hy)
  · rw [hsplit, append_assoc]
  · rcases hlead with ⟨_, hlt, _⟩ | ⟨heq, _, _⟩
    · rw [hlt]
      exact fun hc ↦ hne u (hin u (.inl hu)) (some.inj hc).symm
    · rw [← heq]
      exact (hold u hu).1
  · exact (hold u hu).2 y (hcell u (hin u (.inl hu)) y hy)
  · rcases heap_cases hy with ⟨rfl, rfl⟩ | ⟨hut, hy⟩
    · rcases hlead with ⟨_, hlt, _⟩ | ⟨_, _, rfl⟩
      · exact hlt
      · cases hs
    have hcur := hnew u ((mem_append.mp hu).resolve_right (by simpa using hut)) y hy hs
    rcases hlead with ⟨hnone, _, _⟩ | ⟨heq, _, _⟩
    · rw [hnone] at hcur
      cases hcur
    · exact heq.symm.trans hcur
  · rcases heap_cases hy with ⟨rfl, rfl⟩ | ⟨hut, hy⟩
    · rw [hpos]
      exact h.blank u hq
    refine h.filled u y ((hcases u hu).resolve_right hut) hy (hs.imp_right fun ⟨hcur, hK⟩ ↦ ?_)
    rcases hlead with ⟨_, hlt, _⟩ | ⟨heq, _, _⟩
    · exact absurd (mem_unique hlt hcur).symm hut
    · exact ⟨heq.trans hcur, hK⟩

theorem lined_transfering (h : Lined v w) (htracks : Tracks w φ) (hφ : φ t = .queued b)
    (hlength : 0 < (w.blocks b).piece.length.toNat) :
    Works (Block.transfering b t w) fun o ↦ Lined v o.2 ∧ Steady w o.2 := by
  have hq := ((htracks.placed t).queued b).mpr hφ
  have hnot : t ∉ (w.blocks b).transfers := fun hc ↦ by
    have hact := ((htracks.placed t).transfers b).mp hc
    rw [hφ] at hact
    cases hact
  obtain ⟨x, hx, _, hblock, _⟩ := htracks.alive t (by simp [hφ])
  have hother : ∀ s, (φ s).home ≠ some b → s ≠ t := fun s hs he ↦ hs (by rw [he, hφ]; rfl)
  have hopen : (w.blocks b).state ≠ .completed := fun hc ↦ by simp [(h b).closed hc] at hq
  rw [Block.transfering, get_eq hx, ok_bind, if_neg (by simp [hblock, hφ, Phase.block]), if_neg (not_not.mpr hq)]
  simp only [blocks_setBlock, update_self, setBlock_setBlock]
  refine .ite (fun hleader ↦ ?_) fun hleader ↦ ?_
  · refine ⟨h.of_block htracks ((h b).join hq hx hnot hlength (fun s ↦ mem_of_mem_erase)
      (by rw [blocks_put, blocks_setBlock, update_self])
      rfl rfl (.inr ⟨rfl, hleader, rfl⟩)) (fun c hc ↦ ?_) le_rfl fun s hs _ ↦ ?_,
      (Steady.setBlock ?_ ?_ fun _ ↦ ?_).trans .put⟩
    · rw [blocks_put, blocks_setBlock, update_of_ne hc]
    · rw [heap_put, update_of_ne (hother s hs), heap_setBlock]
    · rfl
    · rfl
    · rfl
  · refine ⟨h.of_block htracks ((h b).join hq hx hnot hlength (fun s ↦ mem_of_mem_erase)
      (by rw [blocks_put, blocks_setBlock, update_self])
      rfl rfl (.inl ⟨not_not.mp hleader, rfl, rfl⟩)) (fun c hc ↦ ?_) le_rfl fun s hs _ ↦ ?_,
      (Steady.setBlock ?_ ?_ fun hc ↦ absurd hc hopen).trans .put⟩
    · rw [blocks_put, blocks_setBlock, update_of_ne hc]
    · rw [heap_put, update_of_ne (hother s hs), heap_setBlock]
    · rfl
    · rfl

open Block

theorem positionOf_eq (hx : w.heap t = some x) : w.positionOf t = x.position := by
  rw [positionOf, hx]
  rfl

/-- No two blocks have a transfer in common with block `b`. -/
def World.Apart (w : World) (b : ℕ) : Prop := ∀ c u, w.Has c u → w.Has b u → c = b

theorem Tracks.apart (h : Tracks w φ) : w.Apart b := fun _ _ hc hb ↦
  some.inj ((h.home_of_has hc).symm.trans (h.home_of_has hb))

variable {w' : World} {y : BlockTransfer} {new rest : List ℕ}

theorem World.Apart.of_quiet (h : w.Apart b) (hq : Quiet w w') : w'.Apart b := fun c u hc hb ↦
  h c u (hc.imp (hq.queued c u) (hq.transfers c ▸ id)) (hb.imp (hq.queued b u) (hq.transfers b ▸ id))

theorem Lined.put (h : Lined v w) (hapart : w.Apart b) (ht : w.Has b t)
    (hb : LinedAt v (w.put t y) b) : Lined v (w.put t y) := by
  intro c
  by_cases hc : c = b
  · exact hc ▸ hb
  refine (h c).congr rfl le_rfl (fun u hu ↦ ⟨?_, rfl⟩) rfl id id fun _ _ ↦ rfl
  rw [heap_put, update_of_ne]
  exact fun he ↦ hc (hapart c u hu (he ▸ ht))

theorem lined_transferDissimilar (h : Lined v w) (hapart : w.Apart b) (ht : t ∈ (w.blocks b).transfers)
    (hx : w.heap t = some x) (hstate : x.state = .notLeader) (hleader : (w.blocks b).leader ≠ some t) :
    Works (transferDissimilar b t w) fun w' ↦ Lined v w' ∧ Steady w w' ∧
      ∀ c u, w'.Has c u → w.Has c u := by
  rw [transferDissimilar, get_eq hx, ok_bind, if_neg (by simp [hstate, hleader])]
  have hquiet : Quiet w (w.setBlock b { w.blocks b with
      notStalled := (w.blocks b).notStalled - stallUnit x }) := .setNotStalled _
  have h₁ := h.of_quiet hquiet
  generalize hw : (w.setBlock b { w.blocks b with
      notStalled := (w.blocks b).notStalled - stallUnit x }) = w₁ at hquiet h₁
  have ht₁ : t ∈ (w₁.blocks b).transfers := by rwa [hquiet.transfers]
  have hx₁ : w₁.heap t = some x := by rw [← hw, heap_setBlock, hx]
  have hleader₁ : (w₁.blocks b).leader ≠ some t := by rwa [hquiet.leader]
  refine ⟨h₁.put (hapart.of_quiet hquiet) (.inr ht₁) ?_, hquiet.steady.trans .put,
    fun c u ↦ Or.imp (hquiet.queued c u) (hquiet.transfers c ▸ id)⟩
  have hopen₁ : (w₁.blocks b).state ≠ .completed := fun hc ↦ by
    have := (h₁ b).done hc t ht₁ x hx₁
    rw [hstate] at this
    cases this
  have hlead : ∀ l y z, (w₁.blocks b).leader = some l → (w₁.put t y).heap l = some z → w₁.heap l = some z :=
    fun l y z hl hz ↦ (heap_cases hz).elim (fun hc ↦ absurd (hc.1 ▸ hl) hleader₁) And.right
  obtain ⟨new, hsplit, hold, hnew⟩ := (h₁ b).order
  refine (h₁ b).reshape rfl rfl le_rfl rfl (h₁ b).closed (fun _ ↦ id) (fun _ ↦ .inr) (fun _ _ ↦ rfl)
    (fun u y' hu hy ↦ ?_) ⟨(h₁ b).led, (absurd · hopen₁), (absurd · hopen₁), fun u y' hu hy hs ↦ ?_,
      fun hE hs l y' hl hy ↦ (h₁ b).unfinished hE hs l y' hl (hlead l _ y' hl hy),
      ⟨new, hsplit, fun u hu ↦ ⟨(hold u hu).1, fun y' hy ↦ ?_⟩, fun u hu y' hy hs ↦ ?_⟩, fun u y' hu hy hs ↦ ?_⟩
  all_goals rcases heap_cases hy with ⟨rfl, rfl⟩ | ⟨hut, hy⟩
  · exact ⟨x, hx₁, rfl, .inr ⟨fun _ ↦ rfl, Nat.zero_le _⟩, .inl rfl⟩
  · exact ⟨y', hy, rfl, .inl rfl, .inl rfl⟩
  · cases hs
  · obtain ⟨l, hl, hle⟩ := (h₁ b).behind u y' hu hy hs
    exact ⟨l, hl, fun z hz ↦ hle z (hlead l _ z hl hz)⟩
  · have := (hold u hu).2 x hx₁
    rw [hstate] at this
    cases this
  · exact (hold u hu).2 y' hy
  · cases hs
  · exact hnew u hu y' hy hs
  · rcases hs with hs | ⟨hl, _⟩
    · cases hs
    · exact absurd hl hleader₁
  · exact (h₁ b).filled u y' hu hy hs

/-- The list of transfers without the leader: leaders of earlier attempts come first, and none
of the others has the state of a leader. -/
theorem LinedAt.split_erase (h : LinedAt v w b) (hleader : (w.blocks b).leader = some t)
    (hnodup : (w.blocks b).transfers.Nodup) :
    ∃ new, (w.blocks b).transfers.erase t = v.stale b ++ new ∧ (∀ u ∈ v.stale b, ∀ y, w.heap u = some y → y.state = .leader) ∧
      (∀ u ∈ new, ∀ y, w.heap u = some y → y.state ≠ .leader) ∧
      ∀ u ∈ v.stale b ++ new, u ∈ (w.blocks b).transfers ∧ u ≠ t := by
  obtain ⟨new, hsplit, hold, hnew⟩ := h.order
  have hnot : t ∉ v.stale b := fun hc ↦ (hold t hc).1 hleader
  have herase : (w.blocks b).transfers.erase t = v.stale b ++ new.erase t := by
    rw [hsplit, erase_append_right _ hnot]
  have hmem : ∀ u ∈ v.stale b ++ new.erase t, u ∈ (w.blocks b).transfers ∧ u ≠ t := fun u hu ↦ by
    rw [← herase, List.Nodup.mem_erase_iff hnodup] at hu
    exact hu.symm
  refine ⟨new.erase t, herase, fun u hu ↦ (hold u hu).2, fun u hu y hy hs ↦ ?_, hmem⟩
  have hcur := hnew u (mem_of_mem_erase hu) y hy hs
  exact (hmem u (mem_append_right _ hu)).2 (mem_unique hcur hleader)

theorem partitioned_eq {old : List ℕ} (hold : ∀ u ∈ old, w.isState .leader u = true)
    (hnew : ∀ u ∈ new, w.isState .leader u = false) : partitioned w (old ++ new) =
      old ++ (candidates w (old ++ new) ++ new.filter fun t ↦ !w.isState .notLeader t) := by
  have hdrop : (old ++ new).dropWhile (w.isState .leader) = new := by
    rw [dropWhile_append_of_pos hold]
    cases new with
    | nil => rfl
    | cons u l => exact dropWhile_cons_of_neg (by simp [hnew u mem_cons_self])
  have htake : (old ++ new).takeWhile (w.isState .leader) = old := by
    have happend := takeWhile_append_dropWhile (p := w.isState .leader) (l := old ++ new)
    rw [hdrop] at happend
    exact append_cancel_right happend
  rw [partitioned, htake, hdrop]

theorem isState_of {s : TransferState} {u : ℕ} (halive : ∃ y, w.heap u = some y)
    (h : ∀ y, w.heap u = some y → y.state = s) : w.isState s u = true := by
  obtain ⟨y, hy⟩ := halive
  rw [isState_eq hy]
  exact decide_eq_true (h y hy)

theorem LinedAt.succeed (h : LinedAt v w b) (hx : w.heap t = some x) (hleader : (w.blocks b).leader = some t)
    (hopen : (w.blocks b).state ≠ .completed) {n : ℕ}
    (hy : w.heap n = some y) (hstate : y.state = .notLeader) (hn : n ∈ new)
    (hold : ∀ u ∈ v.stale b, ∀ y, w.heap u = some y → y.state = .leader)
    (hnew : ∀ u ∈ new, ∀ y, w.heap u = some y → y.state ≠ .leader)
    (hmem : ∀ u ∈ v.stale b ++ new, u ∈ (w.blocks b).transfers ∧ u ≠ t)
    (hmax : ∀ u ∈ new, ∀ z, w.heap u = some z → z.state = .notLeader → z.position.toNat ≤ y.position.toNat)
    (hrest : ∀ u, u ∈ rest ↔ u ∈ new)
    (hblock : w'.blocks b = { w.blocks b with transfers := v.stale b ++ rest, leader := some n })
    (hheap : w'.heap = update w.heap n (some { y with state := .leader })) (hnext : w'.next = w.next) : LinedAt v w' b := by
  have hin : ∀ u ∈ v.stale b ++ rest, u ∈ v.stale b ++ new := fun u hu ↦
    mem_append.mpr ((mem_append.mp hu).imp_right (hrest u).mp)
  have holdn : ∀ u ∈ v.stale b, u ≠ n := fun u hu he ↦ by
    have := hold u hu y (he ▸ hy)
    rw [hstate] at this
    cases this
  have hnmem := (hmem n (mem_append_right _ hn)).1
  have hlead : ∀ z, update w.heap n (some { y with state := .leader }) n = some z →
      z = { y with state := .leader } := fun z hz ↦ (heap_cases hz).elim And.right fun hc ↦ absurd rfl hc.1
  refine h.reshape hblock hheap hnext.ge rfl h.closed (fun _ ↦ id) (fun u hu ↦ .inr (hmem u (hin u hu)).1)
    (fun _ _ ↦ rfl) (fun u z' hu hz ↦ ?_) ⟨fun l hl ↦ ?_, (absurd · hopen), (absurd · hopen),
      fun u z' hu hz hs ↦ ⟨n, rfl, fun y' hy' ↦ ?_⟩, fun hE hs l z hl hz ↦ ?_,
      ⟨rest, rfl, fun u hu ↦ ⟨fun hc ↦ holdn u hu (some.inj hc).symm, fun z hz ↦ ?_⟩, fun u hu z hz hs ↦ ?_⟩,
      fun u z hu hz hs ↦ ?_⟩
  · rcases heap_cases hz with ⟨rfl, rfl⟩ | ⟨_, hz⟩
    · exact ⟨y, hy, rfl, .inl rfl, .inl rfl⟩
    · exact ⟨z', hz, rfl, .inl rfl, .inl rfl⟩
  · cases hl
    exact mem_append_right _ ((hrest n).mpr hn)
  · obtain rfl := hlead y' hy'
    rcases heap_cases hz with ⟨rfl, rfl⟩ | ⟨_, hz⟩
    · exact le_rfl
    rcases mem_append.mp (hin u hu) with hu | hu
    · rw [hold u hu z' hz] at hs
      cases hs
    · exact hmax u hu z' hz hs
  · cases hl
    obtain rfl := hlead z hz
    obtain ⟨l, hl, hle⟩ := h.behind n y hnmem hy hstate
    obtain rfl := mem_unique hleader hl
    exact (hle x hx).trans_lt (h.unfinished hE hs t x hleader hx)
  · rw [update_of_ne (holdn u hu)] at hz
    exact hold u hu z hz
  · rcases heap_cases hz with ⟨rfl, _⟩ | ⟨_, hz⟩
    · rfl
    · exact absurd hs (hnew u ((hrest u).mp hu) z hz)
  · rcases heap_cases hz with ⟨rfl, rfl⟩ | ⟨hun, hz⟩
    · exact h.filled u y hnmem hy (.inl hstate)
    · refine h.filled u z (hmem u (hin u hu)).1 hz (hs.imp_right fun ⟨hl, _⟩ ↦ ?_)
      exact absurd (some.inj hl).symm hun

theorem LinedAt.desert (h : LinedAt v w b) (hopen : (w.blocks b).state ≠ .completed)
    (hold : ∀ u ∈ v.stale b, ∀ y, w.heap u = some y → y.state = .leader)
    (hrest : ∀ u ∈ rest, ∀ y, w.heap u = some y → y.state ≠ .leader ∧ y.state ≠ .notLeader)
    (hmem : ∀ u ∈ v.stale b ++ rest, u ∈ (w.blocks b).transfers)
    (hblock : w'.blocks b = { w.blocks b with transfers := v.stale b ++ rest, leader := none })
    (hheap : w'.heap = w.heap) (hnext : w'.next = w.next) : LinedAt v w' b := by
  have hnone : ∀ u y, u ∈ v.stale b ++ rest → w.heap u = some y → y.state ≠ .notLeader := by
    intro u y hu hy hs
    rcases mem_append.mp hu with hu | hu
    · rw [hold u hu y hy] at hs
      cases hs
    · exact (hrest u hu y hy).2 hs
  refine h.reshape hblock hheap hnext.ge rfl h.closed (fun _ ↦ id) (fun u hu ↦ .inr (hmem u hu)) (fun _ _ ↦ rfl)
    (fun u z' _ hz ↦ ⟨z', hz, rfl, .inl rfl, .inl rfl⟩) ⟨nofun, (absurd · hopen), (absurd · hopen),
      fun u y hu hy hs ↦ absurd hs (hnone u y hu hy), nofun,
      ⟨rest, rfl, fun u hu ↦ ⟨nofun, hold u hu⟩, fun u hu y hy hs ↦ absurd hs (hrest u hu y hy).1⟩, fun u y hu hy hs ↦ ?_⟩
  rcases hs with hs | ⟨hl, _⟩
  · exact absurd hs (hnone u y hu hy)
  · cases hl

theorem lined_promote (h : Lined v w) (hapart : w.Apart b) (hx : w.heap t = some x)
    (hleader : (w.blocks b).leader = some t) (hopen : (w.blocks b).state ≠ .completed)
    (hnodup : (w.blocks b).transfers.Nodup) :
    Works (promote b
      (w.setBlock b { w.blocks b with transfers := (w.blocks b).transfers.erase t })) fun w' ↦
      Lined v w' ∧ Steady w w' := by
  obtain ⟨new, herase, hold, hnew, hmem⟩ := (h b).split_erase hleader hnodup
  rw [herase]
  generalize hstale : v.stale b = old at hold hmem
  generalize hw : w.setBlock b { w.blocks b with transfers := old ++ new } = w₁
  have hheap₁ : w₁.heap = w.heap := by rw [← hw, heap_setBlock]
  have hblock₁ : w₁.blocks b = { w.blocks b with transfers := old ++ new } := by
    rw [← hw, blocks_setBlock, update_self]
  have hset : ∀ B, w₁.setBlock b B = w.setBlock b B := fun B ↦ by rw [← hw, setBlock_setBlock]
  rw [promote, hblock₁]
  refine safe_followAll.bind ?_
  rintro w₂ ⟨hw₂, halive⟩
  subst hw₂
  rw [hheap₁] at halive
  have hparts : partitioned w₁ (old ++ new) =
      old ++ (candidates w₁ (old ++ new) ++ new.filter fun t ↦ !w₁.isState .notLeader t) := by
    apply partitioned_eq
    · intro u hu
      exact isState_of (hheap₁ ▸ halive u (mem_append_left _ hu)) (hheap₁ ▸ hold u hu)
    intro u hu
    obtain ⟨y, hy⟩ := halive u (mem_append_right _ hu)
    rw [isState_eq (hheap₁ ▸ hy)]
    exact decide_eq_false (hnew u hu y hy)
  -- the candidates are the waiting transfers among the new ones
  have hcand : ∀ u, u ∈ candidates w₁ (old ++ new) ↔
      u ∈ new ∧ ∃ y, w.heap u = some y ∧ y.state = .notLeader := by
    intro u
    rw [mem_candidates]
    constructor
    · rintro ⟨hu, hs⟩
      obtain ⟨y, hy⟩ := halive u hu
      rw [isState_eq (hheap₁ ▸ hy), decide_eq_true_eq] at hs
      refine ⟨(mem_append.mp hu).resolve_left fun hu ↦ ?_, y, hy, hs⟩
      rw [hold u hu y hy] at hs
      cases hs
    · rintro ⟨hu, y, hy, hs⟩
      exact ⟨mem_append_right _ hu, by rw [isState_eq (hheap₁ ▸ hy)]; exact decide_eq_true hs⟩
  simp only [hblock₁, hset]
  cases hmax : maxPosition w₁ (candidates w₁ (old ++ new)) with
  | some n =>
    obtain ⟨hn, y, hy, hs⟩ := (hcand n).mp (maxPosition_spec hmax).1
    have hsub : ∀ u, u ∈ candidates w₁ (old ++ new) ++ (new.filter fun t ↦ !w₁.isState .notLeader t) ↔
        u ∈ new := by
      intro u
      rw [mem_append, hcand, mem_filter]
      constructor
      · rintro (⟨hu, _⟩ | ⟨hu, _⟩) <;> exact hu
      intro hu
      obtain ⟨z, hz⟩ := halive u (mem_append_right _ hu)
      by_cases hzs : z.state = .notLeader
      · exact .inl ⟨hu, z, hz, hzs⟩
      · exact .inr ⟨hu, by rw [isState_eq (hheap₁ ▸ hz), decide_eq_false hzs]; rfl⟩
    dsimp only
    rw [setState, get_eq (by rw [heap_setBlock, hy]), ok_bind, hparts]
    have hat : LinedAt v ((w.setBlock b { w.blocks b with
        transfers := old ++ (candidates w₁ (old ++ new) ++ new.filter fun t ↦ !w₁.isState .notLeader t)
        leader := some n }).put n { y with state := .leader }) b := by
      refine (h b).succeed hx hleader hopen hy hs hn (hstale ▸ hold) hnew (hstale ▸ hmem) (fun u hu z hz hzs ↦ ?_) hsub
        (by rw [blocks_put, blocks_setBlock, update_self, hstale]) rfl rfl
      have hle := (maxPosition_spec hmax).2 u ((hcand u).mpr ⟨hu, z, hz, hzs⟩)
      rw [positionOf_eq (hheap₁ ▸ hz), positionOf_eq (hheap₁ ▸ hy)] at hle
      exact UInt32.le_iff_toNat_le.mp hle
    refine ⟨fun c ↦ ?_, (Steady.setBlock (by rfl) (by rfl) fun hc ↦ absurd hc hopen).trans .put⟩
    by_cases hc : c = b
    · exact hc ▸ hat
    refine (h c).congr (by rw [blocks_put, blocks_setBlock, update_of_ne hc]) le_rfl
      (fun u hu ↦ ⟨?_, rfl⟩) rfl id id fun _ _ ↦ rfl
    have hne : u ≠ n := fun he ↦ hc (hapart c u hu (.inr (he ▸ (hmem n (mem_append_right _ hn)).1)))
    rw [heap_put, update_of_ne hne, heap_setBlock]
  | none =>
    have hempty := maxPosition_eq_none hmax
    refine safe_removeTransfers.mono ?_
    rintro w' ⟨_, hquiet⟩
    rw [setBlock_setBlock, blocks_setBlock, update_self] at hquiet
    rw [hparts, hempty, nil_append, filter_append] at hquiet
    have hkeep : old.filter (fun t ↦ !(w.setBlock b { w.blocks b with
        transfers := old ++ new.filter fun t ↦ !w₁.isState .notLeader t, leader := none }).isState .erased t) = old := by
      apply filter_eq_self.mpr
      intro u hu
      obtain ⟨y, hy⟩ := halive u (mem_append_left _ hu)
      rw [isState_eq (by rw [heap_setBlock, hy]), hold u hu y hy]
      rfl
    rw [hkeep] at hquiet
    have hrest : ∀ u ∈ new.filter (fun t ↦ !w₁.isState .notLeader t), ∀ y, w.heap u = some y →
        y.state ≠ .leader ∧ y.state ≠ .notLeader := by
      intro u hu y hy
      obtain ⟨hu, hs⟩ := mem_filter.mp hu
      rw [isState_eq (hheap₁ ▸ hy), Bool.not_eq_true', decide_eq_false_iff_not] at hs
      exact ⟨hnew u hu y hy, hs⟩
    refine ⟨Lined.of_quiet (h.setBlock ((h b).desert hopen (hstale ▸ hold) (fun u hu ↦ hrest u (mem_of_mem_filter hu))
      (fun u hu ↦ ?_) (by rw [blocks_setBlock, update_self, hstale]) rfl rfl)) hquiet,
      (Steady.setBlock (by rfl) (by rfl) fun hc ↦ absurd hc hopen).trans hquiet.steady⟩
    rw [hstale] at hu
    refine (hmem u ?_).1
    exact mem_append.mpr ((mem_append.mp hu).imp_right fun hu ↦
      mem_of_mem_filter (mem_of_mem_filter hu))

theorem LinedAt.withdraw (h : LinedAt v w b) (hx : w.heap t = some x) (hs : x.state ≠ .leader)
    (hleader : (w.blocks b).leader ≠ some t) :
    LinedAt v (w.setBlock b { w.blocks b with transfers := (w.blocks b).transfers.erase t }) b := by
  have hmem : ∀ u ∈ (w.blocks b).transfers.erase t, u ∈ (w.blocks b).transfers := fun u ↦ mem_of_mem_erase
  obtain ⟨new, hsplit, hold, hnew⟩ := h.order
  have hnot : t ∉ v.stale b := fun hc ↦ hs ((hold t hc).2 x hx)
  refine h.reshape (update_self ..) rfl le_rfl rfl h.closed (fun _ ↦ id) (fun u hu ↦ .inr (hmem u hu))
    (fun _ _ ↦ rfl) (fun u z' _ hz ↦ ⟨z', hz, rfl, .inl rfl, .inl rfl⟩) ⟨fun l hl ↦ ?_,
      fun hc u hu ↦ h.done hc u (hmem u hu), h.ended, fun u y hu ↦ h.behind u y (hmem u hu), h.unfinished,
      ⟨new.erase t, ?_, hold, fun u hu ↦ hnew u (mem_of_mem_erase hu)⟩, fun u y hu ↦ h.filled u y (hmem u hu)⟩
  · refine (mem_erase_of_ne fun he ↦ hleader ?_).mpr (h.led l hl)
    rw [← he, hl]
  · rw [hsplit, erase_append_right _ hnot]

section

variable (h : Lined v w) (hapart : w.Apart b) (hx : w.heap t = some x) (hnodup : (w.blocks b).transfers.Nodup)
  (hcur : x.state = .leader → (w.blocks b).leader = some t)
include h hapart hx hnodup hcur

theorem lined_eraseFromLists : Works (eraseFromLists b t x w) fun w' ↦ Lined v w' ∧ Steady w w' := by
  refine .either (.either (by simp [blockFault]) ?_) ?_
  · have hquiet : Quiet w (w.setBlock b { w.blocks b with queued := (w.blocks b).queued.erase t }) :=
      .setBlock fun u ↦ mem_of_mem_erase
    exact ⟨h.of_quiet hquiet, hquiet.steady⟩
  refine .either (by simp [blockFault]) (.either (by simp [blockFault]) ?_)
  refine .ite (fun hl ↦ .ite (fun _ ↦ by simp [blockFault]) fun hopen ↦ ?_) fun hl ↦ ?_
  · exact lined_promote h hapart hx hl hopen hnodup
  · exact ⟨h.setBlock ((h b).withdraw hx (fun hs ↦ hl (hcur hs)) hl), .setBlock rfl rfl fun _ ↦ rfl⟩

theorem lined_erase : Works (erase b t w) fun w' ↦ Lined v w' ∧ Steady w w' := by
  have hquiet : Quiet w (w.setBlock b { w.blocks b with
      notStalled := (w.blocks b).notStalled - stallUnit x }) := .setNotStalled _
  rw [erase, get_eq hx, ok_bind]
  refine .either (by simp [blockFault]) (.either (by simp [blockFault]) ?_)
  refine (lined_eraseFromLists (h.of_quiet hquiet) (hapart.of_quiet hquiet) (by rw [heap_setBlock, hx])
    (by rwa [hquiet.transfers]) (by rwa [hquiet.leader])).bind ?_
  rintro w₁ ⟨h₁, hsteady⟩
  refine safe_get.bind fun y hy ↦ quiet_deleteTransfer.mono fun w₂ h₂ ↦ ?_
  have hdrop : Quiet w₁ w₂ := (Quiet.put (y := { y with block := none }) hy ⟨rfl, rfl, rfl, .inr rfl, .inl rfl⟩).trans h₂
  exact ⟨h₁.of_quiet hdrop, (hquiet.steady.trans hsteady).trans hdrop.steady⟩

end

theorem lined_release (h : Lined v w) (htracks : Tracks w φ) (hheld : (φ t).Held) :
    Works (release t w) fun w' ↦ Lined v w' ∧ Steady w w' := by
  obtain ⟨x, hx, _, hblock, hfits⟩ := htracks.alive t fun hc ↦ by
    rw [hc] at hheld
    exact hheld
  rw [release]
  have hquiet := quiet_setPeerInfo (w := w) (t := t)
  cases hset : setPeerInfo t none w with
  | error e =>
    rw [hset] at hquiet
    exact hquiet
  | ok w₁ =>
    have hset' := safe_setPeerInfo (w := w) (t := t) (o := none)
    rw [hset] at hquiet hset'
    obtain ⟨y, hy, hheap, hblocks, _⟩ := hset'
    obtain rfl := mem_unique hx hy
    have hx₁ : w₁.heap t = some { x with peerInfo := none } := by rw [hheap, update_self]
    have h₁ := h.of_quiet hquiet
    rw [ok_bind, get_eq hx₁, ok_bind]
    cases hb : x.block with
    | none => exact quiet_deleteTransfer.mono fun w₂ h₂ ↦ ⟨h₁.of_quiet h₂, hquiet.steady.trans h₂.steady⟩
    | some b =>
      refine (lined_erase h₁ (htracks.apart.of_quiet hquiet) hx₁ ?_ fun hs ↦ ?_).mono fun w₂ ⟨h₂, hsteady⟩ ↦
        ⟨h₂, hquiet.steady.trans hsteady⟩
      · rw [hquiet.transfers]
        exact (htracks.settled b).nodupTransfers
      rw [hquiet.leader]
      refine ((htracks.placed t).leader b).mpr ?_
      rcases htracks.phase_of_block hx hb with hφ | hφ | hφ
      · rw [hφ] at hfits
        cases hfits.symm.trans hs
      · rw [hφ] at hfits
        cases hfits.symm.trans hs
      · exact .inl hφ

end LibTorrent
