import LibTorrent.Transfer.Joining

namespace LibTorrent

open Block Finset Function Lib.Outcome Option World

variable {v : Progress} {E : ℕ → Prop} {w : World} {φ : ℕ → Phase} {b t p : ℕ} {x : BlockTransfer}

def World.completedCount (w : World) : ℕ := #{c ∈ range w.size | (w.blocks c).state = .completed}

theorem safe_countFinished {n : ℕ} {P : ℕ → Prop} [DecidablePred P]
    (h : ∀ c < n, P c → isFinished c w = .ok true) :
    Works (countFinished w n) fun k ↦ #{c ∈ range n | P c} ≤ k := by
  induction n with
  | zero => exact Nat.le_refl 0
  | succ n ih =>
    have hlast : Works (isFinished n w) fun f ↦ P n → f = true := by
      by_cases hP : P n
      · rw [h n (Nat.lt_succ_self n) hP]
        exact fun _ ↦ rfl
      · exact safe_isFinished.mono fun f _ hc ↦ absurd hc hP
    refine hlast.bind fun f hf ↦ (ih fun c hc ↦ h c (Nat.lt_succ_of_lt hc)).bind fun k hk ↦ ?_
    rw [ensures_ok, range_add_one, filter_insert]
    split_ifs with hP
    · rw [hf hP, card_insert_of_notMem (by simp)]
      exact Nat.succ_le_succ hk
    · exact hk.trans (Nat.le_add_right k _)

theorem LinedAt.complete (h : LinedAt v w b) (hleader : (w.blocks b).leader = some t)
    (hqueued : (w.blocks b).queued = []) (hopen : (w.blocks b).state ≠ .completed)
    (hx : w.heap t = some x) (hs : x.state = .leader) (hfinished : x.isFinished = true)
    (hold : ∀ u ∈ v.stale b, (w.blocks b).leader ≠ some u ∧ ∀ y, w.heap u = some y → y.state = .leader)
    (hmem : ∀ u ∈ v.stale b, u ∈ (w.blocks b).transfers) :
    LinedAt { v with ending := E } (w.setBlock b { w.blocks b with transfers := v.stale b ++ [t], state := .completed }) b := by
  have hstate : ∀ u ∈ v.stale b ++ [t], ∀ y, w.heap u = some y → y.state = .leader := by
    intro u hu y hy
    rcases List.mem_append.mp hu with hu | hu
    · exact (hold u hu).2 y hy
    rw [List.mem_singleton.mp hu] at hy
    rw [← mem_unique hx hy]
    exact hs
  have hin : ∀ u ∈ v.stale b ++ [t], u ∈ (w.blocks b).transfers := by
    intro u hu
    rcases List.mem_append.mp hu with hu | hu
    · exact hmem u hu
    · rw [List.mem_singleton.mp hu]
      exact h.led t hleader
  refine h.reshape (update_self ..) rfl le_rfl rfl (fun _ ↦ hqueued) (fun _ ↦ id) (fun u hu ↦ .inr (hin u hu))
    (fun _ _ ↦ rfl) (fun u z' _ hz ↦ ⟨z', hz, rfl, .inl rfl, .inl rfl⟩) ⟨fun l hl ↦ ?_, fun _ ↦ hstate,
      fun _ ↦ ⟨t, hleader, fun y hy ↦ ?_⟩, fun u y hu hy hns ↦ ?_, fun _ hc ↦ absurd rfl hc,
      ⟨[t], rfl, hold, fun u hu _ _ _ ↦ ?_⟩, fun u y hu hy hor ↦ ?_⟩
  · obtain rfl := mem_unique hleader hl
    exact List.mem_append_right _ List.mem_cons_self
  · rw [← mem_unique hx hy]
    exact hfinished
  · rw [hstate u hu y hy] at hns
    cases hns
  · rw [List.mem_singleton.mp hu]
    exact hleader
  rcases hor with hns | ⟨hl, _⟩
  · rw [hstate u hu y hy] at hns
    cases hns
  · exact h.filled u y (hin u hu) hy (.inr ⟨hl, fun hc ↦ absurd hc hopen⟩)

theorem LinedAt.filter_leaders (h : LinedAt v w b) (hleader : (w.blocks b).leader = some t)
    (hx : w.heap t = some x) (hs : x.state = .leader) (hnodup : (w.blocks b).transfers.Nodup)
    (halive : ∀ u ∈ (w.blocks b).transfers, ∃ y, w.heap u = some y) :
    (w.blocks b).transfers.filter (w.isState .leader) = v.stale b ++ [t] ∧
      (∀ u ∈ v.stale b, (w.blocks b).leader ≠ some u ∧ ∀ y, w.heap u = some y → y.state = .leader) ∧
      ∀ u ∈ v.stale b, u ∈ (w.blocks b).transfers := by
  obtain ⟨new, hsplit, hold, hnew⟩ := h.order
  have hmem : ∀ u ∈ v.stale b, u ∈ (w.blocks b).transfers := fun u hu ↦ by rw [hsplit]; exact List.mem_append_left _ hu
  have hmem' : ∀ u ∈ new, u ∈ (w.blocks b).transfers := fun u hu ↦ by rw [hsplit]; exact List.mem_append_right _ hu
  have hnot : t ∉ v.stale b := fun hc ↦ (hold t hc).1 hleader
  have ht : t ∈ new := by
    have := h.led t hleader
    rw [hsplit] at this
    exact (List.mem_append.mp this).resolve_left hnot
  refine ⟨?_, hold, hmem⟩
  have hkeep : (v.stale b).filter (w.isState .leader) = v.stale b :=
    List.filter_eq_self.mpr fun u hu ↦ isState_of (halive u (hmem u hu)) (hold u hu).2
  have honly : new.filter (w.isState .leader) = new.filter (· == t) := by
    apply List.filter_congr
    intro u hu
    obtain ⟨y, hy⟩ := halive u (hmem' u hu)
    rw [isState_eq hy]
    by_cases hut : u = t
    · subst hut
      obtain rfl := mem_unique hx hy
      simp [hs]
    have hns : y.state ≠ .leader := fun hc ↦
      hut (some.inj (hleader.symm.trans (hnew u hu y hy hc))).symm
    simp [hut, hns]
  have hcount : new.count t = 1 := by
    rw [hsplit] at hnodup
    exact List.count_eq_one_of_mem (List.Nodup.of_append_right hnodup) ht
  rw [hsplit, List.filter_append, hkeep, honly, List.filter_beq, hcount]
  rfl

structure Completing (b : ℕ) (w w' : World) : Prop where
  next : w.next ≤ w'.next
  size : w'.size = w.size
  finished : w'.finished = w.finished + 1
  piece : ∀ c, (w'.blocks c).piece = (w.blocks c).piece
  state : ∀ c ≠ b, (w'.blocks c).state = (w.blocks c).state
  leader : ∀ c ≠ b, (w'.blocks c).leader = (w.blocks c).leader
  completed : (w'.blocks b).state = .completed

variable {w' : World} {S : ℕ → List ℕ} {K : Prop}

theorem Completing.count (h : Completing b w w') (hb : b < w.size)
    (hopen : (w.blocks b).state ≠ .completed) (hcount : w.finished = w.completedCount) :
    w'.finished = w'.completedCount := by
  have hset : ({c ∈ range w'.size | (w'.blocks c).state = .completed} : Finset ℕ) =
      insert b {c ∈ range w.size | (w.blocks c).state = .completed} := by
    ext c
    rw [mem_insert, mem_filter, mem_filter, mem_range, mem_range, h.size]
    by_cases hc : c = b
    · subst hc
      simp [hb, h.completed]
    · simp [hc, h.state c hc]
  rw [h.finished, hcount, completedCount, completedCount, hset, card_insert_of_notMem (by simp [hopen])]

theorem lined_completed (h : Lined v w) (htracks : Tracks w φ) (hφ : φ t = .leading b) (hx : w.heap t = some x)
    (hfinished : x.isFinished = true) (hb : b < w.size) (hcount : w.finished = w.completedCount)
    (hending : ∀ c ≠ b, v.ending c → E c) :
    Works (completed b t w) fun o ↦ Lined { v with ending := E } o.2 ∧ Completing b w o.2 := by
  obtain ⟨y, hy, _, hblock, hfits⟩ := htracks.alive t (by simp [hφ])
  obtain rfl := mem_unique hx hy
  rw [hφ] at hblock hfits
  have hstate : x.state = .leader := hfits
  have hleader := ((htracks.placed t).leader b).mpr (.inl hφ)
  have hopen := (htracks.settled b).leading t hφ
  have hisFinished : isFinished b w = .ok true := by
    rw [isFinished, hleader]
    simp [get_eq hx, Except.map, hfinished]
  have hdone : ∀ c < w.size, (w.blocks c).state = .completed ∨ c = b → isFinished c w = .ok true := by
    intro c _ hc
    rcases hc with hc | rfl
    · obtain ⟨l, hl⟩ := ne_none_iff_exists'.mp ((htracks.settled c).led hc)
      have hlφ : φ l = .completed c := (((htracks.placed l).leader c).mp hl).resolve_left fun hlead ↦
        (htracks.settled c).leading l hlead hc
      obtain ⟨z, hz, _, _, hzfits⟩ := htracks.alive l (by simp [hlφ])
      rw [hlφ] at hzfits
      rw [isFinished, hl]
      simp [get_eq hz, Except.map, hzfits.2.2]
    · exact hisFinished
  have hlarge : #{c ∈ range w.size | (w.blocks c).state = .completed ∨ c = b} = w.finished + 1 := by
    rw [filter_or, filter_eq', if_pos (mem_range.mpr hb), union_singleton, card_insert_of_notMem (by simp [hopen]),
      hcount, completedCount]
  rw [completed, get_eq hx, ok_bind, if_neg (by simp [hblock, Phase.block]),
    if_neg (not_not.mpr hstate), hisFinished, ok_bind, if_neg (by simp), if_neg (not_not.mpr hleader)]
  refine (safe_countFinished (w := { w with finished := w.finished + 1 }) hdone).bind fun n hn ↦ ?_
  rw [hlarge] at hn
  refine .ite (fun hc ↦ absurd hc (not_lt.mpr hn)) fun _ ↦ ?_
  have h₁ : Lined v { w with finished := w.finished + 1 } := fun c ↦
    (h c).congr rfl le_rfl (fun _ _ ↦ ⟨rfl, rfl⟩) rfl id id fun _ _ ↦ rfl
  generalize hw₁ : { w with finished := w.finished + 1 } = w₁ at h₁
  have hheap₁ : w₁.heap = w.heap := by rw [← hw₁]
  have hblocks₁ : w₁.blocks = w.blocks := by rw [← hw₁]
  have hq₂ : Quiet w₁ (w₁.setBlock b { w₁.blocks b with
      notStalled := (w₁.blocks b).notStalled - stallUnit x }) := .setNotStalled _
  have hq₃ := hq₂.trans (.put (x := x) (y := { x with block := none, stall := 0xFFFFFFFF })
    (by rw [heap_setBlock, hheap₁, hx]) ⟨rfl, rfl, rfl, .inr rfl, .inl rfl⟩)
  refine (quiet_forEach_invalidate _).bind fun w₄ hq₄ ↦ ?_
  have hq₅ := (hq₃.trans hq₄).trans (.setBlock (b := b) (n := (w₄.blocks b).notStalled) (l := []) (by simp))
  generalize hw₅ : w₄.setBlock b { w₄.blocks b with notStalled := (w₄.blocks b).notStalled, queued := [] } = w₅ at hq₅
  have h₅ := h₁.of_quiet hq₅
  have hleader₅ : (w₅.blocks b).leader = some t := by rw [hq₅.leader, hblocks₁, hleader]
  have hopen₅ : (w₅.blocks b).state ≠ .completed := by rw [hq₅.state, hblocks₁]; exact hopen
  have hqueued₅ : (w₅.blocks b).queued = [] := by rw [← hw₅, blocks_setBlock, update_self]
  have hnodup₅ : (w₅.blocks b).transfers.Nodup := by
    rw [hq₅.transfers, hblocks₁]
    exact (htracks.settled b).nodupTransfers
  refine safe_removeTransfers.bind ?_
  rintro w₆ ⟨halive, hq₆⟩
  obtain ⟨z, hz⟩ := halive t ((h₅ b).led t hleader₅)
  obtain ⟨x₁, hx₁, hsim⟩ := hq₅.cell t z (by
    rw [← hw₁]
    exact htracks.lt_next _ (by simp [hφ])) hz
  rw [hheap₁] at hx₁
  obtain rfl := mem_unique hx hx₁
  have hzs : z.state = .leader := by rw [hsim.state, hstate]
  have hzf : z.isFinished = true := by
    rw [BlockTransfer.isFinished, hsim.position, hsim.piece]
    exact hfinished
  obtain ⟨hfilter, hold, hmem⟩ := (h₅ b).filter_leaders hleader₅ hz hzs hnodup₅ halive
  rw [hfilter] at hq₆
  have htransfers : (w₆.blocks b).transfers = v.stale b ++ [t] := by
    rw [hq₆.transfers, blocks_setBlock, update_self]
  refine .ite (fun hc ↦ absurd (by rw [htransfers, List.getLast?_concat]) hc) fun _ ↦ ?_
  have hlast : Quiet ((w₅.setBlock b { w₅.blocks b with transfers := v.stale b ++ [t] }).setBlock b
      { w₅.blocks b with transfers := v.stale b ++ [t], state := .completed })
      (w₆.setBlock b { w₆.blocks b with state := .completed }) := hq₆.of_block
    (by rw [hq₆.piece, blocks_setBlock, update_self]) rfl htransfers
    (by rw [hq₆.leader, blocks_setBlock, update_self])
    (fun u hu ↦ by
      have hu' := hq₆.queued b u hu
      rwa [blocks_setBlock, update_self] at hu')
  rw [setBlock_setBlock] at hlast
  have hat : LinedAt { v with ending := E }
      (w₅.setBlock b { w₅.blocks b with transfers := v.stale b ++ [t], state := .completed }) b :=
    (h₅ b).complete hleader₅ hqueued₅ hopen₅ hz hzs hzf hold hmem
  have hsteady := hq₅.steady
  refine ⟨fun c ↦ LinedAt.of_quiet ?_ hlast, ?_⟩
  · by_cases hc : c = b
    · exact hc ▸ hat
    · refine (h₅ c).congr (by rw [blocks_setBlock, update_of_ne hc]) le_rfl
        (fun _ _ ↦ ⟨rfl, rfl⟩) rfl id (hending c hc) fun _ _ ↦ rfl
  refine ⟨?_, ?_, ?_, fun c ↦ ?_, fun c hc ↦ ?_, fun c hc ↦ ?_, ?_⟩
  · exact (hsteady.next.trans hlast.next).trans' (by rw [← hw₁])
  · exact hlast.size.trans (hsteady.size.trans (by rw [← hw₁]))
  · exact hlast.finished.trans (hsteady.finished.trans (by rw [← hw₁]))
  · rw [hlast.piece, blocks_setBlock]
    by_cases hc : c = b
    · rw [hc, update_self, ← hblocks₁]
      exact hsteady.piece b
    · rw [update_of_ne hc, ← hblocks₁]
      exact hsteady.piece c
  · rw [hlast.state, blocks_setBlock, update_of_ne hc, hq₅.state, hblocks₁]
  · rw [hlast.leader, blocks_setBlock, update_of_ne hc, hq₅.leader, hblocks₁]
  · rw [hlast.state, blocks_setBlock, update_self]

theorem safe_forEach_setBlock {f : ℕ → World → Except Fault World} {g : Block → Block} (hg : ∀ B, g (g B) = g B)
    (hf : ∀ b w, Works (f b w) (· = w.setBlock b (g (w.blocks b)))) (l : List ℕ) :
    Works (forEach f l w) fun w' ↦ w'.heap = w.heap ∧ w'.next = w.next ∧ w'.size = w.size ∧
      w'.finished = w.finished ∧ ∀ b, w'.blocks b = if b ∈ l then g (w.blocks b) else w.blocks b := by
  induction l generalizing w with
  | nil => exact ⟨rfl, rfl, rfl, rfl, fun b ↦ by simp⟩
  | cons c l ih =>
    refine (hf c w).bind fun w₁ h₁ ↦ ?_
    subst h₁
    refine ih.mono fun w₂ ⟨hheap, hnext, hsize, hfinished, hblocks⟩ ↦ ⟨hheap, hnext, hsize, hfinished, fun b ↦ ?_⟩
    rw [hblocks, blocks_setBlock]
    by_cases hb : b = c
    · subst hb
      simp [hg]
    · simp [hb]

theorem LinedAt.fail (h : LinedAt v w b)
    (hS : S b = (w.blocks b).transfers) (hdone : (w.blocks b).state = .completed)
    (hblock : w'.blocks b = { w.blocks b with leader := none, state := .incomplete })
    (hheap : w'.heap = w.heap) (hnext : w'.next = w.next) :
    LinedAt { v with intact := K, stale := S, ending := E } w' b := by
  have hstate := h.done hdone
  refine h.reshape hblock hheap hnext.ge rfl nofun (fun _ ↦ id) (fun _ ↦ .inr) (fun _ _ ↦ rfl)
    (fun u z' _ hz ↦ ⟨z', hz, rfl, .inl rfl, .inl rfl⟩) ⟨nofun, nofun, nofun, fun u y hu hy hs ↦ ?_, nofun,
      ⟨[], (List.append_nil _ ▸ hS.symm), fun u hu ↦ ⟨nofun, hstate u (hS ▸ hu)⟩, nofun⟩, fun u y hu hy hor ↦ ?_⟩
  · rw [hstate u hu y hy] at hs
    cases hs
  rcases hor with hs | ⟨hl, _⟩
  · rw [hstate u hu y hy] at hs
    cases hs
  · cases hl

theorem LinedAt.of_nowhere {v' : Progress} (hnone : ∀ u, ¬ w.Has b u) (hleader : (w.blocks b).leader = none)
    (hopen : (w.blocks b).state ≠ .completed) (hstale : v'.stale b = []) : LinedAt v' w b := by
  have hqueued : ∀ u, u ∉ (w.blocks b).queued := fun u hu ↦ hnone u (.inl hu)
  have htransfers : ∀ u, u ∉ (w.blocks b).transfers := fun u hu ↦ hnone u (.inr hu)
  refine ⟨⟨by rw [hleader]; nofun, (absurd · hopen), (absurd · hopen), fun u _ hu ↦ absurd hu (htransfers u),
    by rw [hleader]; nofun, ⟨[], by rw [hstale]; exact List.eq_nil_iff_forall_not_mem.mpr htransfers, by rw [hstale]; nofun, nofun⟩,
    fun u _ hu ↦ absurd hu (htransfers u)⟩, fun u hu ↦ absurd hu (hnone u),
    fun _ ↦ List.eq_nil_iff_forall_not_mem.mpr hqueued, fun u _ hu ↦ absurd hu (hnone u), fun u _ hu ↦ absurd hu (hqueued u),
    fun u hu ↦ absurd hu (hqueued u), fun u _ hu ↦ absurd hu (htransfers u), fun u _ _ _ hu ↦ absurd hu (hnone u)⟩

theorem lined_doAllFailed (h : Lined v w)
    (hS : ∀ b, S b = if b < w.size then (w.blocks b).transfers else []) (htracks : Tracks w φ)
    (hsmall : ∀ t b, (φ t).home = some b → b < w.size) (hall : ∀ b < w.size, (w.blocks b).state = .completed) :
    Works (BlockList.doAllFailed w) fun w' ↦
      Lined { v with intact := K, stale := S, ending := E } w' ∧ w'.next = w.next ∧
      w'.size = w.size ∧ w'.finished = 0 ∧ w'.completedCount = 0 ∧
      ∀ b, (w'.blocks b).piece = (w.blocks b).piece ∧ (w'.blocks b).transfers = (w.blocks b).transfers := by
  refine .either (by simp [blockFault]) ?_
  refine (safe_forEach_setBlock (g := fun B ↦ { B with leader := none }) (fun _ ↦ rfl)
    (fun b w ↦ ?_) _).bind ?_
  · exact safe_isFinished.bind fun f _ ↦ .either (by simp [blockFault]) rfl
  rintro w₁ ⟨hheap₁, hnext₁, hsize₁, hfinished₁, hblocks₁⟩
  refine (safe_forEach_setBlock (f := retryTransfer) (g := fun B ↦ { B with state := .incomplete }) (fun _ ↦ rfl)
    (fun b w ↦ rfl) _).mono ?_
  rintro w₂ ⟨hheap₂, hnext₂, hsize₂, hfinished₂, hblocks₂⟩
  rw [hsize₁] at hblocks₂
  have hsize := hsize₂.trans hsize₁
  have hin : ∀ b < w.size, w₂.blocks b = { w.blocks b with leader := none, state := .incomplete } := by
    intro b hb
    rw [hblocks₂, if_pos (List.mem_range.mpr hb), hblocks₁, if_pos (List.mem_range.mpr hb)]
  have hout : ∀ b, ¬ b < w.size → w₂.blocks b = w.blocks b := by
    intro b hb
    have hrange : b ∉ List.range w.size := fun hc ↦ hb (List.mem_range.mp hc)
    rw [hblocks₂, if_neg hrange, hblocks₁, if_neg hrange]
  refine ⟨fun b ↦ ?_, hnext₂.trans hnext₁, hsize, hfinished₂.trans hfinished₁, ?_, fun b ↦ ?_⟩
  · by_cases hb : b < w.size
    · exact (h b).fail ((hS b).trans (if_pos hb)) (hall b hb) (hin b hb) (hheap₂.trans hheap₁) (hnext₂.trans hnext₁)
    have hnone : ∀ u, ¬ w.Has b u := fun u hu ↦ hb (hsmall u b (htracks.home_of_has hu))
    have hleader : (w.blocks b).leader = none :=
      Option.eq_none_iff_forall_ne_some.mpr fun l hl ↦ hnone l (.inr ((h b).led l hl))
    refine .of_nowhere (fun u hu ↦ hnone u ?_) (by rw [hout b hb, hleader]) (fun hc ↦ ?_) ((hS b).trans (if_neg hb))
    · rwa [World.Has, hout b hb] at hu
    · rw [hout b hb] at hc
      exact (htracks.settled b).led hc hleader
  · rw [completedCount, card_eq_zero, filter_eq_empty_iff]
    intro b hb
    rw [mem_range, hsize] at hb
    rw [hin b hb]
    simp
  · by_cases hb : b < w.size
    · rw [hin b hb]
      exact ⟨rfl, rfl⟩
    · rw [hout b hb]
      exact ⟨rfl, rfl⟩

end LibTorrent
