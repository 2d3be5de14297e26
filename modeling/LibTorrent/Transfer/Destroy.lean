import LibTorrent.Transfer.Complete

namespace LibTorrent

open Function Lib.Outcome Lib.Store List Option World

variable {H C : Prop} {w w' : World} {φ : ℕ → Phase} {b t p : ℕ} {x : BlockTransfer}

theorem ensures_newTransfer : Safely H (newTransfer x p w) fun r ↦ r.1 = w.next ∧
      r.2.heap = update w.heap w.next (some { x with peerInfo := some p }) ∧
      r.2.blocks = w.blocks ∧ r.2.next = w.next + 1 ∧ Kept w r.2 := by
  rw [newTransfer, setPeerInfo, get_eq (x := { x with peerInfo := none }) (by simp), ok_bind]
  simp only [countPeer, ok_bind, incTransferCounter]
  split_ifs
  · simp [Bad, stallFault]
  refine ⟨rfl, by simp, rfl, rfl, fun q ↦ ?_, rfl, rfl⟩
  by_cases hq : q = p
  · subst hq
    simp
  · simp [update_of_ne hq]

structure Allocated (H : Prop) (f : Phase) (p : ℕ) (w : World) (φ : ℕ → Phase) (w' : World) : Prop where
  tracks : Tracks w' (update φ w.next f)
  balanced : H → Balanced (fun _ ↦ 0) w'
  peer : (w'.heap w.next).map BlockTransfer.peerInfo = some (some p)
  heap : ∀ s ≠ w.next, w'.heap s = w.heap s
  kept : Kept w w'

theorem Tracks.allocate (h : Tracks w φ) (hheap : w'.heap = update w.heap w.next (some x))
    (hnext : w'.next = w.next + 1) (hshow : f.Shows (some x)) (hf : f = .detached ∨ f = .queued b)
    (hblocks : ∀ c, w'.blocks c = { w.blocks c with
      queued := (w.blocks c).queued ++ (if f = .queued c then [w.next] else []),
      notStalled := (w'.blocks c).notStalled }) : Tracks w' (update φ w.next f) := by
  have hfree : φ w.next = .free := h.next _ le_rfl
  have hact : f.active = none := by rcases hf with hf | hf <;> rw [hf] <;> rfl
  have hlead : ∀ c, ¬ (f = .leading c ∨ f = .completed c) := by
    intro c
    rcases hf with hf | hf <;> simp [hf]
  have hold := h.placed w.next
  rw [hfree] at hold
  refine ⟨fun s ↦ ?_, fun c ↦ ?_, fun s hs ↦ ?_⟩
  · by_cases hst : s = w.next
    · subst hst
      rw [update_self]
      refine ⟨by rw [hheap, update_self]; exact hshow, fun c ↦ ?_, fun c ↦ ?_, fun c ↦ ?_⟩
      · have hn : w.next ∉ (w.blocks c).queued := by simp [hold.queued]
        rw [hblocks, mem_append]
        split_ifs with hc
        · simp [hc]
        · simp [hc, hn]
      · rw [hblocks, hact, hold.transfers]
        simp [Phase.active]
      · rw [hblocks, hold.leader]
        exact iff_of_false (by simp) (hlead c)
    · have hps := h.placed s
      rw [update_of_ne hst]
      refine ⟨by rw [hheap, update_of_ne hst]; exact hps.shows, fun c ↦ ?_, fun c ↦ ?_, fun c ↦ ?_⟩
      · rw [hblocks, mem_append, hps.queued]
        split_ifs <;> simp [hst]
      · rw [hblocks, hps.transfers]
      · rw [hblocks, hps.leader]
  · have hs := h.settled c
    rw [hblocks]
    refine hs.move rfl (fun hc ↦ hlead c (.inr hc)) (fun hc ↦ absurd (.inl hc) (hlead c)) hs.led ?_ hs.nodupTransfers
    have hn : w.next ∉ (w.blocks c).queued := by simp [hold.queued]
    split_ifs
    · exact concat_eq_append ▸ hs.nodupQueued.concat hn
    · simpa using hs.nodupQueued
  · rw [update_of_ne (by omega)]
    exact h.next s (by omega)

theorem tally_allocate (h : w'.heap = update w.heap w.next (some x)) (hnext : w'.next = w.next + 1) (b : ℕ) :
    tally w'.heap w'.next (Fresh b) = tally w.heap w.next (Fresh b) + weight (Fresh b) (some x) := by
  rw [hnext, tally_succ, h, update_self]
  congr 1
  apply tally_congr
  intro s hs
  rw [update_of_ne (by omega)]

theorem ensures_createDummy {piece : Piece} {position : UInt32} (h : Tracks w φ) (hbal : H → Level w) :
    Safely H (RequestList.createDummy p piece position w) fun r ↦
      r.1 = w.next ∧ Allocated H .detached p w φ r.2 := by
  refine ensures_newTransfer.mono fun r ⟨h₁, h₂, h₃, h₄, h₅⟩ ↦ ⟨h₁, ?_, fun hH b ↦ ?_, ?_, fun s hs ↦ ?_, h₅⟩
  · exact h.allocate (b := 0) h₂ h₄ ⟨by simp, rfl, trivial⟩ (.inl rfl) fun c ↦ by simp [h₃]
  · rw [tally_allocate h₂ h₄, h₃, hbal hH b]
    simp [weight_fresh]
  · simp [h₂]
  · rw [h₂, update_of_ne hs]

theorem ensures_findIf (hl : ∀ t ∈ l, w.heap t ≠ none) :
    Safely H (findIf f l w) fun o ↦ ∀ t, o = some t → t ∈ l ∧ ∃ x, w.heap t = some x ∧ f x = true := by
  induction l with
  | nil => simp [findIf]
  | cons a l ih =>
    obtain ⟨x, hx⟩ := ne_none_iff_exists'.mp (hl a mem_cons_self)
    rw [findIf, get_eq hx, ok_bind]
    split_ifs with hf
    · intro t ht
      cases ht
      exact ⟨mem_cons_self, x, hx, hf⟩
    · refine (ih fun t ht ↦ hl t (mem_cons_of_mem a ht)).mono fun o ho t ht ↦ ?_
      exact ⟨mem_cons_of_mem a (ho t ht).1, (ho t ht).2⟩

theorem ensures_insert (h : Tracks w φ) (hbal : H → Level w)
    (hroom : H → (w.blocks b).notStalled.toNat + 1 < 2 ^ 32) :
    Safely H (Block.insert b p w) fun r ↦
      (r = (none, w)) ∨ (r.1 = some w.next ∧ Allocated H (.queued b) p w φ r.2 ∧
        ∀ c, (r.2.blocks c).notStalled.toNat ≤ (w.blocks c).notStalled.toNat + 1) := by
  refine (ensures_findIf fun t ht ↦ (h.mem_queued ht).2.2.1).bind fun o _ ↦ ?_
  split_ifs with ho
  · exact .inl rfl
  refine (ensures_findIf fun t ht ↦ (h.mem_transfers ht).2.1).bind fun o _ ↦ ?_
  split_ifs with ho
  · exact .inl rfl
  refine ensures_newTransfer.bind fun ⟨t, v⟩ ⟨h₁, h₂, h₃, h₄, h₅⟩ ↦ ?_
  dsimp only at h₁ h₂ h₃ h₄ h₅ ⊢
  generalize hu : v.setBlock b { v.blocks b with queued := (v.blocks b).queued ++ [t] } = u
  have hheap : u.heap = update w.heap w.next
      (some ⟨some p, some b, (w.blocks b).piece, .queued, 0, 0⟩) := by
    rw [← hu, heap_setBlock, h₂]
    simp
  have hnext : u.next = w.next + 1 := by rw [← hu, next_setBlock, h₄, next_setBlock]
  have hB : u.blocks b = { w.blocks b with
      notStalled := (w.blocks b).notStalled + 1, queued := (w.blocks b).queued ++ [w.next] } := by
    rw [← hu, blocks_setBlock, update_self, h₃, h₁]
    simp
  have hother : ∀ c ≠ b, u.blocks c = w.blocks c := fun c hc ↦ by
    rw [← hu, blocks_setBlock, update_of_ne hc, h₃, blocks_setBlock, update_of_ne hc]
  refine .ok (.inr ⟨congrArg some h₁, ⟨?_, fun hH c ↦ ?_, ?_, fun s hs ↦ ?_, ?_⟩, fun c ↦ ?_⟩)
  · refine h.allocate hheap hnext ⟨by simp, rfl, rfl⟩ (.inr rfl) fun c ↦ ?_
    by_cases hc : c = b
    · rw [hc, hB, if_pos rfl]
    · rw [hother c hc, if_neg (by simpa using Ne.symm hc), append_nil]
  · have hbal' := hbal hH c
    rw [tally_allocate hheap hnext, weight_fresh, ← hbal']
    by_cases hc : c = b
    · have := hroom hH
      rw [hc, hB, if_pos ⟨rfl, rfl⟩, UInt32.toNat_add]
      exact Nat.mod_eq_of_lt this
    · rw [hother c hc, if_neg fun hn ↦ hc (some.inj hn.1).symm]
      rfl
  · simp [hheap]
  · rw [hheap, update_of_ne hs]
  · exact Kept.setBlock.trans (h₅.trans (hu ▸ Kept.setBlock))
  · by_cases hc : c = b
    · rw [hc, hB, UInt32.toNat_add]
      exact Nat.mod_le _ _
    · rw [hother c hc]
      omega

open Block Kept Phase

variable {b t : ℕ}

/-- The state of the destructor before it gives the transfers up: nobody leads the block,
and the transfer that completed it has no peer. -/
structure Unled (b : ℕ) (φ : ℕ → Phase) (w v : World) : Prop where
  heap : ∀ s, v.heap s =
    if φ s = .completed b then (w.heap s).map fun x ↦ { x with peerInfo := none } else w.heap s
  block : v.blocks b = { w.blocks b with leader := none, state := .invalid }
  other : ∀ b' ≠ b, v.blocks b' = w.blocks b'
  next : v.next = w.next
  kept : Kept w v

variable {v : World} {l : List ℕ}

theorem Unled.of_dropped (hheap : ∀ s, v.heap s =
      if φ s = .completed b then (w.heap s).map fun x ↦ { x with peerInfo := none } else w.heap s)
    (hblocks : v.blocks = w.blocks) (hnext : v.next = w.next) (hkept : Kept w v) :
    Unled b φ w (v.setBlock b { v.blocks b with leader := none, state := .invalid }) := by
  refine ⟨hheap, ?_, fun b' hbb ↦ ?_, hnext, hkept.trans setBlock⟩
  · rw [blocks_setBlock, update_self, hblocks]
  · rw [blocks_setBlock, update_of_ne hbb, hblocks]

theorem ensures_dropLeaderPeer (h : Tracks w φ) : Safely H (dropLeaderPeer b w) fun v ↦
      Unled b φ w (v.setBlock b { v.blocks b with leader := none, state := .invalid }) := by
  have hs := h.settled b
  unfold dropLeaderPeer
  cases hstate : (w.blocks b).state with
  | invalid => simp [Bad, stallFault]
  | incomplete =>
    refine Unled.of_dropped (fun s ↦ (if_neg fun hφ ↦ ?_).symm) rfl rfl (refl w)
    exact absurd (hs.completed s hφ) (by simp [hstate])
  | completed =>
    cases hl : (w.blocks b).leader with
    | none => simp [Bad, stallFault]
    | some l =>
      have hφl : φ l = .completed b := (((h.placed l).leader b).mp hl).resolve_left fun hc ↦ hs.leading l hc hstate
      obtain ⟨x, hx, -⟩ := h.alive l (by simp [hφl])
      refine (ensures_dropPeer hx).mono fun v hd ↦ Unled.of_dropped (fun s ↦ ?_) hd.blocks hd.next hd.kept
      by_cases hsl : s = l
      · rw [hsl, hd.heap, update_self, if_pos hφl, hx]
        rfl
      rw [hd.heap, update_of_ne hsl, if_neg]
      intro hφ
      exact hsl (some.inj ((((h.placed s).leader b).mpr (.inr hφ)).symm.trans hl))

theorem Unled.balanced (hu : Unled b φ w v) (hbal : Level w) : Level v := by
  refine hbal.of_same hu.next (fun b' ↦ ?_) fun s b' ↦ ?_
  · by_cases hbb : b' = b
    · rw [hbb, hu.block]
    · rw [hu.other b' hbb]
  rw [hu.heap]
  split_ifs
  · cases w.heap s <;> simp [Fresh]
  · rfl

theorem Unled.alive (hu : Unled b φ w v) {s : ℕ} (hs : w.heap s ≠ none) : v.heap s ≠ none := by
  rw [hu.heap]
  split_ifs
  · simpa using hs
  · exact hs

theorem Tracks.home_iff (h : Tracks w φ) :
    (φ t).home = some b ↔ t ∈ (w.blocks b).queued ∨ t ∈ (w.blocks b).transfers := by
  rw [(h.placed t).queued, (h.placed t).transfers]
  cases φ t <;> simp [home, active]

theorem Unled.heap_givenUp (hu : Unled b φ w v) (h : Tracks w φ) (s : ℕ) : (if s ∈ (w.blocks b).transfers then
      (if s ∈ (w.blocks b).queued then (v.heap s).bind givenUp else v.heap s).bind givenUp
    else if s ∈ (w.blocks b).queued then (v.heap s).bind givenUp else v.heap s) =
      if (φ s).home = some b then if φ s = .completed b then none else (w.heap s).bind givenUp else w.heap s := by
  by_cases hq : s ∈ (w.blocks b).queued
  · obtain ⟨hφ, hnt, -⟩ := h.mem_queued hq
    simp [hq, hnt, hu.heap, hφ, home]
  by_cases ht : s ∈ (w.blocks b).transfers
  · rw [if_pos ht, if_neg hq, if_pos (h.home_iff.mpr (.inr ht)), hu.heap]
    split_ifs
    · cases w.heap s <;> simp [givenUp]
    · rfl
  have hhome : (φ s).home ≠ some b := fun hc ↦ (h.home_iff.mp hc).elim hq ht
  have hc : φ s ≠ .completed b := fun hc ↦ hhome (by rw [hc]; rfl)
  rw [if_neg ht, if_neg hq, if_neg hhome, hu.heap, if_neg hc]

structure Destroyed (b : ℕ) (w : World) (φ : ℕ → Phase) (w' : World) : Prop where
  heap : ∀ s, w'.heap s = if (φ s).home = some b then
    if φ s = .completed b then none else (w.heap s).bind givenUp else w.heap s
  block : (w'.blocks b).queued = [] ∧ (w'.blocks b).transfers = [] ∧ (w'.blocks b).leader = none ∧
    (w'.blocks b).state = .invalid
  other : ∀ b' ≠ b, w'.blocks b' = w.blocks b'
  next : w'.next = w.next
  kept : Kept w w'

def destroyedPhase (b : ℕ) (f : Phase) : Phase := if f.home = some b then f.givenUp else f

theorem Destroyed.advance (h : Tracks w φ) (hd : Destroyed b w φ w') (hbal : H → Level w') :
    Calm H C w φ w' fun s ↦ destroyedPhase b (φ s) := by
  obtain ⟨hq, ht, hl, hstate⟩ := hd.block
  refine Advance.of_block h hd.other hd.next hd.kept hbal ⟨fun s hφ ↦ ?_, fun s _ ↦ ?_, fun hc ↦ ?_, ?_, ?_⟩ fun s ↦ ?_
  · rw [destroyedPhase] at hφ
    split_ifs at hφ with hhome
    · have := home_givenUp (f := φ s)
      simp [hφ, home] at this
    · simp [hφ, home] at hhome
  · simp [hstate]
  · simp [hstate] at hc
  · simp [hq]
  · simp [ht]
  by_cases hhome : (φ s).home = some b
  · right
    refine Moved.of_givenUp h hhome ?_ (by simp [hq]) (by simp [ht]) (by simp [hl]) ?_ id
    · rw [hd.heap, if_pos hhome]
    · rw [destroyedPhase, if_pos hhome]
  left
  obtain ⟨hq', ht', hl'⟩ := elsewhere hhome
  have hpl := h.placed s
  refine ⟨by rw [destroyedPhase, if_neg hhome], by rw [hd.heap, if_neg hhome], ?_, ?_, ?_, id⟩
  · rw [hq, hpl.queued]
    simpa using hq'
  · rw [ht, hpl.transfers]
    simpa using ht'
  · rw [hl, hpl.leader]
    simpa using hl'

theorem Tracks.block_of_fresh (h : Tracks w φ) (ht : t ∈ (w.blocks b).transfers) (hx : w.heap t = some x)
    (hcare : DissimilarStalled w φ b) (hs : x.stall = 0) : x.block = some b := by
  obtain ⟨x', hx', -, hb, hf⟩ := h.alive t fun hfree ↦ by
    have := (h.mem_transfers ht).1
    simp [hfree, active] at this
  obtain rfl : x = x' := mem_unique hx hx'
  have hact := (h.mem_transfers ht).1
  rw [hb]
  cases hφ : φ t with
  | waiting c | leading c => rw [hφ] at hact; exact hact
  | dissimilar c =>
    rw [hφ, active, some.injEq] at hact
    exact absurd hs (hcare t (by rw [hφ, hact]) x hx)
  | completed c => rw [hφ] at hf; exact absurd hs hf.2.1
  | stale c => rw [hφ] at hf; exact absurd hs hf.2
  | free | queued | detached | lost => simp [hφ, active] at hact

theorem ensures_destroyBlock (h : Tracks w φ) (hbal : H → Level w) (hcare : H → DissimilarStalled w φ b) :
    Safely H (destroy b w) fun w' ↦ Destroyed b w φ w' ∧ (H → Level w') := by
  have hset := h.settled b
  refine (ensures_dropLeaderPeer h).bind fun v hu ↦ ?_
  generalize v.setBlock b { v.blocks b with leader := none, state := .invalid } = w₂ at hu
  have hqueued : (w₂.blocks b).queued = (w.blocks b).queued := by rw [hu.block]
  dsimp only
  rw [hqueued]
  refine (ensures_forEach_invalidate hset.nodupQueued ?_ ?_ ?_ (fun hH ↦ hu.balanced (hbal hH)) ?_).bind
    fun w₃ ⟨hi, hbal₃⟩ ↦ ?_
  · exact fun s hs ↦ hu.alive (h.mem_queued hs).2.2.1
  · exact fun s hs ↦ hu.next ▸ (h.mem_queued hs).2.2.2.1
  · intro s _
    rw [hu.block]
    simp
  · intro _ s hs y hy _
    rw [hu.heap, if_neg (by simp [(h.mem_queued hs).1])] at hy
    exact ⟨(h.mem_queued hs).2.2.2.2 y hy, rfl⟩
  have hbal₄ : H → Level (w₃.setBlock b { w₃.blocks b with queued := [] }) := fun hH ↦
    (hbal₃ hH).of_same rfl (fun b' ↦ by by_cases hb : b' = b <;> simp [hb]) fun _ _ ↦ rfl
  have hB₄ : (w₃.setBlock b { w₃.blocks b with queued := [] }).blocks b = { w.blocks b with
      leader := none, state := .invalid, queued := [], notStalled := (w₃.blocks b).notStalled } := by
    rw [blocks_setBlock, update_self, hi.block, hu.block]
  have hother₄ : ∀ b' ≠ b, (w₃.setBlock b { w₃.blocks b with queued := [] }).blocks b' = w.blocks b' := fun b' hbb ↦ by
    rw [blocks_setBlock, update_of_ne hbb, hi.other b' hbb, hu.other b' hbb]
  have hheap₄ : (w₃.setBlock b { w₃.blocks b with queued := [] }).heap = w₃.heap := rfl
  have hnext₄ : (w₃.setBlock b { w₃.blocks b with queued := [] }).next = w.next := hi.next.trans hu.next
  have hkept₄ : Kept w (w₃.setBlock b { w₃.blocks b with queued := [] }) :=
    hu.kept.trans (hi.kept.trans setBlock)
  generalize w₃.setBlock b { w₃.blocks b with queued := [] } = w₄ at *
  have htransfers : (w₄.blocks b).transfers = (w.blocks b).transfers := by rw [hB₄]
  have hsame : ∀ s ∈ (w.blocks b).transfers, w₄.heap s = w₂.heap s := fun s hs ↦ by
    rw [hheap₄, hi.heap, if_neg fun hq ↦ (h.mem_queued hq).2.1 hs]
  rw [htransfers]
  refine (ensures_forEach_invalidate hset.nodupTransfers ?_ ?_ ?_ hbal₄ ?_).bind fun w₅ ⟨hi', hbal₅⟩ ↦ ?_
  · intro s hs
    rw [hsame s hs]
    exact hu.alive (h.mem_transfers hs).2.1
  · intro s hs
    rw [hnext₄]
    exact (h.mem_transfers hs).2.2
  · intro s _
    rw [hB₄]
    simp
  · intro hH s hs y hy hstall
    rw [hsame s hs, hu.heap] at hy
    split_ifs at hy with hc
    · obtain ⟨x, hx, rfl⟩ := map_eq_some_iff.mp hy
      exact ⟨h.block_of_fresh (x := x) hs hx (hcare hH) hstall, rfl⟩
    · exact ⟨h.block_of_fresh hs hy (hcare hH) hstall, rfl⟩
  split_ifs with h0
  · simp [Bad, stallFault]
  refine .ok ⟨⟨fun s ↦ ?_, ?_, fun b' hbb ↦ ?_, ?_, ?_⟩, fun hH ↦ ?_⟩
  · rw [heap_setBlock, hi'.heap, hheap₄, hi.heap]
    exact hu.heap_givenUp h s
  · rw [blocks_setBlock, update_self, hi'.block, hB₄]
    simp
  · rw [blocks_setBlock, update_of_ne hbb, hi'.other b' hbb, hother₄ b' hbb]
  · rw [next_setBlock, hi'.next, hnext₄]
  · exact hkept₄.trans (hi'.kept.trans setBlock)
  · exact (hbal₅ hH).of_same rfl (fun b' ↦ by by_cases hb : b' = b <;> simp [hb]) fun _ _ ↦ rfl

theorem ensures_forEach_destroy (h : Tracks w φ) (hbal : H → Level w)
    (hcare : H → ∀ b ∈ l, DissimilarStalled w φ b) :
    Safely H (forEach destroy l w) fun w' ↦
      ∃ φ', Calm H C w φ w' φ' ∧ ∀ b ∈ l, ∀ s, (φ' s).home ≠ some b := by
  induction l generalizing w φ with
  | nil => exact ⟨φ, Advance.touch h (fun _ _ ↦ rfl) (h.placed 0).shows rfl (fun _ ↦ rfl) rfl (refl w) hbal,
      by simp⟩
  | cons b l ih =>
    refine (ensures_destroyBlock h hbal fun hH ↦ hcare hH b mem_cons_self).bind fun w₁ ⟨hd, hbal₁⟩ ↦ ?_
    have h₁ : Advance H C _ _ w φ w₁ _ := hd.advance h hbal₁
    refine (ih h₁.tracks hbal₁ fun hH c hc s hs y hy ↦ ?_).mono fun w₂ ⟨φ', h₂, hout⟩ ↦
      ⟨φ', (h₁.trans h₂).congr (by simp) (by simp), fun c hc s hs ↦ ?_⟩
    · -- what is left dissimilar belongs to another block and was not touched
      rw [destroyedPhase] at hs
      split_ifs at hs with hhome
      · have := home_givenUp (f := φ s)
        simp [hs, home] at this
      · rw [hd.heap, if_neg hhome] at hy
        exact hcare hH c (mem_cons_of_mem b hc) s hs y hy
    · rcases mem_cons.mp hc with hc | hc
      · have hhome := h₂.home s c hs
        rw [hc, destroyedPhase] at hhome
        split_ifs at hhome with hb
        · simp [home_givenUp] at hhome
        · exact hb hhome
      · exact hout c hc s hs

structure Unleading (l : List ℕ) (w w' : World) : Prop where
  heap : w'.heap = w.heap
  blocks : ∀ b, w'.blocks b = if b ∈ l then { w.blocks b with leader := none } else w.blocks b
  next : w'.next = w.next
  kept : Kept w w'

theorem ensures_forEach_failedLeader (hl : ∀ b t, (w.blocks b).leader = some t → w.heap t ≠ none) :
    Safely H (forEach failedLeader l w) (Unleading l w) := by
  induction l generalizing w with
  | nil => exact ⟨rfl, fun b ↦ by simp, rfl, refl w⟩
  | cons b l ih =>
    have hone : Safely H (failedLeader b w) fun w' ↦
        w' = w.setBlock b { w.blocks b with leader := none } := by
      have hfin : Safely H (isFinished b w) fun _ ↦ True := by
        rw [isFinished]
        cases hb : (w.blocks b).leader with
        | none => trivial
        | some t =>
          obtain ⟨x, hx⟩ := ne_none_iff_exists'.mp (hl b t hb)
          simp [get_eq hx, Except.map]
      refine hfin.bind fun f _ ↦ ?_
      split_ifs
      · simp [Bad, stallFault]
      · exact rfl
    refine hone.bind fun w₁ hw₁ ↦ ?_
    rw [hw₁]
    refine (ih (w := w.setBlock b { w.blocks b with leader := none }) fun c t hc ↦ hl c t ?_).mono fun w₂ h₂ ↦
      ⟨h₂.heap, fun c ↦ ?_, h₂.next, setBlock.trans h₂.kept⟩
    · by_cases hcb : c = b
      · simp [hcb] at hc
      · rwa [blocks_setBlock, update_of_ne hcb] at hc
    rw [h₂.blocks]
    by_cases hcb : c = b
    · subst hcb
      simp
    · simp [hcb]

theorem forEach_retryTransfer (l : List ℕ) (w : World) : forEach retryTransfer l w = .ok { w with
      blocks := fun b ↦ if b ∈ l then { w.blocks b with state := .incomplete } else w.blocks b } := by
  induction l generalizing w with
  | nil => simp [forEach]
  | cons b l ih =>
    rw [forEach, retryTransfer, ok_bind, ih]
    congr 2
    funext c
    by_cases hcb : c = b
    · subst hcb
      simp
    · simp [hcb]

def failedPhase : Phase → Phase
  | .completed b => .stale b
  | f => f

section Failed

variable {f : Phase}

theorem active_failedPhase : (failedPhase f).active = f.active := by cases f <;> rfl

theorem failedPhase_ne_completed : failedPhase f ≠ .completed b := by cases f <;> simp [failedPhase]

theorem failedPhase_eq {g : Phase} (hg : g = .queued b ∨ g = .leading b) : failedPhase f = g ↔ f = g := by
  rcases hg with rfl | rfl <;> cases f <;> simp [failedPhase]

theorem shows_failedPhase {o : Option BlockTransfer} (h : f.Shows o) : (failedPhase f).Shows o := by
  cases f with
  | completed b =>
    cases o with
    | none => exact absurd h (by simp [Phase.Shows])
    | some x => exact ⟨h.1, h.2.1, h.2.2.1, h.2.2.2.1⟩
  | _ => exact h

end Failed

variable (h : Tracks w φ) (hbal : H → Level w)
  (hall : ∀ b < w.size, (w.blocks b).state = .completed) (hsmall : ∀ t b, (φ t).home = some b → b < w.size)
include h hbal hall hsmall

theorem advance_failed
        (hheap : w'.heap = w.heap) (hblocks : ∀ b, w'.blocks b =
      if b < w.size then { w.blocks b with leader := none, state := .incomplete } else w.blocks b)
    (hnext : w'.next = w.next) (hkept : Kept w w') :
    Calm H False w φ w' fun s ↦ failedPhase (φ s) := by
  -- no block has a leader that is still transferring
  have hlead : ∀ s b, φ s ≠ .leading b := fun s b hφ ↦
    (h.settled b).leading s hφ (hall b (hsmall s b (by rw [hφ]; rfl)))
  have hlists : ∀ b, (w'.blocks b).queued = (w.blocks b).queued ∧ (w'.blocks b).transfers = (w.blocks b).transfers ∧
      (w'.blocks b).notStalled = (w.blocks b).notStalled ∧ (w'.blocks b).leader = none := by
    intro b
    rw [hblocks]
    split_ifs with hb
    · exact ⟨rfl, rfl, rfl, rfl⟩
    refine ⟨rfl, rfl, rfl, ?_⟩
    cases hl : (w.blocks b).leader with
    | none => rfl
    | some l =>
      refine absurd (hsmall l b ?_) hb
      rcases ((h.placed l).leader b).mp hl with hφ | hφ <;> rw [hφ] <;> rfl
  refine ⟨⟨fun s ↦ ⟨?_, fun b ↦ ?_, fun b ↦ ?_, fun b ↦ ?_⟩, fun b ↦ ⟨fun s hφ ↦ ?_, fun s hφ ↦ ?_, ?_, ?_, ?_⟩,
    fun s hs ↦ ?_⟩, fun hH ↦ ?_, fun s ↦ ?_, fun s _ _ hr ↦ ?_, fun hf ↦ hf.elim, fun s b ↦ ?_, fun s _ ↦ ?_,
    fun s b ↦ (failedPhase_eq (.inl rfl)).mp, hkept⟩
  · rw [hheap]
    exact shows_failedPhase (h.placed s).shows
  · rw [(hlists b).1, (h.placed s).queued, failedPhase_eq (.inl rfl)]
  · rw [(hlists b).2.1, (h.placed s).transfers, active_failedPhase]
  · rw [(hlists b).2.2.2, failedPhase_eq (.inr rfl)]
    simp [hlead, failedPhase_ne_completed]
  · exact absurd hφ failedPhase_ne_completed
  · exact absurd ((failedPhase_eq (.inr rfl)).mp hφ) (hlead s b)
  · rw [hblocks]
    split_ifs with hb
    · simp
    · exact (h.settled b).led
  · rw [(hlists b).1]
    exact (h.settled b).nodupQueued
  · rw [(hlists b).2.1]
    exact (h.settled b).nodupTransfers
  · rw [h.next s (hnext ▸ hs)]
    rfl
  · exact (hbal hH).of_same hnext (fun b ↦ (hlists b).2.2.1) fun s b ↦ by rw [hheap]
  · cases φ _ <;> simp [failedPhase, Phase.Held]
  · cases hφ : φ s <;> rw [hφ] at hr <;> first | exact hr.elim | exact hr
  · cases φ _ <;> simp [failedPhase, Phase.home]
  · rw [hheap]

theorem ensures_doAllFailed : Safely H (BlockList.doAllFailed w) fun w' ↦
      Calm H False w φ w' fun s ↦ failedPhase (φ s) := by
  rw [BlockList.doAllFailed]
  split_ifs
  · simp [Bad, stallFault]
  have hloop : Safely H (forEach failedLeader (range w.size) { w with finished := 0 })
      (Unleading (range w.size) { w with finished := 0 }) := by
    refine ensures_forEach_failedLeader fun b t hl ↦ ?_
    have hφ := ((h.placed t).leader b).mp hl
    obtain ⟨x, hx, -⟩ := h.alive t (by rcases hφ with hφ | hφ <;> simp [hφ])
    simp [hx]
  refine hloop.bind fun w₁ hu ↦ ?_
  rw [forEach_retryTransfer]
  generalize hw' : ({ w₁ with blocks := _ } : World) = w'
  have hheap : w'.heap = w.heap := by rw [← hw']; exact hu.heap
  have hblocks : ∀ b, w'.blocks b =
      if b < w.size then { w.blocks b with leader := none, state := .incomplete } else w.blocks b := by
    intro b
    rw [← hw']
    simp only [hu.blocks, hu.kept.size, mem_range]
    split_ifs <;> rfl
  have hkept : Kept w w' := by
    rw [← hw']
    exact ⟨hu.kept.requests, hu.kept.size, hu.kept.present⟩
  exact advance_failed h hbal hall hsmall hheap hblocks (by rw [← hw']; exact hu.next) hkept

end LibTorrent
