import LibTorrent.Transfer.Operations

namespace LibTorrent

open Block Function Lib.Outcome Lib.Store Option Phase World

variable {H C : Prop} {w v : World} {φ : ℕ → Phase} {b t : ℕ} {x : BlockTransfer} {off : ℕ → ℕ}

theorem Balanced.settle (h : Balanced (fun b ↦ weight (Fresh b) (some x)) w) (ht : t < w.next)
    (hx : ∀ b, weight (Fresh b) (w.heap t) = weight (Fresh b) (some x))
    (hheap : w'.heap = update w.heap t none) (hblocks : w'.blocks = w.blocks) (hnext : w'.next = w.next) :
    Level w' := by
  intro b
  have htally := tally_update w.heap (Fresh b) ht none
  have hb := h b
  rw [hx b] at htally
  have h0 : weight (Fresh b) (none : Option BlockTransfer) = 0 := rfl
  rw [hheap, hblocks, hnext]
  dsimp only at hb ⊢
  omega

theorem Balanced.owe (h : Level w) (ht : t < w.next) (hx : w.heap t = some x)
    (hb : x.block = some b) : Balanced (fun b ↦ weight (Fresh b) (some x))
      (w.setBlock b { w.blocks b with notStalled := (w.blocks b).notStalled - stallUnit x }) := by
  intro b'
  have hbal : (w.blocks b').notStalled.toNat + 0 = tally w.heap w.next (Fresh b') := h b'
  by_cases hbb : b' = b
  · subst hbb
    have hle := weight_le_tally w.heap (Fresh b') ht
    rw [hx, weight_fresh] at hle
    rw [blocks_setBlock, update_self, heap_setBlock, next_setBlock]
    dsimp only
    rw [weight_fresh, stallUnit]
    by_cases hs : x.stall = 0
    · rw [if_pos ⟨hb, hs⟩] at hle
      rw [if_pos hs, if_pos ⟨hb, hs⟩, toNat_sub_one fun h0 ↦ ?_]
      · omega
      · rw [h0, UInt32.toNat_zero] at hbal
        omega
    · rw [if_neg hs, if_neg fun hc ↦ hs hc.2, UInt32.sub_zero]
      exact hbal
  · rw [blocks_setBlock, update_of_ne hbb, heap_setBlock, next_setBlock]
    dsimp only
    rw [weight_fresh, if_neg fun hc ↦ hbb (mem_unique hc.1 hb)]
    exact hbal

theorem ensures_eraseEnd (hx : w.heap t = some x) (hp : x.peerInfo = none) :
    Safely H (do let x ← w.get t; deleteTransfer t (w.put t { x with block := none })) fun w' ↦
      w'.heap = update w.heap t none ∧ w'.blocks = w.blocks ∧ w'.next = w.next ∧ Kept w w' := by
  rw [get_eq hx, ok_bind, deleteTransfer, get_eq (x := { x with block := none }) (by simp), ok_bind,
    if_neg (by simp), if_neg (by simp [hp])]
  exact ⟨by simp, rfl, rfl, ⟨fun _ ↦ rfl, rfl, rfl⟩⟩

section Erase

variable {w₁ : World}

/-- The state in which `release` calls `erase`: the peer of the transfer is dropped. -/
structure Dropped (w : World) (t : ℕ) (x : BlockTransfer) (w₁ : World) : Prop where
  heap : w₁.heap = update w.heap t (some { x with peerInfo := none })
  blocks : w₁.blocks = w.blocks
  next : w₁.next = w.next
  kept : Kept w w₁

theorem ensures_erase_list {B' : Block} (h : Tracks w φ) (hbal : H → Level w)
    (hx : w.heap t = some x) (hb : x.block = some b) (hd : Dropped w t x w₁)
    (ht : φ t = .queued b ∨ φ t = .waiting b)
    (hstate : B'.state = (w.blocks b).state) (hleader : B'.leader = (w.blocks b).leader)
    (hcount : B'.notStalled = (w.blocks b).notStalled - stallUnit x)
    (hq : ∀ s, s ∈ B'.queued ↔ s ≠ t ∧ s ∈ (w.blocks b).queued) (hnq : B'.queued.Nodup)
    (htr : ∀ s, s ∈ B'.transfers ↔ s ≠ t ∧ s ∈ (w.blocks b).transfers) (hnt : B'.transfers.Nodup) :
    Safely H (do
        let x ← (w₁.setBlock b B').get t
        deleteTransfer t ((w₁.setBlock b B').put t { x with block := none })) fun w' ↦
      ∃ φ', Sheds H C t w φ w' φ' := by
  have hlt := h.lt_next t (by rcases ht with ht | ht <;> simp [ht])
  have hs := h.settled b
  have hpl := h.placed t
  have hx₁ : (w₁.setBlock b B').heap t = some { x with peerInfo := none } := by simp [hd.heap]
  refine (ensures_eraseEnd hx₁ rfl).mono fun w' ⟨h₁, h₂, h₃, h₄⟩ ↦ ⟨update φ t .free, ?_⟩
  have hheap : w'.heap = update w.heap t none := by rw [h₁, heap_setBlock, hd.heap, update_idem]
  have hblocks : w'.blocks = update w.blocks b B' := by rw [h₂, blocks_setBlock, hd.blocks]
  refine Advance.single h hheap hblocks (h₃.trans hd.next) (hd.kept.trans (Kept.setBlock.trans h₄)) ?_ ?_ (by simp)
    (fun s hst ↦ by simp [hq, hst]) (fun s hst ↦ by simp [htr, hst]) (fun s _ ↦ by rw [hleader]) ?_ (.inl rfl) rfl ?_ ?_
    ?_ ?_ ?_ ?_ ?_ (by simp)
  · intro hH
    have hleave := (hbal hH).leave_unit hlt hx hb rfl none fun _ ↦ rfl
    refine hleave.of_same (h₃.trans hd.next) (fun b' ↦ ?_) fun s b' ↦ by rw [hheap]
    by_cases hbb : b' = b
    · subst hbb
      simp [hblocks, hcount]
    · simp [hblocks, update_of_ne hbb]
  · exact hs.move hstate (by simp) (by simp) (by rw [hleader]; exact hs.led) hnq hnt
  · rcases ht with ht | ht <;> rw [ht] <;> rfl
  · simp [hq]
  · simp [htr, active]
  · rcases ht with ht | ht <;> simp [hleader, hpl.leader, ht]
  · simp [Phase.Held]
  · simp
  · simp [Phase.Leftover]
  · simp [Phase.Held]

structure Ousted (b t : ℕ) (w w' : World) : Prop where
  heap : w'.heap t = none
  queued : (w'.blocks b).queued = (w.blocks b).queued
  state : (w'.blocks b).state = (w.blocks b).state
  nodup : (w'.blocks b).transfers.Nodup
  other : ∀ b' ≠ b, w'.blocks b' = w.blocks b'
  next : w'.next = w.next
  kept : Kept w w'

section Ousted

variable {w' : World}

variable (h : Tracks w φ) (ho : Ousted b t w w') (hbal : H → Level w') (ht : φ t = .leading b)
include h ho hbal ht

theorem Ousted.advance {φ' : ℕ → Phase} (ht' : φ' t = .free) (hφ' : ∀ s, φ' s = .completed b → φ s = .completed b)
    (htr : t ∉ (w'.blocks b).transfers) (hl : (w'.blocks b).leader ≠ some t)
    (hpoint : ∀ s ≠ t, Unmoved (· = t) b w φ w' φ' s ∨ Moved C (· = t) (fun _ ↦ False) b w φ w' φ' s) :
    Sheds H C t w φ w' φ' := by
  have hs := h.settled b
  have hopen : (w'.blocks b).state ≠ .completed := ho.state ▸ hs.leading t ht
  refine Advance.of_block h ho.other ho.next ho.kept hbal ⟨fun s hφs ↦ ?_, fun s _ ↦ hopen, fun hc ↦ absurd hc hopen,
    ho.queued ▸ hs.nodupQueued, ho.nodup⟩ fun s ↦ ?_
  · rw [ho.state]
    exact hs.completed s (hφ' s hφs)
  by_cases hst : s = t
  · subst hst
    have hpl := h.placed s
    rw [ht] at hpl
    refine .inr ⟨by rw [ht]; rfl, by rw [ht']; exact .inl rfl, by rw [ho.heap, ht']; rfl, ?_, ?_, ?_, ?_, ?_, ?_, ?_,
      by simp [ht']⟩
    · simp [ho.queued, hpl.queued, ht']
    · simp [htr, ht', active]
    · simp [hl, ht']
    · simp [ht', Phase.Held]
    · simp
    · simp [ht', Phase.Leftover]
    · simp [ht', Phase.Held]
  · exact hpoint s hst

theorem Ousted.advance_successor {n : ℕ} {y : BlockTransfer} (hn : φ n = .waiting b) (hy : w.heap n = some y)
    (hheap : ∀ s ≠ t, w'.heap s = update w.heap n (some { y with state := .leader }) s)
    (htr : ∀ s, s ∈ (w'.blocks b).transfers ↔ s ≠ t ∧ s ∈ (w.blocks b).transfers)
    (hl : (w'.blocks b).leader = some n) :
    Sheds H C t w φ w' (update (update φ t .free) n (.leading b)) := by
  have hnt : n ≠ t := fun hc ↦ by rw [hc, ht] at hn; exact absurd hn (by simp)
  have hleader := ((h.placed t).leader b).mpr (.inl ht)
  have hφ : ∀ s ≠ t, s ≠ n → update (update φ t .free) n (.leading b) s = φ s := fun s hst hsn ↦ by
    rw [update_of_ne hsn, update_of_ne hst]
  refine ho.advance h hbal ht (by rw [update_of_ne (Ne.symm hnt), update_self]) (fun s hφs ↦ ?_) (by simp [htr])
    (by simpa [hl] using hnt) fun s hst ↦ ?_
  · by_cases hsn : s = n
    · simp [hsn] at hφs
    by_cases hst : s = t
    · simp [hst, update_of_ne (Ne.symm hnt)] at hφs
    · exact hφ s hst hsn ▸ hφs
  by_cases hsn : s = n
  · right
    subst hsn
    obtain ⟨y', hy', hp, hb, -⟩ := h.alive s (by simp [hn])
    obtain rfl : y = y' := mem_unique hy hy'
    have hpl := h.placed s
    rw [hn] at hpl hb
    refine ⟨by rw [hn]; rfl, ?_, ?_, ?_, ?_, ?_, ?_, ?_, ?_, ?_, by simp⟩
    · simp [home]
    · rw [hheap s hst, update_self, update_self]
      exact ⟨hp, hb, rfl⟩
    · simp [ho.queued, hpl.queued]
    · simp [htr, hst, hpl.transfers, active]
    · simp [hl]
    · simp [hn, hst, Phase.Held]
    · simp [hn, Phase.Resting]
    · simp [Phase.Leftover]
    · simp [hheap s hst, hy]
  · left
    refine ⟨hφ s hst hsn, ?_, ?_, ?_, ?_, hst⟩
    · rw [hheap s hst, update_of_ne hsn]
    · rw [ho.queued]
    · simp [htr, hst]
    · simp [hl, hleader, Ne.symm hsn, Ne.symm hst]

theorem Ousted.advance_alone
    (hheap : ∀ s ≠ t, w'.heap s = if φ s = .dissimilar b then (w.heap s).bind givenUp else w.heap s)
    (htr : ∀ s, s ∈ (w'.blocks b).transfers ↔ s ≠ t ∧ φ s ≠ .dissimilar b ∧ s ∈ (w.blocks b).transfers)
    (hl : (w'.blocks b).leader = none) :
    Sheds H C t w φ w'
      (fun s ↦ if s = t then .free else if φ s = .dissimilar b then .lost else φ s) := by
  have hleader := ((h.placed t).leader b).mpr (.inl ht)
  refine ho.advance h hbal ht (by simp) (fun s hφs ↦ ?_) (by simp [htr]) (by simp [hl]) fun s hst ↦ ?_
  · split_ifs at hφs
    exact hφs
  by_cases hsd : φ s = .dissimilar b
  · right
    obtain ⟨y, hy, hp, hb, -⟩ := h.alive s (by simp [hsd])
    have hpl := h.placed s
    rw [hsd] at hpl hb
    have hcell : w'.heap s = some { y with block := none } := by
      rw [hheap s hst, if_pos hsd, hy, bind_some, givenUp, if_neg hp]
    refine ⟨by rw [hsd]; rfl, ?_, ?_, ?_, ?_, ?_, ?_, ?_, ?_, ?_, by simp [hst, hsd]⟩
    all_goals simp only [hst, hsd, if_false, if_true]
    · exact .inl rfl
    · rw [hcell]
      exact ⟨hp, rfl, trivial⟩
    · simp [ho.queued, hpl.queued]
    · simp [htr, hsd, active]
    · simp [hl]
    · simp [Phase.Held]
    · simp [Phase.Resting]
    · simp [Phase.Leftover]
    · simp [Phase.Held]
  · left
    refine ⟨by simp [hst, hsd], ?_, ?_, ?_, ?_, hst⟩
    · rw [hheap s hst, if_neg hsd]
    · rw [ho.queued]
    · simp [htr, hst, hsd]
    · simp [hl, hleader, Ne.symm hst]

end Ousted

variable (h : Tracks w φ) (hbal : H → Level w) (hx : w.heap t = some x) (hb : x.block = some b)
  (hd : Dropped w t x w₁)
include h hbal hx hb hd

theorem ensures_erase_leader (ht : φ t = .leading b)
    (hcare : H → (∀ s, φ s ≠ .waiting b) → ∀ s, φ s = .dissimilar b → ∀ y, w.heap s = some y → y.stall ≠ 0) :
    Safely H (do
        let w₂ ← promote b (w₁.setBlock b { w.blocks b with
          notStalled := (w.blocks b).notStalled - stallUnit x,
          transfers := (w.blocks b).transfers.erase t })
        let x ← w₂.get t
        deleteTransfer t (w₂.put t { x with block := none })) fun w' ↦
      ∃ φ', Sheds H C t w φ w' φ' := by
  have hlt := h.lt_next t (by simp [ht])
  have hs := h.settled b
  have hpl := h.placed t
  rw [ht] at hpl
  generalize hv : w₁.setBlock b { w.blocks b with
      notStalled := (w.blocks b).notStalled - stallUnit x,
      transfers := (w.blocks b).transfers.erase t } = v
  have hB : v.blocks b = { w.blocks b with
      notStalled := (w.blocks b).notStalled - stallUnit x,
      transfers := (w.blocks b).transfers.erase t } := by rw [← hv, blocks_setBlock, update_self]
  have hheap : ∀ s ≠ t, v.heap s = w.heap s := fun s hst ↦ by
    rw [← hv, heap_setBlock, hd.heap, update_of_ne hst]
  have hmem : ∀ s, s ∈ (v.blocks b).transfers ↔ s ≠ t ∧ s ∈ (w.blocks b).transfers := fun s ↦ by
    rw [hB]; exact hs.nodupTransfers.mem_erase_iff
  have halive : ∀ s ∈ (v.blocks b).transfers, ∃ y, v.heap s = some y ∧ w.heap s = some y ∧ (φ s).Fits y ∧
      (φ s).active = some b := by
    intro s hs
    obtain ⟨hst, hs⟩ := (hmem s).mp hs
    have hact := ((h.placed s).transfers b).mp hs
    obtain ⟨y, hy, -, -, hf⟩ := h.alive s (fun hfree ↦ by simp [hfree, active] at hact)
    exact ⟨y, (hheap s hst).trans hy, hy, hf, hact⟩
  have hnext : v.next = w.next := by rw [← hv, next_setBlock, hd.next]
  have hoff : H → Balanced (fun b ↦ weight (Fresh b) (some x)) v := by
    intro hH
    refine ((hbal hH).owe hlt hx hb).of_same hnext (fun b' ↦ ?_) fun s b' ↦ ?_
    · by_cases hbb : b' = b
      · rw [hbb, hB, blocks_setBlock, update_self]
      · rw [← hv, blocks_setBlock, update_of_ne hbb, hd.blocks, blocks_setBlock, update_of_ne hbb]
    · rw [← hv, heap_setBlock, hd.heap, heap_setBlock]
      exact any_fresh_update (y := { x with peerInfo := none }) hx rfl rfl s b'
  have hstate : ∀ s ∈ (v.blocks b).transfers, (v.isState .notLeader s = true ↔ φ s = .waiting b) ∧
      (v.isState .erased s = true ↔ φ s = .dissimilar b) := by
    intro s hs
    obtain ⟨y, hy, -, hf, hact⟩ := halive s hs
    rw [isState_eq hy, isState_eq hy, decide_eq_true_eq, decide_eq_true_eq]
    exact hf.state hact
  have hin : ∀ s, (φ s).active = some b → s ≠ t → s ∈ (v.blocks b).transfers := fun s hs hst ↦
    (hmem s).mpr ⟨hst, ((h.placed s).transfers b).mpr hs⟩
  have htv : t ∉ (v.blocks b).transfers := fun hc ↦ ((hmem t).mp hc).1 rfl
  have hpromote := ensures_promote (fun s hs ↦ by
      obtain ⟨y, hy, -⟩ := halive s hs
      simp [hy]) (fun s hs ↦ ?_) ?_ hoff ?_
  · refine hpromote.bind ?_
    rintro w₂ ⟨hpr, hbal₂⟩
    have hxt : v.heap t = some { x with peerInfo := none } := by
      rw [← hv, heap_setBlock, hd.heap, update_self]
    have hx₂ : w₂.heap t = v.heap t := by
      rcases hpr.cases with ⟨n, y, hn, -, -, hheap₂, -⟩ | ⟨-, hheap₂, -⟩
      · rw [hheap₂, update_of_ne fun htn : t = n ↦ htv (htn ▸ hn)]
      · rw [hheap₂, if_neg fun hc ↦ htv hc.1]
    refine (ensures_eraseEnd (hx₂.trans hxt) rfl).mono ?_
    rintro w' ⟨h₁, h₂, h₃, h₄⟩
    have hcell : w'.heap t = none := by rw [h₁, update_self]
    have hsame : ∀ s ≠ t, w'.heap s = w₂.heap s := fun s hst ↦ by rw [h₁, update_of_ne hst]
    have ho : Ousted b t w w' := by
      refine ⟨hcell, by rw [h₂, hpr.queued, hB], by rw [h₂, hpr.state, hB], h₂ ▸ hpr.nodup, fun b' hbb ↦ ?_,
        h₃.trans (hpr.next.trans hnext), hd.kept.trans (Kept.trans (hv ▸ Kept.setBlock) (hpr.kept.trans h₄))⟩
      rw [h₂, hpr.other b' hbb, ← hv, blocks_setBlock, update_of_ne hbb, hd.blocks]
    have hbal' : H → Level w' := fun hH ↦
      (hbal₂ hH).settle (by rw [hpr.next, hnext]; exact hlt)
        (fun b' ↦ by rw [hx₂, hxt, weight_fresh, weight_fresh]) h₁ h₂ h₃
    rcases hpr.cases with ⟨n, y, hn, hy, hleads, hheap₂, htr₂, hl₂⟩ | ⟨hnone, hheap₂, htr₂, hl₂⟩
    · have hnt : n ≠ t := ((hmem n).mp hn).1
      have hφn : φ n = .waiting b := (hstate n hn).1.mp (by simp [isState_eq hy, hleads])
      refine ⟨_, ho.advance_successor h hbal' ht hφn (hheap n hnt ▸ hy) (fun s hst ↦ ?_) (fun s ↦ ?_) (by rw [h₂, hl₂])⟩
      · rw [hsame s hst, hheap₂]
        by_cases hsn : s = n
        · rw [hsn, update_self, update_self]
        · rw [update_of_ne hsn, update_of_ne hsn, hheap s hst]
      · rw [h₂, htr₂, hmem]
    · refine ⟨_, ho.advance_alone h hbal' ht (fun s hst ↦ ?_) (fun s ↦ ?_) (by rw [h₂, hl₂])⟩
      · rw [hsame s hst, hheap₂, hheap s hst]
        refine if_congr ⟨fun hc ↦ (hstate s hc.1).2.mp hc.2, fun hc ↦ ?_⟩ rfl rfl
        have hs' := hin s (by rw [hc]; rfl) hst
        exact ⟨hs', (hstate s hs').2.mpr hc⟩
      rw [h₂, htr₂, hmem]
      constructor
      · rintro ⟨⟨hst, hs'⟩, he⟩
        exact ⟨hst, fun hc ↦ absurd ((hstate s ((hmem s).mpr ⟨hst, hs'⟩)).2.mpr hc) (by simp [he]), hs'⟩
      rintro ⟨hst, hnd, hs'⟩
      refine ⟨⟨hst, hs'⟩, ?_⟩
      exact Bool.eq_false_iff.mpr fun hc ↦ hnd ((hstate s ((hmem s).mpr ⟨hst, hs'⟩)).2.mp hc)
  · obtain ⟨y, hy, hy', -, hact⟩ := halive s hs
    rw [hnext]
    exact h.lt_next s (fun hfree ↦ by simp [hfree, active] at hact)
  · rw [hB]
    exact hs.nodupTransfers.erase t
  · intro hH hnone s hs y hy herased
    obtain ⟨y', hvy, hwy, -⟩ := halive s hs
    obtain rfl : y = y' := mem_unique hy hvy
    refine hcare hH (fun s' hs' ↦ ?_) s ((hstate s hs).2.mp (by simp [isState_eq hy, herased])) y hwy
    have hmem' := hin s' (by simp [hs', active]) (fun hst ↦ by simp [hst, ht] at hs')
    exact absurd ((hstate s' hmem').1.mpr hs') (by simp [hnone s' hmem'])

theorem ensures_erase
        (hcare : H → φ t = .leading b → (∀ s, φ s ≠ .waiting b) → ∀ s, φ s = .dissimilar b →
      ∀ y, w.heap s = some y → y.stall ≠ 0) :
    Safely H (erase b t w₁) fun w' ↦ ∃ φ', Sheds H C t w φ w' φ' := by
  have hs := h.settled b
  have hpl := h.placed t
  have hfits : (φ t).Fits x := by
    have := hpl.shows
    rw [hx] at this
    exact this.2.2
  have hqn := hs.nodupQueued.erase t
  have htn := hs.nodupTransfers.erase t
  have hx₁ : w₁.heap t = some { x with peerInfo := none } := by rw [hd.heap, update_self]
  rw [erase, get_eq hx₁, ok_bind]
  rcases h.phase_of_block hx hb with hφ | hφ | hφ
  all_goals rw [hφ] at hfits hpl; simp only [Phase.Fits] at hfits
  · rw [if_neg (by simp [hfits]), if_neg (by simp)]
    simp only [eraseFromLists, hfits, if_true, blocks_setBlock, update_self, hd.blocks]
    rw [if_neg (by simp [hpl.queued]), ok_bind, setBlock_setBlock]
    refine ensures_erase_list h hbal hx hb hd (.inl hφ) rfl rfl rfl (fun s ↦ hs.nodupQueued.mem_erase_iff) hqn
      (fun s ↦ ?_) hs.nodupTransfers
    refine ⟨fun hc ↦ ⟨fun hst ↦ ?_, hc⟩, And.right⟩
    rw [hst, hpl.transfers] at hc
    simp [active] at hc
  · rw [if_neg (by simp [hfits]), if_neg (by simp)]
    simp only [eraseFromLists, hfits, blocks_setBlock, update_self, hd.blocks]
    rw [if_neg (by simp)]
    split_ifs with hfin hmem hlead hdone
    · simp [Bad, stallFault]
    · simp [hpl.leader] at hlead
    · simp [hpl.leader] at hlead
    · rw [ok_bind, setBlock_setBlock]
      refine ensures_erase_list h hbal hx hb hd (.inr hφ) rfl rfl rfl (fun s ↦ ?_) hs.nodupQueued
        (fun s ↦ hs.nodupTransfers.mem_erase_iff) htn
      refine ⟨fun hc ↦ ⟨fun hst ↦ ?_, hc⟩, And.right⟩
      rw [hst, hpl.queued] at hc
      simp at hc
    · simp [Bad, stallFault]
  · rw [if_neg (by simp [hfits]), if_neg (by simp)]
    simp only [eraseFromLists, hfits, blocks_setBlock, update_self, hd.blocks]
    rw [if_neg (by simp)]
    split_ifs with hfin hmem hlead hdone
    · simp [Bad, stallFault]
    · simp [Bad, stallFault]
    · rw [setBlock_setBlock]
      exact ensures_erase_leader (x := x) h hbal hx hb hd hφ fun hH ↦ hcare hH hφ
    · simp [hpl.leader] at hlead
    · simp [Bad, stallFault]

end Erase

theorem ensures_decTransferCounter {p : ℕ} : Safely H (decTransferCounter p w) fun w' ↦
      w'.heap = w.heap ∧ w'.blocks = w.blocks ∧ w'.next = w.next ∧ Kept w w' := by
  rw [decTransferCounter]
  split_ifs
  · simp [Bad, stallFault]
  · exact ⟨rfl, rfl, rfl, Kept.setPeer rfl⟩

theorem ensures_dropPeer (hx : w.heap t = some x) : Safely H (setPeerInfo t none w) (Dropped w t x) := by
  have hcount : Safely H (countPeer decTransferCounter x.peerInfo w) fun w' ↦
      w'.heap = w.heap ∧ w'.blocks = w.blocks ∧ w'.next = w.next ∧ Kept w w' := by
    cases x.peerInfo with
    | none => exact ⟨rfl, rfl, rfl, Kept.refl w⟩
    | some p => exact ensures_decTransferCounter
  rw [setPeerInfo, get_eq hx, ok_bind]
  refine hcount.bind fun w₁ ⟨h₁, h₂, h₃, h₄⟩ ↦ ?_
  exact ⟨by rw [heap_put, h₁], h₂, h₃, h₄.trans Kept.put⟩

theorem advance_free (h : Tracks w φ) (hbal : H → Level w) (ht : φ t = .detached)
    (hheap : w'.heap = update w.heap t none) (hblocks : w'.blocks = w.blocks) (hnext : w'.next = w.next)
    (hkept : Kept w w') :
    Sheds H C t w φ w' (update φ t .free) := by
  obtain ⟨x, hx, -, hb, -⟩ := h.alive t (by simp [ht])
  have hpl := h.placed t
  rw [ht] at hpl hb
  refine ⟨⟨fun s ↦ ?_, fun b ↦ ?_, fun s hs ↦ ?_⟩, fun hH ↦ ?_, fun s ↦ ?_, fun s _ hst hr ↦ ?_, fun _ hclean s ↦ ?_,
    fun s b hs ↦ ?_, fun s hs ↦ ?_, fun s b hs ↦ ?_, hkept⟩
  · by_cases hst : s = t
    · subst hst
      rw [update_self]
      refine ⟨by rw [hheap, update_self]; rfl, fun b ↦ ?_, fun b ↦ ?_, fun b ↦ ?_⟩
      · simp [hblocks, hpl.queued]
      · simp [hblocks, hpl.transfers, active]
      · simp [hblocks, hpl.leader]
    have hps := h.placed s
    rw [update_of_ne hst]
    refine ⟨?_, fun b ↦ by rw [hblocks, hps.queued], fun b ↦ by rw [hblocks, hps.transfers],
      fun b ↦ by rw [hblocks, hps.leader]⟩
    rw [hheap, update_of_ne hst]
    exact hps.shows
  · have hs := h.settled b
    rw [hblocks]
    exact hs.move rfl (by simp) (by simp) hs.led hs.nodupQueued hs.nodupTransfers
  · by_cases hst : s = t
    · rw [hst, update_self]
    · rw [update_of_ne hst]
      exact h.next s (hnext ▸ hs)
  · refine (hbal hH).of_same hnext (fun b ↦ by rw [hblocks]) fun s b ↦ ?_
    by_cases hst : s = t
    · subst hst
      simp [hheap, hx, Fresh, hb, block]
    · rw [hheap, update_of_ne hst]
  · by_cases hst : s = t
    · simp [hst, Phase.Held]
    · simp [hst]
  · rwa [update_of_ne hst]
  · by_cases hst : s = t
    · simp [hst, Phase.Leftover]
    · rw [update_of_ne hst]
      exact hclean s
  · by_cases hst : s = t
    · simp [hst, home] at hs
    · rwa [update_of_ne hst] at hs
  · by_cases hst : s = t
    · simp [hst, Phase.Held] at hs
    · rw [hheap, update_of_ne hst]
  · by_cases hst : s = t
    · simp [hst] at hs
    · rwa [update_of_ne hst] at hs

/-- Under this, giving up the dissimilar transfers of block `b` leaves its counter alone. -/
def DissimilarStalled (w : World) (φ : ℕ → Phase) (b : ℕ) : Prop :=
  ∀ s, φ s = .dissimilar b → ∀ y, w.heap s = some y → y.stall ≠ 0

theorem ensures_release (h : Tracks w φ) (hbal : H → Level w) (ht : (φ t).Held)
    (hcare : H → ∀ b, φ t = .leading b → (∀ s, φ s ≠ .waiting b) → DissimilarStalled w φ b) :
    Safely H (release t w) fun w' ↦ ∃ φ', Sheds H C t w φ w' φ' := by
  obtain ⟨x, hx, hp, hb, -⟩ := h.alive t (fun hfree ↦ by rw [hfree] at ht; exact ht)
  refine (ensures_dropPeer hx).bind fun w₁ hd ↦ ?_
  rw [get_eq (by rw [hd.heap, update_self]), ok_bind]
  cases hxb : x.block with
  | some b => exact ensures_erase h hbal hx hxb hd fun hH hl hw ↦ hcare hH b hl hw
  | none =>
    have hφ : φ t = .detached := eq_detached ht (hb.symm.trans hxb)
    rw [deleteTransfer, get_eq (by rw [hd.heap, update_self]), ok_bind,
      if_neg (not_not.mpr hxb), if_neg (by simp)]
    exact ⟨_, advance_free h hbal hφ (by simp [hd.heap]) hd.blocks hd.next (hd.kept.trans ⟨fun _ ↦ rfl, rfl, rfl⟩)⟩

end LibTorrent
