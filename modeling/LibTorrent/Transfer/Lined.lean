import LibTorrent.Transfer.Step
import LibTorrent.Lib.Decimal
import LibTorrent.Lib.Memory

namespace LibTorrent

open Function Lib.Outcome Option World

/-- The checks of `Block::transfering`, `completed`, `transfer_dissimilar` and `change_leader`,
and those of `down_chunk_skip_process`. -/
def blockFault : Fault → Prop
  | .internal m => m ∈ [
    "Block::transfering(...) transfer->block() == NULL.",
    "Block::transfering(...) not queued.",
    "Block::completed(...) transfer->block() == NULL.",
    "Block::completed(...) transfer is not the leader.",
    "Block::completed(...) !is_finished().",
    "Block::completed(...) transfer != m_leader.",
    "Block::completed(...) Finished blocks too large.",
    "Block::completed(...) m_transfers.empty() || m_transfers.back() != transfer.",
    "Block::transfer_dissimilar(...) transfer is the leader.",
    "Block::change_leader(...) m_leader == transfer.",
    "Block::change_leader(...) is_finished().",
    "PeerConnectionBase::down_chunk_skip_process(...) block is not transferring, yet we have non-leaders.",
    "PeerConnectionBase::down_chunk_skip_process(...) transfer is past the Block's position.",
    "PeerConnectionBase::down_chunk_skip_process(...) down_chunk_process(...) returned wrong value."]
  | _ => False

abbrev Works {α : Type} (r : Except Fault α) (post : α → Prop) : Prop := Ensures blockFault r post

structure BlockTransfer.Similar (x x' : BlockTransfer) : Prop where
  piece : x'.piece = x.piece
  position : x'.position = x.position
  state : x'.state = x.state
  block : x'.block = x.block ∨ x'.block = none
  peerInfo : x'.peerInfo = x.peerInfo ∨ x'.peerInfo = none

theorem BlockTransfer.Similar.refl (x : BlockTransfer) : x.Similar x := ⟨rfl, rfl, rfl, .inl rfl, .inl rfl⟩

theorem BlockTransfer.Similar.trans {x y z : BlockTransfer} (h : x.Similar y) (h' : y.Similar z) : x.Similar z := by
  refine ⟨h'.piece.trans h.piece, h'.position.trans h.position, h'.state.trans h.state, ?_, ?_⟩
  · rcases h'.block with hb | hb
    · exact h.block.imp hb.trans hb.trans
    · exact .inr hb
  rcases h'.peerInfo with hp | hp
  · exact h.peerInfo.imp hp.trans hp.trans
  · exact .inr hp

/-- Nothing happens to the transfers of the blocks, but that queued ones may leave and that
some may be released. -/
structure Quiet (w w' : World) : Prop where
  next : w.next ≤ w'.next
  size : w'.size = w.size
  finished : w'.finished = w.finished
  piece : ∀ b, (w'.blocks b).piece = (w.blocks b).piece
  state : ∀ b, (w'.blocks b).state = (w.blocks b).state
  transfers : ∀ b, (w'.blocks b).transfers = (w.blocks b).transfers
  leader : ∀ b, (w'.blocks b).leader = (w.blocks b).leader
  queued : ∀ b, ∀ t ∈ (w'.blocks b).queued, t ∈ (w.blocks b).queued
  cell : ∀ t x', t < w.next → w'.heap t = some x' → ∃ x, w.heap t = some x ∧ x.Similar x'

/-- Blocks are neither completed nor opened again, and completed ones keep their leader. -/
structure Steady (w w' : World) : Prop where
  next : w.next ≤ w'.next
  size : w'.size = w.size
  finished : w'.finished = w.finished
  piece : ∀ b, (w'.blocks b).piece = (w.blocks b).piece
  state : ∀ b, (w'.blocks b).state = (w.blocks b).state
  leader : ∀ b, (w.blocks b).state = .completed → (w'.blocks b).leader = (w.blocks b).leader

variable {w w' w'' : World} {t b p : ℕ} {x y : BlockTransfer} {B : Block} {l : List ℕ} {o : Option ℕ}

namespace Steady

theorem refl (w : World) : Steady w w := ⟨le_rfl, rfl, rfl, fun _ ↦ rfl, fun _ ↦ rfl, fun _ _ ↦ rfl⟩

theorem trans (h : Steady w w') (h' : Steady w' w'') : Steady w w'' :=
  ⟨h.next.trans h'.next, h'.size.trans h.size, h'.finished.trans h.finished,
    fun b ↦ (h'.piece b).trans (h.piece b), fun b ↦ (h'.state b).trans (h.state b),
    fun b hb ↦ (h'.leader b ((h.state b).trans hb)).trans (h.leader b hb)⟩

theorem put : Steady w (w.put t x) := ⟨le_rfl, rfl, rfl, fun _ ↦ rfl, fun _ ↦ rfl, fun _ _ ↦ rfl⟩

theorem setBlock (hpiece : B.piece = (w.blocks b).piece) (hstate : B.state = (w.blocks b).state)
    (hleader : (w.blocks b).state = .completed → B.leader = (w.blocks b).leader) : Steady w (w.setBlock b B) := by
  refine ⟨le_rfl, rfl, rfl, fun c ↦ ?_, fun c ↦ ?_, fun c hc ↦ ?_⟩
  all_goals
    rw [blocks_setBlock]
    by_cases hcb : c = b
    · subst hcb
      rw [update_self]
      first | assumption | exact hleader hc
    · rw [update_of_ne hcb]

end Steady

theorem Quiet.steady (h : Quiet w w') : Steady w w' :=
  ⟨h.next, h.size, h.finished, h.piece, h.state, fun b _ ↦ h.leader b⟩

namespace Quiet

theorem refl (w : World) : Quiet w w :=
  ⟨le_rfl, rfl, rfl, fun _ ↦ rfl, fun _ ↦ rfl, fun _ ↦ rfl, fun _ ↦ rfl, fun _ _ ↦ id,
    fun _ x' _ hx ↦ ⟨x', hx, .refl x'⟩⟩

theorem trans (h : Quiet w w') (h' : Quiet w' w'') : Quiet w w'' := by
  refine ⟨h.next.trans h'.next, h'.size.trans h.size, h'.finished.trans h.finished,
    fun b ↦ (h'.piece b).trans (h.piece b), fun b ↦ (h'.state b).trans (h.state b),
    fun b ↦ (h'.transfers b).trans (h.transfers b), fun b ↦ (h'.leader b).trans (h.leader b),
    fun b t ht ↦ h.queued b t (h'.queued b t ht), fun t z ht hz ↦ ?_⟩
  obtain ⟨y, hy, hyz⟩ := h'.cell t z (ht.trans_le h.next) hz
  obtain ⟨x, hx, hxy⟩ := h.cell t y ht hy
  exact ⟨x, hx, hxy.trans hyz⟩

theorem of_heap (hblocks : w'.blocks = w.blocks) (hnext : w.next ≤ w'.next) (hsize : w'.size = w.size)
    (hfinished : w'.finished = w.finished)
    (hcell : ∀ t x', t < w.next → w'.heap t = some x' → ∃ x, w.heap t = some x ∧ x.Similar x') : Quiet w w' :=
  ⟨hnext, hsize, hfinished, fun b ↦ by rw [hblocks], fun b ↦ by rw [hblocks], fun b ↦ by rw [hblocks],
    fun b ↦ by rw [hblocks], fun b t ht ↦ by rwa [hblocks] at ht, hcell⟩

theorem put (hx : w.heap t = some x) (hy : x.Similar y) : Quiet w (w.put t y) := by
  refine of_heap rfl le_rfl rfl rfl fun s z hs hz ↦ ?_
  by_cases hst : s = t
  · subst hst
    rw [heap_put, update_self] at hz
    cases hz
    exact ⟨x, hx, hy⟩
  · rw [heap_put, update_of_ne hst] at hz
    exact ⟨z, hz, .refl z⟩

theorem setPeer (P : Peer) : Quiet w (w.setPeer p P) := of_heap rfl le_rfl rfl rfl fun _ z _ hz ↦ ⟨z, hz, .refl z⟩

theorem setRequests (r : RequestList) : Quiet w (w.setRequests p r) := setPeer _

theorem of_block {B' : Block} (h : Quiet w w') (hpiece : B'.piece = B.piece) (hstate : B'.state = B.state)
    (htransfers : B'.transfers = B.transfers) (hleader : B'.leader = B.leader)
    (hqueued : ∀ t ∈ B'.queued, t ∈ B.queued) : Quiet (w.setBlock b B) (w'.setBlock b B') := by
  have hfield : ∀ {β : Type} (f : Block → β), f B' = f B → (∀ c, f (w'.blocks c) = f (w.blocks c)) →
      ∀ c, f ((w'.setBlock b B').blocks c) = f ((w.setBlock b B).blocks c) := by
    intro β f hf hw c
    rw [blocks_setBlock, blocks_setBlock]
    by_cases hc : c = b
    · rw [hc, update_self, update_self, hf]
    · rw [update_of_ne hc, update_of_ne hc, hw]
  refine ⟨h.next, h.size, h.finished, hfield Block.piece hpiece h.piece, hfield Block.state hstate h.state,
    hfield Block.transfers htransfers h.transfers, hfield Block.leader hleader h.leader, fun c t ht ↦ ?_, h.cell⟩
  rw [blocks_setBlock] at ht ⊢
  by_cases hc : c = b
  · subst hc
    rw [update_self] at ht ⊢
    exact hqueued t ht
  · rw [update_of_ne hc] at ht ⊢
    exact h.queued c t ht

theorem setTransfers (h : Quiet w w') (b : ℕ) (l : List ℕ) :
    Quiet (w.setBlock b { w.blocks b with transfers := l }) (w'.setBlock b { w'.blocks b with transfers := l }) :=
  h.of_block (h.piece b) (h.state b) rfl (h.leader b) (h.queued b)

theorem setBlock {n : UInt32} (hl : ∀ t ∈ l, t ∈ (w.blocks b).queued) :
    Quiet w (w.setBlock b { w.blocks b with notStalled := n, queued := l }) := by
  have h : Quiet (w.setBlock b (w.blocks b)) (w.setBlock b { w.blocks b with notStalled := n, queued := l }) :=
    (Quiet.refl w).of_block rfl rfl rfl rfl hl
  rwa [World.setBlock, update_eq_self] at h

theorem setNotStalled (n : UInt32) : Quiet w (w.setBlock b { w.blocks b with notStalled := n }) :=
  setBlock fun _ ↦ id

end Quiet

theorem safe_get : Works (w.get t) fun x ↦ w.heap t = some x := by
  unfold World.get
  split
  · assumption
  · exact id

theorem safe_followAll : Works (followAll l w) fun w' ↦ w = w' ∧ ∀ t ∈ l, ∃ x, w.heap t = some x :=
  .ite (fun h ↦ ⟨rfl, fun t ht ↦ isSome_iff_exists.mp (List.all_eq_true.mp h t ht)⟩) fun _ ↦ id

theorem safe_findIf {f : BlockTransfer → Bool} :
    Works (findIf f l w) fun o ↦ o = none → ∀ t ∈ l, ∀ x, w.heap t = some x → f x = false := by
  induction l with
  | nil => exact fun _ t ht ↦ absurd ht List.not_mem_nil
  | cons t l ih =>
    refine safe_get.bind fun x hx ↦ .ite (fun _ ↦ nofun) fun hf ↦ ih.mono fun o ho hnone s hs y hy ↦ ?_
    rcases List.mem_cons.mp hs with rfl | hs
    · obtain rfl := mem_unique hx hy
      exact Bool.eq_false_iff.mpr hf
    · exact ho hnone s hs y hy

theorem safe_isFinished : Works (Block.isFinished b w) fun f ↦
    ∀ l, (w.blocks b).leader = some l → ∃ y, w.heap l = some y ∧ f = y.isFinished := by
  rw [Block.isFinished]
  cases (w.blocks b).leader with
  | none => simp
  | some l =>
    cases hx : w.heap l <;> simp [World.get, hx, Except.map, blockFault]

theorem safe_countPeer {count : ℕ → World → Except Fault World}
    (hcount : count = incTransferCounter ∨ count = decTransferCounter) :
    Works (countPeer count o w) fun w' ↦ w'.heap = w.heap ∧ w'.blocks = w.blocks ∧
      w'.next = w.next ∧ w'.size = w.size ∧ w'.finished = w.finished := by
  cases o with
  | none => exact ⟨rfl, rfl, rfl, rfl, rfl⟩
  | some q =>
    rcases hcount with rfl | rfl
    · exact .either (by simp [blockFault]) ⟨rfl, rfl, rfl, rfl, rfl⟩
    · exact .either (by simp [blockFault]) ⟨rfl, rfl, rfl, rfl, rfl⟩

theorem safe_setPeerInfo : Works (setPeerInfo t o w) fun w' ↦
    ∃ x, w.heap t = some x ∧ w'.heap = update w.heap t (some { x with peerInfo := o }) ∧
      w'.blocks = w.blocks ∧ w'.next = w.next ∧ w'.size = w.size ∧ w'.finished = w.finished := by
  refine safe_get.bind fun x hx ↦ (safe_countPeer (.inr rfl)).bind fun w₁ ⟨h₁, h₂, h₃, h₄, h₅⟩ ↦ ?_
  refine (safe_countPeer (.inl rfl)).mono fun w₂ ⟨k₁, k₂, k₃, k₄, k₅⟩ ↦ ⟨x, hx, ?_, k₂.trans h₂, k₃.trans h₃,
    k₄.trans h₄, k₅.trans h₅⟩
  rw [k₁, heap_put, h₁]

theorem quiet_setPeerInfo : Works (setPeerInfo t none w) (Quiet w) := by
  refine safe_setPeerInfo.mono fun w' ⟨x, hx, hheap, hblocks, hnext, hsize, hfinished⟩ ↦ ?_
  refine .of_heap hblocks hnext.ge hsize hfinished fun s z hs hz ↦ ?_
  rw [hheap] at hz
  exact (Quiet.put (y := { x with peerInfo := none }) hx ⟨rfl, rfl, rfl, .inl rfl, .inr rfl⟩).cell s z hs hz

theorem safe_newTransfer : Works (newTransfer x p w) fun r ↦ r.1 = w.next ∧ Quiet w r.2 ∧
    r.2.blocks = w.blocks ∧ r.2.heap = update w.heap w.next (some { x with peerInfo := some p }) ∧
    r.2.next = w.next + 1 := by
  refine safe_setPeerInfo.bind fun w' ⟨y, hy, hheap, hblocks, hnext, hsize, hfinished⟩ ↦ ?_
  dsimp only at hy hheap hblocks hnext hsize hfinished
  rw [update_self] at hy
  cases hy
  rw [update_idem] at hheap
  refine ⟨rfl, .of_heap hblocks (by rw [hnext]; exact Nat.le_succ _) hsize hfinished fun s z hs hz ↦ ?_, hblocks,
    hheap, hnext⟩
  rw [hheap, update_of_ne hs.ne] at hz
  exact ⟨z, hz, .refl z⟩

theorem quiet_deleteTransfer : Works (deleteTransfer t w) (Quiet w) := by
  refine safe_get.bind fun x hx ↦ ?_
  refine .either (by simp [blockFault]) (.either (by simp [blockFault]) ?_)
  refine Quiet.of_heap rfl le_rfl rfl rfl fun s z _ hz ↦ ?_
  dsimp only at hz
  by_cases hst : s = t
  · rw [hst, update_self] at hz
    cases hz
  · rw [update_of_ne hst] at hz
    exact ⟨z, hz, .refl z⟩

theorem quiet_cancelTransfer : Works (cancelTransfer p t w) (Quiet w) := by
  refine safe_get.bind fun x hx ↦ .either (by simp [blockFault]) ?_
  exact .either (.refl w) (.setPeer _)

namespace Block

theorem quiet_takeNotStalled {m : String} (hm : ¬ blockFault (.internal m)) :
    Works (takeNotStalled m b x w) fun w' ↦ Quiet w w' ∧ w'.heap = w.heap := by
  refine .either (.either hm ?_) ⟨.refl w, rfl⟩
  exact ⟨.setNotStalled _, rfl⟩

theorem quiet_invalidateTransfer : Works (invalidateTransfer b t w) (Quiet w) := by
  refine .either (by simp [blockFault]) (safe_get.bind fun x hx ↦ ?_)
  have hput : Quiet w (w.put t { x with block := none }) := .put hx ⟨rfl, rfl, rfl, .inr rfl, .inl rfl⟩
  refine (quiet_takeNotStalled (by simp [blockFault])).bind fun w₁ ⟨h₁, _⟩ ↦ ?_
  unfold dropTransfer
  split
  · exact quiet_deleteTransfer.mono fun w₂ h₂ ↦ (hput.trans h₁).trans h₂
  · refine .either ?_ (hput.trans h₁)
    exact quiet_cancelTransfer.mono fun w₂ h₂ ↦ (hput.trans h₁).trans h₂

theorem quiet_forEach_invalidate (l : List ℕ) : Works (forEach (invalidateTransfer b) l w) (Quiet w) :=
  ensures_forEach_inv (fun _ _ h ↦ quiet_invalidateTransfer.mono fun _ h' ↦ h.trans h') l (.refl w)

theorem quiet_stalled : Works (stalled t w) (Quiet w) := by
  refine safe_get.bind fun x hx ↦ ?_
  cases x.block with
  | none => exact .refl w
  | some b =>
    refine safe_get.bind fun y hy ↦ (quiet_takeNotStalled (by simp [blockFault])).bind fun w₁ ⟨h₁, hheap⟩ ↦ ?_
    exact h₁.trans (.put (x := y) (by rw [hheap, hy]) ⟨rfl, rfl, rfl, .inl rfl, .inl rfl⟩)

theorem quiet_forEach_stalled (l : List ℕ) : Works (forEach stalled l w) (Quiet w) :=
  ensures_forEach_inv (fun _ _ h ↦ quiet_stalled.mono fun _ h' ↦ h.trans h') l (.refl w)

theorem safe_removeTransfers {keep : ℕ → Bool} : Works (removeTransfers b keep w) fun w' ↦
    (∀ t ∈ (w.blocks b).transfers, ∃ x, w.heap t = some x) ∧
      Quiet (w.setBlock b { w.blocks b with transfers := (w.blocks b).transfers.filter keep }) w' := by
  refine safe_followAll.bind fun v ⟨hv, halive⟩ ↦ ?_
  subst hv
  refine (quiet_forEach_invalidate _).bind fun w₁ h₁ ↦ ⟨halive, ?_⟩
  have h := h₁.setTransfers b ((w.blocks b).transfers.filter keep)
  rw [setBlock_setBlock, blocks_setBlock, update_self] at h
  exact h

end Block

open Lib.Decimal Lib.Memory

def World.Has (w : World) (b t : ℕ) : Prop := t ∈ (w.blocks b).queued ∨ t ∈ (w.blocks b).transfers

theorem Tracks.home_of_has (h : Tracks w φ) (ht : w.Has b t) : (φ t).home = some b := by
  rcases ht with ht | ht
  · rw [((h.placed t).queued b).mp ht]
    rfl
  · exact Phase.home_of_active (((h.placed t).transfers b).mp ht)

/-- What the transfers of a piece have brought so far: the memory of the chunk and the bytes that
each transfer received. Those of a completed block are in place if `intact` holds. The leaders of
earlier attempts are `stale`, and the leader of an `ending` block may have all of its bytes. -/
structure Progress where
  memory : ℕ → UInt8
  received : ℕ → Bytes
  intact : Prop
  stale : ℕ → List ℕ
  ending : ℕ → Prop

/-- The transfers of a block are lined up: those that wait are behind the leader, leaders of
earlier attempts come first, and what was received is in the memory. -/
structure Line (v : Progress) (b : ℕ) (B : Block) (heap : ℕ → Option BlockTransfer) : Prop where
  led : ∀ l, B.leader = some l → l ∈ B.transfers
  done : B.state = .completed → ∀ t ∈ B.transfers, ∀ x, heap t = some x → x.state = .leader
  ended : B.state = .completed → ∃ l, B.leader = some l ∧ ∀ x, heap l = some x → x.isFinished = true
  behind : ∀ t x, t ∈ B.transfers → heap t = some x → x.state = .notLeader →
    ∃ l, B.leader = some l ∧ ∀ y, heap l = some y → x.position.toNat ≤ y.position.toNat
  unfinished : ¬ v.ending b → B.state ≠ .completed → ∀ l x, B.leader = some l → heap l = some x →
    x.position.toNat < B.piece.length.toNat
  order : ∃ new, B.transfers = v.stale b ++ new ∧
    (∀ t ∈ v.stale b, B.leader ≠ some t ∧ ∀ x, heap t = some x → x.state = .leader) ∧
    ∀ t ∈ new, ∀ x, heap t = some x → x.state = .leader → B.leader = some t
  filled : ∀ t x, t ∈ B.transfers → heap t = some x →
    (x.state = .notLeader ∨ B.leader = some t ∧ (B.state = .completed → v.intact)) →
    v.received t = load v.memory B.piece.offset.toNat x.position.toNat

structure LinedAt (v : Progress) (w : World) (b : ℕ) : Prop extends Line v b (w.blocks b) w.heap where
  bound : ∀ t, w.Has b t → t < w.next
  closed : (w.blocks b).state = .completed → (w.blocks b).queued = []
  piece : ∀ t x, w.Has b t → w.heap t = some x → x.piece = (w.blocks b).piece
  idle : ∀ t x, t ∈ (w.blocks b).queued → w.heap t = some x → x.position = 0
  blank : ∀ t ∈ (w.blocks b).queued, v.received t = []
  fits : ∀ t x, t ∈ (w.blocks b).transfers → w.heap t = some x →
    x.position.toNat ≤ (w.blocks b).piece.length.toNat
  peers : ∀ t s x y, w.Has b t → w.Has b s → w.heap t = some x → w.heap s = some y →
    x.peerInfo = y.peerInfo → x.peerInfo = none ∨ t = s

def Lined (v : Progress) (w : World) : Prop := ∀ b, LinedAt v w b

variable {v v' : Progress} {w w' : World} {φ : ℕ → Phase} {b t p : ℕ} {x : BlockTransfer}

theorem heap_cases {heap : ℕ → Option BlockTransfer} {y z : BlockTransfer} {u : ℕ}
    (h : update heap t (some y) u = some z) : u = t ∧ z = y ∨ u ≠ t ∧ heap u = some z := by
  by_cases hut : u = t
  · rw [hut, update_self] at h
    exact .inl ⟨hut, (Option.some.inj h).symm⟩
  · rw [update_of_ne hut] at h
    exact .inr ⟨hut, h⟩

theorem LinedAt.reshape (h : LinedAt v w b) {B : Block} {H : ℕ → Option BlockTransfer} (hB : w'.blocks b = B)
    (hH : w'.heap = H) (hnext : w.next ≤ w'.next)
    (hpiece : B.piece = (w.blocks b).piece)
    (hclosed : B.state = .completed → B.queued = [])
    (hqueued : ∀ u ∈ B.queued, u ∈ (w.blocks b).queued)
    (hsub : ∀ u ∈ B.transfers, w.Has b u)
    (hreceived : ∀ u ∈ B.queued, v'.received u = v.received u)
    (hcell : ∀ u y', w.Has b u → H u = some y' → ∃ y, w.heap u = some y ∧ y'.piece = y.piece ∧
      (y'.position = y.position ∨ (u ∈ B.queued → y'.position = 0) ∧ y'.position.toNat ≤ B.piece.length.toNat) ∧
      (y'.peerInfo = y.peerInfo ∨ y'.peerInfo = none)) (hline : Line v' b B H) : LinedAt v' w' b := by
  subst hB hH
  have hhas : ∀ u, w'.Has b u → w.Has b u := fun u hu ↦ hu.elim (fun hu ↦ .inl (hqueued u hu)) (hsub u)
  refine ⟨hline, fun u hu ↦ (h.bound u (hhas u hu)).trans_le hnext, hclosed, fun u y' hu hy ↦ ?_, fun u y' hu hy ↦ ?_,
    fun u hu ↦ ?_, fun u y' hu hy ↦ ?_, fun u s y' z' hu hs hy hz he ↦ ?_⟩
  · obtain ⟨y, hy, hp, _⟩ := hcell u y' (hhas u hu) hy
    rw [hp, hpiece]
    exact h.piece u y (hhas u hu) hy
  · obtain ⟨y, hy, _, hp | hp, _⟩ := hcell u y' (.inl (hqueued u hu)) hy
    · rw [hp]
      exact h.idle u y (hqueued u hu) hy
    · exact hp.1 hu
  · rw [hreceived u hu]
    exact h.blank u (hqueued u hu)
  · obtain ⟨y, hy, _, hp | hp, _⟩ := hcell u y' (hsub u hu) hy
    · rw [hp, hpiece]
      rcases hsub u hu with hu | hu
      · rw [h.idle u y hu hy]
        exact Nat.zero_le _
      · exact h.fits u y hu hy
    · exact hp.2
  · obtain ⟨y, hy, _, _, hp⟩ := hcell u y' (hhas u hu) hy
    obtain ⟨z, hz, _, _, hp'⟩ := hcell s z' (hhas s hs) hz
    rcases hp with hp | hp
    · rcases hp' with hp' | hp'
      · rw [hp]
        exact h.peers u s y z (hhas u hu) (hhas s hs) hy hz (by rw [← hp, ← hp', he])
      · exact .inl (he.trans hp')
    · exact .inl hp

theorem LinedAt.of_quiet (h : LinedAt v w b) (hq : Quiet w w') : LinedAt v w' b := by
  have hhas : ∀ t ∈ (w'.blocks b).transfers, w.Has b t := fun t ht ↦ .inr (by rwa [hq.transfers] at ht)
  have hcell : ∀ t x', t ∈ (w.blocks b).transfers → w'.heap t = some x' → ∃ x, w.heap t = some x ∧ x.Similar x' :=
    fun t x' ht hx ↦ hq.cell t x' (h.bound t (.inr ht)) hx
  obtain ⟨new, hsplit, hold, hnew⟩ := h.order
  have hmem : ∀ t, t ∈ v.stale b ∨ t ∈ new → t ∈ (w.blocks b).transfers := fun t ht ↦ by
    rw [hsplit]
    exact List.mem_append.mpr ht
  refine h.reshape rfl rfl hq.next (hq.piece b) (fun hs ↦ ?_) (hq.queued b) hhas (fun _ _ ↦ rfl) (fun u y' hu hy ↦ ?_)
    ⟨fun l hl ↦ ?_, ?_, ?_, ?_, ?_, ⟨new, (hq.transfers b).trans hsplit,
      fun t ht ↦ ⟨?_, fun x' hx ↦ ?_⟩, fun t ht x' hx hs ↦ ?_⟩, ?_⟩
  · have hnil := h.closed (hq.state b ▸ hs)
    exact List.eq_nil_iff_forall_not_mem.mpr fun t ht ↦ absurd (hq.queued b t ht) (by simp [hnil])
  · obtain ⟨y, hy, hsim⟩ := hq.cell u y' (h.bound u hu) hy
    exact ⟨y, hy, hsim.piece, .inl hsim.position, hsim.peerInfo⟩
  · rw [hq.leader] at hl
    rw [hq.transfers]
    exact h.led l hl
  · rw [hq.state, hq.transfers]
    intro hs t ht x' hx
    obtain ⟨x, hx, hsim⟩ := hcell t x' ht hx
    rw [hsim.state]
    exact h.done hs t ht x hx
  · rw [hq.state, hq.leader]
    intro hs
    obtain ⟨l, hl, hfinished⟩ := h.ended hs
    refine ⟨l, hl, fun x' hx ↦ ?_⟩
    obtain ⟨x, hx, hsim⟩ := hcell l x' (h.led l hl) hx
    rw [BlockTransfer.isFinished, hsim.position, hsim.piece]
    exact hfinished x hx
  · rw [hq.transfers, hq.leader]
    intro t x' ht hx hs
    obtain ⟨x, hx, hsim⟩ := hcell t x' ht hx
    obtain ⟨l, hl, hle⟩ := h.behind t x ht hx (hsim.state ▸ hs)
    refine ⟨l, hl, fun y' hy ↦ ?_⟩
    obtain ⟨y, hy, hsim'⟩ := hcell l y' (h.led l hl) hy
    rw [hsim.position, hsim'.position]
    exact hle y hy
  · rw [hq.state, hq.leader, hq.piece]
    intro hE hs l x' hl hx
    obtain ⟨x, hx, hsim⟩ := hcell l x' (h.led l hl) hx
    rw [hsim.position]
    exact h.unfinished hE hs l x hl hx
  · rw [hq.leader]
    exact (hold t ht).1
  · obtain ⟨x, hx, hsim⟩ := hcell t x' (hmem t (.inl ht)) hx
    rw [hsim.state]
    exact (hold t ht).2 x hx
  · obtain ⟨x, hx, hsim⟩ := hcell t x' (hmem t (.inr ht)) hx
    rw [hq.leader]
    exact hnew t ht x hx (hsim.state ▸ hs)
  · rw [hq.transfers, hq.leader, hq.state, hq.piece]
    intro t x' ht hx hs
    obtain ⟨x, hx, hsim⟩ := hcell t x' ht hx
    rw [hsim.state] at hs
    rw [hsim.position]
    exact h.filled t x ht hx hs

theorem Lined.of_quiet (h : Lined v w) (hq : Quiet w w') : Lined v w' := fun b ↦ (h b).of_quiet hq

theorem LinedAt.congr (h : LinedAt v w b) (hblock : w'.blocks b = w.blocks b) (hnext : w.next ≤ w'.next)
    (hheap : ∀ t, w.Has b t → w'.heap t = w.heap t ∧ v'.received t = v.received t)
    (hstale : v'.stale b = v.stale b) (hintact : v'.intact → v.intact) (hending : v.ending b → v'.ending b)
    (hload : ∀ n ≤ (w.blocks b).piece.length.toNat,
      load v'.memory (w.blocks b).piece.offset.toNat n = load v.memory (w.blocks b).piece.offset.toNat n) :
    LinedAt v' w' b := by
  obtain ⟨new, hsplit, hold, hnew⟩ := h.order
  have hcell : ∀ t x, t ∈ (w.blocks b).transfers → w'.heap t = some x → w.heap t = some x := fun t x ht hx ↦
    (hheap t (.inr ht)).1 ▸ hx
  have hmem : ∀ t, t ∈ v.stale b ∨ t ∈ new → t ∈ (w.blocks b).transfers := fun t ht ↦ by
    rw [hsplit]
    exact List.mem_append.mpr ht
  refine h.reshape hblock rfl hnext rfl h.closed (fun _ ↦ id) (fun _ ↦ .inr) (fun u hu ↦ (hheap u (.inl hu)).2)
    (fun u y' hu hy ↦ ⟨y', (hheap u hu).1 ▸ hy, rfl, .inl rfl, .inl rfl⟩) ⟨h.led,
      fun hs t ht x hx ↦ h.done hs t ht x (hcell t x ht hx), fun hs ↦ ?_, fun t x ht hx hs ↦ ?_,
      fun hE hs l x hl hx ↦ h.unfinished (fun hc ↦ hE (hending hc)) hs l x hl (hcell l x (h.led l hl) hx), ?_,
      fun t x ht hx hs ↦ ?_⟩
  · obtain ⟨l, hl, hfinished⟩ := h.ended hs
    exact ⟨l, hl, fun x hx ↦ hfinished x (hcell l x (h.led l hl) hx)⟩
  · obtain ⟨l, hl, hle⟩ := h.behind t x ht (hcell t x ht hx) hs
    exact ⟨l, hl, fun y hy ↦ hle y (hcell l y (h.led l hl) hy)⟩
  · rw [hstale]
    exact ⟨new, hsplit, fun t ht ↦ ⟨(hold t ht).1, fun x hx ↦ (hold t ht).2 x (hcell t x (hmem t (.inl ht)) hx)⟩,
      fun t ht x hx ↦ hnew t ht x (hcell t x (hmem t (.inr ht)) hx)⟩
  have hx := hcell t x ht hx
  rw [(hheap t (.inr ht)).2, hload _ (h.fits t x ht hx)]
  exact h.filled t x ht hx (hs.imp_right fun ⟨hl, hK⟩ ↦ ⟨hl, fun hc ↦ hintact (hK hc)⟩)

theorem Lined.of_block (h : Lined v w) (ht : Tracks w φ) (hb : LinedAt v w' b)
    (hblock : ∀ c ≠ b, w'.blocks c = w.blocks c) (hnext : w.next ≤ w'.next)
    (hheap : ∀ t, (φ t).home ≠ some b → t < w.next → w'.heap t = w.heap t) : Lined v w' := by
  intro c
  by_cases hc : c = b
  · exact hc ▸ hb
  refine (h c).congr (hblock c hc) hnext (fun t hhas ↦ ⟨hheap t ?_ ((h c).bound t hhas), rfl⟩) rfl id id
    fun _ _ ↦ rfl
  rw [ht.home_of_has hhas]
  exact fun he ↦ hc (Option.some.inj he)

theorem Lined.setBlock {B : Block} (h : Lined v w) (hb : LinedAt v (w.setBlock b B) b) : Lined v (w.setBlock b B) := by
  intro c
  by_cases hc : c = b
  · exact hc ▸ hb
  · exact (h c).congr (by rw [World.blocks_setBlock, update_of_ne hc]) le_rfl (fun _ _ ↦ ⟨rfl, rfl⟩)
      rfl id id fun _ _ ↦ rfl

end LibTorrent
