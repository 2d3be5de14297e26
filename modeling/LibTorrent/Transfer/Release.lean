import LibTorrent.Transfer.Step

namespace LibTorrent

open BlockTransfer Function Lib.Outcome Lib.Store World

/-- Every transfer that was ever allocated is still allocated or was released once, and the
counters of the peers, which started at `c`, tell how many transfers have them as their peer. -/
structure Ledger (c : ℕ → ℕ) (w : World) : Prop where
  next : ∀ t, w.heap t ≠ none → t < w.next
  released : ∀ t, t ∈ w.released ↔ t < w.next ∧ w.heap t = none
  nodup : w.released.Nodup
  counter : ∀ p, (w.peers p).transferCounter = c p + tally w.heap w.next fun x ↦ x.peerInfo = some p

variable {c : ℕ → ℕ} {w w' : World} {t p b : ℕ} {x : BlockTransfer}

theorem yields_get : Yields (w.get t) fun x ↦ w.heap t = some x := by
  rw [World.get]
  split
  · assumption
  · exact id

theorem Ledger.of_same (h : Ledger c w) (hheap : ∀ t, (w'.heap t).map peerInfo =
      (w.heap t).map peerInfo) (hnext : w'.next = w.next) (hreleased : w'.released = w.released)
    (hcount : ∀ p, (w'.peers p).transferCounter = (w.peers p).transferCounter) : Ledger c w' := by
  have hnone : ∀ t, w'.heap t = none ↔ w.heap t = none := fun t ↦ by
    rw [← Option.map_eq_none_iff, hheap, Option.map_eq_none_iff]
  refine ⟨fun t ht ↦ ?_, fun t ↦ ?_, hreleased ▸ h.nodup, fun p ↦ ?_⟩
  · rw [hnext]
    exact h.next t fun hn ↦ ht ((hnone t).mpr hn)
  · rw [hreleased, hnext, hnone]
    exact h.released t
  rw [hcount, h.counter, hnext]
  congr 1
  refine tally_congr fun t _ ↦ ?_
  have := hheap t
  cases hx : w.heap t <;> cases hy : w'.heap t <;> simp_all

theorem Ledger.put {y : BlockTransfer} (h : Ledger c w) (hx : w.heap t = some x) (hy : y.peerInfo = x.peerInfo) :
    Ledger c (w.put t y) := by
  refine h.of_same (fun s ↦ ?_) rfl rfl fun _ ↦ rfl
  by_cases hst : s = t
  · subst hst
    simp [hx, hy]
  · simp [update_of_ne hst]

theorem Ledger.setBlock {B : Block} (h : Ledger c w) : Ledger c (w.setBlock b B) :=
  h.of_same (fun _ ↦ rfl) rfl rfl fun _ ↦ rfl

theorem Ledger.setPeer {P : Peer} (h : Ledger c w) (hP : P.transferCounter = (w.peers p).transferCounter) :
    Ledger c (w.setPeer p P) := by
  refine h.of_same (fun _ ↦ rfl) rfl rfl fun q ↦ ?_
  by_cases hq : q = p
  · subst hq
    simp [hP]
  · simp [update_of_ne hq]

theorem Ledger.setRequests {r : RequestList} (h : Ledger c w) : Ledger c (w.setRequests p r) := h.setPeer rfl

def share (o : Option ℕ) (p : ℕ) : ℕ := if o = some p then 1 else 0

variable {o : Option ℕ}

theorem yields_decCount : Yields (countPeer decTransferCounter o w) fun w' ↦
    w'.heap = w.heap ∧ w'.next = w.next ∧ w'.released = w.released ∧
      ∀ p, (w'.peers p).transferCounter + share o p = (w.peers p).transferCounter := by
  unfold countPeer
  cases o with
  | none => exact ⟨rfl, rfl, rfl, fun p ↦ by simp [share]⟩
  | some q =>
    simp only [decTransferCounter]
    split_ifs with h0
    · exact id
    refine ⟨rfl, rfl, rfl, fun p ↦ ?_⟩
    by_cases hp : p = q
    · subst hp
      simp only [peers_setPeer, update_self, share, if_true]
      omega
    · simp [share, update_of_ne hp, Ne.symm hp]

theorem yields_incCount : Yields (countPeer incTransferCounter o w) fun w' ↦
    w'.heap = w.heap ∧ w'.next = w.next ∧ w'.released = w.released ∧
      ∀ p, (w'.peers p).transferCounter = (w.peers p).transferCounter + share o p := by
  unfold countPeer
  cases o with
  | none => exact ⟨rfl, rfl, rfl, fun p ↦ by simp [share]⟩
  | some q =>
    simp only [incTransferCounter]
    split_ifs with h0
    · exact id
    refine ⟨rfl, rfl, rfl, fun p ↦ ?_⟩
    by_cases hp : p = q
    · subst hp
      simp [share]
    · simp [share, update_of_ne hp, Ne.symm hp]

theorem weight_peer (p : ℕ) (x : BlockTransfer) :
    weight (fun x : BlockTransfer ↦ decide (x.peerInfo = some p)) (some x) = share x.peerInfo p := by
  simp [weight, share]

theorem yields_setPeerInfo (h : Ledger c w) : Yields (setPeerInfo t o w) fun w' ↦
    Ledger c w' ∧ ∃ x, w.heap t = some x ∧ w'.heap = update w.heap t (some { x with peerInfo := o }) := by
  refine yields_get.bind fun x hx ↦ yields_decCount.bind fun w₁ ⟨h₁, h₂, h₃, h₄⟩ ↦ yields_incCount.mono ?_
  intro w₂ ⟨h₅, h₆, h₇, h₈⟩
  have hlt := h.next t (by simp [hx])
  have hheap : w₂.heap = update w.heap t (some { x with peerInfo := o }) := by rw [h₅, heap_put, h₁]
  have hnext : w₂.next = w.next := by rw [h₆, next_put, h₂]
  have hnone : ∀ s, w₂.heap s = none ↔ w.heap s = none := by
    intro s
    rw [hheap]
    by_cases hst : s = t
    · simp [hst, hx]
    · rw [update_of_ne hst]
  refine ⟨⟨fun s hs ↦ ?_, fun s ↦ ?_, ?_, fun p ↦ ?_⟩, x, hx, hheap⟩
  · rw [hnext]
    exact h.next s fun hn ↦ hs ((hnone s).mpr hn)
  · rw [h₇, hnext, hnone]
    exact (by rw [← h.released s]; exact h₃ ▸ .rfl)
  · rw [h₇]
    exact h₃ ▸ h.nodup
  have htally := tally_update w.heap (fun x ↦ decide (x.peerInfo = some p)) hlt (some { x with peerInfo := o })
  rw [hx, weight_peer, weight_peer] at htally
  have hc := h.counter p
  have hd := h₄ p
  rw [h₈, peers_put, hheap, hnext]
  dsimp only at htally
  omega

theorem yields_newTransfer (h : Ledger c w) : Yields (newTransfer x p w) fun r ↦ Ledger c r.2 := by
  have h₁ : Ledger c { w with
      heap := update w.heap w.next (some { x with peerInfo := none }), next := w.next + 1 } := by
    refine ⟨fun s hs ↦ ?_, fun s ↦ ?_, h.nodup, fun p ↦ ?_⟩
    · by_cases hst : s = w.next
      · exact hst ▸ Nat.lt_succ_self _
      · simp only [update_of_ne hst] at hs
        exact Nat.lt_succ_of_lt (h.next s hs)
    · rw [h.released]
      by_cases hst : s = w.next
      · simp [hst]
      simp only [update_of_ne hst]
      refine and_congr_left fun _ ↦ ⟨Nat.lt_succ_of_lt, fun hs ↦ ?_⟩
      exact Nat.lt_of_le_of_ne (Nat.le_of_lt_succ hs) hst
    have hsame : tally (update w.heap w.next (some { x with peerInfo := none })) w.next
        (fun x ↦ decide (x.peerInfo = some p)) = tally w.heap w.next fun x ↦ decide (x.peerInfo = some p) := by
      apply tally_congr
      intro s hs
      rw [update_of_ne hs.ne]
    rw [h.counter, tally_succ, hsame]
    simp [weight_peer, share]
  exact (yields_setPeerInfo h₁).bind fun w₁ h₂ ↦ h₂.1

theorem yields_deleteTransfer (h : Ledger c w) : Yields (deleteTransfer t w) (Ledger c) := by
  refine yields_get.bind fun x hx ↦ ?_
  split_ifs with hb hp
  · exact id
  · exact id
  have hlt := h.next t (by simp [hx])
  have hnot : t ∉ w.released := fun hc ↦ by simp [((h.released t).mp hc).2] at hx
  refine ⟨fun s hs ↦ ?_, fun s ↦ ?_, List.nodup_cons.mpr ⟨hnot, h.nodup⟩, fun p ↦ ?_⟩
  · by_cases hst : s = t
    · simp [hst] at hs
    · simp only [update_of_ne hst] at hs
      exact h.next s hs
  · rw [List.mem_cons, h.released]
    by_cases hst : s = t
    · simp [hst, hlt]
    · simp [hst]
  have htally := tally_update w.heap (fun x ↦ decide (x.peerInfo = some p)) hlt none
  have hnone : x.peerInfo = none := not_not.mp hp
  have h0 : weight (fun x : BlockTransfer ↦ decide (x.peerInfo = some p)) none = 0 := rfl
  rw [hx, weight_peer, h0, hnone] at htally
  rw [h.counter]
  simp only [share, reduceCtorEq, if_false] at htally
  dsimp only
  omega

theorem yields_cancelTransfer (h : Ledger c w) : Yields (cancelTransfer p t w) (Ledger c) := by
  refine yields_get.bind fun x hx ↦ ?_
  split_ifs
  · exact id
  · exact h
  · exact h.setPeer rfl

namespace Block

variable (h : Ledger c w)
include h

theorem yields_insert : Yields (insert b p w) fun r ↦ Ledger c r.2 := by
  refine (yields_true _).bind fun q _ ↦ ?_
  split_ifs
  · exact h
  refine (yields_true _).bind fun q _ ↦ ?_
  split_ifs
  · exact h
  · exact (yields_newTransfer h.setBlock).bind fun r hr ↦ hr.setBlock

theorem yields_takeNotStalled {m : String} :
    Yields (takeNotStalled m b x w) fun w' ↦ Ledger c w' ∧ w'.heap = w.heap := by
  rw [takeNotStalled]
  split_ifs
  · exact id
  · exact ⟨h.setBlock, rfl⟩
  · exact ⟨h, rfl⟩

theorem yields_dropTransfer : Yields (dropTransfer t x w) (Ledger c) := by
  unfold dropTransfer
  split
  · exact yields_deleteTransfer h
  split_ifs
  · exact yields_cancelTransfer h
  · exact h

theorem yields_invalidateTransfer : Yields (invalidateTransfer b t w) (Ledger c) := by
  rw [invalidateTransfer]
  split_ifs
  · exact id
  refine yields_get.bind fun x hx ↦ ?_
  have hput : Ledger c (w.put t { x with block := none }) := h.put hx rfl
  exact (yields_takeNotStalled hput).bind fun w₁ h₁ ↦ yields_dropTransfer h₁.1

theorem yields_removeTransfers {keep : ℕ → Bool} : Yields (removeTransfers b keep w) (Ledger c) := by
  rw [removeTransfers, followAll]
  split_ifs
  · exact (ensures_forEach_inv (fun t w ↦ yields_invalidateTransfer) _ h.setBlock).bind fun w₁ h₁ ↦ h₁.setBlock
  · exact id

theorem yields_setState {s : TransferState} : Yields (setState t s w) (Ledger c) := by
  exact yields_get.bind fun x hx ↦ h.put hx rfl

theorem yields_promote : Yields (promote b w) (Ledger c) := by
  rw [promote, followAll]
  split_ifs
  · rw [ok_bind]
    cases maxPosition w (candidates w (w.blocks b).transfers) with
    | some n => exact yields_setState h.setBlock
    | none => exact yields_removeTransfers h.setBlock
  · exact id

theorem yields_eraseFromLists : Yields (eraseFromLists b t x w) (Ledger c) := by
  rw [eraseFromLists]
  split_ifs
  · exact h.setBlock
  · exact id
  · exact id
  · exact id
  · exact yields_promote h.setBlock
  · exact h.setBlock
  · exact id

theorem yields_erase : Yields (erase b t w) (Ledger c) := by
  refine yields_get.bind fun x hx ↦ ?_
  split_ifs
  · exact id
  · exact id
  · refine (yields_eraseFromLists h.setBlock).bind fun w₁ h₁ ↦ yields_get.bind fun y hy ↦ ?_
    exact yields_deleteTransfer (h₁.put hy rfl)

theorem yields_transfering : Yields (transfering b t w) fun r ↦ Ledger c r.2 := by
  refine yields_get.bind fun x hx ↦ ?_
  split_ifs
  · exact id
  · dsimp only
    split_ifs
    · exact Ledger.put h.setBlock hx rfl
    · exact Ledger.put (Ledger.setBlock h.setBlock) hx rfl
  · exact id

theorem yields_completed : Yields (completed b t w) fun r ↦ Ledger c r.2 := by
  have hcount : Ledger c { w with finished := w.finished + 1 } := h.of_same (fun _ ↦ rfl) rfl rfl fun _ ↦ rfl
  refine yields_get.bind fun x hx ↦ .either id (.either id ?_)
  refine (yields_true _).bind fun f _ ↦ .either id (.either id ?_)
  refine (yields_true _).bind fun n _ ↦ .either id ?_
  have hput : Ledger c ((World.setBlock { w with finished := w.finished + 1 } b
      { w.blocks b with notStalled := (w.blocks b).notStalled - stallUnit x }).put t
        { x with block := none, stall := 0xFFFFFFFF }) := Ledger.put hcount.setBlock hx rfl
  refine (ensures_forEach_inv (fun t w ↦ yields_invalidateTransfer) _ hput).bind fun w₁ h₁ ↦ ?_
  refine (yields_removeTransfers h₁.setBlock).bind fun w₂ h₂ ↦ ?_
  exact .either id h₂.setBlock

theorem yields_transferDissimilar : Yields (transferDissimilar b t w) (Ledger c) := by
  refine yields_get.bind fun x hx ↦ ?_
  split_ifs
  · exact id
  · exact Ledger.put h.setBlock hx rfl

theorem yields_stalled : Yields (stalled t w) (Ledger c) := by
  refine yields_get.bind fun x hx ↦ ?_
  cases x.block with
  | none => exact h
  | some b =>
    refine yields_get.bind fun y hy ↦ (yields_takeNotStalled h).bind fun w₁ h₁ ↦ ?_
    exact h₁.1.put (x := y) (by rw [h₁.2, hy]) rfl

theorem yields_changeLeader : Yields (changeLeader b t w) (Ledger c) := by
  rw [changeLeader]
  split_ifs
  · exact id
  refine (yields_true _).bind fun f _ ↦ ?_
  split_ifs
  · exact id
  cases (w.blocks b).leader with
  | none => exact yields_setState h.setBlock
  | some l => exact (yields_setState h).bind fun w₁ h₁ ↦ yields_setState h₁.setBlock

theorem yields_failedLeader : Yields (failedLeader b w) (Ledger c) := by
  refine (yields_true _).bind fun f _ ↦ ?_
  split_ifs
  · exact id
  · exact h.setBlock

theorem yields_release : Yields (release t w) (Ledger c) := by
  refine (yields_setPeerInfo h).bind fun w₁ h₁ ↦ (yields_true _).bind fun x _ ↦ ?_
  cases x.block with
  | none => exact yields_deleteTransfer h₁.1
  | some b => exact yields_erase h₁.1

theorem yields_destroy : Yields (destroy b w) (Ledger c) := by
  have hdrop : Yields (dropLeaderPeer b w) (Ledger c) := by
    unfold dropLeaderPeer
    split
    · exact id
    · exact h
    · exact id
    · exact (yields_setPeerInfo h).mono fun w₁ h₁ ↦ h₁.1
  refine hdrop.bind fun w₁ h₁ ↦ ?_
  refine (ensures_forEach_inv (fun t w ↦ yields_invalidateTransfer) _ h₁.setBlock).bind fun w₂ h₂ ↦ ?_
  refine (ensures_forEach_inv (fun t w ↦ yields_invalidateTransfer) _ h₂.setBlock).bind fun w₃ h₃ ↦ ?_
  dsimp only
  split_ifs
  · exact id
  · exact h₃.setBlock

end Block

open RequestList

variable {w : World} {p t : ℕ} {piece : Piece} {length : UInt32}

namespace BlockList

theorem yields_doAllFailed (h : Ledger c w) : Yields (doAllFailed w) (Ledger c) := by
  have h₀ : Ledger c { w with finished := 0 } := h.of_same (fun _ ↦ rfl) rfl rfl fun _ ↦ rfl
  refine .either id ?_
  refine (ensures_forEach_inv (fun b w ↦ Block.yields_failedLeader) _ h₀).bind fun w₁ h₁ ↦ ?_
  exact ensures_forEach_inv (fun b w h ↦ h.setBlock) _ h₁

theorem yields_destroy (h : Ledger c w) : Yields (destroy w) (Ledger c) := by
  refine .either id ?_
  refine (ensures_forEach_inv (fun b w ↦ Block.yields_destroy) _ h).bind fun w₁ h₁ ↦ ?_
  exact h₁.of_same (fun _ ↦ rfl) rfl rfl fun _ ↦ rfl

end BlockList

namespace RequestList

variable (h : Ledger c w)
include h

theorem yields_destroy {i : Bucket} {n : ℕ} : Yields (destroy p i n w) (Ledger c) := by
  exact (ensures_forEach_inv (fun t w ↦ Block.yields_release) _ h).bind fun w₁ h₁ ↦ h₁.setRequests

theorem yields_delegate {bs : List ℕ} : Yields (delegate p bs w) (Ledger c) := by
  induction bs generalizing w with
  | nil => exact h
  | cons b bs ih =>
    refine (yields_true _).bind fun f _ ↦ .either (ih h) ?_
    refine (Block.yields_insert h).bind fun ⟨o, w₁⟩ h₁ ↦ ?_
    cases o with
    | none => exact ih h₁
    | some t => exact ih (Ledger.setRequests h₁)

theorem yields_stallQueues : Yields (stallQueues p w) (Ledger c) := by
  refine (ensures_forEach_inv (fun t w ↦ Block.yields_stalled) _ h).bind fun w₁ h₁ ↦ ?_
  exact (ensures_forEach_inv (fun t w ↦ Block.yields_stalled) _ h₁.setRequests).bind fun w₂ h₂ ↦ h₂.setRequests

theorem yields_stallProlonged : Yields (stallProlonged p w) (Ledger c) := by
  rw [stallProlonged]
  cases (w.requests p).transfer with
  | none => exact yields_stallQueues h
  | some t => exact (Block.yields_stalled h).bind fun w₁ ↦ yields_stallQueues

theorem yields_delayProcessUnordered : Yields (delayProcessUnordered p w) (Ledger c) := by
  exact (yields_destroy h).bind fun w₁ h₁ ↦ h₁.setRequests

theorem yields_downloadingError : Yields (downloadingError p piece w) fun r ↦ Ledger c r.2 := by
  exact (yields_newTransfer h).bind fun r hr ↦ hr.setRequests

theorem yields_downloading : Yields (downloading p piece w) fun r ↦ Ledger c r.2 := by
  refine .either id ((yields_true _).bind fun o _ ↦ ?_)
  cases o with
  | none => exact yields_downloadingError h
  | some it =>
    refine (yields_true _).bind fun x _ ↦ .either (.either h.setRequests ?_) ?_
    · exact (Block.yields_release h.setRequests).bind fun w₁ ↦ yields_downloadingError
    cases x.block with
    | none => exact h.setRequests
    | some b => exact (Block.yields_transfering h.setRequests).bind fun r hr ↦ hr

theorem yields_finished : Yields (finished p w) (Ledger c) := by
  unfold finished
  cases (w.requests p).transfer with
  | none => exact id
  | some t =>
    refine (yields_true _).bind fun x _ ↦ ?_
    cases x.block with
    | none => exact id
    | some b => exact (Block.yields_completed h.setRequests).bind fun r hr ↦ hr

theorem yields_skipped : Yields (skipped p w) (Ledger c) := by
  unfold skipped
  cases (w.requests p).transfer with
  | none => exact id
  | some t => exact (Block.yields_release h).bind fun w₁ h₁ ↦ h₁.setRequests

theorem yields_clear : Yields (clear p w) (Ledger c) := by
  have hqueues : ∀ v, Ledger c v → Yields (do
      let w ← clearQueue p .queued v
      let w ← clearQueue p .unordered w
      let w ← clearQueue p .stalled w
      clearQueue p .choked w) (Ledger c) := by
    intro v hv
    refine (yields_destroy hv).bind fun w₁ h₁ ↦ (yields_destroy h₁).bind fun w₂ h₂ ↦ ?_
    exact (yields_destroy h₂).bind fun w₃ h₃ ↦ yields_destroy h₃
  exact .either (hqueues w h) ((yields_skipped h).bind hqueues)

theorem yields_transferDissimilar : Yields (transferDissimilar p w) (Ledger c) := by
  unfold transferDissimilar
  cases (w.requests p).transfer with
  | none => exact id
  | some t =>
    refine (yields_true _).bind fun x _ ↦ (yields_newTransfer h).bind fun r hr ↦ ?_
    cases x.block with
    | none => exact id
    | some b => exact (Block.yields_transferDissimilar hr).bind fun w₁ h₁ ↦ h₁.setRequests

end RequestList

theorem yields_adjustPosition (h : Ledger c w) : Yields (adjustPosition t length w) (Ledger c) := by
  exact yields_get.bind fun x hx ↦ h.put hx rfl

theorem yields_downChunkProcess (h : Ledger c w) : Yields (downChunkProcess p length w) (Ledger c) := by
  unfold downChunkProcess
  cases (w.requests p).transfer with
  | none => exact id
  | some t => exact (yields_true _).bind fun x _ ↦ yields_adjustPosition h

theorem yields_downChunkSkipProcess {same : Bool} (h : Ledger c w) :
    Yields (downChunkSkipProcess p length same w) (Ledger c) := by
  unfold downChunkSkipProcess
  cases (w.requests p).transfer with
  | none => exact id
  | some t =>
    refine (yields_true _).bind fun x _ ↦ ?_
    cases x.block with
    | none => exact yields_adjustPosition h
    | some b =>
      refine (yields_true _).bind fun active _ ↦ .either id (.either id ?_)
      refine .either ?_ ?_
      · refine (yields_transferDissimilar h).bind fun w₁ h₁ ↦ ?_
        cases (w₁.requests p).transfer with
        | none => exact id
        | some dummy => exact yields_adjustPosition h₁
      · refine (yields_adjustPosition h).bind fun w₁ h₁ ↦ .either h₁ ?_
        exact (Block.yields_changeLeader h₁).bind fun w₂ ↦ yields_downChunkProcess

theorem yields_step (a : Action) (h : Ledger c w) : Yields (step a w) (Ledger c) := by
  cases a with
  | delegate p bs => exact .either (yields_delegate h) h
  | stallInitial p => exact yields_stallQueues h
  | stallProlonged p => exact yields_stallProlonged h
  | choked p => exact .either h h.setRequests
  | delayRemoveChoked p => exact yields_destroy h
  | delayProcessUnordered p => exact yields_delayProcessUnordered h
  | downloading p piece =>
    refine (yields_downloading h).bind fun ⟨started, w₁⟩ h₁ ↦ ?_
    cases started with
    | wanted | unwanted => exact h₁
    | wrongLength => exact yields_clear h₁
  | process p length =>
    rw [step]
    cases (w.requests p).transfer with
    | none => exact h
    | some t => exact (yields_true _).bind fun x _ ↦ .either (yields_downChunkProcess h) h
  | skipProcess p length same =>
    rw [step]
    cases (w.requests p).transfer with
    | none => exact h
    | some t => exact (yields_true _).bind fun x _ ↦ .either h (yields_downChunkSkipProcess h)
  | finished p => exact yields_finished h
  | skipped p => exact yields_skipped h
  | clear p => exact yields_clear h
  | connection p connected => exact h.setPeer rfl
  | doAllFailed => exact .either (BlockList.yields_doAllFailed h) h
  | destroy => exact BlockList.yields_destroy h

theorem Ledger.all_released (hl : Ledger c w) (h : Consistent False True w) (hslots : ∀ p, w.slots p = [])
    (hpresent : w.present = false) :
    (∀ t < w.next, w.released.count t = 1) ∧ ∀ p, (w.peers p).transferCounter = c p := by
  obtain ⟨φ, hφ⟩ := h
  have hnone : ∀ t, w.heap t = none := by
    intro t
    by_contra hne
    obtain ⟨x, hx⟩ := Option.ne_none_iff_exists'.mp hne
    have hheld : ¬ (φ t).Held := fun hc ↦ by
      obtain ⟨p, hp⟩ := hφ.owned t hc
      rw [hslots p] at hp
      exact absurd hp List.not_mem_nil
    have hhome : ∀ b, (φ t).home ≠ some b := fun b hc ↦ by
      have := (hφ.small t b hc).2
      rw [hpresent] at this
      exact absurd this (by simp)
    have hleft := hφ.clean trivial t
    have hshows := (hφ.tracks.placed t).shows
    rw [hx] at hshows
    cases hf : φ t with
    | free => rw [hf] at hshows; exact hshows.2.2
    | detached => rw [hf] at hheld; exact hheld trivial
    | lost => rw [hf] at hleft; exact hleft trivial
    | queued b | waiting b | leading b | dissimilar b | completed b | stale b =>
      exact hhome b (by rw [hf]; rfl)
  refine ⟨fun t ht ↦ List.count_eq_one_of_mem hl.nodup ((hl.released t).mpr ⟨ht, hnone t⟩), fun p ↦ ?_⟩
  have hzero : tally w.heap w.next (fun x ↦ decide (x.peerInfo = some p)) = 0 := by
    rw [tally, List.countP_eq_zero]
    exact fun t _ ↦ by simp [hnone t]
  rw [hl.counter, hzero, Nat.add_zero]

/-- In a run in which no data is dissimilar and no hash is wrong, no released transfer is used,
and once all request lists and blocks are gone every transfer was released exactly once and
the counters of the peers are what they were. -/
theorem run_released (pieces : List Piece) (counters : ℕ → ℕ) (connected : ℕ → Bool) (as : List Action)
    (h : Along step Tidy as (start pieces counters connected)) :
    Ensures (· = .dangling) (run as (start pieces counters connected)) fun w ↦
      (∀ p, w.slots p = []) → w.present = false →
        (∀ t < w.next, w.released.count t = 1) ∧ ∀ p, (w.peers p).transferCounter = counters p := by
  have hrun : Ensures (Bad False) (forEach step as (start pieces counters connected)) (Consistent False True) :=
    ensures_forEach_along (fun a w hw ha ↦ ensures_step a hw (fun hf ↦ hf.elim) fun _ ↦ ha) as
      (consistent_start pieces counters connected) h
  have hledger : Yields (forEach step as (start pieces counters connected)) (Ledger counters) :=
    ensures_forEach_inv (fun a w ↦ yields_step a) as (by refine ⟨?_, ?_, ?_, ?_⟩ <;> simp [start, tally])
  rw [run]
  cases hr : forEach step as (start pieces counters connected) with
  | ok w =>
    rw [hr] at hrun hledger
    exact Ledger.all_released hledger hrun
  | error e =>
    rw [hr] at hrun
    exact fun he ↦ hrun (.inl he)

theorem run_released_complete : Ensures (· = .dangling)
      (run [.delegate 0 [0], .downloading 0 ⟨0, 0, 4⟩, .process 0 4, .finished 0, .clear 0, .destroy]
        (start [⟨0, 0, 4⟩] (fun _ ↦ 0) fun _ ↦ true)) fun w ↦
      (∀ p, w.slots p = []) → w.present = false →
        (∀ t < w.next, w.released.count t = 1) ∧ ∀ p, (w.peers p).transferCounter = 0 := by
  apply run_released
  simp [Along, Tidy]

/-- The hash is wrong once. The transfer of the first peer is never released, and its counter
stays up. -/
theorem run_released_failed :
    ∃ w, run [.delegate 0 [0], .downloading 0 ⟨0, 0, 4⟩, .process 0 4, .finished 0, .doAllFailed, .delegate 1 [0],
        .downloading 1 ⟨0, 0, 4⟩, .process 1 4, .finished 1, .clear 0, .clear 1, .destroy]
        (start [⟨0, 0, 4⟩] (fun _ ↦ 0) fun _ ↦ true) = .ok w ∧
      (∀ p, w.slots p = []) ∧ w.present = false ∧ 0 < w.next ∧ w.released.count 0 = 0 ∧
        (w.peers 0).transferCounter = 1 := by
  refine ⟨_, rfl, fun p ↦ ?_, rfl, ?_, ?_, rfl⟩
  · match p with
    | 0 => rfl
    | 1 => rfl
    | n + 2 => rfl
  · decide
  · rfl

/-- Also with dissimilar data and wrong hashes, no released transfer is used, released again or left in a list. -/
theorem run_safe (pieces : List Piece) (counters : ℕ → ℕ) (connected : ℕ → Bool) (as : List Action) :
    Ensures (· = .dangling) (run as (start pieces counters connected)) fun w ↦ w.released.Nodup ∧
      (∀ t ∈ w.released, (∀ p, t ∉ w.slots p) ∧ ∀ b,
        t ∉ (w.blocks b).queued ∧ t ∉ (w.blocks b).transfers ∧ (w.blocks b).leader ≠ some t) ∧
      ∀ p, (w.slots p).Nodup ∧ ∀ q t, t ∈ w.slots p → t ∈ w.slots q → p = q := by
  have hledger : Yields (run as (start pieces counters connected)) (Ledger counters) :=
    ensures_forEach_inv (fun a w ↦ yields_step a) as (by refine ⟨?_, ?_, ?_, ?_⟩ <;> simp [start, tally])
  have hrun : Ensures (Bad False) (run as (start pieces counters connected)) (Consistent False False) :=
    ensures_forEach_inv (fun a w hw ↦ ensures_step a hw False.elim False.elim) as
      (consistent_start pieces counters connected)
  have hbad : Bad False = (· = .dangling) := by simp [funext_iff, Bad]
  refine (hledger.both (hbad ▸ hrun)).mono fun w hw ↦ ?_
  obtain ⟨hl, φ, hφ⟩ := hw
  refine ⟨hl.nodup, fun t ht ↦ ?_, fun p ↦ ⟨hφ.nodup p, fun q t hp hq ↦ ?_⟩⟩
  · have hplaced := hφ.tracks.placed t
    have hfree : φ t = .free := by simpa [((hl.released t).mp ht).2, Phase.Shows] using hplaced.shows
    have hheld : ∀ p, t ∉ w.slots p := fun p hp ↦ by simpa [hfree, Phase.Held] using hφ.held p t hp
    exact ⟨hheld, fun b ↦ by simp [hplaced.queued, hplaced.transfers, hplaced.leader, hfree, Phase.active]⟩
  · simpa [hφ.peer p t hp] using hφ.peer q t hq

end LibTorrent
