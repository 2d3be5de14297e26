import LibTorrent.Transfer.Account

namespace LibTorrent

open Lib.Outcome List RequestList World

variable {H C : Prop} {w w' : World} {φ : ℕ → Phase} {b p t : ℕ} {x : BlockTransfer}

theorem ensures_forEach_release (h : Tracks w φ) (hbal : H → Level w) {l : List ℕ} (hl : l.Nodup)
    (hrest : ∀ t ∈ l, (φ t).Resting) :
    Safely H (forEach Block.release l w) fun w' ↦
      ∃ φ', Advance H C (· ∈ l) (fun _ ↦ False) w φ w' φ' := by
  induction l generalizing w φ with
  | nil => exact ⟨φ, (Advance.refl h hbal).congr (by simp) (by simp)⟩
  | cons t l ih =>
    rw [nodup_cons] at hl
    have ht := hrest t mem_cons_self
    refine (ensures_release (C := C) h hbal ht.held fun _ b hb ↦ ?_).bind fun w₁ ⟨φ₁, h₁⟩ ↦ ?_
    · rw [hb] at ht
      exact ht.elim
    refine (ih h₁.tracks h₁.balanced hl.2 fun s hs ↦ ?_).mono fun w₂ ⟨φ₂, h₂⟩ ↦
      ⟨φ₂, (h₁.trans h₂).congr (fun s ↦ mem_cons.symm) (by simp)⟩
    exact h₁.rest s id (fun hst ↦ hl.1 (hst ▸ hs)) (hrest s (mem_cons_of_mem t hs))

theorem ensures_destroy (h : Consistent H C w) (i : Bucket) (n : ℕ) :
    Safely H (destroy p i n w) fun w' ↦ Consistent H C w' ∧
      ((w'.requests p).transfer = (w.requests p).transfer) := by
  obtain ⟨φ, hφ⟩ := h
  have hq : ((w.requests p).queues i).Perm
      (((w.requests p).queues i).take n ++ ((w.requests p).queues i).drop n) := by rw [take_append_drop]
  have hperm := slots_setQueue hq
  have hsub : ∀ t ∈ ((w.requests p).queues i).take n, t ∈ w.buckets p := fun t ht ↦
    mem_buckets.mpr ⟨i, mem_of_mem_take ht⟩
  have hnodup : (((w.requests p).queues i).take n).Nodup :=
    (nodup_append.mp (hperm.nodup_iff.mp (hφ.nodup p))).1
  refine (ensures_forEach_release (C := C) hφ.tracks hφ.balanced hnodup fun t ht ↦ (hφ.bucket p t (hsub t ht)).2).bind ?_
  intro w₁ ⟨φ₁, h₁⟩
  rw [h₁.kept.requests_eq]
  refine ⟨⟨φ₁, ?_⟩, by simp [requests, setRequests, setQueue]⟩
  rw [slots_setRequests, buckets_setRequests, h₁.kept.slots, h₁.kept.buckets]
  have hmem : ∀ t, t ∈ w.buckets p ↔ _ := fun t ↦ (buckets_setQueue hq).mem_iff
  refine (hφ.shrink h₁ hperm (fun _ hf ↦ hf.elim) (fun t ht ↦ ⟨?_, ?_, id⟩) fun t ht ↦ ?_).of_requests _
  · exact (hmem t).mpr (mem_append_right _ ht)
  · exact mem_append_right _ ht
  · exact (mem_append.mp ((hmem t).mp ht)).imp_right .inl

theorem ensures_forEach_stalled (h : Tracks w φ) (hbal : H → Level w) {l : List ℕ} (hl : l.Nodup)
    (hheld : ∀ t ∈ l, (φ t).Held) (hstall : H → ∀ t ∈ l, ∀ x, w.heap t = some x → x.stall ≠ 0xFFFFFFFF) :
    Safely H (forEach Block.stalled l w) fun w' ↦
      Calm H C w φ w' φ ∧ ∀ s ∉ l, w'.heap s = w.heap s := by
  induction l generalizing w with
  | nil => exact ⟨Advance.refl h hbal, fun _ _ ↦ rfl⟩
  | cons t l ih =>
    rw [nodup_cons] at hl
    refine (ensures_stalled (C := C) h hbal (hheld t mem_cons_self) fun hH ↦ hstall hH t mem_cons_self).bind ?_
    intro w₁ ⟨h₁, hsame₁⟩
    refine (ih h₁.tracks h₁.balanced hl.2 (fun s hs ↦ hheld s (mem_cons_of_mem t hs)) fun hH s hs y hy ↦ ?_).mono
      fun w₂ ⟨h₂, hsame₂⟩ ↦ ⟨(h₁.trans h₂).congr (by simp) (by simp), fun s hs ↦ ?_⟩
    · rw [hsame₁ s fun hst ↦ hl.1 (hst ▸ hs)] at hy
      exact hstall hH s (mem_cons_of_mem t hs) y hy
    · rw [mem_cons, not_or] at hs
      rw [hsame₂ s hs.2, hsame₁ s hs.1]

namespace RequestList

variable {r : RequestList} {i j : Bucket}

theorem slots_moveAllTo : (r.moveAllTo i j).slots.Perm r.slots :=
  (buckets_moveTo (append_nil _).symm).append_left _

theorem buckets_moveAllTo : (r.moveAllTo i j).buckets.Perm r.buckets := buckets_moveTo (append_nil _).symm

end RequestList

theorem Consistent.setRequests (h : Consistent H C w) (hs : r.slots.Perm (w.slots p))
    (hb : ∀ t, t ∈ r.buckets ↔ t ∈ w.buckets p) : Consistent H C (w.setRequests p r) := by
  obtain ⟨φ, hφ⟩ := h
  refine ⟨φ, ?_⟩
  rw [slots_setRequests, buckets_setRequests]
  exact (hφ.rearrange hs (fun t ht ↦ hφ.bucket p t ((hb t).mp ht)) fun t ht ↦ .inl ((hb t).mpr ht)).of_requests _

theorem Consistent.moveAllTo (h : Consistent H C w) (i j : Bucket) :
    Consistent H C (w.setRequests p ((w.requests p).moveAllTo i j)) :=
  h.setRequests slots_moveAllTo fun _ ↦ buckets_moveAllTo.mem_iff

theorem Accounts.queue {B : ℕ → List ℕ} (h : Accounts H C w.slots B w φ) (i : Bucket) :
    ((w.requests p).queues i).Nodup ∧ ∀ t ∈ (w.requests p).queues i, t ∈ w.slots p := by
  have hperm := slots_setQueue (r := w.requests p) (i := i)
    (by rw [append_nil])
  exact ⟨(nodup_append.mp (hperm.nodup_iff.mp (h.nodup p))).1,
    fun t ht ↦ hperm.mem_iff.mpr (mem_append_left _ ht)⟩

/-- No transfer of the peer has stalled as often as its counter can tell. -/
def RoomToStall (w : World) (p : ℕ) : Prop :=
  ∀ t ∈ w.slots p, ∀ x, w.heap t = some x → x.stall ≠ 0xFFFFFFFF

variable (h : Consistent H C w)
include h

theorem ensures_stallQueue (i : Bucket)
    (hstall : H → ∀ t ∈ (w.requests p).queues i, ∀ x, w.heap t = some x → x.stall ≠ 0xFFFFFFFF) :
    Safely H (forEach Block.stalled ((w.requests p).queues i) w) fun w' ↦
      Consistent H C (w'.setRequests p ((w'.requests p).moveAllTo i .stalled)) ∧ Kept w w' ∧
        ∀ s ∉ (w.requests p).queues i, w'.heap s = w.heap s := by
  obtain ⟨φ, hφ⟩ := h
  obtain ⟨hnodup, hsub⟩ := hφ.queue i
  refine (ensures_forEach_stalled (C := C) hφ.tracks hφ.balanced hnodup (fun t ht ↦ hφ.held p t (hsub t ht)) hstall).mono
    fun w' ⟨h', hsame⟩ ↦ ⟨?_, h'.kept, hsame⟩
  have hcons : Consistent H C w' := ⟨φ, by rw [h'.kept.slots, h'.kept.buckets]; exact hφ.stay h'⟩
  exact hcons.moveAllTo i .stalled

theorem ensures_stallQueues (hstall : H → ∀ t ∈ w.buckets p, ∀ x, w.heap t = some x → x.stall ≠ 0xFFFFFFFF) :
    Safely H (stallQueues p w) (Consistent H C) := by
  have hin : ∀ i, ∀ t ∈ (w.requests p).queues i, t ∈ w.buckets p := fun i t ht ↦ mem_buckets.mpr ⟨i, ht⟩
  refine (ensures_stallQueue h .queued fun hH t ht ↦ hstall hH t (hin _ t ht)).bind fun w₁ ⟨h₁, hk₁, hsame⟩ ↦ ?_
  have hq : ((w₁.setRequests p ((w₁.requests p).moveAllTo .queued .stalled)).requests p).queues .unordered =
      (w.requests p).queues .unordered := by
    rw [hk₁.requests_eq]
    simp [requests, setRequests, moveAllTo, moveTo, setQueue]
  refine (ensures_stallQueue h₁ .unordered fun hH t ht x hx ↦ ?_).bind fun w₂ h₂ ↦ h₂.1
  rw [hq] at ht
  -- the queues are apart, so that the first loop left this transfer alone
  have hnot : t ∉ (w.requests p).queues .queued := by
    obtain ⟨φ, hφ⟩ := h
    have hn := (nodup_append.mp (hφ.nodup p)).2.1
    rw [RequestList.buckets, nodup_append] at hn
    exact fun hc ↦ hn.2.2 t hc t (mem_append_left _ ht) rfl
  exact hstall hH t (hin _ t ht) x ((hsame t hnot) ▸ hx)

theorem ensures_stallProlonged (hstall : H → RoomToStall w p) :
    Safely H (RequestList.stallProlonged p w) (Consistent H C) := by
  have hin : ∀ t ∈ w.buckets p, t ∈ w.slots p := fun t ht ↦ mem_append_right _ ht
  rw [RequestList.stallProlonged]
  cases htr : (w.requests p).transfer with
  | none => exact ensures_stallQueues h fun hH t ht ↦ hstall hH t (hin t ht)
  | some t =>
    obtain ⟨φ, hφ⟩ := h
    have ht : t ∈ w.slots p := by simp [World.slots, RequestList.slots, htr]
    refine (ensures_stalled (C := C) hφ.tracks hφ.balanced (hφ.held p t ht) fun hH ↦ hstall hH t ht).bind ?_
    rintro w₁ ⟨h₁, hsame⟩
    have h₁' : Consistent H C w₁ := ⟨φ, by rw [h₁.kept.slots, h₁.kept.buckets]; exact hφ.stay h₁⟩
    refine ensures_stallQueues h₁' fun hH s hs x hx ↦ ?_
    rw [h₁.kept.buckets] at hs
    have hne : s ≠ t := by
      have hn := hφ.nodup p
      rw [World.slots, RequestList.slots, htr, Option.toList_some, nodup_append] at hn
      exact fun hst ↦ hn.2.2 t mem_cons_self s hs hst.symm
    exact hstall hH s (hin s hs) x ((hsame s hne) ▸ hx)

theorem ensures_choked : Safely H (choked p w) (Consistent H C) := by
  rw [choked]
  split_ifs
  · exact h
  refine h.setRequests ?_ fun t ↦ ?_
  · exact slots_moveAllTo.trans (slots_moveAllTo.trans slots_moveAllTo)
  · rw [buckets_moveAllTo.mem_iff, buckets_moveAllTo.mem_iff, buckets_moveAllTo.mem_iff, World.buckets]

theorem ensures_delayProcessUnordered : Safely H (delayProcessUnordered p w) (Consistent H C) := by
  exact (ensures_destroy h .unordered _).bind fun w₁ h₁ ↦ h₁.1.setRequests (.refl _) fun _ ↦ .rfl

end LibTorrent
